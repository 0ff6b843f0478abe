import LinuxDriverLab.Ramdisk.Driver

/-!
# The ramdisk is one flat byte array

Requests in flight touch disjoint sectors, so that a byte is either in the range of one WRITE in
flight, and has its byte from there once the copy has passed it, or is what the last completed WRITE
made it.
-/

namespace LinuxDriverLab.Ramdisk

/-- The sector ranges have nothing in common. -/
def Request.Apart (a b : Request) : Prop :=
  a.pos + a.nrSectors ≤ b.pos ∨ b.pos + b.nrSectors ≤ a.pos

instance (a b : Request) : Decidable (a.Apart b) := inferInstanceAs (Decidable (_ ∨ _))

/-- What the block layer promises of a request that it queues. -/
def BlockLayer (_ : List (Record State Event Shown)) (r : Record State Event Shown) : Prop :=
  ∀ tag rq, r.event = .queue tag rq → rq.pos + rq.nrSectors ≤ rbSectors ∧
    ∀ tag' x, r.pre.flight tag' = some x → rq.Apart x.rq

/-- What a WRITE puts on the disk. -/
def Request.write? (rq : Request) : Option (Patch UInt8) :=
  match rq.op with
  | .read => none
  | .write => some ⟨rq.start, payload rq.segs⟩

/-- The WRITEs queued, oldest first. -/
def queuedWrites (tr : List (Record State Event Shown)) : List (Patch UInt8) :=
  tr.filterMap fun r => match r.out with
    | .queued rq => rq.write?
    | _ => none

/-- The WRITEs completed, oldest first. -/
def completedWrites (tr : List (Record State Event Shown)) : List (Patch UInt8) :=
  tr.filterMap fun r => match r.out with
    | .completed rq _ => rq.write?
    | _ => none

@[simp] theorem queuedWrites_concat (tr : List (Record State Event Shown))
    (r : Record State Event Shown) :
    queuedWrites (tr ++ [r]) = queuedWrites tr ++
      (match r.out with | .queued rq => rq.write? | _ => none).toList := by
  simp only [queuedWrites, List.filterMap_append]
  congr 1

@[simp] theorem completedWrites_concat (tr : List (Record State Event Shown))
    (r : Record State Event Shown) :
    completedWrites (tr ++ [r]) = completedWrites tr ++
      (match r.out with | .completed rq _ => rq.write? | _ => none).toList := by
  simp only [completedWrites, List.filterMap_append]
  congr 1

theorem data_length (bv : BioVec) : bv.data.length = bv.len := by
  have := bv.inPage
  simp only [BioVec.data, slice_length]
  omega

theorem fill_data (bv : BioVec) {src : Bytes} (h : src.length = bv.len) : (bv.fill src).data = src := by
  have := bv.inPage
  have hoff : (bv.page.take bv.offset).length = bv.offset := by
    rw [List.length_take]
    omega
  simp only [BioVec.data, BioVec.fill, memcpy, slice, List.append_assoc]
  rw [List.drop_append_of_le_length (by omega), List.drop_of_length_le (by omega), List.nil_append,
    ← h, List.take_left]

@[simp] theorem fill_len (bv : BioVec) (src : Bytes) : (bv.fill src).len = bv.len := rfl

theorem payload_length (segs : List BioVec) : (payload segs).length = totalLen segs := by
  induction segs with
  | nil => rfl
  | cons bv segs ih =>
    simp only [payload, totalLen, List.flatMap_cons, List.length_append, data_length, List.map_cons,
      List.sum_cons] at ih ⊢
    rw [ih]

theorem payload_concat (segs : List BioVec) (bv : BioVec) :
    payload (segs ++ [bv]) = payload segs ++ bv.data := by
  simp [payload]

theorem totalLen_concat (segs : List BioVec) (bv : BioVec) :
    totalLen (segs ++ [bv]) = totalLen segs + bv.len := by
  simp [totalLen]

theorem totalLen_cons (bv : BioVec) (segs : List BioVec) :
    totalLen (bv :: segs) = bv.len + totalLen segs := rfl

theorem payload_cons (bv : BioVec) (segs : List BioVec) :
    payload (bv :: segs) = bv.data ++ payload segs := rfl

/-- Without other requests, a WRITE puts its bytes on the disk as one patch, however it is divided. -/
theorem rbTransfer_write (disk : Image) {rq : Request} (hop : rq.op = .write) :
    (rbTransfer disk rq).1 = Patch.apply disk ⟨rq.start, payload rq.segs⟩ := by
  have key : ∀ (segs : List BioVec) (disk : Image) (x : Transfer), x.rq.op = .write →
      (rbTransferLoop disk x segs).1 = Patch.apply disk ⟨x.pos, payload segs⟩ := by
    intro segs
    induction segs with
    | nil => intro disk x _; simp [rbTransferLoop, payload]
    | cons bv segs ih =>
      intro disk x hx
      simp only [rbTransferLoop, hx, rbSegment]
      rw [ih _ (x.advance bv segs) hx, payload_cons, ← Patch.apply_append, data_length]
      rfl
  exact key rq.segs disk (.begin rq) hop

/-- The byte that a request writes to address `i`. -/
def Request.at? (rq : Request) (i : Nat) : Option UInt8 := rq.write?.bind (·.at? i)

theorem Request.at?_eq_some {rq : Request} {i : Nat} {b : UInt8} :
    rq.at? i = some b ↔
      rq.op = .write ∧ rq.start ≤ i ∧ (payload rq.segs)[i - rq.start]? = some b := by
  unfold Request.at? Request.write?
  cases rq.op <;> simp [Patch.at?_eq_some]

def Request.Covers (rq : Request) (i : Nat) : Prop :=
  rq.start ≤ i ∧ i < rq.start + rq.nrSectors <<< sectorShift

theorem Request.covers_of_at? {rq : Request} {i : Nat} {b : UInt8} (h : rq.at? i = some b) :
    rq.Covers i := by
  obtain ⟨-, hlo, hget⟩ := Request.at?_eq_some.mp h
  obtain ⟨hlt, -⟩ := List.getElem?_eq_some_iff.mp hget
  rw [payload_length, rq.total] at hlt
  exact ⟨hlo, by omega⟩

theorem Request.at?_of_not_covers {rq : Request} {i : Nat} (h : ¬ rq.Covers i) : rq.at? i = none := by
  cases hat : rq.at? i with
  | none => rfl
  | some b => exact absurd (Request.covers_of_at? hat) h

theorem Request.Apart.not_covers {a b : Request} {i : Nat} (h : a.Apart b) (ha : a.Covers i) :
    ¬ b.Covers i := by
  rintro ⟨hblo, hbhi⟩
  obtain ⟨halo, hahi⟩ := ha
  simp only [Request.start, sectorShift, Nat.shiftLeft_eq] at halo hahi hblo hbhi
  rcases h with h | h <;> omega

theorem Request.Apart.symm {a b : Request} (h : a.Apart b) : b.Apart a := Or.symm h

/-- What the loop of `rb_transfer` keeps of a request in flight. -/
structure Transfer.Ok (x : Transfer) : Prop where
  fits : x.rq.pos + x.rq.nrSectors ≤ rbSectors
  pos_eq : x.pos = x.rq.start + totalLen x.copied
  total : totalLen x.copied + totalLen x.rest = x.rq.nrSectors <<< sectorShift
  split : x.rq.op = .write → payload x.rq.segs = payload x.copied ++ payload x.rest

theorem transfer_begin_ok {rq : Request} (h : rq.pos + rq.nrSectors ≤ rbSectors) :
    (Transfer.begin rq).Ok where
  fits := h
  pos_eq := rfl
  total := by simpa [Transfer.begin, totalLen] using rq.total
  split := fun _ => rfl

theorem rbSegment_len (op : Op) (disk : Image) (pos : Nat) (bv : BioVec) :
    (rbSegment op disk pos bv).2.len = bv.len := by
  cases op <;> rfl

theorem Transfer.Ok.advance {x : Transfer} {bv : BioVec} {rest : List BioVec} (h : x.Ok)
    (hrest : x.rest = bv :: rest) (disk : Image) :
    (x.advance (rbSegment x.rq.op disk x.pos bv).2 rest).Ok where
  fits := h.fits
  pos_eq := by
    have := h.pos_eq
    simp only [Transfer.advance, totalLen_concat, rbSegment_len]
    omega
  total := by
    have htotal := h.total
    rw [hrest, totalLen_cons] at htotal
    simp only [Transfer.advance, totalLen_concat, rbSegment_len]
    omega
  split := by
    intro hop
    have hsplit := h.split hop
    rw [hrest] at hsplit
    have hop' : x.rq.op = .write := hop
    simp only [Transfer.advance, payload_concat, hop', rbSegment]
    rw [hsplit]
    simp [payload]

theorem Transfer.Ok.covers {x : Transfer} {bv : BioVec} {rest : List BioVec} {i : Nat} (h : x.Ok)
    (hrest : x.rest = bv :: rest) (hlo : x.pos ≤ i) (hhi : i < x.pos + bv.len) : x.rq.Covers i := by
  have hpos := h.pos_eq
  have htotal := h.total
  rw [hrest, totalLen_cons] at htotal
  exact ⟨by omega, by omega⟩

theorem Transfer.Ok.range_le {x : Transfer} {bv : BioVec} {rest : List BioVec} (h : x.Ok)
    (hrest : x.rest = bv :: rest) : x.pos + bv.len ≤ rbBytes := by
  have hpos := h.pos_eq
  have htotal := h.total
  have hfits := h.fits
  rw [hrest, totalLen_cons] at htotal
  simp only [Request.start, rbBytes, rbSectors, sectorShift, Nat.shiftLeft_eq] at hpos htotal hfits ⊢
  omega

theorem Transfer.Ok.segment_at? {x : Transfer} {bv : BioVec} {rest : List BioVec} {i : Nat}
    {b : UInt8} (h : x.Ok) (hrest : x.rest = bv :: rest) (hb : x.rq.at? i = some b) :
    (Patch.mk x.pos bv.data).at? i = if x.pos ≤ i ∧ i < x.pos + bv.len then some b else none := by
  obtain ⟨hop, hlo, hget⟩ := Request.at?_eq_some.mp hb
  split
  · next hin =>
    have hpos := h.pos_eq
    rw [h.split hop, hrest, List.getElem?_append_right (by rw [payload_length]; omega),
      payload_length] at hget
    change (bv.data ++ payload rest)[_]? = _ at hget
    rw [List.getElem?_append_left (by rw [data_length]; omega)] at hget
    rw [Patch.at?_eq_some]
    dsimp only
    rw [← hget]
    refine ⟨hin.1, ?_⟩
    congr 1
    omega
  · next hout =>
    rw [Patch.at?_eq_none]
    dsimp only
    rw [data_length]
    omega

/-- The disk and the requests in flight, against the WRITEs completed so far. -/
structure Inv (tr : List (Record State Event Shown)) (s : State) : Prop where
  ok : ∀ tag x, s.flight tag = some x → x.Ok
  apart : ∀ tag tag' x x', tag ≠ tag' → s.flight tag = some x → s.flight tag' = some x' →
    x.rq.Apart x'.rq
  busy : ∀ tag x, s.flight tag = some x → ∀ i b, x.rq.at? i = some b →
    s.disk i = (if i < x.pos then b else Patch.latest Image.zero (completedWrites tr) i) ∧
      Patch.writesAt (queuedWrites tr) i = Patch.writesAt (completedWrites tr) i ++ [b]
  idle : ∀ i, (∀ tag x, s.flight tag = some x → x.rq.at? i = none) →
    s.disk i = Patch.latest Image.zero (completedWrites tr) i ∧
      Patch.writesAt (queuedWrites tr) i = Patch.writesAt (completedWrites tr) i
  delivered : ∀ tag x, s.flight tag = some x → x.rq.op = .read →
    payload x.copied = (List.range (totalLen x.copied)).map fun k =>
      Patch.latest Image.zero (completedWrites tr) (x.rq.start + k)

theorem inv_init : Inv [] State.init where
  ok := nofun
  apart := nofun
  busy := nofun
  idle := fun _ _ => ⟨rfl, rfl⟩
  delivered := nofun

theorem setFlight_eq_some {s : State} {tag tag' : Nat} {y : Option Transfer} {x : Transfer}
    (h : (s.setFlight tag y).flight tag' = some x) :
    (tag' = tag ∧ y = some x) ∨ (tag' ≠ tag ∧ s.flight tag' = some x) := by
  by_cases heq : tag' = tag
  · subst heq
    exact .inl ⟨rfl, by simpa [State.setFlight] using h⟩
  · exact .inr ⟨heq, by simpa [State.setFlight, heq] using h⟩

theorem apart_setFlight {s : State} {tag : Nat} {y : Option Transfer}
    (h : ∀ tag tag' x x', tag ≠ tag' → s.flight tag = some x → s.flight tag' = some x' →
      x.rq.Apart x'.rq)
    (hy : ∀ x tag' x', y = some x → tag' ≠ tag → s.flight tag' = some x' → x.rq.Apart x'.rq) :
    ∀ tag₁ tag₂ x₁ x₂, tag₁ ≠ tag₂ → (s.setFlight tag y).flight tag₁ = some x₁ →
      (s.setFlight tag y).flight tag₂ = some x₂ → x₁.rq.Apart x₂.rq := by
  intro tag₁ tag₂ x₁ x₂ hne h₁ h₂
  rcases setFlight_eq_some h₁ with ⟨rfl, hx₁⟩ | ⟨hne₁, hx₁⟩
  · rcases setFlight_eq_some h₂ with ⟨rfl, -⟩ | ⟨hne₂, hx₂⟩
    · exact absurd rfl hne
    · exact hy x₁ tag₂ x₂ hx₁ hne₂ hx₂
  · rcases setFlight_eq_some h₂ with ⟨rfl, hx₂⟩ | ⟨hne₂, hx₂⟩
    · exact (hy x₂ tag₁ x₁ hx₂ hne₁ hx₁).symm
    · exact h tag₁ tag₂ x₁ x₂ hne hx₁ hx₂

theorem inv_queue {tr : List (Record State Event Shown)} {s : State} {tag : Nat} {rq : Request}
    (h : Inv tr s) (hfree : s.flight tag = none) (hfits : rq.pos + rq.nrSectors ≤ rbSectors)
    (hapart : ∀ tag' x, s.flight tag' = some x → rq.Apart x.rq) :
    Inv (tr ++ [⟨s, .queue tag rq, .queued rq⟩]) (s.setFlight tag (some (.begin rq))) where
  ok := by
    intro tag' x hx
    rcases setFlight_eq_some hx with ⟨-, hx⟩ | ⟨-, hx⟩
    · cases hx
      exact transfer_begin_ok hfits
    · exact h.ok tag' x hx
  apart := by
    apply apart_setFlight h.apart
    intro x tag' x' hx _ hx'
    cases hx
    exact hapart tag' x' hx'
  busy := by
    intro tag' x hx i b hb
    rw [completedWrites_concat, queuedWrites_concat, Patch.writesAt_concat]
    simp only [Option.toList_none, List.append_nil, setFlight_disk]
    rcases setFlight_eq_some hx with ⟨-, hx⟩ | ⟨-, hx⟩
    · cases hx
      -- no WRITE in flight covers the range of the new one
      have hcov := Request.covers_of_at? hb
      obtain ⟨hdisk, hwrites⟩ := h.idle i fun tag' x hx =>
        Request.at?_of_not_covers ((hapart tag' x hx).not_covers hcov)
      have hstart : ¬ i < (Transfer.begin rq).pos := Nat.not_lt.mpr hcov.1
      have hbind : rq.write?.bind (·.at? i) = some b := hb
      rw [if_neg hstart, hwrites, hbind]
      exact ⟨hdisk, rfl⟩
    · have hnone : rq.write?.bind (·.at? i) = none := Request.at?_of_not_covers
        ((hapart tag' x hx).symm.not_covers (Request.covers_of_at? hb))
      rw [hnone, Option.toList_none, List.append_nil]
      exact h.busy tag' x hx i b hb
  idle := by
    intro i hi
    rw [completedWrites_concat, queuedWrites_concat, Patch.writesAt_concat]
    have hnone : rq.write?.bind (·.at? i) = none := hi tag (.begin rq) (setFlight_self _ _ _)
    simp only [hnone, Option.toList_none, List.append_nil, setFlight_disk]
    apply h.idle i
    intro tag' x hx
    have hne : tag' ≠ tag := by
      intro heq
      subst heq
      simp [hfree] at hx
    exact hi tag' x (by rw [setFlight_other _ _ hne, hx])
  delivered := by
    intro tag' x hx hop
    rw [completedWrites_concat]
    simp only [Option.toList_none, List.append_nil]
    rcases setFlight_eq_some hx with ⟨-, hx⟩ | ⟨-, hx⟩
    · cases hx
      rfl
    · exact h.delivered tag' x hx hop

theorem Request.at?_of_covers {rq : Request} {i : Nat} (hop : rq.op = .write) (h : rq.Covers i) :
    ∃ b, rq.at? i = some b := by
  have hlt : i - rq.start < (payload rq.segs).length := by
    have := h.1
    have := h.2
    rw [payload_length, rq.total]
    omega
  exact ⟨_, Request.at?_eq_some.mpr ⟨hop, h.1, List.getElem?_eq_getElem hlt⟩⟩

theorem Request.at?_of_read {rq : Request} (hop : rq.op = .read) (i : Nat) : rq.at? i = none := by
  simp [Request.at?, Request.write?, hop]

theorem rbSegment_disk_outside (op : Op) (disk : Image) {pos : Nat} {bv : BioVec} {i : Nat}
    (h : ¬ (pos ≤ i ∧ i < pos + bv.len)) : (rbSegment op disk pos bv).1 i = disk i := by
  cases op with
  | read => rfl
  | write =>
    refine Patch.apply_of_none disk (Patch.at?_eq_none.mpr ?_)
    dsimp only
    rw [data_length]
    omega

theorem rbSegment_disk_idle {x : Transfer} {bv : BioVec} {rest : List BioVec} {i : Nat}
    (hok : x.Ok) (hrest : x.rest = bv :: rest) (hi : x.rq.at? i = none) (disk : Image) :
    (rbSegment x.rq.op disk x.pos bv).1 i = disk i := by
  by_cases hin : x.pos ≤ i ∧ i < x.pos + bv.len
  · cases hop : x.rq.op with
    | read => rfl
    | write =>
      obtain ⟨b, hb⟩ := Request.at?_of_covers hop (hok.covers hrest hin.1 hin.2)
      simp [hi] at hb
  · exact rbSegment_disk_outside _ _ hin

theorem rbSegment_disk_busy {x : Transfer} {bv : BioVec} {rest : List BioVec} {i : Nat} {b c : UInt8}
    {disk : Image} (hok : x.Ok) (hrest : x.rest = bv :: rest) (hb : x.rq.at? i = some b)
    (hdisk : disk i = if i < x.pos then b else c) :
    (rbSegment x.rq.op disk x.pos bv).1 i = if i < x.pos + bv.len then b else c := by
  by_cases hin : x.pos ≤ i ∧ i < x.pos + bv.len
  · have hat := hok.segment_at? hrest hb
    rw [if_pos hin] at hat
    have hop := (Request.at?_eq_some.mp hb).1
    rw [if_pos hin.2, hop]
    exact Patch.apply_of_some disk hat
  · rw [rbSegment_disk_outside _ _ hin, hdisk]
    split <;> split <;> first | rfl | omega

theorem Inv.idle_besides {tr : List (Record State Event Shown)} {s : State} {tag i : Nat}
    {x : Transfer} (h : Inv tr s) (hx : s.flight tag = some x) (hat : x.rq.at? i = none)
    (hi : ∀ tag' y, tag' ≠ tag → s.flight tag' = some y → y.rq.at? i = none) :
    s.disk i = Patch.latest Image.zero (completedWrites tr) i ∧
      Patch.writesAt (queuedWrites tr) i = Patch.writesAt (completedWrites tr) i := by
  apply h.idle i
  intro tag' y hy
  by_cases hne : tag' = tag
  · rw [hne, hx] at hy
    cases hy
    exact hat
  · exact hi tag' y hne hy

/-- In the range of a READ in flight the disk holds what the completed WRITEs left. -/
theorem Inv.disk_of_read {tr : List (Record State Event Shown)} {s : State} {tag i : Nat}
    {x : Transfer} (h : Inv tr s) (hx : s.flight tag = some x) (hop : x.rq.op = .read)
    (hcov : x.rq.Covers i) : s.disk i = Patch.latest Image.zero (completedWrites tr) i := by
  refine (h.idle_besides hx (Request.at?_of_read hop i) fun tag' y hne hy => ?_).1
  exact Request.at?_of_not_covers ((h.apart tag tag' x y (Ne.symm hne) hx hy).not_covers hcov)

theorem Inv.delivered_advance {tr : List (Record State Event Shown)} {s : State} {tag : Nat}
    {x : Transfer} {bv : BioVec} {rest : List BioVec} (h : Inv tr s) (hx : s.flight tag = some x)
    (hrest : x.rest = bv :: rest) (hop : x.rq.op = .read) :
    payload (x.advance (rbSegment x.rq.op s.disk x.pos bv).2 rest).copied =
      (List.range (totalLen (x.advance (rbSegment x.rq.op s.disk x.pos bv).2 rest).copied)).map
        fun k => Patch.latest Image.zero (completedWrites tr) (x.rq.start + k) := by
  have hok := h.ok tag x hx
  simp only [Transfer.advance, payload_concat, totalLen_concat, hop, rbSegment, fill_len]
  rw [h.delivered tag x hx hop, fill_data bv (by simp), List.range_add, List.map_append,
    List.map_map]
  congr 1
  apply List.map_congr_left
  intro k hk
  have hlt := List.mem_range.mp hk
  rw [h.disk_of_read hx hop (hok.covers hrest (by omega) (by omega)), hok.pos_eq, Nat.add_assoc]
  rfl

theorem inv_segment {tr : List (Record State Event Shown)} {s : State} {tag : Nat} {x : Transfer}
    {bv : BioVec} {rest : List BioVec} (h : Inv tr s) (hx : s.flight tag = some x)
    (hrest : x.rest = bv :: rest) :
    Inv (tr ++ [⟨s, .segment tag, .touched x.pos bv.len⟩])
      ({ s with disk := (rbSegment x.rq.op s.disk x.pos bv).1 }.setFlight tag
        (some (x.advance (rbSegment x.rq.op s.disk x.pos bv).2 rest))) := by
  have hok := h.ok tag x hx
  have hlog : completedWrites (tr ++ [⟨s, .segment tag, .touched x.pos bv.len⟩]) =
      completedWrites tr := by simp
  have hqueue : queuedWrites (tr ++ [⟨s, .segment tag, .touched x.pos bv.len⟩]) =
      queuedWrites tr := by simp
  refine ⟨?_, ?_, ?_, ?_, ?_⟩
  · intro tag' x' hx'
    rcases setFlight_eq_some hx' with ⟨-, hx'⟩ | ⟨-, hx'⟩
    · cases hx'
      exact hok.advance hrest s.disk
    · exact h.ok tag' x' hx'
  · apply apart_setFlight (s := { s with disk := _ }) h.apart
    intro y tag' x' hy hne hx'
    cases hy
    exact h.apart tag tag' x x' (Ne.symm hne) hx hx'
  · intro tag' x' hx' i b hb
    rw [hlog, hqueue]
    rcases setFlight_eq_some hx' with ⟨-, hx'⟩ | ⟨hne, hx'⟩
    · cases hx'
      obtain ⟨hdisk, hwrites⟩ := h.busy tag x hx i b hb
      refine ⟨?_, hwrites⟩
      simp only [setFlight_disk, Transfer.advance, rbSegment_len]
      exact rbSegment_disk_busy hok hrest hb hdisk
    · -- the turn stays in the range of its own request
      obtain ⟨hdisk, hwrites⟩ := h.busy tag' x' hx' i b hb
      have hnone : x.rq.at? i = none := Request.at?_of_not_covers
        ((h.apart tag' tag x' x hne hx' hx).not_covers (Request.covers_of_at? hb))
      exact ⟨(rbSegment_disk_idle hok hrest hnone s.disk).trans hdisk, hwrites⟩
  · intro i hi
    rw [hlog, hqueue]
    have hnone : x.rq.at? i = none := hi tag (x.advance _ rest) (setFlight_self _ _ _)
    obtain ⟨hdisk, hwrites⟩ := h.idle_besides hx hnone fun tag' x' hne hx' =>
      hi tag' x' (by rw [setFlight_other _ _ hne]; exact hx')
    exact ⟨(rbSegment_disk_idle hok hrest hnone s.disk).trans hdisk, hwrites⟩
  · intro tag' x' hx' hop
    rw [hlog]
    rcases setFlight_eq_some hx' with ⟨-, hx'⟩ | ⟨-, hx'⟩
    · cases hx'
      exact h.delivered_advance hx hrest hop
    · exact h.delivered tag' x' hx' hop

theorem inv_complete {tr : List (Record State Event Shown)} {s : State} {tag : Nat} {x : Transfer}
    (h : Inv tr s) (hx : s.flight tag = some x) (hrest : x.rest = []) :
    Inv (tr ++ [⟨s, .complete tag, .completed x.rq x.copied⟩]) (s.setFlight tag none) := by
  have hok := h.ok tag x hx
  have hqueue : queuedWrites (tr ++ [⟨s, .complete tag, .completed x.rq x.copied⟩]) =
      queuedWrites tr := by simp
  have hother : ∀ tag' x', tag' ≠ tag → s.flight tag' = some x' → ∀ i, x'.rq.Covers i →
      x.rq.at? i = none := fun tag' x' hne hx' i hcov =>
    Request.at?_of_not_covers ((h.apart tag' tag x' x hne hx' hx).not_covers hcov)
  refine ⟨?_, ?_, ?_, ?_, ?_⟩
  · intro tag' x' hx'
    rcases setFlight_eq_some hx' with ⟨-, hx'⟩ | ⟨-, hx'⟩
    · cases hx'
    · exact h.ok tag' x' hx'
  · apply apart_setFlight h.apart
    intro y tag' x' hy _ _
    cases hy
  · intro tag' x' hx' i b hb
    rcases setFlight_eq_some hx' with ⟨-, hx'⟩ | ⟨hne, hx'⟩
    · cases hx'
    · have hnone : x.rq.write?.bind (·.at? i) = none :=
        hother tag' x' hne hx' i (Request.covers_of_at? hb)
      rw [hqueue, completedWrites_concat, Patch.latest_concat, Patch.writesAt_concat]
      simp only [hnone, Option.getD_none, Option.toList_none, List.append_nil]
      exact h.busy tag' x' hx' i b hb
  · intro i hi
    rw [hqueue, completedWrites_concat, Patch.latest_concat, Patch.writesAt_concat]
    dsimp only
    change _ = (x.rq.at? i).getD _ ∧ _ = _ ++ (x.rq.at? i).toList
    cases hat : x.rq.at? i with
    | some b =>
      -- the copy has passed every byte of the request
      obtain ⟨hdisk, hwrites⟩ := h.busy tag x hx i b hat
      have hcov := (Request.covers_of_at? hat).2
      have htotal := hok.total
      rw [hrest] at htotal
      have hlt : i < x.pos := by
        rw [hok.pos_eq]
        simp only [totalLen, List.map_nil, List.sum_nil, Nat.add_zero] at htotal ⊢
        omega
      rw [if_pos hlt] at hdisk
      exact ⟨hdisk, hwrites⟩
    | none =>
      simp only [Option.getD_none, Option.toList_none, List.append_nil]
      exact h.idle_besides hx hat fun tag' x' hne hx' =>
        hi tag' x' (by rw [setFlight_other _ _ hne]; exact hx')
  · intro tag' x' hx' hop
    rcases setFlight_eq_some hx' with ⟨-, hx'⟩ | ⟨hne, hx'⟩
    · cases hx'
    · rw [h.delivered tag' x' hx' hop, completedWrites_concat]
      apply List.map_congr_left
      intro k hk
      have hok' := h.ok tag' x' hx'
      have hk' := List.mem_range.mp hk
      have htotal := hok'.total
      have hnone : x.rq.write?.bind (·.at? (x'.rq.start + k)) = none :=
        hother tag' x' hne hx' _ ⟨by omega, by omega⟩
      rw [Patch.latest_concat]
      simp only [hnone, Option.getD_none]

theorem inv_run {tr : List (Record State Event Shown)} {s : State} (h : Run step State.init tr s)
    (hbl : Each BlockLayer tr) : Inv tr s := by
  refine h.guarded (I := Inv) hbl inv_init fun tr t e u o _ hI hP hs => ?_
  cases step_move hs with
  | queue hfree =>
    obtain ⟨hfits, hapart⟩ := hP _ _ rfl
    exact inv_queue hI hfree hfits hapart
  | segment hx hrest => exact inv_segment hI hx hrest
  | complete hx hrest => exact inv_complete hI hx hrest

/-! ## What the requests ask for -/

/-- A request in flight, with the number of its segments that have been copied. -/
structure Flying where
  rq : Request
  turns : Nat

/-- What a list of events comes to, read off their arguments: the requests in flight, and the WRITEs
queued and completed, oldest first. -/
structure Log where
  flying : Nat → Option Flying
  queued : List (Patch UInt8)
  completed : List (Patch UInt8)

def Log.after (L : Log) : Event → Log
  | .queue tag rq =>
    { L with flying := Function.update L.flying tag (some ⟨rq, 0⟩), queued := L.queued ++ rq.write?.toList }
  | .segment tag =>
    { L with
      flying := Function.update L.flying tag ((L.flying tag).map fun f => { f with turns := f.turns + 1 }) }
  | .complete tag =>
    { L with
      flying := Function.update L.flying tag none,
      completed := L.completed ++ ((L.flying tag).bind fun f => f.rq.write?).toList }

def log (es : List Event) : Log := es.foldl Log.after ⟨fun _ => none, [], []⟩

theorem log_concat (es : List Event) (e : Event) : log (es ++ [e]) = (log es).after e := by
  simp [log]

/-- The event is the next of its request. -/
def Log.Takes (L : Log) : Event → Prop
  | .queue tag _ => L.flying tag = none
  | .segment tag => ∃ f bv, L.flying tag = some f ∧ f.rq.segs[f.turns]? = some bv
  | .complete tag => ∃ f, L.flying tag = some f ∧ f.turns = f.rq.segs.length

/-- Where the next segment of a request in flight lies on the disk. -/
def Flying.pos (f : Flying) : Nat := f.rq.start + totalLen (f.rq.segs.take f.turns)

/-- A request in flight, against what has been asked for. -/
structure Flying.Of (f : Flying) (x : Transfer) : Prop where
  rq : f.rq = x.rq
  rest : x.rest = f.rq.segs.drop f.turns
  turns : f.turns ≤ f.rq.segs.length
  pos : f.pos = x.pos

theorem Flying.Of.advance {f : Flying} {x : Transfer} {bv : BioVec} {rest : List BioVec} (h : f.Of x)
    (hrest : x.rest = bv :: rest) (disk : Image) :
    Flying.Of { f with turns := f.turns + 1 }
      (x.advance (rbSegment x.rq.op disk x.pos bv).2 rest) := by
  have hdrop := h.rest
  rw [hrest] at hdrop
  have hlt : f.turns < f.rq.segs.length := by
    by_contra hge
    rw [List.drop_of_length_le (Nat.le_of_not_lt hge)] at hdrop
    cases hdrop
  rw [List.drop_eq_getElem_cons hlt] at hdrop
  obtain ⟨hbv, htail⟩ := List.cons.inj hdrop
  refine ⟨h.rq, htail, hlt, ?_⟩
  have htake : f.rq.segs.take (f.turns + 1) = f.rq.segs.take f.turns ++ [bv] := by
    rw [hbv, List.take_append_getElem]
  have hpos := h.pos
  simp only [Flying.pos] at hpos ⊢
  simp only [htake, totalLen_concat, Transfer.advance, rbSegment_len]
  omega

structure Logged (L : Log) (tr : List (Record State Event Shown)) (s : State) : Prop where
  queued : L.queued = queuedWrites tr
  completed : L.completed = completedWrites tr
  flying : ∀ tag, Option.Rel Flying.Of (L.flying tag) (s.flight tag)

theorem rel_update {L : Nat → Option Flying} {s : State} {tag : Nat} {f : Option Flying}
    {x : Option Transfer} (h : ∀ tag, Option.Rel Flying.Of (L tag) (s.flight tag))
    (hnew : Option.Rel Flying.Of f x) :
    ∀ tag', Option.Rel Flying.Of (Function.update L tag f tag') ((s.setFlight tag x).flight tag') := by
  intro tag'
  by_cases heq : tag' = tag
  · subst heq
    rwa [Function.update_self, setFlight_self]
  · rw [Function.update_of_ne heq, setFlight_other _ _ heq]
    exact h tag'

theorem Logged.flight {L : Log} {tr : List (Record State Event Shown)} {s : State} (h : Logged L tr s)
    {tag : Nat} {x : Transfer} (hx : s.flight tag = some x) : ∃ f, L.flying tag = some f ∧ f.Of x := by
  have hrel := h.flying tag
  rw [hx] at hrel
  cases hf : L.flying tag with
  | none =>
    rw [hf] at hrel
    cases hrel
  | some f =>
    rw [hf] at hrel
    cases hrel with
    | some hof => exact ⟨f, rfl, hof⟩

theorem Logged.of_flying {L : Log} {tr : List (Record State Event Shown)} {s : State} (h : Logged L tr s)
    {tag : Nat} {f : Flying} (hf : L.flying tag = some f) : ∃ x, s.flight tag = some x ∧ f.Of x := by
  have hrel := h.flying tag
  rw [hf] at hrel
  cases hx : s.flight tag with
  | none =>
    rw [hx] at hrel
    cases hrel
  | some x =>
    rw [hx] at hrel
    cases hrel with
    | some hof => exact ⟨x, rfl, hof⟩

theorem Logged.of_none {L : Log} {tr : List (Record State Event Shown)} {s : State} (h : Logged L tr s)
    {tag : Nat} (hf : L.flying tag = none) : s.flight tag = none := by
  cases hx : s.flight tag with
  | none => rfl
  | some x =>
    obtain ⟨f, hf', -⟩ := h.flight hx
    rw [hf] at hf'
    cases hf'

theorem Logged.takes {L : Log} {tr : List (Record State Event Shown)} {s u : State} {e : Event}
    {o : Shown} (h : Logged L tr s) (hs : step s e = some (u, o)) : L.Takes e := by
  cases step_move hs with
  | @queue tag rq hfree =>
    have hrel := h.flying tag
    rw [hfree] at hrel
    cases hf : L.flying tag with
    | none => exact hf
    | some f =>
      rw [hf] at hrel
      cases hrel
  | segment hx hrest =>
    obtain ⟨f, hf, hof⟩ := h.flight hx
    have hdrop := hof.rest
    rw [hrest] at hdrop
    exact ⟨f, _, hf, by rw [← Nat.add_zero f.turns, ← List.getElem?_drop, ← hdrop]; rfl⟩
  | complete hx hrest =>
    obtain ⟨f, hf, hof⟩ := h.flight hx
    have hdrop := hof.rest
    rw [hrest] at hdrop
    have hlen := List.drop_eq_nil_iff.mp hdrop.symm
    exact ⟨f, hf, Nat.le_antisymm hof.turns hlen⟩

theorem logged_run {tr : List (Record State Event Shown)} {s : State} (h : Run step State.init tr s) :
    Logged (log (tr.map Record.event)) tr s := by
  refine h.history (I := fun tr s => Logged (log (tr.map Record.event)) tr s)
    ⟨rfl, rfl, fun _ => .none⟩ ?_
  intro tr t e u o _ hI hs
  rw [List.map_append, List.map_singleton, log_concat]
  have hqueued := hI.queued
  have hcompleted := hI.completed
  cases step_move hs with
  | @queue tag rq hfree =>
    refine ⟨by rw [queuedWrites_concat]; simp only [Log.after, hqueued], ?_, ?_⟩
    · rw [completedWrites_concat]
      simpa [Log.after] using hcompleted
    · exact rel_update hI.flying (.some ⟨rfl, rfl, Nat.zero_le _, rfl⟩)
  | @segment tag x bv rest hx hrest =>
    obtain ⟨f, hf, hof⟩ := hI.flight hx
    refine ⟨?_, ?_, ?_⟩
    · rw [queuedWrites_concat]
      simpa [Log.after] using hqueued
    · rw [completedWrites_concat]
      simpa [Log.after] using hcompleted
    · simp only [Log.after, hf, Option.map_some]
      exact rel_update (s := { t with disk := _ }) hI.flying (.some (hof.advance hrest t.disk))
  | @complete tag x hx hrest =>
    obtain ⟨f, hf, hof⟩ := hI.flight hx
    refine ⟨?_, ?_, rel_update hI.flying .none⟩
    · rw [queuedWrites_concat]
      simpa [Log.after] using hqueued
    · rw [completedWrites_concat]
      simp only [Log.after, hf, Option.bind_some, hcompleted, hof.rq]

/-- The steps that can be taken in a state that the requests of `L` lead to, and what they show. -/
structure Answers (L : Log) (s : State) : Prop where
  takes : ∀ e u o, step s e = some (u, o) → L.Takes e
  queue : ∀ tag rq, L.flying tag = none →
    ∃ u, step s (.queue tag rq) = some (u, .queued rq) ∧ u.disk = s.disk
  segment : ∀ tag f bv, L.flying tag = some f → f.rq.segs[f.turns]? = some bv →
    (∃ u, step s (.segment tag) = some (u, .touched f.pos bv.len)) ∧ f.pos + bv.len ≤ rbBytes
  complete : ∀ tag f, L.flying tag = some f → f.turns = f.rq.segs.length →
    ∃ u segs, step s (.complete tag) = some (u, .completed f.rq segs) ∧ u.disk = s.disk ∧
      (f.rq.op = .read → payload segs = (List.range (f.rq.nrSectors <<< sectorShift)).map fun k =>
        Patch.latest Image.zero L.completed (f.rq.start + k))

/-- The disk that the requests of `L` make: the bytes that a WRITE in flight has passed are its own, and
every other byte is that of the last WRITE completed, or zero. -/
structure Log.Disk (L : Log) (disk : Image) : Prop where
  still : ∀ i, (∀ tag f, L.flying tag = some f → f.rq.at? i = none) →
    disk i = Patch.latest Image.zero L.completed i
  moving : ∀ tag f i b, L.flying tag = some f → f.rq.at? i = some b →
    disk i = if i < f.pos then b else Patch.latest Image.zero L.completed i

theorem inv_answers {L : Log} {tr : List (Record State Event Shown)} {s : State} (h : Inv tr s)
    (hL : Logged L tr s) : Answers L s := by
  constructor
  · intro e u o hs
    exact hL.takes hs
  · intro tag rq hf
    exact ⟨s.setFlight tag (some (.begin rq)), by simp only [step, hL.of_none hf], rfl⟩
  · intro tag f bv hf hbv
    obtain ⟨x, hx, hof⟩ := hL.of_flying hf
    obtain ⟨hlt, hget⟩ := List.getElem?_eq_some_iff.mp hbv
    have hrest := hof.rest
    rw [List.drop_eq_getElem_cons hlt, hget] at hrest
    rw [hof.pos]
    exact ⟨⟨_, step_segment hx hrest⟩, (h.ok tag x hx).range_le hrest⟩
  · intro tag f hf hturns
    obtain ⟨x, hx, hof⟩ := hL.of_flying hf
    have hrest := hof.rest
    rw [List.drop_of_length_le (Nat.le_of_eq hturns.symm)] at hrest
    refine ⟨s.setFlight tag none, x.copied, hof.rq ▸ step_complete hx hrest, rfl, ?_⟩
    intro hop
    have htotal := (h.ok tag x hx).total
    rw [hrest] at htotal
    simp only [totalLen, List.map_nil, List.sum_nil, Nat.add_zero] at htotal
    rw [hof.rq] at hop ⊢
    rw [h.delivered tag x hx hop, hL.completed, ← htotal]
    rfl

theorem inv_disk {L : Log} {tr : List (Record State Event Shown)} {s : State} (h : Inv tr s)
    (hL : Logged L tr s) : L.Disk s.disk := by
  constructor
  · intro i hi
    rw [hL.completed]
    refine (h.idle i fun tag x hx => ?_).1
    obtain ⟨f, hf, hof⟩ := hL.flight hx
    rw [← hof.rq]
    exact hi tag f hf
  · intro tag f i b hf hb
    obtain ⟨x, hx, hof⟩ := hL.of_flying hf
    rw [hL.completed, hof.pos]
    rw [hof.rq] at hb
    exact (h.busy tag x hx i b hb).1

/-- No request is in flight. -/
def State.Idle (s : State) : Prop := ∀ tag, s.flight tag = none

def Log.Idle (L : Log) : Prop := ∀ tag, L.flying tag = none

/-- When nothing is in flight, every byte is the last one queued for it. -/
theorem disk_of_idle {tr : List (Record State Event Shown)} {s : State}
    (h : Run step State.init tr s) (hbl : Each BlockLayer tr)
    (hidle : (log (tr.map Record.event)).Idle) (i : Nat) :
    s.disk i = Patch.latest Image.zero (log (tr.map Record.event)).queued i := by
  have hL := logged_run h
  obtain ⟨hdisk, hwrites⟩ := (inv_run h hbl).idle i fun tag x hx => by
    rw [hL.of_none (hidle tag)] at hx
    cases hx
  rw [hdisk, hL.queued, Patch.latest, Patch.latest, hwrites]

/-- In every run of requests that the block layer may send: the steps are those that the requests ask
for, every copy stays inside the disk and every READ delivers what the last completed WRITEs put there;
the disk is at any time what the requests make it; and two runs that queue, for each byte, the same WRITEs
in the same order end with the same disk, whatever the segments of their requests and the order of the
copies. -/
theorem rbTransfer_flat_array (tr : List (Record State Event Shown)) (s : State)
    (h : Run step State.init tr s) (hbl : Each BlockLayer tr) :
    Answers (log (tr.map Record.event)) s ∧ (log (tr.map Record.event)).Disk s.disk ∧
      ((log (tr.map Record.event)).Idle →
        ∀ i, s.disk i = Patch.latest Image.zero (log (tr.map Record.event)).queued i) ∧
      ∀ tr' s', Run step State.init tr' s' → Each BlockLayer tr' →
        (log (tr.map Record.event)).Idle → (log (tr'.map Record.event)).Idle →
        (∀ i, Patch.writesAt (log (tr.map Record.event)).queued i =
          Patch.writesAt (log (tr'.map Record.event)).queued i) →
        s.disk = s'.disk := by
  have hI := inv_run h hbl
  have hL := logged_run h
  refine ⟨inv_answers hI hL, inv_disk hI hL, disk_of_idle h hbl, ?_⟩
  intro tr' s' h' hbl' hidle hidle' hsame
  funext i
  rw [disk_of_idle h hbl hidle, disk_of_idle h' hbl' hidle', Patch.latest, Patch.latest, hsame i]

theorem flight_of_step {s u : State} {e : Event} {o : Shown} (h : step s e = some (u, o)) {tag : Nat}
    (hu : u.flight tag ≠ none) : s.flight tag ≠ none ∨ ∃ rq, e = .queue tag rq := by
  cases step_move h with
  | @queue tag' rq hfree =>
    by_cases htag : tag = tag'
    · exact .inr ⟨rq, by rw [htag]⟩
    · rw [setFlight_other _ _ htag] at hu
      exact .inl hu
  | @segment tag' x bv rest hx hrest =>
    by_cases htag : tag = tag'
    · exact .inl (by rw [htag, hx]; simp)
    · rw [setFlight_other _ _ htag] at hu
      exact .inl hu
  | @complete tag' x hx hrest =>
    by_cases htag : tag = tag'
    · exact .inl (by rw [htag, hx]; simp)
    · rw [setFlight_other _ _ htag] at hu
      exact .inl hu

theorem queued_of_flight {tr : List (Record State Event Shown)} {s : State}
    (h : Run step State.init tr s) {tag : Nat} (hx : s.flight tag ≠ none) :
    ∃ r ∈ tr, ∃ rq, r.event = .queue tag rq := by
  revert hx
  refine h.history (I := fun tr s => s.flight tag ≠ none → ∃ r ∈ tr, ∃ rq, r.event = .queue tag rq)
    (fun hx => absurd rfl hx) ?_
  intro tr t e u o _ hI hs hu
  rcases flight_of_step hs hu with hbefore | ⟨rq, he⟩
  · obtain ⟨r, hr, hev⟩ := hI hbefore
    exact ⟨r, List.mem_append_left _ hr, hev⟩
  · exact ⟨_, List.mem_append_right _ (List.mem_singleton_self _), rq, he⟩

/-- `BlockLayer`, to be computed: of the requests in flight only those queued before matter. -/
def fitsBeside (past : List (Record State Event Shown)) (r : Record State Event Shown) : Bool :=
  match r.event with
  | .queue _ rq => decide (rq.pos + rq.nrSectors ≤ rbSectors) && past.all fun q =>
      match q.event with
      | .queue tag _ => (r.pre.flight tag).all fun x => decide (rq.Apart x.rq)
      | _ => true
  | _ => true

theorem blockLayer_of_check {tr : List (Record State Event Shown)} {s : State}
    (h : Run step State.init tr s) (hcheck : checkEach fitsBeside [] tr = true) :
    Each BlockLayer tr := by
  have hall : Each (fun past r => fitsBeside past r = true) tr := each_of_checkEach hcheck fun _ _ h => h
  rintro past r rest rfl tag rq he
  obtain ⟨hpast, -⟩ := h.split
  have hr := hall past r rest rfl
  simp only [fitsBeside, he, Bool.and_eq_true, decide_eq_true_eq] at hr
  refine ⟨hr.1, ?_⟩
  intro tag' x hx
  obtain ⟨q, hq, rq', hqe⟩ := queued_of_flight hpast (by rw [hx]; simp)
  have hbeside := List.all_eq_true.mp hr.2 q hq
  simpa only [hqe, hx, Option.all_some, decide_eq_true_eq] using hbeside

/-- A segment of a page that holds one byte throughout. -/
def BioVec.filled (b : UInt8) (off len size : Nat) (h : off + len ≤ size) : BioVec where
  page := List.replicate size b
  offset := off
  len := len
  inPage := by rwa [List.length_replicate]

/-- A WRITE to sector 3 in two segments. -/
def twoSegments : Request where
  op := .write
  pos := 3
  nrSectors := 1
  segs := [.filled 65 0 100 100 (by decide), .filled 66 100 412 512 (by decide)]
  total := rfl

/-- A WRITE to sector 4. -/
def oneSegment : Request where
  op := .write
  pos := 4
  nrSectors := 1
  segs := [.filled 67 0 512 512 (by decide)]
  total := rfl

/-- A READ of two sectors, divided elsewhere. -/
def readTwo (pos : Nat) : Request where
  op := .read
  pos := pos
  nrSectors := 2
  segs := [.filled 1 0 1000 1000 (by decide), .filled 2 24 24 48 (by decide)]
  total := rfl

/-- Two WRITEs in flight together, and a READ of what one of them wrote while the other is under way. -/
def writesAndRead : List Event :=
  [.queue 0 twoSegments, .queue 1 oneSegment, .segment 0, .segment 1, .segment 0, .complete 0,
    .queue 2 (readTwo 2), .segment 2, .complete 1, .segment 2, .complete 2]

/-- The bytes that a completed request shows. -/
def shownBytes (r : Record State Event Shown) : Option Bytes :=
  match r.out with
  | .completed _ segs => some (payload segs)
  | _ => none

theorem rbTransfer_flat_array_writesAndRead : ∃ tr s,
    (Run step State.init tr s ∧ Each BlockLayer tr ∧ tr.map Record.event = writesAndRead ∧
      tr.getLast?.bind shownBytes =
        some (List.replicate 512 0 ++ List.replicate 100 65 ++ List.replicate 412 66)) ∧
    Answers (log (tr.map Record.event)) s ∧ (log (tr.map Record.event)).Disk s.disk ∧
      ((log (tr.map Record.event)).Idle →
        ∀ i, s.disk i = Patch.latest Image.zero (log (tr.map Record.event)).queued i) ∧
      ∀ tr' s', Run step State.init tr' s' → Each BlockLayer tr' →
        (log (tr.map Record.event)).Idle → (log (tr'.map Record.event)).Idle →
        (∀ i, Patch.writesAt (log (tr.map Record.event)).queued i =
          Patch.writesAt (log (tr'.map Record.event)).queued i) →
        s.disk = s'.disk := by
  obtain ⟨tr, s, hrun, hev, hq⟩ := exists_exec step State.init writesAndRead
    (fun x => checkEach fitsBeside [] x.1 && x.1.getLast?.bind shownBytes ==
      some (List.replicate 512 0 ++ List.replicate 100 65 ++ List.replicate 412 66)) (by decide +kernel)
  obtain ⟨hcheck, hbytes⟩ := (Bool.and_eq_true _ _).mp hq
  have hbl := blockLayer_of_check hrun hcheck
  exact ⟨tr, s, ⟨hrun, hbl, hev, beq_iff_eq.mp hbytes⟩, rbTransfer_flat_array tr s hrun hbl⟩

end LinuxDriverLab.Ramdisk
