import LinuxDriverLab.MemDemo.Driver

/-!
# Reading the report of memdemo

The report fits its buffer, whatever the pointers, and the reads of a file deliver it in order.
-/

namespace LinuxDriverLab.MemDemo

theorem formatPtr_length (p : UInt64) : (formatPtr p).length = 16 :=
  formatHex_length (by decide) p.toNat_lt

theorem formatPhys_length (p : UInt64) : (formatPhys p).length = 18 := by
  rw [formatPhys, List.length_append, formatHex_length (by decide) p.toNat_lt]
  rfl

theorem reportText_length (p : Pointers) : (reportText p).length = 237 := by
  simp only [reportText, List.length_append, formatPtr_length, formatPhys_length]
  decide

theorem report_eq (p : Pointers) : report p = ⟨reportText p ++ [0], (reportText p).length⟩ := by
  have hfit : (reportText p).length ≤ reportSize - 1 := by
    rw [reportText_length]
    decide
  rw [report, snprintf, List.take_of_length_le hfit]

/-- What a read of `cnt` bytes returns when the first `done` bytes of the text have been read: the next
ones, if they fit into the `room` of the user, and otherwise `-EFAULT`. -/
structure ReadsText (text : Bytes) (done cnt room : Nat) (res : ReadResult) : Prop where
  ok : min cnt (text.length - done) ≤ room →
    res = ⟨.ok (min cnt (text.length - done)), slice text done cnt,
      done + min cnt (text.length - done)⟩
  fault : room < min cnt (text.length - done) → res = ⟨.error .efault, slice text done room, done⟩

theorem mdRead_readsText (text : Bytes) (room cnt : Nat) {pos : Nat} (hpos : pos ≤ text.length) :
    ReadsText text pos cnt room (mdRead ⟨text ++ [0], text.length⟩ room cnt pos) := by
  by_cases hend : pos ≥ text.length
  · have hzero : min cnt (text.length - pos) = 0 := by omega
    rw [mdRead, if_pos hend]
    constructor
    · intro _
      rw [hzero, slice_of_length_le hend]
      rfl
    · intro hroom
      omega
  · have hdrop : (text ++ [0]).drop pos = text.drop pos ++ [0] := List.drop_append_of_le_length hpos
    have htake : ∀ n, n ≤ text.length - pos → ((text ++ [0]).drop pos).take n = slice text pos n := by
      intro n hn
      rw [hdrop, List.take_append_of_le_length (by rwa [List.length_drop])]
      rfl
    have hslice : slice text pos (min cnt (text.length - pos)) = slice text pos cnt := by
      rw [← slice_length, slice_self_length]
    simp only [mdRead, if_neg hend, clamp_eq_min]
    constructor
    · intro hroom
      have hsrc : min cnt (text.length - pos) ≤ ((text ++ [0]).drop pos).length := by
        rw [hdrop, List.length_append, List.length_drop]
        omega
      rw [copyToUser_of_le hsrc hroom, htake _ (by omega), hslice, if_neg (by simp)]
    · intro hroom
      rw [if_pos (copyToUser_left_pos hroom)]
      simp only [copyToUser, Nat.min_eq_right (Nat.le_of_lt hroom), htake room (by omega)]

/-- What the reads of `f` have delivered since it was opened. -/
def delivered (f : File) (tr : List (Record State Event Shown)) : Bytes :=
  tr.foldl (fun acc r => match r.event, r.out with
    | .openFile g, _ => if g = f then [] else acc
    | .read g _ _, .read res =>
      if g = f then
        match res.ret with
        | .ok _ => acc ++ res.data
        | .error _ => acc
      else acc
    | _, _ => acc) []

theorem delivered_concat (f : File) (tr : List (Record State Event Shown))
    (r : Record State Event Shown) :
    delivered f (tr ++ [r]) = match r.event, r.out with
      | .openFile g, _ => if g = f then [] else delivered f tr
      | .read g _ _, .read res =>
        if g = f then
          match res.ret with
          | .ok _ => delivered f tr ++ res.data
          | .error _ => delivered f tr
        else delivered f tr
      | _, _ => delivered f tr := by
  simp only [delivered, List.foldl_append, List.foldl_cons, List.foldl_nil]

/-- The position of an open file is the number of bytes delivered, and these are the first of the
report. -/
def Delivers (tr : List (Record State Event Shown)) (s : State) : Prop :=
  ∀ f ∈ s.opened, ∃ n p, s.live = some (n, p) ∧ s.pos f ≤ (reportText p).length ∧
    delivered f tr = (reportText p).take (s.pos f)

theorem delivers_read {tr : List (Record State Event Shown)} {s : State} {f : File} {room cnt n : Nat}
    {p : Pointers} (h : Delivers tr s) (hlive : s.live = some (n, p)) :
    Delivers (tr ++ [⟨s, .read f room cnt, .read (mdRead (report p) room cnt (s.pos f))⟩])
      { s with pos := storePos s.pos f (mdRead (report p) room cnt (s.pos f)) } := by
  intro g hg
  obtain ⟨m, q, hq, hpos, hdel⟩ := h g hg
  obtain ⟨rfl, rfl⟩ := Prod.mk.inj (Option.some.inj (hlive.symm.trans hq))
  refine ⟨n, p, hlive, ?_⟩
  by_cases hgf : f = g
  · subst hgf
    rw [delivered_concat]
    simp only [if_true]
    rw [report_eq]
    have hreads := mdRead_readsText (reportText p) room cnt hpos
    by_cases hroom : min cnt ((reportText p).length - s.pos f) ≤ room
    · rw [hreads.ok hroom]
      simp only [storePos, Function.update_self]
      refine ⟨by omega, ?_⟩
      rw [hdel, List.take_add, ← slice_self_length (reportText p) (s.pos f) cnt, slice_length]
      rfl
    · rw [hreads.fault (Nat.lt_of_not_ge hroom)]
      exact ⟨hpos, hdel⟩
  · rw [delivered_concat]
    simp only [if_neg hgf, storePos_other _ _ (Ne.symm hgf)]
    exact ⟨hpos, hdel⟩

theorem delivers_run {pos : File → Nat} {tr : List (Record State Event Shown)} {s : State}
    (h : Run step (State.init pos) tr s) : Delivers tr s := by
  refine h.history (I := Delivers) (by simp [Delivers, State.init]) ?_
  intro tr t e u o _ hI hs
  cases step_move hs with
  | load hnone =>
    intro f hf
    obtain ⟨n, p, hp, -⟩ := hI f hf
    rw [hnone] at hp
    cases hp
  | unload hlive hfiles =>
    intro f hf
    rw [show t.opened = ∅ from hfiles] at hf
    simp at hf
  | @openFile f n p hlive hf =>
    intro g hg
    rw [delivered_concat]
    by_cases hgf : f = g
    · subst hgf
      exact ⟨n, p, hlive, by simp, by simp⟩
    · obtain ⟨m, q, hq, hpos, hdel⟩ := hI g (Finset.mem_of_mem_insert_of_ne hg (Ne.symm hgf))
      refine ⟨m, q, hq, ?_⟩
      simp only [if_neg hgf, Function.update_of_ne (Ne.symm hgf)]
      exact ⟨hpos, hdel⟩
  | read hlive _ => exact delivers_read hI hlive
  | release hf =>
    intro g hg
    rw [delivered_concat]
    exact hI g (Finset.mem_of_mem_erase hg)

/-- The pointers that the report of the loaded module shows. -/
def printed (es : List Event) : Option Pointers :=
  es.foldl (fun acc e => match e with
    | .load ⟨some small, some zero, some big, phys, none⟩ => some ⟨small, phys, zero, big⟩
    | .load _ | .unload => none
    | _ => acc) none

theorem printed_concat (es : List Event) (e : Event) :
    printed (es ++ [e]) = match e with
      | .load ⟨some small, some zero, some big, phys, none⟩ => some ⟨small, phys, zero, big⟩
      | .load _ | .unload => none
      | _ => printed es := by
  simp only [printed, List.foldl_append, List.foldl_cons, List.foldl_nil]

theorem printed_load (es : List Event) (a : Answers) : printed (es ++ [.load a]) = (mdInit a).live := by
  rw [printed_concat]
  obtain ⟨kmalloc, kzalloc, vmalloc, phys, misc⟩ := a
  cases kmalloc <;> cases kzalloc <;> cases vmalloc <;> cases misc <;> rfl

theorem printed_run {pos : File → Nat} {tr : List (Record State Event Shown)} {s : State}
    (h : Run step (State.init pos) tr s) : printed (tr.map Record.event) = s.live.map Prod.snd := by
  refine h.history (I := fun tr s => printed (tr.map Record.event) = s.live.map Prod.snd) rfl ?_
  intro tr t e u o _ hI hs
  rw [List.map_append, List.map_singleton]
  cases step_move hs with
  | load hnone =>
    rw [printed_load, Option.map_map]
    exact Option.map_id_apply.symm
  | unload hlive hfiles => exact printed_concat (tr.map Record.event) .unload
  | openFile hlive hf => exact (printed_concat (tr.map Record.event) (.openFile _)).trans hI
  | read hlive hf => exact (printed_concat (tr.map Record.event) (.read _ _ _)).trans hI
  | release hf => exact (printed_concat (tr.map Record.event) (.release _)).trans hI

/-- A read goes on with the report of the loaded module where the reads of its file have come to, and
returns 0 bytes though more were asked for only when the report has been delivered whole. -/
def ReadsReport (past : List (Record State Event Shown)) (r : Record State Event Shown) : Prop :=
  ∀ f room cnt, r.event = .read f room cnt → ∃ n p res, r.pre.live = some (n, p) ∧
    printed (past.map Record.event) = some p ∧ r.out = .read res ∧
    delivered f past = (reportText p).take (delivered f past).length ∧
    ReadsText (reportText p) (delivered f past).length cnt room res ∧
    ∀ k, res.ret = .ok k →
      delivered f past ++ res.data = (reportText p).take ((delivered f past).length + k) ∧
        (k = 0 → 0 < cnt → delivered f past = reportText p)

/-- Over any loads and unloads, with any number of files open, any counts and any faults: what the
reads of a file deliver since it was opened is the report of the module as it is loaded, in order,
and end of file is reported at its end and nowhere else. -/
theorem mdRead_delivers (pos : File → Nat) (tr : List (Record State Event Shown)) (s : State)
    (h : Run step (State.init pos) tr s) : Each ReadsReport tr := by
  rintro past ⟨t, e, o⟩ rest rfl f room cnt he
  obtain ⟨hpast, u, hu, -⟩ := h.split
  dsimp only at he hu
  subst he
  cases step_move hu with
  | @read _ _ _ n p hlive hf =>
    obtain ⟨m, q, hq, hpos, hdel⟩ := delivers_run hpast f hf
    dsimp only at hq hpos hdel
    obtain ⟨rfl, rfl⟩ := Prod.mk.inj (Option.some.inj (hlive.symm.trans hq))
    have hdone : (delivered f past).length = t.pos f := by
      rw [hdel, List.length_take, Nat.min_eq_left hpos]
    have hreads := mdRead_readsText (reportText p) room cnt hpos
    rw [← report_eq] at hreads
    refine ⟨n, p, _, hlive, by rw [printed_run hpast, hlive]; rfl, rfl, ?_⟩
    rw [hdone]
    refine ⟨hdel, hreads, ?_⟩
    intro k hk
    by_cases hroom : min cnt ((reportText p).length - t.pos f) ≤ room
    · rw [hreads.ok hroom] at hk ⊢
      obtain rfl : min cnt ((reportText p).length - t.pos f) = k := Except.ok.inj hk
      constructor
      · rw [hdel, List.take_add, ← slice_self_length (reportText p) (t.pos f) cnt, slice_length]
        rfl
      · intro hzero hcnt
        rw [hdel, List.take_of_length_le (by omega)]
    · rw [hreads.fault (Nat.lt_of_not_ge hroom)] at hk
      cases hk

/-- A load, and a file read in chunks with a fault in between. -/
def readsInChunks : List Event :=
  [.load ⟨some 4096, some 8192, some 65536, 4096, none⟩, .openFile 3, .read 3 4096 100,
    .read 3 7 100, .read 3 4096 4096, .read 3 4096 4096]

/-- The report of this load. -/
def chunksText : Bytes := reportText ⟨4096, 4096, 8192, 65536⟩

def readResult (r : Record State Event Shown) : Option ReadResult :=
  match r.out with
  | .read res => some res
  | _ => none

theorem mdRead_delivers_readsInChunks : ∃ tr s,
    (Run step (State.init fun _ => 0) tr s ∧ tr.map Record.event = readsInChunks ∧
      tr.filterMap readResult =
        [⟨.ok 100, chunksText.take 100, 100⟩, ⟨.error .efault, slice chunksText 100 7, 100⟩,
          ⟨.ok 137, chunksText.drop 100, 237⟩, ⟨.ok 0, [], 237⟩]) ∧
      Each ReadsReport tr := by
  obtain ⟨tr, s, hrun, hev, hres⟩ := exists_exec step (State.init fun _ => 0) readsInChunks
    (fun x => x.1.filterMap readResult ==
      [⟨.ok 100, chunksText.take 100, 100⟩, ⟨.error .efault, slice chunksText 100 7, 100⟩,
        ⟨.ok 137, chunksText.drop 100, 237⟩, ⟨.ok 0, [], 237⟩]) (by decide +kernel)
  exact ⟨tr, s, ⟨hrun, hev, beq_iff_eq.mp hres⟩, mdRead_delivers (fun _ => 0) tr s hrun⟩

end LinuxDriverLab.MemDemo
