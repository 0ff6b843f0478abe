import LinuxDriverLab.Kernel.UserCopy

/-!
# Devices that keep the last write

A write replaces the content by as much as fits; a read takes the content from the file's position
on. What the loops of a user make of such a device depends on nothing else: writing the rest until
all is accepted, reading until a read returns 0, and rounds of both on one descriptor.
-/

namespace LinuxDriverLab

/-! ## The loops -/

/-- Reads of the sizes given until one returns 0: the bytes read, and the position they end at.
There is no result after an error, or when the fuel is used up. -/
def readAll (read : Nat → Nat → ReadResult) : Nat → (Nat → Nat) → Nat → Option (Bytes × Nat)
  | 0, _, _ => none
  | fuel + 1, sizes, pos =>
    let res := read (sizes 0) pos
    match res.ret with
    | .error _ => none
    | .ok 0 => some ([], res.pos)
    | .ok (_ + 1) =>
      (readAll read fuel (fun i => sizes (i + 1)) res.pos).map fun x => (res.data ++ x.1, x.2)

section

variable {σ : Type} (write : σ → Bytes → σ × Except Errno Nat) (read : σ → Nat → Nat → ReadResult)

/-- Writes of the unwritten rest until everything is accepted: the device, and the number of calls. -/
def writeAll : Nat → σ → Bytes → Option (σ × Nat)
  | 0, _, _ => none
  | fuel + 1, d, s =>
    if s = [] then some (d, 0)
    else
      match (write d s).2 with
      | .error _ => none
      | .ok n => (writeAll fuel (write d s).1 (s.drop n)).map fun x => (x.1, x.2 + 1)

/-- One round: what is written, and the sizes of the reads that follow. -/
structure Round where
  text : Bytes
  sizes : Nat → Nat

/-- Rounds on one descriptor: what each of them reads back. -/
def echoRounds (fuel : Nat) : σ → Nat → List Round → Option (List Bytes)
  | _, _, [] => some []
  | d, pos, r :: rest =>
    match (write d r.text).2 with
    | .error _ => none
    | .ok _ =>
      match readAll (read (write d r.text).1) fuel r.sizes pos with
      | none => none
      | some (out, pos) => (echoRounds fuel (write d r.text).1 pos rest).map (out :: ·)

/-- A device keeps the last write: `content` is what can be read, `limit` how much a write takes. -/
structure LastWrite where
  Valid : σ → Prop
  content : σ → Bytes
  limit : σ → Nat
  limit_pos : ∀ {d}, Valid d → 0 < limit d
  write_ret : ∀ {d} s, Valid d → (write d s).2 = .ok (min s.length (limit d))
  write_valid : ∀ {d} s, Valid d → Valid (write d s).1
  write_content : ∀ {d} s, Valid d → content (write d s).1 = s.take (limit d)
  write_limit : ∀ {d} s, Valid d → limit (write d s).1 = limit d
  read_eq : ∀ {d} cnt pos, Valid d → read d cnt pos =
    ⟨.ok (slice (content d) pos cnt).length, slice (content d) pos cnt,
      pos + (slice (content d) pos cnt).length⟩

namespace LastWrite

variable {write read} (dev : LastWrite write read) {d : σ}

/-! ## Reading until a read returns 0 -/

theorem slice_append_drop (c : Bytes) (pos cnt : Nat) :
    slice c pos cnt ++ c.drop (pos + (slice c pos cnt).length) = c.drop pos := by
  rw [← List.drop_drop]
  have hlen := List.take_append_drop (slice c pos cnt).length (c.drop pos)
  rwa [← slice, slice_self_length] at hlen

/-- Whatever the sizes, the reads give the content from the position on. -/
theorem readAll_eq (hd : dev.Valid d) {sizes : Nat → Nat} (hsizes : ∀ i, 0 < sizes i) {fuel pos : Nat}
    (hfuel : (dev.content d).length - pos < fuel) :
    readAll (read d) fuel sizes pos =
      some ((dev.content d).drop pos, max pos (dev.content d).length) := by
  induction fuel generalizing sizes pos with
  | zero => omega
  | succ fuel ih =>
    have hlen := slice_length (dev.content d) pos (sizes 0)
    have hpos := hsizes 0
    rw [readAll, dev.read_eq _ _ hd]
    cases hn : (slice (dev.content d) pos (sizes 0)).length with
    | zero =>
      have hle : (dev.content d).length ≤ pos := by omega
      simp only [Nat.add_zero, List.drop_eq_nil_of_le hle, Nat.max_eq_left hle]
    | succ n =>
      have hrest := ih (fun i => hsizes (i + 1)) (show (dev.content d).length - (pos + (n + 1)) < fuel by omega)
      have happend := slice_append_drop (dev.content d) pos (sizes 0)
      rw [hn] at happend
      have hmax : max (pos + (n + 1)) (dev.content d).length = max pos (dev.content d).length := by
        omega
      simp only [hrest, Option.map_some, happend, hmax]

theorem read_end (hd : dev.Valid d) {pos : Nat} (hpos : (dev.content d).length ≤ pos) (cnt : Nat) :
    read d cnt pos = ⟨.ok 0, [], pos⟩ := by
  rw [dev.read_eq cnt pos hd, slice_of_length_le hpos]
  rfl

/-! ## Writing until all is accepted -/

theorem writeAll_nil {fuel : Nat} (h : 0 < fuel) : writeAll write fuel d [] = some (d, 0) := by
  cases fuel with
  | zero => omega
  | succ fuel => rw [writeAll, if_pos rfl]

theorem rest_calls {n b : Nat} (hb : 0 < b) (h : b < n) :
    (n + b - 1) / b = (n - b + b - 1) / b + 1 ∧ (n - 1) % b = (n - b - 1) % b := by
  constructor
  · rw [Nat.div_eq_sub_div hb (by omega)]
    congr 2
    omega
  · rw [Nat.mod_eq_sub_mod (by omega)]
    congr 1
    omega

theorem writeAll_step (hd : dev.Valid d) {s : Bytes} (hs : s ≠ []) (fuel : Nat) :
    writeAll write (fuel + 1) d s =
      (writeAll write fuel (write d s).1 (s.drop (dev.limit d))).map fun x => (x.1, x.2 + 1) := by
  have hdrop : s.drop (min s.length (dev.limit d)) = s.drop (dev.limit d) := by
    rcases Nat.le_total s.length (dev.limit d) with hle | hle
    · rw [Nat.min_eq_left hle, List.drop_length, List.drop_eq_nil_of_le hle]
    · rw [Nat.min_eq_right hle]
  rw [writeAll, if_neg hs, dev.write_ret s hd]
  simp only [hdrop]

/-- The calls take `limit` bytes each and the last one what is left, which is the content then. -/
theorem writeAll_eq (hd : dev.Valid d) {s : Bytes} (hs : s ≠ []) : ∃ d', dev.Valid d' ∧
    dev.content d' = s.drop (s.length - ((s.length - 1) % dev.limit d + 1)) ∧
    ∀ fuel, s.length < fuel →
      writeAll write fuel d s = some (d', (s.length + dev.limit d - 1) / dev.limit d) := by
  have hlimit := dev.limit_pos hd
  induction hn : s.length using Nat.strongRecOn generalizing d s with
  | ind n ih =>
    have hlen := List.length_pos_iff.mpr hs
    rcases Nat.lt_or_ge (dev.limit d) n with hlt | hle
    · obtain ⟨hcalls, hmod⟩ := rest_calls hlimit hlt
      have hrem := Nat.mod_le (n - dev.limit d - 1) (dev.limit d)
      have hrest : s.drop (dev.limit d) ≠ [] := by
        rw [ne_eq, List.drop_eq_nil_iff]
        omega
      obtain ⟨d', hd', hcontent, hall⟩ := ih (n - dev.limit d) (by omega) (dev.write_valid s hd)
        hrest (by rw [dev.write_limit s hd]; exact hlimit) (by rw [List.length_drop, hn])
      rw [dev.write_limit s hd] at hcontent hall
      refine ⟨d', hd', ?_, ?_⟩
      · rw [hcontent, List.drop_drop, hmod]
        congr 1
        omega
      · intro fuel hfuel
        cases fuel with
        | zero => omega
        | succ fuel =>
          rw [dev.writeAll_step hd hs, hall fuel (by omega), Option.map_some, hcalls]
    · have hone : (n + dev.limit d - 1) / dev.limit d = 1 := by
        rw [Nat.div_eq_sub_div hlimit (by omega), Nat.div_eq_of_lt (by omega)]
      have hzero : n - ((n - 1) % dev.limit d + 1) = 0 := by
        rw [Nat.mod_eq_of_lt (by omega)]
        omega
      refine ⟨(write d s).1, dev.write_valid s hd, ?_, ?_⟩
      · rw [dev.write_content s hd, List.take_of_length_le (hn ▸ hle), hzero, List.drop_zero]
      · intro fuel hfuel
        cases fuel with
        | zero => omega
        | succ fuel =>
          rw [dev.writeAll_step hd hs, List.drop_eq_nil_of_le (hn ▸ hle),
            writeAll_nil (show 0 < fuel by omega), Option.map_some, hone]

/-- What is left for the last call when each takes `b` bytes. -/
def lastChunk (b : Nat) (s : Bytes) : Bytes := s.drop (s.length - ((s.length - 1) % b + 1))

theorem lastChunk_length {b : Nat} {s : Bytes} (hs : s ≠ []) :
    (lastChunk b s).length = (s.length - 1) % b + 1 := by
  have hlen := List.length_pos_iff.mpr hs
  have hmod := Nat.mod_le (s.length - 1) b
  rw [lastChunk, List.length_drop]
  omega

/-- Writing all of a text and reading all that a new descriptor gives yields its last chunk. -/
theorem writeAll_readAll (hd : dev.Valid d) {s : Bytes} (hs : s ≠ []) {sizes : Nat → Nat}
    (hsizes : ∀ i, 0 < sizes i) : ∃ d',
      (∀ fuel, s.length < fuel →
        writeAll write fuel d s = some (d', (s.length + dev.limit d - 1) / dev.limit d)) ∧
      (∀ fuel, dev.limit d < fuel → readAll (read d') fuel sizes 0 =
        some (lastChunk (dev.limit d) s, (s.length - 1) % dev.limit d + 1)) ∧
      ∀ cnt, read d' cnt ((s.length - 1) % dev.limit d + 1) =
        ⟨.ok 0, [], (s.length - 1) % dev.limit d + 1⟩ := by
  obtain ⟨d', hd', hcontent, hall⟩ := dev.writeAll_eq hd hs
  have hlen : (dev.content d').length = (s.length - 1) % dev.limit d + 1 := by
    rw [hcontent]
    exact lastChunk_length hs
  have hle := Nat.mod_lt (s.length - 1) (dev.limit_pos hd)
  refine ⟨d', hall, ?_, ?_⟩
  · intro fuel hfuel
    rw [dev.readAll_eq hd' hsizes (by omega), hlen, hcontent]
    simp [lastChunk]
  · exact fun cnt => dev.read_end hd' (Nat.le_of_eq hlen) cnt

/-! ## Rounds on one descriptor -/

/-- What the rounds read back: each text without what the longest one before it has moved the
position past. -/
def remainders : Nat → List Bytes → List Bytes
  | _, [] => []
  | pos, s :: rest => s.drop pos :: remainders (max pos s.length) rest

theorem echoRounds_eq (hd : dev.Valid d) {fuel : Nat} (hfuel : dev.limit d < fuel) {rounds : List Round}
    (hrounds : ∀ r ∈ rounds, r.text.length ≤ dev.limit d ∧ ∀ i, 0 < r.sizes i) (pos : Nat) :
    echoRounds write read fuel d pos rounds = some (remainders pos (rounds.map Round.text)) := by
  induction rounds generalizing d pos with
  | nil => rfl
  | cons r rest ih =>
    obtain ⟨hlen, hsizes⟩ := hrounds r List.mem_cons_self
    have hcontent : dev.content (write d r.text).1 = r.text := by
      rw [dev.write_content _ hd, List.take_of_length_le hlen]
    have hread : readAll (read (write d r.text).1) fuel r.sizes pos =
        some (r.text.drop pos, max pos r.text.length) := by
      rw [dev.readAll_eq (dev.write_valid r.text hd) hsizes (by rw [hcontent]; omega), hcontent]
    have hlimit := dev.write_limit r.text hd
    have hrest := ih (dev.write_valid r.text hd) (by rw [hlimit]; exact hfuel)
      (fun q hq => by rw [hlimit]; exact hrounds q (List.mem_cons_of_mem r hq)) (max pos r.text.length)
    simp only [echoRounds, dev.write_ret _ hd, hread, hrest, Option.map_some, List.map_cons, remainders]

/-- Every text comes back whole exactly when there is at most one: the position stays behind the
first one for good. -/
theorem remainders_eq_iff {texts : List Bytes} (hne : ∀ s ∈ texts, s ≠ []) :
    remainders 0 texts = texts ↔ texts.length ≤ 1 := by
  cases texts with
  | nil => simp [remainders]
  | cons s rest =>
    cases rest with
    | nil => simp [remainders]
    | cons t rest =>
      have hs := List.length_pos_iff.mpr (hne s List.mem_cons_self)
      have ht := List.length_pos_iff.mpr (hne t (by simp))
      simp only [remainders, List.drop_zero, List.cons.injEq, true_and, List.length_cons]
      constructor
      · intro ⟨hdrop, _⟩
        have hlen := congrArg List.length hdrop
        rw [List.length_drop] at hlen
        omega
      · omega

end LastWrite

end

end LinuxDriverLab
