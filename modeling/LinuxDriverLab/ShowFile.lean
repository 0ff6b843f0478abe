import LinuxDriverLab.Framework.Lines
import LinuxDriverLab.Kernel.CString

/-!
# show_file

`run_console` and `run_pty` print a file line by line. They read with `fgets` into an array of 512
bytes, so a long line comes in parts.
-/

namespace LinuxDriverLab.ShowFile

/-- `fgets` into an array of `n + 1` bytes: what it stores in front of the NUL, and the rest of the
file. It stops behind a newline. -/
def fgets : Nat → Bytes → Bytes × Bytes
  | 0, file => ([], file)
  | _ + 1, [] => ([], [])
  | n + 1, b :: file => if b = 10 then ([b], file) else (b :: (fgets n file).1, (fgets n file).2)

/-- `sizeof line - 1` -/
def room : Nat := 511

theorem fgets_append (n : Nat) (file : Bytes) : (fgets n file).1 ++ (fgets n file).2 = file := by
  induction n generalizing file with
  | zero => rfl
  | succ n ih =>
    cases file with
    | nil => rfl
    | cons b file =>
      rw [fgets]
      split
      · rfl
      · rw [List.cons_append, ih]

theorem fgets_ne_nil {n : Nat} {file : Bytes} (hn : n ≠ 0) (h : file ≠ []) : (fgets n file).1 ≠ [] := by
  obtain ⟨n, rfl⟩ := Nat.exists_eq_succ_of_ne_zero hn
  obtain ⟨b, file, rfl⟩ := List.exists_cons_of_ne_nil h
  rw [fgets]
  split <;> simp

theorem fgets_rest_lt {file : Bytes} (h : file ≠ []) : (fgets room file).2.length < file.length := by
  have happend := congrArg List.length (fgets_append room file)
  have hpos := List.length_pos_iff.mpr (fgets_ne_nil (n := room) (by decide) h)
  rw [List.length_append] at happend
  omega

/-- `strcspn` with one character -/
def strcspn (s : Bytes) (c : UInt8) : Nat := (s.takeWhile (· ≠ c)).length

/-- The string in the array after `line[strcspn(line, "\n")] = '\0'`. -/
def stripped (piece : Bytes) : Bytes := (cString piece).take (strcspn (cString piece) 10)

/-- The lines that the loop prints; what is empty is skipped. -/
def shown (file : Bytes) : List Bytes :=
  if file = [] then []
  else
    let line := stripped (fgets room file).1
    if line = [] then shown (fgets room file).2 else line :: shown (fgets room file).2
termination_by file.length
decreasing_by all_goals exact fgets_rest_lt ‹_›

/-- `show_file`; a file that cannot be opened has an error text. -/
def showFile (path title : Bytes) (file : Except Bytes Bytes) : List Bytes :=
  (utf8 "── " ++ title ++ literal " (" ++ path ++ utf8 ") ──") ::
    match file with
    | .error strerror => [utf8 "   (打不开: " ++ strerror ++ literal ")"]
    | .ok content =>
      if (shown content).length = 0 then [utf8 "   (空)"]
      else (shown content).map (literal "   " ++ ·)

/-! ## One piece -/

theorem fgets_cases (n : Nat) (file : Bytes) :
    (∃ l rest, (10 : UInt8) ∉ l ∧ l.length < n ∧ file = l ++ 10 :: rest ∧ fgets n file = (l ++ [10], rest)) ∨
    (10 : UInt8) ∉ file ∧ file.length < n ∧ fgets n file = (file, []) ∨
    (10 : UInt8) ∉ (file.take n) ∧ n ≤ file.length ∧ fgets n file = (file.take n, file.drop n) := by
  induction n generalizing file with
  | zero => exact .inr (.inr ⟨by simp, Nat.zero_le _, rfl⟩)
  | succ n ih =>
    cases file with
    | nil => exact .inr (.inl ⟨by simp, by simp, rfl⟩)
    | cons b file =>
      rw [fgets]
      by_cases hb : b = 10
      · subst hb
        exact .inl ⟨[], file, by simp, by simp, rfl, rfl⟩
      · have hb' : 10 ≠ b := fun h => hb h.symm
        rw [if_neg hb]
        rcases ih file with ⟨l, rest, hl, hlen, rfl, hget⟩ | ⟨hl, hlen, hget⟩ | ⟨hl, hlen, hget⟩
        · refine .inl ⟨b :: l, rest, by simp [hb', hl], by simpa using hlen, rfl, ?_⟩
          rw [hget]
          rfl
        · exact .inr (.inl ⟨by simp [hb', hl], by simpa using hlen, by rw [hget]⟩)
        · exact .inr (.inr ⟨by simp [hb', hl], by simpa using hlen, by rw [hget]; rfl⟩)

theorem stripped_eq (piece : Bytes) : stripped piece = cString (piece.takeWhile (· ≠ 10)) := by
  have htake : stripped piece = (cString piece).takeWhile (· ≠ 10) :=
    (List.prefix_iff_eq_take.mp (List.takeWhile_prefix _)).symm
  rw [htake, cString, cString, List.takeWhile_takeWhile, List.takeWhile_takeWhile]
  simp only [and_comm]

theorem takeWhile_line {l : Bytes} (h : (10 : UInt8) ∉ l) : l.takeWhile (· ≠ 10) = l :=
  List.takeWhile_eq_self_iff.mpr fun _ hb => decide_eq_true fun h10 => h (h10 ▸ hb)

/-! ## The loop -/

/-- What is printed of the lines: each in parts of 511 bytes, a part as far as its first NUL, if there
is something before it. -/
def shownLines (ls : List Bytes) : List Bytes :=
  ((ls.flatMap (Lines.parts 510)).map cString).filter (· ≠ [])

theorem shownLines_cons (l : Bytes) (ls : List Bytes) :
    shownLines (l :: ls) = shownLines [l] ++ shownLines ls := by
  simp [shownLines]

theorem shownLines_one {l : Bytes} (h : l.length ≤ 511) : shownLines [l] = [cString l].filter (· ≠ []) := by
  by_cases hl : l = []
  · subst hl
    simp [shownLines, cString]
  · simp [shownLines, Lines.parts_of_length_le hl h]

theorem shown_piece {file : Bytes} (h : file ≠ []) :
    shown file = [stripped (fgets room file).1].filter (· ≠ []) ++ shown (fgets room file).2 := by
  rw [shown, if_neg h]
  simp only
  split
  · next hnil => simp [hnil]
  · next hne => simp [hne]

/-- What one call of `fgets` takes off the lines of the file. -/
theorem shownLines_piece (file : Bytes) : shownLines (file.splitOn 10) =
    [stripped (fgets room file).1].filter (· ≠ []) ++ shownLines ((fgets room file).2.splitOn 10) := by
  rw [stripped_eq]
  rcases fgets_cases room file with ⟨l, rest, hl, hlen, rfl, hget⟩ | ⟨hl, hlen, hget⟩ | ⟨hl, hlen, hget⟩
  · have hline : (l ++ [10]).takeWhile (· ≠ 10) = l := by
      rw [List.takeWhile_append_of_pos (List.takeWhile_eq_self_iff.mp (takeWhile_line hl))]
      simp
    rw [List.splitOn_append_cons_self_of_not_mem hl, shownLines_cons, shownLines_one hlen.le, hget, hline]
  · rw [List.splitOn_eq_singleton hl, shownLines_one hlen.le, hget, takeWhile_line hl]
    simp [shownLines]
  · obtain ⟨m, ms, hms⟩ := List.exists_cons_of_ne_nil (List.splitOn_ne_nil 10 (file.drop room))
    have htake : (file.take room).length = 511 := List.length_take_of_le hlen
    have hparts : Lines.parts 510 (file.take room ++ m) = file.take room :: Lines.parts 510 m := by
      rw [Lines.parts, if_neg (by simp [← List.length_eq_zero_iff, htake]), List.take_left' htake,
        List.drop_left' htake]
    have hsplit : file.splitOn 10 = (file.take room ++ m) :: ms := by
      conv_lhs => rw [← List.take_append_drop room file, Lines.splitOn_append hl, hms]
      rfl
    rw [hsplit, hget, takeWhile_line hl, hms]
    simp [shownLines, hparts, List.filter_cons]
    split <;> rfl

theorem shown_eq (file : Bytes) : shown file = shownLines (file.splitOn 10) := by
  induction hn : file.length using Nat.strong_induction_on generalizing file with
  | _ n ih =>
    subst hn
    by_cases h : file = []
    · subst h
      rw [shown, if_pos rfl]
      simp [shownLines]
    · rw [shown_piece h, shownLines_piece, ih _ (fgets_rest_lt h) _ rfl]

theorem fgets_length_le (n : Nat) (file : Bytes) : (fgets n file).1.length ≤ n := by
  rcases fgets_cases n file with ⟨l, rest, -, hlen, -, hget⟩ | ⟨-, hlen, hget⟩ | ⟨-, -, hget⟩
  · rw [hget, List.length_append]
    exact hlen
  · rw [hget]
    exact hlen.le
  · rw [hget]
    exact List.length_take_le n file

theorem stripped_fits (piece : Bytes) :
    (stripped piece).length ≤ piece.length ∧ (10 : UInt8) ∉ stripped piece := by
  rw [stripped_eq]
  constructor
  · exact ((List.takeWhile_sublist _).trans (List.takeWhile_sublist _)).length_le
  · intro h
    exact absurd (List.mem_takeWhile_imp ((List.takeWhile_subset _) h)) (by decide)

theorem shown_fits {file l : Bytes} (h : l ∈ shown file) : l ≠ [] ∧ l.length ≤ 511 ∧ (10 : UInt8) ∉ l := by
  induction hn : file.length using Nat.strong_induction_on generalizing file with
  | _ n ih =>
    subst hn
    by_cases hne : file = []
    · rw [shown, if_pos hne] at h
      cases h
    · rw [shown_piece hne, List.mem_append, List.mem_filter, List.mem_singleton] at h
      rcases h with ⟨rfl, hl⟩ | h
      · obtain ⟨hlen, h10⟩ := stripped_fits (fgets room file).1
        exact ⟨of_decide_eq_true hl, hlen.trans (fgets_length_le room file), h10⟩
      · exact ih _ (fgets_rest_lt hne) h rfl

/-- Without NULs nothing is lost but the newlines. -/
theorem shown_flatten {file : Bytes} (h : (0 : UInt8) ∉ file) : (shown file).flatten = file.filter (· ≠ 10) := by
  have hfree : ∀ p ∈ (file.splitOn 10).flatMap (Lines.parts 510), cString p = p ∧ p ≠ [] := by
    intro p hp
    obtain ⟨l, hl, hpl⟩ := List.mem_flatMap.mp hp
    refine ⟨cString_of_nulFree fun h0 => h ?_, Lines.ne_nil_of_mem_parts hpl⟩
    have hmem : (0 : UInt8) ∈ (file.splitOn 10).flatten :=
      List.mem_flatten.mpr ⟨l, hl, Lines.parts_flatten 510 l ▸ List.mem_flatten.mpr ⟨p, hpl, h0⟩⟩
    rw [Lines.flatten_splitOn] at hmem
    exact List.mem_of_mem_filter hmem
  have hmap : ((file.splitOn 10).flatMap (Lines.parts 510)).map cString =
      (file.splitOn 10).flatMap (Lines.parts 510) := by
    rw [List.map_congr_left fun p hp => (hfree p hp).1, List.map_id']
  rw [shown_eq, shownLines, hmap, List.filter_eq_self.mpr fun p hp => decide_eq_true (hfree p hp).2,
    Lines.flatten_flatMap_parts, Lines.flatten_splitOn]

/-- A file is shown line by line, long lines in parts of 511 bytes, and `(空)` in place of no lines. Of
a file without NULs every byte is shown once and in its place, but for the newlines. -/
theorem showFile_lines (path title file : Bytes) :
    showFile path title (.ok file) =
      (utf8 "── " ++ title ++ literal " (" ++ path ++ utf8 ") ──") ::
        (if shownLines (file.splitOn 10) = [] then [utf8 "   (空)"]
          else (shownLines (file.splitOn 10)).map (literal "   " ++ ·)) ∧
    (∀ l ∈ shownLines (file.splitOn 10), l ≠ [] ∧ l.length ≤ 511 ∧ (10 : UInt8) ∉ l) ∧
    ((0 : UInt8) ∉ file → (shownLines (file.splitOn 10)).flatten = file.filter (· ≠ 10)) := by
  rw [← shown_eq]
  refine ⟨?_, fun _ => shown_fits, shown_flatten⟩
  simp only [showFile, List.length_eq_zero_iff]

end LinuxDriverLab.ShowFile
