import Mathlib.Data.List.Basic

/-!
# Text in lines

A text splits into lines at a separator. A reader that puts its lines together symbol by symbol
finds these lines, and one that takes a bounded part at a time finds them in parts.
-/

namespace LinuxDriverLab.Lines

variable {α : Type}

/-- The lines that have ended, and the one that is being read. -/
structure Reader (α : Type) where
  ended : List (List α)
  current : List α

section

variable [DecidableEq α]

def Reader.feed (sep : α) (r : Reader α) (a : α) : Reader α :=
  if a = sep then ⟨r.ended ++ [r.current], []⟩ else ⟨r.ended, r.current ++ [a]⟩

def read (sep : α) (text : List α) : Reader α := text.foldl (Reader.feed sep) ⟨[], []⟩

theorem foldl_feed (sep : α) (text : List α) (r : Reader α) :
    (text.foldl (Reader.feed sep) r).ended ++ [(text.foldl (Reader.feed sep) r).current] =
      r.ended ++ (text.splitOn sep).modifyHead (r.current ++ ·) := by
  induction text generalizing r with
  | nil => simp
  | cons a text ih =>
    rw [List.foldl_cons, ih, List.splitOn_cons_eq_if_modifyHead]
    by_cases ha : a = sep
    · obtain ⟨l, ls, hls⟩ := List.exists_cons_of_ne_nil (List.splitOn_ne_nil sep text)
      simp [Reader.feed, ha, hls]
    · obtain ⟨l, ls, hls⟩ := List.exists_cons_of_ne_nil (List.splitOn_ne_nil sep text)
      simp [Reader.feed, ha, hls]

theorem read_lines (sep : α) (text : List α) :
    (read sep text).ended ++ [(read sep text).current] = text.splitOn sep := by
  obtain ⟨l, ls, hls⟩ := List.exists_cons_of_ne_nil (List.splitOn_ne_nil sep text)
  rw [read, foldl_feed, hls]
  rfl

theorem getLast?_splitOn {sep a : α} (ha : a ≠ sep) (text : List α) :
    ((text ++ [a]).splitOn sep).getLast? = some ((read sep text).current ++ [a]) := by
  have hread : read sep (text ++ [a]) = (read sep text).feed sep a := by simp [read]
  rw [← read_lines, List.getLast?_concat, hread, Reader.feed, if_neg ha]

theorem flatten_splitOn (sep : α) (text : List α) :
    (text.splitOn sep).flatten = text.filter (· ≠ sep) := by
  induction text with
  | nil => simp
  | cons a text ih =>
    obtain ⟨l, ls, hls⟩ := List.exists_cons_of_ne_nil (List.splitOn_ne_nil sep text)
    rw [List.splitOn_cons_eq_if_modifyHead]
    by_cases ha : a = sep
    · simp [ha, ih]
    · rw [hls] at ih
      rw [if_neg (by simpa using ha), hls, List.filter_cons_of_pos (by simpa using ha), ← ih]
      rfl

theorem sep_notMem {sep : α} {text l : List α} (h : l ∈ text.splitOn sep) : sep ∉ l := by
  intro hsep
  have hmem : sep ∈ (text.splitOn sep).flatten := List.mem_flatten.mpr ⟨l, h, hsep⟩
  rw [flatten_splitOn] at hmem
  simp at hmem

theorem splitOn_append {sep : α} {l : List α} (h : sep ∉ l) (rest : List α) :
    (l ++ rest).splitOn sep = (rest.splitOn sep).modifyHead (l ++ ·) := by
  obtain ⟨m, ms, hms⟩ := List.exists_cons_of_ne_nil (List.splitOn_ne_nil sep rest)
  induction l with
  | nil => simp [hms]
  | cons a l ih =>
    obtain ⟨ha, hl⟩ := not_or.mp (fun hmem => h (List.mem_cons.mpr hmem))
    rw [List.cons_append, List.splitOn_cons_eq_if_modifyHead, ih hl, hms,
      if_neg (by simpa using Ne.symm ha)]
    rfl

end

/-- A line in parts of `n + 1` symbols, the last of which may be shorter; an empty line has none. -/
def parts (n : Nat) (l : List α) : List (List α) :=
  if l = [] then [] else l.take (n + 1) :: parts n (l.drop (n + 1))
termination_by l.length
decreasing_by
  have := List.length_pos_iff.mpr ‹_›
  rw [List.length_drop]
  omega

@[simp] theorem parts_nil (n : Nat) : parts n ([] : List α) = [] := by
  rw [parts, if_pos rfl]

theorem parts_of_length_le {n : Nat} {l : List α} (hne : l ≠ []) (h : l.length ≤ n + 1) :
    parts n l = [l] := by
  rw [parts, if_neg hne, List.take_of_length_le h, List.drop_eq_nil_of_le h, parts_nil]

theorem parts_flatten (n : Nat) (l : List α) : (parts n l).flatten = l := by
  induction l using parts.induct n with
  | case1 => rw [parts_nil, List.flatten_nil]
  | case2 l hne ih => rw [parts, if_neg hne, List.flatten_cons, ih, List.take_append_drop]

theorem ne_nil_of_mem_parts {n : Nat} {l p : List α} (h : p ∈ parts n l) : p ≠ [] := by
  induction l using parts.induct n with
  | case1 => simp at h
  | case2 l hne ih =>
    rw [parts, if_neg hne, List.mem_cons] at h
    rcases h with rfl | h
    · simpa using hne
    · exact ih h

theorem flatten_flatMap_parts (n : Nat) (ls : List (List α)) :
    (ls.flatMap (parts n)).flatten = ls.flatten := by
  induction ls with
  | nil => rfl
  | cons l ls ih => rw [List.flatMap_cons, List.flatten_append, parts_flatten, ih, List.flatten_cons]

end LinuxDriverLab.Lines
