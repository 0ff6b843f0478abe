import Mathlib.Data.List.Basic

/-!
# A journal of changes

Each change of a value is noted with the value before and the one after. The notes make a chain, and
they can be read back.
-/

namespace LinuxDriverLab.Journal

variable {α β : Type} (line : α → α → β)

/-- The notes of the values `xs`, one after the other, from `old` on. -/
def lines : α → List α → List β
  | _, [] => []
  | old, x :: xs => line old x :: lines x xs

/-- The last of some values, or the one before them. -/
def lastOf : α → List α → α
  | old, [] => old
  | _, x :: xs => lastOf x xs

theorem lastOf_append (old : α) (xs ys : List α) : lastOf old (xs ++ ys) = lastOf (lastOf old xs) ys := by
  induction xs generalizing old with
  | nil => rfl
  | cons x xs ih => exact ih x

theorem lines_append (old : α) (xs ys : List α) :
    lines line old (xs ++ ys) = lines line old xs ++ lines line (lastOf old xs) ys := by
  induction xs generalizing old with
  | nil => rfl
  | cons x xs ih => rw [List.cons_append, lines, ih, lines, lastOf, List.cons_append]

/-- The notes in front of something that is none can be read back, from the first value on. -/
theorem lines_append_inj {line : α → α → β} (hline : ∀ old x y, line old x = line old y → x = y)
    {b c : β} (hb : ∀ x y, line x y ≠ b) (hc : ∀ x y, line x y ≠ c) {u v : List β} {old : α}
    {xs ys : List α} (h : lines line old xs ++ b :: u = lines line old ys ++ c :: v) :
    xs = ys ∧ b = c ∧ u = v := by
  induction xs generalizing old ys with
  | nil =>
    cases ys with
    | nil => exact ⟨rfl, List.cons.inj h⟩
    | cons y ys => exact absurd (List.cons.inj h).1.symm (hb old y)
  | cons x xs ih =>
    cases ys with
    | nil => exact absurd (List.cons.inj h).1 (hc old x)
    | cons y ys =>
      obtain ⟨hhead, htail⟩ := List.cons.inj h
      obtain rfl := hline old x y hhead
      obtain ⟨rfl, hrest⟩ := ih htail
      exact ⟨rfl, hrest⟩

end LinuxDriverLab.Journal
