import Mathlib.Data.List.Induction

/-!
# Patches of a flat memory

A memory is a function from addresses to values, a patch a run of values at an address. What a
sequence of patches leaves at an address is the value of the last one that covers it.
-/

namespace LinuxDriverLab

/-- The values `data`, from address `pos` on. -/
structure Patch (α : Type) where
  pos : Nat
  data : List α

namespace Patch

variable {α : Type}

def at? (p : Patch α) (i : Nat) : Option α := if p.pos ≤ i then p.data[i - p.pos]? else none

def apply (m : Nat → α) (p : Patch α) : Nat → α := fun i => (p.at? i).getD (m i)

/-- The values that the patches write to address `i`, oldest first. -/
def writesAt (ps : List (Patch α)) (i : Nat) : List α := ps.filterMap (·.at? i)

/-- The last value written to address `i`, or what `m` has there. -/
def latest (m : Nat → α) (ps : List (Patch α)) (i : Nat) : α := (writesAt ps i).getLast?.getD (m i)

theorem at?_eq_some {p : Patch α} {i : Nat} {a : α} :
    p.at? i = some a ↔ p.pos ≤ i ∧ p.data[i - p.pos]? = some a := by
  unfold at?
  split
  · next h => simp [h]
  · next h => simp [h]

theorem at?_eq_none {p : Patch α} {i : Nat} :
    p.at? i = none ↔ i < p.pos ∨ p.pos + p.data.length ≤ i := by
  unfold at?
  split
  · rw [List.getElem?_eq_none_iff]
    omega
  · simp only [true_iff]
    omega

theorem apply_of_none {p : Patch α} {i : Nat} (m : Nat → α) (h : p.at? i = none) :
    apply m p i = m i := by
  simp [apply, h]

theorem apply_of_some {p : Patch α} {i : Nat} {a : α} (m : Nat → α) (h : p.at? i = some a) :
    apply m p i = a := by
  simp [apply, h]

theorem apply_append (m : Nat → α) (pos : Nat) (a b : List α) :
    apply (apply m ⟨pos, a⟩) ⟨pos + a.length, b⟩ = apply m ⟨pos, a ++ b⟩ := by
  funext i
  simp only [apply, at?]
  by_cases hlo : pos ≤ i
  · by_cases hmid : pos + a.length ≤ i
    · have ha : a[i - pos]? = none := List.getElem?_eq_none (by omega)
      rw [if_pos hlo, if_pos hmid, if_pos hlo, List.getElem?_append_right (by omega), ha,
        show i - (pos + a.length) = i - pos - a.length by omega]
      rfl
    · rw [if_pos hlo, if_neg hmid, if_pos hlo, List.getElem?_append_left (by omega)]
      rfl
  · rw [if_neg hlo, if_neg (by omega), if_neg hlo]
    rfl

@[simp] theorem apply_nil (m : Nat → α) (pos : Nat) : apply m ⟨pos, []⟩ = m := by
  funext i
  simp [apply, at?]

@[simp] theorem latest_nil (m : Nat → α) (i : Nat) : latest m [] i = m i := rfl

theorem writesAt_concat (ps : List (Patch α)) (p : Option (Patch α)) (i : Nat) :
    writesAt (ps ++ p.toList) i = writesAt ps i ++ (p.bind (·.at? i)).toList := by
  simp only [writesAt, List.filterMap_append]
  cases p with
  | none => simp
  | some p => cases h : p.at? i <;> simp [h]

theorem latest_concat (m : Nat → α) (ps : List (Patch α)) (p : Option (Patch α)) (i : Nat) :
    latest m (ps ++ p.toList) i = (p.bind (·.at? i)).getD (latest m ps i) := by
  simp only [latest, writesAt_concat]
  cases p.bind (·.at? i) <;> simp

end Patch

end LinuxDriverLab
