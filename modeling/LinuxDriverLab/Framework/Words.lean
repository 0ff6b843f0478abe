import Mathlib.Algebra.Order.Ring.Int
import Mathlib.Tactic.Ring

/-!
# Machine words

The C types whose limits matter: `size_t` as a natural number below `2 ^ 64`, and the signed types
as integers brought back into range by two's complement.
-/

namespace LinuxDriverLab

/-- Subtraction of two `size_t` values. -/
def usub64 (a b : Nat) : Nat := (a + 2 ^ 64 - b) % 2 ^ 64

theorem usub64_of_le {a b : Nat} (h : b ≤ a) (ha : a < 2 ^ 64) : usub64 a b = a - b := by
  unfold usub64
  omega

theorem usub64_of_lt {a b : Nat} (h : a < b) (hb : b < 2 ^ 64) :
    usub64 a b = 2 ^ 64 - (b - a) := by
  unfold usub64
  omega

/-- Conversion to `int`. -/
def int32 (x : Int) : Int := x.bmod (2 ^ 32)

/-- Conversion to `long`. -/
def int64 (x : Int) : Int := x.bmod (2 ^ 64)

theorem int32_of_range {x : Int} (hlo : -2 ^ 31 ≤ x) (hhi : x < 2 ^ 31) : int32 x = x := by
  unfold int32
  rw [Int.bmod_def]
  omega

theorem int64_of_range {x : Int} (hlo : -2 ^ 63 ≤ x) (hhi : x < 2 ^ 63) : int64 x = x := by
  unfold int64
  rw [Int.bmod_def]
  omega

theorem int32_range (x : Int) : -2 ^ 31 ≤ int32 x ∧ int32 x < 2 ^ 31 := by
  unfold int32
  rw [Int.bmod_def]
  omega

theorem int32_add_int32 (x y : Int) : int32 (int32 x + y) = int32 (x + y) := by
  unfold int32
  exact Int.bmod_add_bmod

end LinuxDriverLab
