import Mathlib.Data.Nat.Bitwise
import Mathlib.Data.Nat.Digits.Lemmas
import LinuxDriverLab.Framework.Buffer

/-!
# Numbers as byte strings

A number of a fixed number of bytes in either byte order, and the exclusive-or of two of them,
which works byte by byte.
-/

namespace LinuxDriverLab

/-- The value of a byte string, least significant byte first. -/
def leNat (b : Bytes) : Nat := Nat.ofDigits 256 (b.map UInt8.toNat)

/-- The low `k` bytes of a number, least significant first. -/
def leBytes : Nat → Nat → Bytes
  | 0, _ => []
  | k + 1, v => UInt8.ofNat v :: leBytes k (v / 256)

/-- The value of a byte string, most significant byte first. -/
def beNat (b : Bytes) : Nat := leNat b.reverse

/-- The low `k` bytes of a number, most significant first. -/
def beBytes (k v : Nat) : Bytes := (leBytes k v).reverse

@[simp] theorem leNat_nil : leNat [] = 0 := rfl

@[simp] theorem leNat_cons (x : UInt8) (b : Bytes) : leNat (x :: b) = x.toNat + 256 * leNat b :=
  Nat.ofDigits_cons

@[simp] theorem leBytes_length (k v : Nat) : (leBytes k v).length = k := by
  induction k generalizing v with
  | zero => rfl
  | succ k ih => simp [leBytes, ih]

@[simp] theorem beBytes_length (k v : Nat) : (beBytes k v).length = k := by
  simp [beBytes]

theorem leNat_lt (b : Bytes) : leNat b < 256 ^ b.length := by
  induction b with
  | nil => simp
  | cons x b ih =>
    have hx := x.toNat_lt
    rw [leNat_cons, List.length_cons, Nat.pow_succ]
    omega

theorem leNat_leBytes {k v : Nat} (h : v < 256 ^ k) : leNat (leBytes k v) = v := by
  induction k generalizing v with
  | zero =>
    have hv : v = 0 := by simpa using h
    simp [leBytes, hv]
  | succ k ih =>
    rw [Nat.pow_succ] at h
    rw [leBytes, leNat_cons, ih (Nat.div_lt_of_lt_mul (by omega)), UInt8.toNat_ofNat']
    omega

theorem leBytes_leNat (b : Bytes) : leBytes b.length (leNat b) = b := by
  induction b with
  | nil => rfl
  | cons x b ih =>
    have hx := x.toNat_lt
    have hlow : UInt8.ofNat (x.toNat + 256 * leNat b) = x := by
      apply UInt8.toNat_inj.mp
      rw [UInt8.toNat_ofNat']
      omega
    have hhigh : (x.toNat + 256 * leNat b) / 256 = leNat b := by omega
    rw [List.length_cons, leNat_cons, leBytes, hlow, hhigh, ih]

theorem beNat_beBytes {k v : Nat} (h : v < 256 ^ k) : beNat (beBytes k v) = v := by
  rw [beNat, beBytes, List.reverse_reverse, leNat_leBytes h]

theorem beBytes_beNat (b : Bytes) : beBytes b.length (beNat b) = b := by
  have h := leBytes_leNat b.reverse
  rw [List.length_reverse] at h
  rw [beBytes, beNat, h, List.reverse_reverse]

theorem beNat_lt (b : Bytes) : beNat b < 256 ^ b.length := by
  rw [beNat, ← List.length_reverse]
  exact leNat_lt b.reverse

theorem byte_xor_split (x y : UInt8) (a b : Nat) :
    (x.toNat + 256 * a) ^^^ (y.toNat + 256 * b) = (x ^^^ y).toNat + 256 * (a ^^^ b) := by
  have hxy : (x ^^^ y).toNat < 2 ^ 8 := (x ^^^ y).toNat_lt
  apply Nat.eq_of_testBit_eq
  intro i
  rw [Nat.testBit_xor, Nat.add_comm x.toNat, Nat.add_comm y.toNat, Nat.add_comm (x ^^^ y).toNat]
  simp only [show (256 : Nat) = 2 ^ 8 from rfl]
  rw [Nat.testBit_two_pow_mul_add _ x.toNat_lt, Nat.testBit_two_pow_mul_add _ y.toNat_lt,
    Nat.testBit_two_pow_mul_add _ hxy]
  by_cases hi : i < 8
  · simp only [hi, if_true, UInt8.toNat_xor, Nat.testBit_xor]
  · simp only [hi, if_false, Nat.testBit_xor]

theorem leNat_xor {a b : Bytes} (h : a.length = b.length) :
    leNat (List.zipWith (· ^^^ ·) a b) = leNat a ^^^ leNat b := by
  induction a generalizing b with
  | nil =>
    have hb : b = [] := List.length_eq_zero_iff.mp h.symm
    simp [hb]
  | cons x a ih =>
    cases b with
    | nil => simp at h
    | cons y b =>
      rw [List.zipWith_cons_cons, leNat_cons, leNat_cons, leNat_cons, byte_xor_split,
        ih (by simpa using h)]

theorem beNat_xor {a b : Bytes} (h : a.length = b.length) :
    beNat (List.zipWith (· ^^^ ·) a b) = beNat a ^^^ beNat b := by
  rw [beNat, List.reverse_zipWith h, leNat_xor (by simpa using h), beNat, beNat]

end LinuxDriverLab
