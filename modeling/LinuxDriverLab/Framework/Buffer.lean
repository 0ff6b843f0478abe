import Mathlib.Data.List.Basic

/-!
# Fixed-size byte buffers

A buffer of `cap` bytes with bulk stores and slices. A store that runs past the end changes only
the bytes that lie inside; whether it does is a matter of its range, stated separately.
-/

namespace LinuxDriverLab

abbrev Bytes := List UInt8

/-- The bytes `[off, off + n)` of `b`, as far as they exist. -/
def slice (b : Bytes) (off n : Nat) : Bytes := (b.drop off).take n

theorem slice_length (b : Bytes) (off n : Nat) :
    (slice b off n).length = min n (b.length - off) := by
  simp [slice]

theorem slice_append (b : Bytes) (off n m : Nat) :
    slice b off (n + m) = slice b off n ++ slice b (off + n) m := by
  simp only [slice, List.take_add, List.drop_drop]

theorem slice_self_length (b : Bytes) (off n : Nat) :
    slice b off (slice b off n).length = slice b off n := by
  rw [slice_length, slice, slice, List.take_eq_take_iff, List.length_drop]
  omega

@[simp] theorem slice_zero (b : Bytes) (off : Nat) : slice b off 0 = [] := rfl

theorem slice_of_length_le {b : Bytes} {off : Nat} (h : b.length ≤ off) (n : Nat) :
    slice b off n = [] := by
  simp [slice, List.drop_eq_nil_of_le h]

theorem slice_take {b : Bytes} {off n len : Nat} (h : off + n ≤ len) :
    slice (b.take len) off n = slice b off n := by
  simp only [slice, List.drop_take, List.take_take]
  congr 1
  omega

structure Buf (cap : Nat) where
  bytes : Bytes
  length_eq : bytes.length = cap
deriving DecidableEq

namespace Buf

variable {cap : Nat}

theorem eq_of_bytes {a b : Buf cap} (h : a.bytes = b.bytes) : a = b := by
  cases a
  cases b
  congr

def zero (cap : Nat) : Buf cap := ⟨List.replicate cap 0, List.length_replicate⟩

/-- Copy `src` to offset `off`. -/
def store (b : Buf cap) (off : Nat) (src : Bytes) : Buf cap where
  bytes := (b.bytes.take off ++ src ++ b.bytes.drop (off + src.length)).take cap
  length_eq := by
    have := b.length_eq
    simp only [List.length_take, List.length_append, List.length_drop]
    omega

theorem store_getElem? (b : Buf cap) (off : Nat) (src : Bytes) (i : Nat) :
    (b.store off src).bytes[i]? =
      if off ≤ i ∧ i < off + src.length ∧ i < cap then src[i - off]? else b.bytes[i]? := by
  have hb := b.length_eq
  simp only [store, List.append_assoc, List.getElem?_take]
  by_cases hi : i < cap
  · rw [if_pos hi]
    by_cases hlo : i < off
    · rw [List.getElem?_append_left (by simp; omega), List.getElem?_take, if_pos hlo,
        if_neg (by omega)]
    · rw [List.getElem?_append_right (by simp; omega)]
      have hoff : (b.bytes.take off).length = off := by simp; omega
      rw [hoff]
      by_cases hhi : i < off + src.length
      · rw [List.getElem?_append_left (by omega), if_pos (by omega)]
      · rw [List.getElem?_append_right (by omega), List.getElem?_drop, if_neg (by omega)]
        congr 1
        omega
  · rw [if_neg hi, if_neg (by omega), List.getElem?_eq_none (by omega)]

theorem store_start (b : Buf cap) {src : Bytes} (h : src.length ≤ cap) :
    (b.store 0 src).bytes = src ++ b.bytes.drop src.length := by
  have hb := b.length_eq
  simp only [store, List.take_zero, List.nil_append, Nat.zero_add]
  apply List.take_of_length_le
  simp only [List.length_append, List.length_drop]
  omega

/-- A store at the start leaves the first `len` bytes as they were when it repeats them. -/
theorem store_start_take_eq_iff (b : Buf cap) {src : Bytes} {len : Nat} (hlen : len ≤ cap) :
    (b.store 0 src).bytes.take len = b.bytes.take len ↔
      ∀ i, i < len → i < src.length → src[i]? = b.bytes[i]? := by
  constructor
  · intro h i hi hs
    have hget := congrArg (fun l => l[i]?) h
    simp only [List.getElem?_take, if_pos hi, b.store_getElem?] at hget
    rw [if_pos (by omega)] at hget
    simpa using hget
  · intro h
    apply List.ext_getElem?
    intro i
    simp only [List.getElem?_take, b.store_getElem?]
    by_cases hi : i < len
    · by_cases hs : i < src.length
      · rw [if_pos hi, if_pos hi, if_pos (by omega)]
        exact h i hi hs
      · rw [if_pos hi, if_pos hi, if_neg (by omega)]
    · rw [if_neg hi, if_neg hi]

theorem slice_store (b : Buf cap) {off : Nat} {src : Bytes} (h : off + src.length ≤ cap) :
    slice (b.store off src).bytes off src.length = src := by
  apply List.ext_getElem?
  intro i
  simp only [slice, List.getElem?_take, List.getElem?_drop, b.store_getElem?]
  split_ifs with hi
  · congr 1
    omega
  · omega
  · rw [List.getElem?_eq_none (Nat.le_of_not_lt hi)]

theorem take_store (b : Buf cap) {off : Nat} {src : Bytes} (h : off + src.length ≤ cap) :
    (b.store off src).bytes.take (off + src.length) = b.bytes.take off ++ src := by
  have hoff : (b.bytes.take off).length = off := List.length_take_of_le (by rw [b.length_eq]; omega)
  have hlen : (b.bytes.take off ++ src).length = off + src.length := by rw [List.length_append, hoff]
  rw [store, List.take_take, Nat.min_eq_left h, ← hlen, List.take_left]

theorem take_store_before (b : Buf cap) {off : Nat} (h : off ≤ cap) (src : Bytes) :
    (b.store off src).bytes.take off = b.bytes.take off := by
  have hoff : (b.bytes.take off).length = off := List.length_take_of_le (by rw [b.length_eq]; omega)
  rw [store, List.take_take, Nat.min_eq_left h, List.append_assoc, List.take_append_of_le_length (by omega),
    List.take_of_length_le (by omega)]

/-- The byte at a place. -/
def byte (b : Buf cap) (i : Nat) : UInt8 := b.bytes.getD i 0

theorem byte_store (b : Buf cap) (off : Nat) (src : Bytes) (i : Nat) :
    (b.store off src).byte i =
      if off ≤ i ∧ i < off + src.length ∧ i < cap then src.getD (i - off) 0 else b.byte i := by
  simp only [byte, List.getD_eq_getElem?_getD, b.store_getElem?]
  split_ifs <;> rfl

@[simp] theorem byte_zero (cap i : Nat) : (Buf.zero cap).byte i = 0 := by
  simp [byte, zero, List.getD_eq_getElem?_getD, List.getElem?_replicate]
  split_ifs <;> rfl

end Buf

end LinuxDriverLab
