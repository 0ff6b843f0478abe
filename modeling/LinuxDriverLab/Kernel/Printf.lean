import Mathlib.Data.List.TakeWhile
import LinuxDriverLab.Framework.Buffer
import LinuxDriverLab.Framework.Words

/-!
# Formatted output

The conversions that the drivers use, and `snprintf`.
-/

namespace LinuxDriverLab

/-- What a format has between its conversions. -/
def literal (s : String) : Bytes := s.toList.map Char.toUInt8

/-- The same for text beyond ASCII, in UTF-8. -/
def utf8 (s : String) : Bytes := s.toUTF8.data.toList

/-- The decimal digits of a natural number, in ASCII. -/
def decimal (n : Nat) : Bytes := (Nat.toDigits 10 n).map Char.toUInt8

/-- `%d` -/
def formatInt (x : Int) : Bytes := if x < 0 then 45 :: decimal x.natAbs else decimal x.natAbs

/-- `%0wd` of a number that is not negative -/
def formatZero (w n : Nat) : Bytes := List.replicate (w - (decimal n).length) 48 ++ decimal n

/-- `%.*s`: at most `prec` bytes, and none from the first NUL on -/
def formatString (prec : Nat) (s : Bytes) : Bytes := (s.take prec).takeWhile (· ≠ 0)

/-- What `snprintf` stores and what it returns. -/
structure Printed where
  line : Bytes
  ret : Nat

/-- `snprintf` into `size` bytes, `size` being positive -/
def snprintf (size : Nat) (text : Bytes) : Printed := ⟨text.take (size - 1) ++ [0], text.length⟩

theorem snprintf_take {size : Nat} {text : Bytes} (h : text.length < size) :
    (snprintf size text).line.take (snprintf size text).ret = text := by
  simp [snprintf, List.take_of_length_le (Nat.le_sub_one_of_lt h)]

theorem decimal_length_le {n k : Nat} (hk : 0 < k) (h : n < 10 ^ k) : (decimal n).length ≤ k := by
  rw [decimal, List.length_map, Nat.length_toDigits_le_iff (by decide) hk]
  exact h

@[simp] theorem formatZero_length (w n : Nat) :
    (formatZero w n).length = max w (decimal n).length := by
  rw [formatZero, List.length_append, List.length_replicate]
  omega

theorem minus_notMem_decimal (n : Nat) : (45 : UInt8) ∉ decimal n := by
  intro h
  obtain ⟨c, hc, h45⟩ := List.mem_map.mp h
  have hdigit := Nat.isDigit_of_mem_toDigits (by decide) (by decide) hc
  simp only [Char.isDigit, Bool.and_eq_true, decide_eq_true_eq] at hdigit
  obtain ⟨hlo, hhi⟩ := hdigit
  have hnat : c.val.toNat % 256 = 45 := congrArg UInt8.toNat h45
  have hlo' : 48 ≤ c.val.toNat := hlo
  have hhi' : c.val.toNat ≤ 57 := hhi
  omega

/-- Numbers of different sign do not print alike, whatever follows. -/
theorem formatInt_append_ne {x y : Int} (hx : x < 0) (hy : 0 ≤ y) (u v : Bytes) :
    formatInt x ++ u ≠ formatInt y ++ v := by
  rw [formatInt, if_pos hx, formatInt, if_neg (by omega)]
  intro h
  cases hdigits : decimal y.natAbs with
  | nil => exact Nat.toDigits_ne_nil (List.map_eq_nil_iff.mp hdigits)
  | cons d rest =>
    rw [hdigits] at h
    obtain ⟨rfl, -⟩ := List.cons.inj h
    exact minus_notMem_decimal y.natAbs (hdigits ▸ List.mem_cons_self)

theorem formatInt_length_le {x : Int} (hlo : -2 ^ 31 ≤ x) (hhi : x < 2 ^ 31) :
    (formatInt x).length ≤ 11 := by
  have hdec : (decimal x.natAbs).length ≤ 10 := decimal_length_le (by decide) (by omega)
  unfold formatInt
  split
  · rw [List.length_cons]
    omega
  · omega

/-- A string is printed whole if it has no NUL, and only then. -/
theorem formatString_eq_self_iff {prec : Nat} {s : Bytes} (hlen : s.length ≤ prec) :
    formatString prec s = s ↔ (0 : UInt8) ∉ s := by
  rw [formatString, List.take_of_length_le hlen, List.takeWhile_eq_self_iff]
  constructor
  · intro h hmem
    simpa using h 0 hmem
  · intro h b hb
    exact decide_eq_true fun h0 => h (h0 ▸ hb)

theorem formatString_of_nulFree {prec : Nat} {s : Bytes} (hlen : s.length ≤ prec) (h : (0 : UInt8) ∉ s) :
    formatString prec s = s :=
  (formatString_eq_self_iff hlen).mpr h

theorem formatString_length_le (prec : Nat) (s : Bytes) : (formatString prec s).length ≤ s.length :=
  (List.takeWhile_sublist _).length_le.trans (List.length_take_le' _ _)

end LinuxDriverLab
