import LinuxDriverLab.Kernel.Printf

/-!
# Hexadecimal text

The conversions `%0wx` of numbers that fit their width, and the values of their digits.
-/

namespace LinuxDriverLab

/-- `%x` -/
def hexDigits (n : Nat) : Bytes := (Nat.toDigits 16 n).map Char.toUInt8

/-- `%0wx` -/
def formatHex (w n : Nat) : Bytes := List.replicate (w - (hexDigits n).length) 48 ++ hexDigits n

/-- The value of a digit, in lower case. -/
def hexVal (b : UInt8) : Nat := if b.toNat ≤ 57 then b.toNat - 48 else b.toNat - 87

/-- The value of a string of digits. -/
def hexNat (ds : Bytes) : Nat := ds.foldl (fun acc d => 16 * acc + hexVal d) 0

theorem hexVal_digitChar {d : Nat} (h : d < 16) : hexVal (Nat.digitChar d).toUInt8 = d := by
  have hall : ∀ d : Fin 16, hexVal (Nat.digitChar d).toUInt8 = d := by decide
  exact hall ⟨d, h⟩

theorem hexNat_concat (ds : Bytes) (d : UInt8) : hexNat (ds ++ [d]) = 16 * hexNat ds + hexVal d := by
  simp only [hexNat, List.foldl_append, List.foldl_cons, List.foldl_nil]

theorem hexDigits_eq (n : Nat) :
    hexDigits n = if n < 16 then [(Nat.digitChar n).toUInt8]
      else hexDigits (n / 16) ++ [(Nat.digitChar (n % 16)).toUInt8] := by
  rw [hexDigits, Nat.toDigits_eq_if (by decide)]
  split
  · rfl
  · rw [List.map_append]
    rfl

theorem hexNat_hexDigits (n : Nat) : hexNat (hexDigits n) = n := by
  induction n using Nat.strongRecOn with
  | ind n ih =>
    rw [hexDigits_eq]
    split
    · next h => simpa [hexNat] using hexVal_digitChar h
    · next h =>
      rw [hexNat_concat, ih (n / 16) (by omega), hexVal_digitChar (Nat.mod_lt n (by decide))]
      omega

theorem hexNat_zeros (k : Nat) (ds : Bytes) : hexNat (List.replicate k 48 ++ ds) = hexNat ds := by
  induction k with
  | zero => rfl
  | succ k ih =>
    rw [List.replicate_succ, List.cons_append, ← ih]
    rfl

theorem hexNat_formatHex (w n : Nat) : hexNat (formatHex w n) = n := by
  rw [formatHex, hexNat_zeros, hexNat_hexDigits]

theorem formatHex_length {w n : Nat} (hw : 0 < w) (h : n < 16 ^ w) : (formatHex w n).length = w := by
  have hlen : (hexDigits n).length ≤ w := by
    rw [hexDigits, List.length_map, Nat.length_toDigits_le_iff (by decide) hw]
    exact h
  rw [formatHex, List.length_append, List.length_replicate]
  omega

end LinuxDriverLab
