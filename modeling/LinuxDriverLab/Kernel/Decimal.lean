import LinuxDriverLab.Kernel.Printf

/-!
# Decimal text

A number can be read back from its digits, also when other text follows them.
-/

namespace LinuxDriverLab

/-- `isdigit` on an ASCII byte -/
def isDigit (b : UInt8) : Bool := 48 ≤ b.toNat && b.toNat ≤ 57

/-- The value of a string of digits. -/
def digitsNat (ds : Bytes) : Nat := ds.foldl (fun acc d => 10 * acc + (d.toNat - 48)) 0

theorem digit_toUInt8 {c : Char} (h : c.isDigit) : c.toUInt8.toNat = c.toNat := by
  simp only [Char.isDigit, Bool.and_eq_true, decide_eq_true_eq] at h
  have hhi : c.toNat ≤ 57 := h.2
  exact Nat.mod_eq_of_lt (Nat.lt_of_le_of_lt hhi (by decide))

theorem decimal_isDigit {n : Nat} {b : UInt8} (h : b ∈ decimal n) : isDigit b := by
  obtain ⟨c, hc, rfl⟩ := List.mem_map.mp h
  have hdigit := Nat.isDigit_of_mem_toDigits (by decide) (by decide) hc
  rw [isDigit, digit_toUInt8 hdigit]
  simp only [Char.isDigit, Bool.and_eq_true, decide_eq_true_eq] at hdigit ⊢
  exact hdigit

theorem digitsNat_decimal (n : Nat) : digitsNat (decimal n) = n := by
  have hfold : ∀ (cs : List Char) (acc : Nat), (∀ c ∈ cs, c.isDigit) →
      (cs.map Char.toUInt8).foldl (fun acc d => 10 * acc + (d.toNat - 48)) acc =
        Nat.ofDigitChars 10 cs acc := by
    intro cs
    induction cs with
    | nil => simp
    | cons c cs ih =>
      intro acc hcs
      rw [List.map_cons, List.foldl_cons, Nat.ofDigitChars_cons,
        ih _ fun d hd => hcs d (List.mem_cons_of_mem c hd), digit_toUInt8 (hcs c List.mem_cons_self)]
      rfl
  rw [digitsNat, decimal, hfold _ _ fun c hc => Nat.isDigit_of_mem_toDigits (by decide) (by decide) hc,
    Nat.ofDigitChars_ten_toDigits]

theorem decimal_ne_nil (n : Nat) : decimal n ≠ [] :=
  fun h => Nat.toDigits_ne_nil (List.map_eq_nil_iff.mp h)

theorem takeWhile_decimal (n : Nat) {rest : Bytes} (h : ∀ b ∈ rest.head?, ¬ isDigit b) :
    (decimal n ++ rest).takeWhile isDigit = decimal n := by
  rw [List.takeWhile_append_of_pos fun b hb => decimal_isDigit hb]
  cases rest with
  | nil => simp
  | cons b rest => simp [h b (by simp)]

theorem decimal_append_inj {m n : Nat} {u v : Bytes} (hu : ∀ b ∈ u.head?, ¬ isDigit b)
    (hv : ∀ b ∈ v.head?, ¬ isDigit b) (h : decimal m ++ u = decimal n ++ v) : m = n ∧ u = v := by
  have hdigits : decimal m = decimal n := by
    rw [← takeWhile_decimal m hu, h, takeWhile_decimal n hv]
  have hmn : m = n := by rw [← digitsNat_decimal m, hdigits, digitsNat_decimal]
  rw [hdigits] at h
  exact ⟨hmn, List.append_cancel_left h⟩

end LinuxDriverLab
