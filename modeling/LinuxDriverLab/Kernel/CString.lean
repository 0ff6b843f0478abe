import LinuxDriverLab.Kernel.Decimal

/-!
# Strings in C

A string is the bytes in front of its NUL. The functions are those that the two log readers call
on a line of `/dev/kmsg`.
-/

namespace LinuxDriverLab

/-- The string that starts a piece of memory. -/
def cString (mem : Bytes) : Bytes := mem.takeWhile (· ≠ 0)

/-- A string as the callers of a function have it. -/
@[ext] structure CStr where
  bytes : Bytes
  nulFree : (0 : UInt8) ∉ bytes
deriving DecidableEq

/-- `strchr`: the place of the first `c` in a string. -/
def strchr (s : Bytes) (c : UInt8) : Option Nat := s.findIdx? (· == c)

/-- A string after a NUL has been stored over the byte at that place, if there is one. -/
def cutAt (s : Bytes) : Option Nat → Bytes
  | some k => s.take k
  | none => s

/-- `strstr`: the place of the first occurrence of `t` in `s`. -/
def strstr (s t : Bytes) : Option Nat :=
  (List.range (s.length + 1)).find? fun k => t.isPrefixOf (s.drop k)

/-- `isspace` -/
def isSpace (b : UInt8) : Bool := b = 32 || (9 ≤ b.toNat && b.toNat ≤ 13)

/-- `atol`: blanks, a sign, digits; a number that is too large for a `long` gives the nearest one. -/
def atol (s : Bytes) : Int :=
  let t := s.dropWhile isSpace
  if t.head? = some 45 then max (-2 ^ 63) (-(digitsNat (t.tail.takeWhile isDigit) : Int))
  else if t.head? = some 43 then min (2 ^ 63 - 1) (digitsNat (t.tail.takeWhile isDigit) : Int)
  else min (2 ^ 63 - 1) (digitsNat (t.takeWhile isDigit) : Int)

/-- The string that `snprintf` with `"%s"` leaves in an array of `size` bytes. -/
def printedString (size : Nat) (s : Bytes) : Bytes := cString (snprintf size s).line

theorem atol_lt (s : Bytes) : atol s < 2 ^ 63 := by
  simp only [atol]
  split_ifs <;> omega

theorem strchr_eq_none {s : Bytes} {c : UInt8} (h : c ∉ s) : strchr s c = none := by
  apply List.findIdx?_eq_none_iff.mpr
  intro b hb
  exact beq_eq_false_iff_ne.mpr fun hbc => h (hbc ▸ hb)

theorem strchr_append {a b : Bytes} {c : UInt8} (h : c ∉ a) :
    strchr (a ++ c :: b) c = some a.length := by
  have hnone : a.findIdx? (· == c) = none := strchr_eq_none h
  simp [strchr, List.findIdx?_append, List.findIdx?_cons, hnone]

theorem cString_of_nulFree {s : Bytes} (h : (0 : UInt8) ∉ s) : cString s = s := by
  apply List.takeWhile_eq_self_iff.mpr
  intro b hb
  exact decide_eq_true fun h0 => h (h0 ▸ hb)

theorem cString_nulFree (mem : Bytes) : (0 : UInt8) ∉ cString mem :=
  fun h => absurd (List.mem_takeWhile_imp h) (by decide)

theorem cString_append_nul {s : Bytes} (h : (0 : UInt8) ∉ s) (rest : Bytes) :
    cString (s ++ 0 :: rest) = s := by
  have hs : ∀ b ∈ s, decide (b ≠ 0) = true := fun b hb => decide_eq_true fun h0 => h (h0 ▸ hb)
  rw [cString, List.takeWhile_append_of_pos hs, List.takeWhile_cons_of_neg (by decide), List.append_nil]

theorem strstr_isSome_iff (s t : Bytes) : (strstr s t).isSome ↔ t <:+: s := by
  simp only [strstr, List.find?_isSome, List.mem_range, List.isPrefixOf_iff_prefix]
  constructor
  · intro ⟨k, _, hprefix⟩
    exact hprefix.isInfix.trans (List.drop_suffix k s).isInfix
  · intro ⟨a, b, hs⟩
    refine ⟨a.length, ?_, b, ?_⟩
    · simp only [← hs, List.length_append]
      omega
    · simp [← hs]

theorem atol_decimal (n : Nat) {rest : Bytes} (h : ∀ b ∈ rest.head?, ¬ isDigit b) :
    atol (decimal n ++ rest) = min (2 ^ 63 - 1) (n : Int) := by
  obtain ⟨d, ds, hd⟩ := List.exists_cons_of_ne_nil (decimal_ne_nil n)
  have hdigit : isDigit d := decimal_isDigit (n := n) (by simp [hd])
  simp only [isDigit, Bool.and_eq_true, decide_eq_true_eq] at hdigit
  have hspace : isSpace d = false := by
    have hne : d ≠ 32 := by
      rintro rfl
      exact absurd hdigit.1 (by decide)
    simp only [isSpace, hne, decide_false, Bool.false_or, Bool.and_eq_false_iff, decide_eq_false_iff_not]
    omega
  have hdrop : (decimal n ++ rest).dropWhile isSpace = decimal n ++ rest := by
    simp [hd, hspace]
  have hminus : (decimal n ++ rest).head? ≠ some 45 := by
    simp only [hd, List.cons_append, List.head?_cons, ne_eq, Option.some.injEq]
    rintro rfl
    exact absurd hdigit.1 (by decide)
  have hplus : (decimal n ++ rest).head? ≠ some 43 := by
    simp only [hd, List.cons_append, List.head?_cons, ne_eq, Option.some.injEq]
    rintro rfl
    exact absurd hdigit.1 (by decide)
  simp only [atol, hdrop, if_neg hminus, if_neg hplus, takeWhile_decimal n h, digitsNat_decimal]

theorem printedString_eq {size : Nat} {s : Bytes} (h : (0 : UInt8) ∉ s) :
    printedString size s = s.take (size - 1) := by
  have htake : ∀ b ∈ s.take (size - 1), b ≠ 0 := by
    intro b hb h0
    exact h (h0 ▸ List.mem_of_mem_take hb)
  rw [printedString, cString, snprintf, List.takeWhile_append_of_pos fun b hb => by simp [htake b hb]]
  simp

end LinuxDriverLab
