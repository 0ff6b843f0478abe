import LinuxDriverLab.StunProbe.Answer

/-!
# Responses that end early

`parse_response` trusts the declared length of an attribute, while the slice that it takes of the
value may be shorter. Only the last attribute that the walk reaches can be cut.
-/

namespace LinuxDriverLab.StunProbe

/-- The bytes that are there of the value of the attribute at `i`. -/
def valueAt (body : Bytes) (i : Nat) : Bytes := slice body (i + 4) (attrLen body i)

/-- The argument of `struct.unpack("!H", ...)` in the turn at `i`. -/
def portArg (body : Bytes) (i : Nat) : Bytes := slice (valueAt body i) 2 2

/-- The argument of `inet_ntoa`. -/
def ntoaArg (kind : AddressKind) (body : Bytes) (i : Nat) : Bytes :=
  match kind with
  | .mapped => slice (valueAt body i) 4 4
  | .xor => List.zipWith (· ^^^ ·) (slice (valueAt body i) 4 4) (packI magic)

section

variable {body : Bytes} {kind : AddressKind} {i : Nat}

theorem portArg_eq (h : isAddress kind body i = true) : portArg body i = slice body (i + 6) 2 := by
  obtain ⟨-, hlen⟩ := of_decide_eq_true h
  rw [portArg, valueAt, slice_slice _ _ (by omega)]

theorem valueAt_addr (h : isAddress kind body i = true) :
    slice (valueAt body i) 4 4 = slice body (i + 8) 4 := by
  obtain ⟨-, hlen⟩ := of_decide_eq_true h
  rw [valueAt, slice_slice _ _ (by omega)]

theorem ntoaArg_length (h : isAddress kind body i = true) :
    (ntoaArg kind body i).length = (slice body (i + 8) 4).length := by
  cases kind with
  | mapped => rw [ntoaArg, valueAt_addr h]
  | xor =>
    rw [ntoaArg, valueAt_addr h, List.length_zipWith, packI, beBytes_length, slice_length]
    omega

theorem mappingAt_eq (h : isAddress kind body i = true) :
    mappingAt kind body i = do
      let port ← unpackH (portArg body i)
      let ip ← inetNtoa (ntoaArg kind body i)
      return ⟨ip, match kind with | .mapped => port | .xor => port ^^^ (magic >>> 16)⟩ := by
  cases kind with
  | mapped => rw [portArg_eq h, ntoaArg, valueAt_addr h, mappingAt]
  | xor => rw [portArg_eq h, ntoaArg, valueAt_addr h, mappingAt]

theorem exact_iff (h : isAddress kind body i = true) :
    ((portArg body i).length = 2 ∧ (ntoaArg kind body i).length = 4) ↔ i + 12 ≤ body.length := by
  rw [portArg_eq h, ntoaArg_length h, slice_length, slice_length]
  omega

theorem inetNtoa_of_length {b : Bytes} (h : b.length = 4) :
    ∃ a : Ipv4, a.bytes = b ∧ inetNtoa b = .ok a.text := by
  match b, h with
  | [w, x, y, z], _ => exact ⟨⟨w, x, y, z⟩, rfl, rfl⟩

theorem inetNtoa_ok_iff {b : Bytes} : (∃ t, inetNtoa b = .ok t) ↔ b.length = 4 := by
  constructor
  · rintro ⟨t, ht⟩
    unfold inetNtoa at ht
    split at ht
    · rfl
    · cases ht
  · intro h
    obtain ⟨a, -, ha⟩ := inetNtoa_of_length h
    exact ⟨_, ha⟩

theorem mappingAt_ok_iff (h : isAddress kind body i = true) :
    (∃ m, mappingAt kind body i = .ok m) ↔ i + 12 ≤ body.length := by
  rw [← exact_iff h, ← inetNtoa_ok_iff, mappingAt_eq h, unpackH]
  by_cases hport : (portArg body i).length = 2
  · rw [if_pos hport]
    cases inetNtoa (ntoaArg kind body i) <;> simp [hport, bind, Except.bind, pure, Except.pure]
  · rw [if_neg hport]
    simp [hport, bind, Except.bind]

end

/-! ## The walk up to the cut -/

end LinuxDriverLab.StunProbe
