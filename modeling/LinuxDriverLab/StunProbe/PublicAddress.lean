import LinuxDriverLab.StunProbe.Truncated

/-!
# The verdict about a public address

The script compares dotted texts: first with its own address, then with four prefixes. Here the
decoded address is held against the blocks that these stand for.
-/

namespace LinuxDriverLab.StunProbe

/-- What `main` prints of its two probes. -/
def conclude (localIp : Bytes) (m₁ m₂ : Option Mapping) : Report :=
  match m₁ with
  | none => .noMapping
  | some m₁ => .conclusion m₁ localIp (layerOf m₁.ip localIp) (punchingOf m₁ m₂)

theorem main_eq_conclude (nat : NatBox) (attempts : List Attempt) (inp : MainInput) :
    main nat attempts inp =
      match findServers nat attempts with
      | [] => .noServer
      | first :: others =>
        conclude inp.localIp (probe nat ⟨first.ip, first.port⟩ inp.fixedPort inp.answer₁)
          (probe nat (secondDestination first others) inp.fixedPort inp.answer₂) := rfl

/-- `main` prints that the machine, or the router in front of it, has a public address. -/
def Report.saysPublic : Report → Prop
  | .conclusion _ _ layer _ => layer = .noNat ∨ layer = .publicAddress
  | _ => False

/-- A block of addresses, as in `100.64.0.0/10`. -/
structure Block where
  base : Ipv4
  bits : Nat

def Block.Mem (b : Block) (a : Ipv4) : Prop :=
  beNat a.bytes >>> (32 - b.bits) = beNat b.base.bytes >>> (32 - b.bits)

/-- The private blocks, and the one of carrier-grade NAT. -/
def privateBlocks : List Block :=
  [⟨⟨10, 0, 0, 0⟩, 8⟩, ⟨⟨172, 16, 0, 0⟩, 12⟩, ⟨⟨192, 168, 0, 0⟩, 16⟩, ⟨⟨100, 64, 0, 0⟩, 10⟩]

def IsPrivate (a : Ipv4) : Prop := ∃ b ∈ privateBlocks, b.Mem a

/-- The addresses of the blocks that begin with none of the four prefixes. -/
def Missed (a : Ipv4) : Prop :=
  (a.w = 100 ∧ 65 ≤ a.x ∧ a.x ≤ 127) ∨ (a.w = 172 ∧ 17 ≤ a.x ∧ a.x ≤ 31)

/-! ## The blocks in octets -/

theorem Ipv4.beNat_bytes (a : Ipv4) :
    beNat a.bytes = a.w.toNat * 2 ^ 24 + a.x.toNat * 2 ^ 16 + a.y.toNat * 2 ^ 8 + a.z.toNat := by
  simp only [beNat, bytes, leNat, List.reverse_cons, List.reverse_nil, List.nil_append, List.cons_append,
    List.map_cons, List.map_nil, Nat.ofDigits_cons, Nat.ofDigits_nil]
  omega

theorem isPrivate_iff (a : Ipv4) :
    IsPrivate a ↔ a.w = 10 ∨ (a.w = 172 ∧ 16 ≤ a.x ∧ a.x ≤ 31) ∨ (a.w = 192 ∧ a.x = 168) ∨
      (a.w = 100 ∧ 64 ≤ a.x ∧ a.x ≤ 127) := by
  have hx := a.x.toNat_lt
  have hy := a.y.toNat_lt
  have hz := a.z.toNat_lt
  simp only [IsPrivate, privateBlocks, Block.Mem, List.exists_mem_cons_iff, List.not_mem_nil,
    false_and, exists_false, or_false, Nat.shiftRight_eq_div_pow, Ipv4.beNat_bytes,
    ← UInt8.toNat_inj, UInt8.le_iff_toNat_le, UInt8.reduceToNat]
  omega

/-! ## The prefixes in octets -/

theorem prefix_octet_iff (k n : Nat) (p rest : Bytes) :
    (decimal k ++ 46 :: p).isPrefixOf (decimal n ++ 46 :: rest) = true ↔
      k = n ∧ p.isPrefixOf rest = true := by
  have hdot : ∀ u : Bytes, ∀ c ∈ (46 :: u).head?, ¬ isDigit c := by
    intro u c hc
    obtain rfl : (46 : UInt8) = c := Option.some.inj hc
    decide
  simp only [List.isPrefixOf_iff_prefix]
  constructor
  · rintro ⟨t, ht⟩
    rw [List.append_assoc, List.cons_append] at ht
    obtain ⟨hkn, hrest⟩ := decimal_append_inj (hdot _) (hdot _) ht
    exact ⟨hkn, t, (List.cons.inj hrest).2⟩
  · rintro ⟨rfl, t, rfl⟩
    exact ⟨t, by simp⟩

theorem cgnat_iff (a : Ipv4) :
    cgnatPrefixes.any (fun p => p.isPrefixOf a.text) = true ↔
      (a.w = 100 ∧ a.x = 64) ∨ a.w = 10 ∨ (a.w = 172 ∧ a.x = 16) ∨ (a.w = 192 ∧ a.x = 168) := by
  have hprefixes : cgnatPrefixes =
      [decimal 100 ++ 46 :: (decimal 64 ++ 46 :: []), decimal 10 ++ 46 :: [],
        decimal 172 ++ 46 :: (decimal 16 ++ 46 :: []), decimal 192 ++ 46 :: (decimal 168 ++ 46 :: [])] := by
    decide
  simp only [hprefixes, List.any_cons, List.any_nil, Bool.or_false, Bool.or_eq_true, Ipv4.text,
    prefix_octet_iff, List.isPrefixOf_nil_left, and_true, ← UInt8.toNat_inj, UInt8.reduceToNat]
  omega

/-- What the blocks have and the prefixes have not. -/
theorem private_untested_iff (a : Ipv4) :
    (IsPrivate a ∧ ¬ cgnatPrefixes.any (fun p => p.isPrefixOf a.text) = true) ↔ Missed a := by
  rw [isPrivate_iff, cgnat_iff, Missed]
  simp only [← UInt8.toNat_inj, UInt8.le_iff_toNat_le, UInt8.reduceToNat]
  omega

/-! ## The verdict -/

theorem conclude_saysPublic_iff (localIp : Bytes) (m : Mapping) (m₂ : Option Mapping) :
    (conclude localIp (some m) m₂).saysPublic ↔
      m.ip = localIp ∨ ¬ cgnatPrefixes.any (fun p => p.isPrefixOf m.ip) = true := by
  simp only [conclude, Report.saysPublic, layerOf]
  split_ifs with hlocal hcgnat
  · simp [hlocal]
  · simp [hlocal, hcgnat]
  · simp [hcgnat]

/-- A decoded response has its address from four bytes of the response, those of an
XOR-MAPPED-ADDRESS being combined with the cookie. -/
theorem parseResponse_address {data : Bytes} {m : Mapping} (h : parseResponse data = .ok (some m)) :
    ∃ kind i a, source (data.drop 20) = some (kind, i) ∧
      ntoaArg kind (data.drop 20) i = Ipv4.bytes a ∧ m.ip = a.text := by
  obtain ⟨-, found, hwalk, hm⟩ := parseResponse_some_iff.mp h
  obtain ⟨kind, i, hsource, hat⟩ := source_of_walk hwalk hm
  obtain ⟨-, haddress⟩ := source_mem hsource
  have hlen := (exact_iff haddress).mpr ((mappingAt_ok_iff haddress).mp ⟨m, hat⟩)
  obtain ⟨a, ha, hntoa⟩ := inetNtoa_of_length hlen.2
  rw [mappingAt_eq haddress, unpackH, if_pos hlen.1, hntoa] at hat
  cases hat
  exact ⟨kind, i, a, hsource, ha.symm, rfl⟩

/-- A public address is concluded for none of the private and shared ones exactly when the decoded
address is not one that the prefixes miss, and is not a private one that the machine has itself. -/
theorem saysPublic_sound_iff (data : Bytes) (m : Mapping) (h : parseResponse data = .ok (some m)) :
    ∃ kind i a, source (data.drop 20) = some (kind, i) ∧
      ntoaArg kind (data.drop 20) i = Ipv4.bytes a ∧ m.ip = a.text ∧
      ∀ (localIp : Bytes) (m₂ : Option Mapping),
        ((conclude localIp (some m) m₂).saysPublic → ¬ IsPrivate a) ↔
          ¬ Missed a ∧ (a.text = localIp → ¬ IsPrivate a) := by
  obtain ⟨kind, i, a, hsource, ha, hip⟩ := parseResponse_address h
  refine ⟨kind, i, a, hsource, ha, hip, ?_⟩
  intro localIp m₂
  rw [conclude_saysPublic_iff, hip, ← private_untested_iff]
  tauto

/-- A response that reports one endpoint. -/
def answerOf (e : Endpoint) : Bytes :=
  response 12 ⟨List.replicate 12 9, List.length_replicate⟩ [.xorMappedAddress e]

theorem parseResponse_answerOf (e : Endpoint) :
    parseResponse (answerOf e) = .ok (some e.mapping) := by
  rw [answerOf, parseResponse_response, see_all_reported]
  rfl

/-- `100.64.0.1` is recognised. -/
theorem saysPublic_sound_iff_shared :
    parseResponse (answerOf ⟨⟨100, 64, 0, 1⟩, 27400⟩) = .ok (some (Endpoint.mapping ⟨⟨100, 64, 0, 1⟩, 27400⟩)) ∧
      ∀ m₂, ¬ (conclude (ascii "192.168.31.109")
        (some (Endpoint.mapping ⟨⟨100, 64, 0, 1⟩, 27400⟩)) m₂).saysPublic := by
  refine ⟨parseResponse_answerOf _, ?_⟩
  intro m₂ hsays
  obtain ⟨kind, i, a, -, -, hip, hsound⟩ :=
    saysPublic_sound_iff _ _ (parseResponse_answerOf ⟨⟨100, 64, 0, 1⟩, 27400⟩)
  obtain rfl : (⟨100, 64, 0, 1⟩ : Ipv4) = a := Ipv4.text_injective hip
  have hfine : ¬ Missed ⟨100, 64, 0, 1⟩ := by unfold Missed; decide
  have hlocal : Ipv4.text ⟨100, 64, 0, 1⟩ ≠ ascii "192.168.31.109" := by decide
  exact (hsound _ m₂).mpr ⟨hfine, fun h => absurd h hlocal⟩ hsays ((isPrivate_iff _).mpr (by decide))

/-- `100.65.0.1` is called public, and so is a private address that the server and the machine agree
on. -/
theorem carrierGrade_called_public :
    ¬ (∀ data m a localIp m₂, parseResponse data = .ok (some m) → m.ip = Ipv4.text a →
      (conclude localIp (some m) m₂).saysPublic → ¬ IsPrivate a) ∧
    layerOf (Ipv4.text ⟨100, 65, 0, 1⟩) (ascii "192.168.31.109") = .publicAddress ∧
    layerOf (Ipv4.text ⟨192, 168, 31, 109⟩) (ascii "192.168.31.109") = .noNat := by
  refine ⟨?_, by decide, by decide⟩
  intro h
  have hsays : (conclude (ascii "192.168.31.109")
      (some (Endpoint.mapping ⟨⟨100, 65, 0, 1⟩, 27400⟩)) none).saysPublic :=
    (conclude_saysPublic_iff ..).mpr (.inr (by decide))
  exact h _ _ ⟨100, 65, 0, 1⟩ _ none (parseResponse_answerOf ⟨⟨100, 65, 0, 1⟩, 27400⟩) rfl hsays
    ((isPrivate_iff _).mpr (by decide))

end LinuxDriverLab.StunProbe
