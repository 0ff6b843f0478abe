import LinuxDriverLab.StunProbe.Verdict

/-!
# What the probe takes for an answer

`stun` hands whatever arrives to `parse_response`, which never sees the request. The walk over any
body, well formed or not, is described by the offsets at which it finds attributes.
-/

namespace LinuxDriverLab.StunProbe

def attrType (body : Bytes) (i : Nat) : Nat := beNat (slice body i 2)

def attrLen (body : Bytes) (i : Nat) : Nat := beNat (slice body (i + 2) 2)

/-- Where the walk goes from the attribute at `i`. -/
def next (body : Bytes) (i : Nat) : Nat := i + (4 + (attrLen body i + 3) / 4 * 4)

theorem lt_next (body : Bytes) (i : Nat) : i < next body i := by
  unfold next
  omega

/-- The offsets at which the walk finds an attribute, from `i` on. -/
def offsets (body : Bytes) (i : Nat) : List Nat :=
  if i + 4 ≤ body.length then i :: offsets body (next body i) else []
termination_by body.length - i
decreasing_by
  have := lt_next body i
  omega

/-- The turn of the loop at offset `i`. -/
def turn (body : Bytes) (i : Nat) (found : Found) : Except PyError Found :=
  attrStep (attrType body i) (attrLen body i) (slice body (i + 4) (attrLen body i)) found

/-! ## The walk as a fold -/

theorem slice_slice (b : Bytes) (o : Nat) {n p q : Nat} (h : p + q ≤ n) :
    slice (slice b o n) p q = slice b (o + p) q := by
  simp only [slice, List.drop_take, List.drop_drop, List.take_take]
  rw [Nat.min_eq_left (by omega)]

theorem unpackHH_head {body : Bytes} {i : Nat} (h : i + 4 ≤ body.length) :
    unpackHH (slice body i 4) = .ok (attrType body i, attrLen body i) := by
  rw [unpackHH, if_pos (by rw [slice_length]; omega), slice_slice _ _ (by decide),
    slice_slice _ _ (by decide)]
  rfl

theorem walk_step {body : Bytes} {i : Nat} (h : i + 4 ≤ body.length) (found : Found) :
    walk body i found = turn body i found >>= walk body (next body i) := by
  rw [walk, dif_pos h, unpackHH_head h]
  rfl

theorem walk_end {body : Bytes} {i : Nat} (h : ¬ i + 4 ≤ body.length) (found : Found) :
    walk body i found = .ok found := by
  rw [walk, dif_neg h]
  rfl

theorem walk_eq (body : Bytes) (i : Nat) (found : Found) :
    walk body i found = (offsets body i).foldlM (fun f j => turn body j f) found := by
  fun_induction offsets body i generalizing found with
  | case1 i h ih =>
    rw [walk_step h, List.foldlM_cons]
    exact congrArg (turn body i found >>= ·) (funext ih)
  | case2 i h =>
    rw [walk_end h]
    rfl

/-! ## Order of the offsets -/

theorem le_of_mem_offsets {body : Bytes} {i j : Nat} (h : j ∈ offsets body i) : i ≤ j := by
  fun_induction offsets body i with
  | case1 i hin ih =>
    rcases List.mem_cons.mp h with rfl | htail
    · exact Nat.le_refl _
    · exact (Nat.le_of_lt (lt_next body i)).trans (ih htail)
  | case2 i hin => cases h

theorem offsets_apart {body : Bytes} {i a b : Nat} (ha : a ∈ offsets body i) (hb : b ∈ offsets body i)
    (hne : a ≠ b) : next body a ≤ b ∨ next body b ≤ a := by
  fun_induction offsets body i with
  | case1 i hin ih =>
    rcases List.mem_cons.mp ha with rfl | ha'
    · rcases List.mem_cons.mp hb with rfl | hb'
      · exact absurd rfl hne
      · exact .inl (le_of_mem_offsets hb')
    · rcases List.mem_cons.mp hb with rfl | hb'
      · exact .inr (le_of_mem_offsets ha')
      · exact ih ha' hb'
  | case2 i hin => cases ha

/-! ## Where the mapping comes from -/

/-- `MAPPED-ADDRESS` and `XOR-MAPPED-ADDRESS` -/
inductive AddressKind
  | mapped
  | xor
deriving DecidableEq

def AddressKind.atype : AddressKind → Nat
  | mapped => 0x0001
  | xor => 0x0020

/-- The attribute at `i` is one of this kind and declares room for an IPv4 address. -/
def isAddress (kind : AddressKind) (body : Bytes) (i : Nat) : Bool :=
  attrType body i = kind.atype ∧ 8 ≤ attrLen body i

/-- What the attribute at `i` says, taken for one of this kind. -/
def mappingAt (kind : AddressKind) (body : Bytes) (i : Nat) : Except PyError Mapping := do
  let port ← unpackH (slice body (i + 6) 2)
  match kind with
  | .mapped =>
    let ip ← inetNtoa (slice body (i + 8) 4)
    return ⟨ip, port⟩
  | .xor =>
    let ip ← inetNtoa (List.zipWith (· ^^^ ·) (slice body (i + 8) 4) (packI magic))
    return ⟨ip, port ^^^ (magic >>> 16)⟩

def Found.get (found : Found) : AddressKind → Option Mapping
  | .mapped => found.mapped
  | .xor => found.xor

def Found.set (found : Found) (m : Mapping) : AddressKind → Found
  | .mapped => { found with mapped := some m }
  | .xor => { found with xor := some m }

theorem turn_address {body : Bytes} {i : Nat} {kind : AddressKind} (h : isAddress kind body i = true)
    (found : Found) : turn body i found = (mappingAt kind body i).map fun m => found.set m kind := by
  obtain ⟨htype, hlen⟩ := of_decide_eq_true h
  rw [turn, attrStep, slice_slice _ _ (by omega), slice_slice _ _ (by omega), htype]
  cases kind with
  | mapped =>
    rw [if_pos ⟨rfl, hlen⟩, mappingAt]
    cases unpackH (slice body (i + 6) 2) with
    | error => rfl
    | ok port =>
      cases inetNtoa (slice body (i + 8) 4) <;> rfl
  | xor =>
    rw [if_neg (by simp [AddressKind.atype]), if_pos ⟨rfl, hlen⟩, mappingAt]
    cases unpackH (slice body (i + 6) 2) with
    | error => rfl
    | ok port =>
      dsimp only [bind, Except.bind]
      cases inetNtoa (List.zipWith (· ^^^ ·) (slice body (i + 8) 4) (packI magic)) <;> rfl

theorem turn_other {body : Bytes} {i : Nat} (h : ∀ kind, isAddress kind body i = false) (found : Found) :
    turn body i found = .ok found := by
  have hmapped : ¬ (attrType body i = 0x0001 ∧ 8 ≤ attrLen body i) := of_decide_eq_false (h .mapped)
  have hxor : ¬ (attrType body i = 0x0020 ∧ 8 ≤ attrLen body i) := of_decide_eq_false (h .xor)
  rw [turn, attrStep, if_neg hmapped, if_neg hxor]
  rfl

theorem turn_cases (body : Bytes) (i : Nat) :
    (∃ kind, isAddress kind body i = true ∧
        ∀ found, turn body i found = (mappingAt kind body i).map fun m => found.set m kind) ∨
      (∀ kind, isAddress kind body i = false) ∧ ∀ found, turn body i found = .ok found := by
  by_cases haddress : ∃ kind, isAddress kind body i = true
  · obtain ⟨kind, hkind⟩ := haddress
    exact .inl ⟨kind, hkind, turn_address hkind⟩
  · have hnone : ∀ kind, isAddress kind body i = false := by
      intro kind
      by_contra hk
      exact haddress ⟨kind, by simpa using hk⟩
    exact .inr ⟨hnone, turn_other hnone⟩

theorem turn_decoded {body : Bytes} {i : Nat} {kind : AddressKind} {found found' : Found}
    (h : isAddress kind body i = true) (hturn : turn body i found = .ok found') :
    ∃ m, mappingAt kind body i = .ok m ∧ found' = found.set m kind := by
  rw [turn_address h] at hturn
  cases hm : mappingAt kind body i with
  | error e =>
    rw [hm] at hturn
    cases hturn
  | ok m =>
    rw [hm] at hturn
    cases hturn
    exact ⟨m, rfl, rfl⟩

theorem turn_keeps {body : Bytes} {i : Nat} {kind : AddressKind} {found found' : Found}
    (h : isAddress kind body i = false) (hturn : turn body i found = .ok found') :
    found'.get kind = found.get kind := by
  obtain ⟨other, hother, -⟩ | ⟨-, hsame⟩ := turn_cases body i
  · have hne : other ≠ kind := by
      rintro rfl
      rw [h] at hother
      cases hother
    obtain ⟨m, -, rfl⟩ := turn_decoded hother hturn
    cases kind <;> cases other <;> first | rfl | exact absurd rfl hne
  · rw [hsame] at hturn
    cases hturn
    rfl

/-- The last of the offsets with an attribute of this kind. -/
def lastAddress (kind : AddressKind) (body : Bytes) (js : List Nat) : Option Nat :=
  (js.filter (isAddress kind body)).getLast?

theorem lastAddress_concat (kind : AddressKind) (body : Bytes) (js : List Nat) (j : Nat) :
    lastAddress kind body (js ++ [j]) =
      if isAddress kind body j then some j else lastAddress kind body js := by
  unfold lastAddress
  rw [List.filter_append]
  cases hj : isAddress kind body j <;> simp [hj]

/-- Each variable is what the last attribute of its kind says. -/
structure FromLast (body : Bytes) (js : List Nat) (found : Found) (kind : AddressKind) : Prop where
  some : ∀ j, lastAddress kind body js = .some j →
    ∃ m, mappingAt kind body j = .ok m ∧ found.get kind = .some m
  none : lastAddress kind body js = .none → found.get kind = .none

theorem FromLast.address {body : Bytes} {js : List Nat} {j : Nat} {before found : Found}
    {kind : AddressKind} (hj : isAddress kind body j = true) (hturn : turn body j before = .ok found) :
    FromLast body (js ++ [j]) found kind := by
  have hlast : lastAddress kind body (js ++ [j]) = .some j := by rw [lastAddress_concat, hj, if_pos rfl]
  obtain ⟨m, hm, rfl⟩ := turn_decoded hj hturn
  constructor
  · intro j' hj'
    rw [hlast] at hj'
    cases hj'
    exact ⟨m, hm, by cases kind <;> rfl⟩
  · rw [hlast]
    nofun

theorem FromLast.keeps {body : Bytes} {js : List Nat} {j : Nat} {before found : Found}
    {kind : AddressKind} (h : FromLast body js before kind) (hj : isAddress kind body j = false)
    (hturn : turn body j before = .ok found) : FromLast body (js ++ [j]) found kind := by
  have hlast : lastAddress kind body (js ++ [j]) = lastAddress kind body js := by
    rw [lastAddress_concat, hj]
    rfl
  have hget := turn_keeps hj hturn
  constructor
  · rw [hlast, hget]
    exact h.some
  · rw [hlast, hget]
    exact h.none

theorem fromLast {body : Bytes} {js : List Nat} {found : Found} (kind : AddressKind)
    (h : js.foldlM (fun f j => turn body j f) ⟨none, none⟩ = .ok found) : FromLast body js found kind := by
  induction js using List.reverseRecOn generalizing found with
  | nil =>
    cases h
    exact ⟨nofun, fun _ => by cases kind <;> rfl⟩
  | append_singleton js j ih =>
    rw [List.foldlM_append] at h
    cases hbefore : js.foldlM (fun f j => turn body j f) (⟨none, none⟩ : Found) with
    | error e =>
      rw [hbefore] at h
      cases h
    | ok before =>
      rw [hbefore] at h
      simp only [List.foldlM_cons, List.foldlM_nil, bind_pure] at h
      have hturn : turn body j before = .ok found := h
      cases hj : isAddress kind body j with
      | true => exact .address hj hturn
      | false => exact (ih hbefore).keeps hj hturn

/-- The attribute that the mapping is taken from. -/
def source (body : Bytes) : Option (AddressKind × Nat) :=
  (lastAddress .xor body (offsets body 0)).map (.xor, ·) <|>
    (lastAddress .mapped body (offsets body 0)).map (.mapped, ·)

theorem source_of_walk {body : Bytes} {found : Found} {m : Mapping}
    (hwalk : walk body 0 ⟨none, none⟩ = .ok found) (hm : (found.xor <|> found.mapped) = some m) :
    ∃ kind i, source body = some (kind, i) ∧ mappingAt kind body i = .ok m := by
  rw [walk_eq] at hwalk
  have hxor := fromLast .xor hwalk
  have hmapped := fromLast .mapped hwalk
  cases hlast : lastAddress .xor body (offsets body 0) with
  | some i =>
    obtain ⟨m', hat, hget⟩ := hxor.some i hlast
    have hget' : found.xor = some m' := hget
    rw [hget'] at hm
    cases hm
    exact ⟨.xor, i, by simp [source, hlast], hat⟩
  | none =>
    have hget : found.xor = none := hxor.none hlast
    rw [hget] at hm
    have hgot : found.mapped = some m := by simpa using hm
    cases hlast' : lastAddress .mapped body (offsets body 0) with
    | some i =>
      obtain ⟨m', hat, hget'⟩ := hmapped.some i hlast'
      have hget'' : found.mapped = some m' := hget'
      rw [hgot] at hget''
      cases hget''
      exact ⟨.mapped, i, by simp [source, hlast, hlast'], hat⟩
    | none =>
      have hget' : found.mapped = none := hmapped.none hlast'
      rw [hgot] at hget'
      cases hget'

/-! ## What the report does not depend on -/

theorem slice_set {b : Bytes} {x off n : Nat} (v : UInt8) (h : x < off ∨ off + n ≤ x) :
    slice (b.set x v) off n = slice b off n := by
  apply List.ext_getElem?
  intro i
  simp only [slice, List.getElem?_take, List.getElem?_drop]
  split
  · rw [List.getElem?_set_ne (by omega)]
  · rfl

/-- The walk depends on what it finds at its offsets only. -/
theorem walk_congr {body body' : Bytes} {i : Nat} (hlen : body'.length = body.length)
    (h : ∀ k ∈ offsets body i, attrLen body' k = attrLen body k ∧
      ∀ found, turn body' k found = turn body k found) (found : Found) :
    walk body' i found = walk body i found := by
  fun_induction offsets body i generalizing found with
  | case1 i hin ih =>
    obtain ⟨⟨hlen', hturn⟩, hrest⟩ := List.forall_mem_cons.mp h
    have hnext : next body' i = next body i := by rw [next, next, hlen']
    rw [walk_step hin, walk_step (by omega), hturn, hnext]
    exact congrArg (turn body i found >>= ·) (funext (ih hrest))
  | case2 i hin => rw [walk_end hin, walk_end (by omega)]

section

variable {body : Bytes} {kind : AddressKind} {i : Nat}

theorem isAddress_next (h : isAddress kind body i = true) : i + 12 ≤ next body i := by
  obtain ⟨-, hlen⟩ := of_decide_eq_true h
  unfold next
  omega

/-- The family byte of an address attribute plays no part in the turn of that attribute. -/
theorem turn_family (h : isAddress kind body i = true) (v : UInt8) (found : Found) :
    turn (body.set (i + 5) v) i found = turn body i found := by
  have htype : attrType (body.set (i + 5) v) i = attrType body i := by
    rw [attrType, slice_set v (by omega), attrType]
  have hlen : attrLen (body.set (i + 5) v) i = attrLen body i := by
    rw [attrLen, slice_set v (by omega), attrLen]
  have h' : isAddress kind (body.set (i + 5) v) i = true := by rw [isAddress, htype, hlen, ← isAddress, h]
  rw [turn_address h, turn_address h', mappingAt, slice_set v (by omega), slice_set v (by omega), mappingAt]

/-- Nor in the turn of another attribute. -/
theorem turn_family_other {k : Nat} (h : isAddress kind body i = true) (hi : i ∈ offsets body 0)
    (hk : k ∈ offsets body 0) (hne : k ≠ i) (v : UInt8) (found : Found) :
    attrLen (body.set (i + 5) v) k = attrLen body k ∧
      turn (body.set (i + 5) v) k found = turn body k found := by
  have hsize := isAddress_next h
  have hout : k + 4 + attrLen body k ≤ i ∨ i + 12 ≤ k := by
    rcases offsets_apart hk hi hne with hbefore | hafter
    · unfold next at hbefore
      omega
    · omega
  have htype : attrType (body.set (i + 5) v) k = attrType body k := by
    rw [attrType, slice_set v (by omega), attrType]
  have hlen : attrLen (body.set (i + 5) v) k = attrLen body k := by
    rw [attrLen, slice_set v (by omega), attrLen]
  refine ⟨hlen, ?_⟩
  rw [turn, htype, hlen, slice_set v (by omega), turn]

theorem walk_family (h : isAddress kind body i = true) (hi : i ∈ offsets body 0) (v : UInt8)
    (found : Found) : walk (body.set (i + 5) v) 0 found = walk body 0 found := by
  apply walk_congr (List.length_set ..)
  intro k hk
  by_cases hne : k = i
  · subst hne
    have hlen : attrLen (body.set (k + 5) v) k = attrLen body k := by
      rw [attrLen, slice_set v (by omega), attrLen]
    exact ⟨hlen, turn_family h v⟩
  · exact ⟨(turn_family_other h hi hk hne v found).1, fun f => (turn_family_other h hi hk hne v f).2⟩

end

theorem source_mem {body : Bytes} {kind : AddressKind} {i : Nat} (h : source body = some (kind, i)) :
    i ∈ offsets body 0 ∧ isAddress kind body i = true := by
  have hlast : lastAddress kind body (offsets body 0) = some i := by
    unfold source at h
    cases hxor : lastAddress .xor body (offsets body 0) with
    | some j =>
      rw [hxor] at h
      cases h
      exact hxor
    | none =>
      rw [hxor] at h
      obtain ⟨j, hj, heq⟩ := Option.map_eq_some_iff.mp (h : Option.map _ _ = _)
      cases heq
      exact hj
  have hmem := List.mem_of_getLast? hlast
  exact List.mem_filter.mp hmem

theorem unpackHHI_head {d : Bytes} (h : 8 ≤ d.length) :
    unpackHHI (slice d 0 8) = .ok (beNat (slice d 0 2), beNat (slice d 2 2), beNat (slice d 4 4)) := by
  rw [unpackHHI, if_pos (by rw [slice_length]; omega), slice_slice _ _ (by decide),
    slice_slice _ _ (by decide), slice_slice _ _ (by decide)]

/-- The header of a Binding Success Response, as far as `parse_response` looks at it. -/
structure IsSuccess (d : Bytes) : Prop where
  header : 20 ≤ d.length
  mtype : beNat (slice d 0 2) = 0x0101
  cookie : beNat (slice d 4 4) = magic

theorem parseResponse_success {d : Bytes} (h : IsSuccess d) :
    parseResponse d =
      (walk (d.drop 20) 0 ⟨none, none⟩).map fun found => found.xor <|> found.mapped := by
  obtain ⟨hlen, hmtype, hcookie⟩ := h
  rw [parseResponse, if_neg (by omega), unpackHHI_head (by omega)]
  dsimp only [bind, Except.bind]
  rw [if_neg (by simp [hmtype, hcookie])]
  cases walk (d.drop 20) 0 ⟨none, none⟩ <;> rfl

theorem parseResponse_other {d : Bytes} (h : ¬ IsSuccess d) : parseResponse d = .ok none := by
  rw [parseResponse]
  split
  · rfl
  · next hlen =>
    rw [unpackHHI_head (by omega)]
    dsimp only [bind, Except.bind]
    split
    · rfl
    · next hhead =>
      rw [not_or, not_not, not_not] at hhead
      exact absurd ⟨by omega, hhead.1, hhead.2⟩ h

theorem parseResponse_some_iff {d : Bytes} {m : Mapping} :
    parseResponse d = .ok (some m) ↔ IsSuccess d ∧ ∃ found,
      walk (d.drop 20) 0 ⟨none, none⟩ = .ok found ∧ (found.xor <|> found.mapped) = some m := by
  by_cases hsuccess : IsSuccess d
  · rw [parseResponse_success hsuccess]
    cases walk (d.drop 20) 0 ⟨none, none⟩ <;> simp [hsuccess, Except.map]
  · rw [parseResponse_other hsuccess]
    simp [hsuccess]

/-! ## The answers of the probe -/

theorem stun_some_iff {datagram : Bytes} {m : Mapping} :
    stun (some datagram) = some m ↔ parseResponse (datagram.take 2048) = .ok (some m) := by
  rw [stun]
  cases parseResponse (datagram.take 2048) with
  | error e => simp [Except.toOption]
  | ok r => cases r <;> simp [Except.toOption]

/-- What `recvfrom(2048)` takes, behind the header. -/
def body (datagram : Bytes) : Bytes := (datagram.take 2048).drop 20

/-- The two datagrams are the same but for the length and the transaction id in their headers. -/
structure SameButLabels (d d' : Bytes) : Prop where
  length : d'.length = d.length
  mtype : slice d' 0 2 = slice d 0 2
  cookie : slice d' 4 4 = slice d 4 4
  attrs : d'.drop 20 = d.drop 20

theorem stun_sameButLabels {d d' : Bytes} {m : Mapping} (h : SameButLabels d d')
    (hm : stun (some d) = some m) : stun (some d') = some m := by
  rw [stun_some_iff, parseResponse_some_iff] at hm ⊢
  obtain ⟨⟨hheader, hmtype, hcookie⟩, hwalk⟩ := hm
  have hbody : (d'.take 2048).drop 20 = (d.take 2048).drop 20 := by
    rw [List.drop_take, List.drop_take, h.attrs]
  rw [slice_take (by decide)] at hmtype hcookie
  rw [List.length_take] at hheader
  refine ⟨⟨?_, ?_, ?_⟩, ?_⟩
  · rw [List.length_take, h.length]
    exact hheader
  · rw [slice_take (by decide), h.mtype]
    exact hmtype
  · rw [slice_take (by decide), h.cookie]
    exact hcookie
  · rw [hbody]
    exact hwalk

theorem stun_family {d : Bytes} {m : Mapping} {kind : AddressKind} {i : Nat}
    (hsource : source (body d) = some (kind, i)) (v : UInt8) (hm : stun (some d) = some m) :
    stun (some (d.set (25 + i) v)) = some m := by
  rw [stun_some_iff, parseResponse_some_iff] at hm ⊢
  obtain ⟨⟨hheader, hmtype, hcookie⟩, hwalk⟩ := hm
  obtain ⟨hmem, haddress⟩ := source_mem hsource
  have hset : (d.set (25 + i) v).take 2048 = (d.take 2048).set (25 + i) v := List.take_set
  have hbody : ((d.take 2048).set (25 + i) v).drop 20 = (body d).set (i + 5) v := by
    rw [List.drop_set, if_neg (by omega), body]
    congr 1
    omega
  rw [hset]
  refine ⟨⟨?_, ?_, ?_⟩, ?_⟩
  · rw [List.length_set]
    exact hheader
  · rw [slice_set v (by omega)]
    exact hmtype
  · rw [slice_set v (by omega)]
    exact hcookie
  · rw [hbody, walk_family haddress hmem v]
    exact hwalk

/-- A mapping is reported of a Binding Success Response only, from the last of its
XOR-MAPPED-ADDRESS attributes or, without one, of its MAPPED-ADDRESS attributes; whatever length and
transaction id its header has and whatever family the attribute names, the report is the same. -/
theorem stun_takes_any_answer (datagram : Bytes) (m : Mapping) (h : stun (some datagram) = some m) :
    IsSuccess (datagram.take 2048) ∧
    (∃ kind i, source (body datagram) = some (kind, i) ∧ mappingAt kind (body datagram) i = .ok m ∧
      ∀ family, stun (some (datagram.set (25 + i) family)) = some m) ∧
    ∀ datagram', SameButLabels datagram datagram' → stun (some datagram') = some m := by
  obtain ⟨hsuccess, found, hwalk, hm⟩ := parseResponse_some_iff.mp (stun_some_iff.mp h)
  obtain ⟨kind, i, hsource, hat⟩ := source_of_walk hwalk hm
  refine ⟨hsuccess, ⟨kind, i, hsource, hat, ?_⟩, ?_⟩
  · intro family
    exact stun_family hsource family h
  · intro datagram' hsame
    exact stun_sameButLabels hsame h

/-- The answer to a request whose transaction id is all nines. -/
def nines : Bytes :=
  response 12 ⟨List.replicate 12 9, rfl⟩ [.xorMappedAddress ⟨⟨192, 0, 2, 1⟩, 32853⟩]

theorem stun_nines : stun (some nines) = some (Endpoint.mapping ⟨⟨192, 0, 2, 1⟩, 32853⟩) := by
  have htake : nines.take 2048 = nines := by
    apply List.take_of_length_le
    simp [nines, response, successHeader, packHHI, Attr.encode_length, Attr.value]
  rw [stun_some_iff, htake, nines, parseResponse_response, see_all_reported]
  rfl

theorem stun_takes_any_answer_nines :
    IsSuccess (nines.take 2048) ∧ source (body nines) = some (.xor, 0) ∧
    (∀ family, stun (some (nines.set 25 family)) = stun (some nines)) ∧
    ∀ datagram', SameButLabels nines datagram' → stun (some datagram') = stun (some nines) := by
  obtain ⟨hsuccess, ⟨kind, i, hsource, -, hfamily⟩, hlabels⟩ :=
    stun_takes_any_answer nines _ stun_nines
  have hfirst : source (body nines) = some (.xor, 0) := by decide +kernel
  rw [hfirst] at hsource
  cases hsource
  rw [stun_nines]
  exact ⟨hsuccess, hfirst, hfamily, hlabels⟩

/-- An answer to one's own request, from a server that goes by the header and by IPv4. -/
structure OwnAnswer (tid : TransactionId) (datagram : Bytes) : Prop where
  tid : slice datagram 8 12 = tid.bytes
  length : beNat (slice datagram 2 2) = datagram.length - 20
  family : ∀ kind i, source (body datagram) = some (kind, i) → (body datagram)[i + 5]? = some 1

/-- The answer to another request, one that declares another length, and one whose address is said to
be of IPv6 are all reported. -/
theorem stun_reports_foreign_answer :
    (¬ ∀ tid datagram m, stun (some datagram) = some m → OwnAnswer tid datagram) ∧
    (¬ ∀ (tid : TransactionId) datagram m, stun (some datagram) = some m →
      slice datagram 8 12 = tid.bytes) ∧
    (¬ ∀ datagram m, stun (some datagram) = some m →
      beNat (slice datagram 2 2) = datagram.length - 20) ∧
    ¬ ∀ datagram m, stun (some datagram) = some m →
      ∀ kind i, source (body datagram) = some (kind, i) → (body datagram)[i + 5]? = some 1 := by
  have hforeign : slice nines 8 12 ≠ List.replicate 12 8 := by decide +kernel
  refine ⟨?_, ?_, ?_, ?_⟩
  · intro hall
    exact hforeign (hall ⟨List.replicate 12 8, rfl⟩ nines _ stun_nines).tid
  · intro hall
    exact hforeign (hall ⟨List.replicate 12 8, rfl⟩ nines _ stun_nines)
  · intro hall
    have hsame : SameButLabels nines (nines.set 2 1) := by
      constructor <;> decide +kernel
    exact absurd (hall _ _ (stun_sameButLabels hsame stun_nines)) (by decide +kernel)
  · intro hall
    have hsource : source (body nines) = some (.xor, 0) := by decide +kernel
    have hstill : source (body (nines.set 25 2)) = some (.xor, 0) := by decide +kernel
    exact absurd (hall _ _ (stun_family hsource 2 stun_nines) _ _ hstill) (by decide +kernel)

end LinuxDriverLab.StunProbe
