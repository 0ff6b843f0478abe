import LinuxDriverLab.StunProbe.Parse

/-!
# The NAT verdict

The script picks servers, sends from one fixed local port to two destinations and compares the
external endpoints that come back. The network is a parameter: a NAT, what name resolution gives,
and which probes are answered.
-/

namespace LinuxDriverLab.StunProbe

/-- The external endpoint of a local port towards a destination. -/
abbrev NatBox := UInt16 → Endpoint → Endpoint

/-- A server that answers: a datagram for every endpoint it may see, of which the part that
`recvfrom(2048)` takes reports that endpoint. -/
structure Answer where
  datagram : Endpoint → Bytes
  truthful : ∀ e, ∃ mlen tid attrs,
    (datagram e).take 2048 = response mlen tid attrs ∧ reported attrs = some e

/-- The first result of `stun` for the datagram that arrives. An exception, a timeout among them, is
caught and gives `None`. -/
def stun : Option Bytes → Option Mapping
  | none => none
  | some datagram => (parseResponse (datagram.take 2048)).toOption.join

/-- `stun` from local port `src` to `dst` behind a NAT. -/
def probe (nat : NatBox) (dst : Endpoint) (src : UInt16) (answer : Option Answer) : Option Mapping :=
  stun (answer.map fun a => a.datagram (nat src dst))

structure Server where
  host : String
  port : UInt16
  name : String

/-- One entry of `SERVERS` with what the network makes of it: the result of `getaddrinfo`, the local
port that the system allocates to the probe, and the answer. -/
structure Attempt where
  server : Server
  ip : Option Ipv4
  srcPort : UInt16
  answer : Option Answer

/-- An element of the list `ok`. -/
structure Chosen where
  ip : Ipv4
  port : UInt16
  name : String

/-- The variables `ok` and `seen` of `find_servers`. -/
structure Search where
  ok : List Chosen
  seen : List Ipv4

/-- The probe of an address that is not in `seen`, and what is noted of it. -/
def probeServer (nat : NatBox) (a : Attempt) (ip : Ipv4) (s : Search) : Search :=
  match probe nat ⟨ip, a.server.port⟩ a.srcPort a.answer with
  | some _ => ⟨s.ok ++ [⟨ip, a.server.port, a.server.name⟩], s.seen ++ [ip]⟩
  | none => s

/-- The loop of `find_servers`. -/
def findServersLoop (nat : NatBox) : List Attempt → Search → Search
  | [], s => s
  | a :: rest, s =>
    match a.ip with
    | none => findServersLoop nat rest s
    | some ip =>
      if ip ∈ s.seen then findServersLoop nat rest s
      else if 2 ≤ (probeServer nat a ip s).ok.length then probeServer nat a ip s
      else findServersLoop nat rest (probeServer nat a ip s)

def findServers (nat : NatBox) (attempts : List Attempt) : List Chosen :=
  (findServersLoop nat attempts ⟨[], []⟩).ok

/-- The part of the output about the level of NAT. -/
inductive Layer
  | noNat
  | carrierGrade
  | publicAddress
deriving DecidableEq

/-- The part about hole punching. -/
inductive Punching
  | endpointIndependent
  | addressDependent
  | symmetric
  | undecided
deriving DecidableEq

/-- What `main` prints. -/
inductive Report
  | noServer
  | noMapping
  | conclusion (external : Mapping) (localIp : Bytes) (layer : Layer) (punching : Punching)
deriving DecidableEq

def ascii (s : String) : Bytes := s.toList.map Char.toUInt8

def cgnatPrefixes : List Bytes := [ascii "100.64.", ascii "10.", ascii "172.16.", ascii "192.168."]

def layerOf (extIp localIp : Bytes) : Layer :=
  if extIp = localIp then .noNat
  else if cgnatPrefixes.any (fun p => p.isPrefixOf extIp) then .carrierGrade
  else .publicAddress

def punchingOf (m₁ : Mapping) (m₂ : Option Mapping) : Punching :=
  match m₂ with
  | some m₂ =>
    if m₁.ip = m₂.ip ∧ m₁.port = m₂.port then .endpointIndependent
    else if m₁.ip = m₂.ip then .addressDependent
    else .symmetric
  | none => .undecided

/-- What `main` gets from outside: the local address as text, the local port it fixes, and the
answers to the two probes. -/
structure MainInput where
  localIp : Bytes
  fixedPort : UInt16
  answer₁ : Option Answer
  answer₂ : Option Answer

/-- The destination of the second probe. With one server only it is another port of that one. -/
def secondDestination (first : Chosen) : List Chosen → Endpoint
  | second :: _ => ⟨second.ip, second.port⟩
  | [] => ⟨first.ip, if first.port ≠ 19303 then 19303 else 3479⟩

def main (nat : NatBox) (attempts : List Attempt) (inp : MainInput) : Report :=
  match findServers nat attempts with
  | [] => .noServer
  | first :: others =>
    let m₁ := probe nat ⟨first.ip, first.port⟩ inp.fixedPort inp.answer₁
    let m₂ := probe nat (secondDestination first others) inp.fixedPort inp.answer₂
    match m₁ with
    | none => .noMapping
    | some m₁ => .conclusion m₁ inp.localIp (layerOf m₁.ip inp.localIp) (punchingOf m₁ m₂)

/-- `main` prints that the mapping is endpoint-independent. -/
def Report.printsEim : Report → Prop
  | .conclusion _ _ _ p => p = .endpointIndependent
  | _ => False

instance (r : Report) : Decidable r.printsEim := by
  cases r <;> unfold Report.printsEim <;> infer_instance

/-! ## Probes -/

@[simp] theorem probe_silent (nat : NatBox) (dst : Endpoint) (src : UInt16) :
    probe nat dst src none = none := rfl

@[simp] theorem probe_answer (nat : NatBox) (dst : Endpoint) (src : UInt16) (a : Answer) :
    probe nat dst src (some a) = some (nat src dst).mapping := by
  obtain ⟨mlen, tid, attrs, hdata, hreported⟩ := a.truthful (nat src dst)
  simp only [probe, stun, Option.map_some, hdata, parseResponse_response, see_all_reported,
    hreported]
  rfl

/-- An attempt whose name resolves to `ip` and whose probe is answered. -/
def Attempt.AnswersFrom (a : Attempt) (ip : Ipv4) : Prop := a.ip = some ip ∧ a.answer.isSome

theorem probeServer_answered (nat : NatBox) {a : Attempt} (ip : Ipv4) (s : Search)
    (h : a.answer.isSome) :
    probeServer nat a ip s = ⟨s.ok ++ [⟨ip, a.server.port, a.server.name⟩], s.seen ++ [ip]⟩ := by
  obtain ⟨ans, hans⟩ := Option.isSome_iff_exists.mp h
  simp [probeServer, hans]

theorem probeServer_silent (nat : NatBox) {a : Attempt} (ip : Ipv4) (s : Search)
    (h : ¬ a.answer.isSome) : probeServer nat a ip s = s := by
  have hans : a.answer = none := by simpa using h
  simp [probeServer, hans]

/-! ## The choice of servers -/

/-- The servers noted have different addresses, each of an attempt that was answered. -/
structure Search.Sound (attempts : List Attempt) (s : Search) : Prop where
  seen_eq : s.seen = s.ok.map Chosen.ip
  nodup : s.seen.Nodup
  answered : ∀ ip ∈ s.seen, ∃ a ∈ attempts, a.AnswersFrom ip

theorem Search.Sound.probe {attempts : List Attempt} {s : Search} (hs : s.Sound attempts)
    (nat : NatBox) {a : Attempt} {ip : Ipv4} (ha : a ∈ attempts) (hip : a.ip = some ip)
    (hnew : ip ∉ s.seen) : (probeServer nat a ip s).Sound attempts := by
  by_cases hans : a.answer.isSome
  · rw [probeServer_answered nat ip s hans]
    constructor
    · simp [hs.seen_eq]
    · apply List.nodup_append.mpr
      simp only [List.mem_singleton, forall_eq]
      exact ⟨hs.nodup, List.nodup_singleton ip, fun b hb heq => hnew (heq ▸ hb)⟩
    · intro b hb
      rcases List.mem_append.mp hb with hold | hone
      · exact hs.answered b hold
      · rw [List.mem_singleton] at hone
        exact ⟨a, ha, hone ▸ hip, hans⟩
  · rw [probeServer_silent nat ip s hans]
    exact hs

theorem findServersLoop_sound (nat : NatBox) {attempts rest : List Attempt} {s : Search}
    (hs : s.Sound attempts) (hrest : ∀ a ∈ rest, a ∈ attempts) :
    (findServersLoop nat rest s).Sound attempts := by
  fun_induction findServersLoop nat rest s with
  | case1 s => exact hs
  | case2 a rest s hip ih => exact ih hs (List.forall_mem_cons.mp hrest).2
  | case3 a rest s ip hip hseen ih => exact ih hs (List.forall_mem_cons.mp hrest).2
  | case4 a rest s ip hip hnew htwo =>
    exact hs.probe nat (List.forall_mem_cons.mp hrest).1 hip hnew
  | case5 a rest s ip hip hnew htwo ih =>
    obtain ⟨ha, htail⟩ := List.forall_mem_cons.mp hrest
    exact ih (hs.probe nat ha hip hnew) htail

theorem probeServer_seen (nat : NatBox) (a : Attempt) (ip : Ipv4) {s : Search} {b : Ipv4}
    (hb : b ∈ s.seen) : b ∈ (probeServer nat a ip s).seen := by
  by_cases hans : a.answer.isSome
  · simp [probeServer_answered nat ip s hans, hb]
  · rwa [probeServer_silent nat ip s hans]

theorem findServersLoop_seen (nat : NatBox) (rest : List Attempt) {s : Search} {b : Ipv4}
    (hb : b ∈ s.seen) : b ∈ (findServersLoop nat rest s).seen := by
  fun_induction findServersLoop nat rest s with
  | case1 s => exact hb
  | case2 a rest s hip ih => exact ih hb
  | case3 a rest s ip hip hseen ih => exact ih hb
  | case4 a rest s ip hip hnew htwo => exact probeServer_seen nat a ip hb
  | case5 a rest s ip hip hnew htwo ih => exact ih (probeServer_seen nat a ip hb)

/-- The loop passes no address that answers, unless it has two servers already. -/
theorem findServersLoop_covers (nat : NatBox) {rest : List Attempt} {s : Search} {a : Attempt}
    {ip : Ipv4} (ha : a ∈ rest) (hans : a.AnswersFrom ip) :
    ip ∈ (findServersLoop nat rest s).seen ∨ 2 ≤ (findServersLoop nat rest s).ok.length := by
  fun_induction findServersLoop nat rest s with
  | case1 s => exact absurd ha List.not_mem_nil
  | case2 b rest s hip ih =>
    rcases List.mem_cons.mp ha with rfl | htail
    · simp [hans.1] at hip
    · exact ih htail
  | case3 b rest s bip hip hseen ih =>
    rcases List.mem_cons.mp ha with rfl | htail
    · obtain rfl := Option.some.inj (hans.1.symm.trans hip)
      exact Or.inl (findServersLoop_seen nat rest hseen)
    · exact ih htail
  | case4 b rest s bip hip hnew htwo => exact Or.inr htwo
  | case5 b rest s bip hip hnew htwo ih =>
    rcases List.mem_cons.mp ha with rfl | htail
    · obtain rfl := Option.some.inj (hans.1.symm.trans hip)
      apply Or.inl
      apply findServersLoop_seen
      simp [probeServer_answered nat ip s hans.2]
    · exact ih htail

/-- Two of the attempts are answered from different addresses. -/
def TwoAddressesAnswer (attempts : List Attempt) : Prop :=
  ∃ a ∈ attempts, ∃ b ∈ attempts, ∃ ip₁ ip₂, ip₁ ≠ ip₂ ∧ a.AnswersFrom ip₁ ∧ b.AnswersFrom ip₂

def NoneAnswers (attempts : List Attempt) : Prop := ∀ a ∈ attempts, ∀ ip, ¬ a.AnswersFrom ip

theorem findServers_sound (nat : NatBox) (attempts : List Attempt) :
    (findServersLoop nat attempts ⟨[], []⟩).Sound attempts :=
  findServersLoop_sound nat ⟨rfl, List.nodup_nil, by simp⟩ fun _ h => h

theorem findServers_answered (nat : NatBox) {attempts : List Attempt} {c : Chosen}
    (hc : c ∈ findServers nat attempts) : ∃ a ∈ attempts, a.AnswersFrom c.ip := by
  have hsound := findServers_sound nat attempts
  apply hsound.answered
  rw [hsound.seen_eq]
  exact List.mem_map_of_mem hc

theorem findServers_nodup (nat : NatBox) (attempts : List Attempt) :
    ((findServers nat attempts).map Chosen.ip).Nodup := by
  have hsound := findServers_sound nat attempts
  rw [findServers, ← hsound.seen_eq]
  exact hsound.nodup

theorem findServers_covers (nat : NatBox) {attempts : List Attempt} {a : Attempt} {ip : Ipv4}
    (ha : a ∈ attempts) (hans : a.AnswersFrom ip) :
    ip ∈ (findServers nat attempts).map Chosen.ip ∨ 2 ≤ (findServers nat attempts).length := by
  rw [findServers, ← (findServers_sound nat attempts).seen_eq]
  exact findServersLoop_covers nat ha hans

theorem findServers_two (nat : NatBox) {attempts : List Attempt} (h : TwoAddressesAnswer attempts)
    {first : Chosen} {others : List Chosen} (hfind : findServers nat attempts = first :: others) :
    first.ip ≠ (secondDestination first others).addr := by
  obtain ⟨a, ha, b, hb, ip₁, ip₂, hne, h₁, h₂⟩ := h
  have hcov₁ := findServers_covers nat ha h₁
  have hcov₂ := findServers_covers nat hb h₂
  have hnodup := findServers_nodup nat attempts
  rw [hfind] at hcov₁ hcov₂ hnodup
  cases others with
  | nil =>
    have heq₁ : ip₁ = first.ip := by simpa using hcov₁
    have heq₂ : ip₂ = first.ip := by simpa using hcov₂
    exact absurd (heq₁.trans heq₂.symm) hne
  | cons second rest =>
    intro heq
    simp only [List.map_cons, List.nodup_cons, List.mem_cons, not_or] at hnodup
    exact hnodup.1.1 heq

theorem findServers_one (nat : NatBox) {attempts : List Attempt} (hsome : ¬ NoneAnswers attempts)
    (hone : ¬ TwoAddressesAnswer attempts) : ∃ c, findServers nat attempts = [c] := by
  cases hfind : findServers nat attempts with
  | nil =>
    exfalso
    apply hsome
    intro a ha ip hans
    have hcov := findServers_covers nat ha hans
    simp [hfind] at hcov
  | cons first others =>
    cases others with
    | nil => exact ⟨first, rfl⟩
    | cons second rest =>
      exfalso
      have hnodup := findServers_nodup nat attempts
      simp only [hfind, List.map_cons, List.nodup_cons, List.mem_cons, not_or] at hnodup
      obtain ⟨a, ha, h₁⟩ := findServers_answered nat
        (show first ∈ findServers nat attempts by simp [hfind])
      obtain ⟨b, hb, h₂⟩ := findServers_answered nat
        (show second ∈ findServers nat attempts by simp [hfind])
      exact hone ⟨a, ha, b, hb, first.ip, second.ip, hnodup.1.1, h₁, h₂⟩

/-! ## The verdict -/

/-- The line about an endpoint-independent mapping compares two answered probes. -/
theorem printsEim_iff (nat : NatBox) {attempts : List Attempt} (inp : MainInput) {first : Chosen}
    {others : List Chosen} (hfind : findServers nat attempts = first :: others) :
    (main nat attempts inp).printsEim ↔ inp.answer₁.isSome ∧ inp.answer₂.isSome ∧
      nat inp.fixedPort ⟨first.ip, first.port⟩ =
        nat inp.fixedPort (secondDestination first others) := by
  cases h₁ : inp.answer₁ with
  | none => simp [main, hfind, h₁, Report.printsEim]
  | some a₁ =>
    cases h₂ : inp.answer₂ with
    | none => simp [main, hfind, h₁, h₂, Report.printsEim, punchingOf]
    | some a₂ =>
      simp only [main, hfind, h₁, h₂, probe_answer, Report.printsEim, punchingOf, Option.isSome_some,
        true_and]
      constructor
      · intro h
        split at h
        · next heq =>
          apply Endpoint.mapping_injective
          exact Mapping.ext heq.1 heq.2
        · split at h <;> cases h
      · intro h
        simp [h]

/-- The verdict is sound for every NAT exactly when two addresses answer, or the line cannot be
printed for want of an answer. -/
theorem eim_sound_iff (attempts : List Attempt) (inp : MainInput) :
    (∀ nat : NatBox, (main nat attempts inp).printsEim →
      ∃ d₁ d₂ : Endpoint, d₁.addr ≠ d₂.addr ∧ nat inp.fixedPort d₁ = nat inp.fixedPort d₂) ↔
    (TwoAddressesAnswer attempts ∨ NoneAnswers attempts ∨ inp.answer₁ = none ∨
      inp.answer₂ = none) := by
  constructor
  · intro h
    by_contra hcond
    simp only [not_or, ← Option.isSome_iff_ne_none, ← ne_eq] at hcond
    obtain ⟨hone, hsome, h₁, h₂⟩ := hcond
    -- the NAT that has an external address for every destination address
    obtain ⟨c, hfind⟩ := findServers_one (fun _ d => ⟨d.addr, 0⟩) hsome hone
    have hprints := (printsEim_iff (fun _ d => ⟨d.addr, 0⟩) inp hfind).mpr ⟨h₁, h₂, rfl⟩
    obtain ⟨d₁, d₂, hne, heq⟩ := h (fun _ d => ⟨d.addr, 0⟩) hprints
    exact hne (Endpoint.mk.inj heq).1
  · intro hcond nat hprints
    cases hfind : findServers nat attempts with
    | nil => simp [main, hfind, Report.printsEim] at hprints
    | cons first others =>
      obtain ⟨h₁, h₂, hmap⟩ := (printsEim_iff nat inp hfind).mp hprints
      rcases hcond with htwo | hnone | hsilent | hsilent
      · exact ⟨_, _, findServers_two nat htwo hfind, hmap⟩
      · obtain ⟨a, ha, hans⟩ := findServers_answered nat
          (show first ∈ findServers nat attempts by simp [hfind])
        exact absurd hans (hnone a ha first.ip)
      · simp [hsilent] at h₁
      · simp [hsilent] at h₂

/-- A server's usual answer. -/
def plainAnswer : Answer where
  datagram e := response 12 ⟨List.replicate 12 7, rfl⟩ [.xorMappedAddress e]
  truthful e := by
    refine ⟨12, ⟨List.replicate 12 7, rfl⟩, [.xorMappedAddress e], ?_, rfl⟩
    apply List.take_of_length_le
    simp [response, successHeader, packHHI, Attr.encode_length, Attr.value]

/-- One server answers, at its own port and at 19303, behind a NAT whose mapping depends on the
destination address; no two destinations of different addresses are mapped alike. -/
theorem eim_printed_for_address_dependent :
    ¬ (∀ (nat : NatBox) (attempts : List Attempt) (inp : MainInput),
      (main nat attempts inp).printsEim →
        ∃ d₁ d₂ : Endpoint, d₁.addr ≠ d₂.addr ∧ nat inp.fixedPort d₁ = nat inp.fixedPort d₂) := by
  intro h
  let google : Attempt :=
    ⟨⟨"stun.l.google.com", 19302, "Google"⟩, some ⟨74, 125, 250, 129⟩, 37890, some plainAnswer⟩
  let inp : MainInput := ⟨[], 40000, some plainAnswer, some plainAnswer⟩
  have hfind : findServers (fun _ d => ⟨d.addr, 27400⟩) [google] =
      [⟨⟨74, 125, 250, 129⟩, 19302, "Google"⟩] := by
    simp [findServers, findServersLoop, google, probeServer]
  have hprints := (printsEim_iff (fun _ d => ⟨d.addr, 27400⟩) inp hfind).mpr ⟨rfl, rfl, rfl⟩
  obtain ⟨d₁, d₂, hne, heq⟩ := h (fun _ d => ⟨d.addr, 27400⟩) [google] inp hprints
  exact hne (Endpoint.mk.inj heq).1

end LinuxDriverLab.StunProbe
