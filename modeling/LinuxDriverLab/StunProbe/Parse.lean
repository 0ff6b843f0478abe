import LinuxDriverLab.Framework.ByteNumber
import LinuxDriverLab.Kernel.Decimal

/-!
# Parsing a STUN response

`parse_response` of the probe against the encoding that a server uses: a list of attributes, each
with its type, its length and its value padded to a multiple of four bytes. Text is kept as its
ASCII bytes.
-/

namespace LinuxDriverLab.StunProbe

/-- The exceptions of the calls that `parse_response` makes. -/
inductive PyError
  | structError
  | osError
deriving DecidableEq

def magic : Nat := 0x2112A442

theorem magic_lt : magic < 256 ^ 4 := by decide

/-- `struct.unpack("!H", b)` -/
def unpackH (b : Bytes) : Except PyError Nat :=
  if b.length = 2 then .ok (beNat b) else .error .structError

/-- `struct.unpack("!HH", b)` -/
def unpackHH (b : Bytes) : Except PyError (Nat × Nat) :=
  if b.length = 4 then .ok (beNat (slice b 0 2), beNat (slice b 2 2)) else .error .structError

/-- `struct.unpack("!HHI", b)` -/
def unpackHHI (b : Bytes) : Except PyError (Nat × Nat × Nat) :=
  if b.length = 8 then .ok (beNat (slice b 0 2), beNat (slice b 2 2), beNat (slice b 4 4))
  else .error .structError

/-- `struct.pack("!HHI", x, y, z)` -/
def packHHI (x y z : Nat) : Bytes := beBytes 2 x ++ beBytes 2 y ++ beBytes 4 z

/-- `struct.pack("!I", x)` -/
def packI (x : Nat) : Bytes := beBytes 4 x

/-- The dotted text of an IPv4 address; `inet_ntoa` takes exactly four bytes. -/
def inetNtoa (b : Bytes) : Except PyError Bytes :=
  match b with
  | [w, x, y, z] =>
    .ok (decimal w.toNat ++ 46 :: (decimal x.toNat ++ 46 :: (decimal y.toNat ++ 46 :: decimal z.toNat)))
  | _ => .error .osError

/-- The pair `(ip, port)` that the script passes around. -/
@[ext] structure Mapping where
  ip : Bytes
  port : Nat
deriving DecidableEq

/-- The two local variables `mapped` and `xor` of `parse_response`. -/
structure Found where
  mapped : Option Mapping
  xor : Option Mapping
deriving DecidableEq

/-- The body of the walk: one attribute of type `atype`, of declared length `alen`, `val` being the
bytes that are there of it. -/
def attrStep (atype alen : Nat) (val : Bytes) (found : Found) : Except PyError Found :=
  if atype = 0x0001 ∧ 8 ≤ alen then do
    let port ← unpackH (slice val 2 2)
    let ip ← inetNtoa (slice val 4 4)
    return { found with mapped := some ⟨ip, port⟩ }
  else if atype = 0x0020 ∧ 8 ≤ alen then do
    let port ← unpackH (slice val 2 2)
    let ipb := List.zipWith (· ^^^ ·) (slice val 4 4) (packI magic)
    let ip ← inetNtoa ipb
    return { found with xor := some ⟨ip, port ^^^ (magic >>> 16)⟩ }
  else return found

/-- The `while` loop of `parse_response`. -/
def walk (body : Bytes) (i : Nat) (found : Found) : Except PyError Found :=
  if _h : i + 4 ≤ body.length then do
    let head ← unpackHH (slice body i 4)
    let found ← attrStep head.1 head.2 (slice body (i + 4) head.2) found
    walk body (i + (4 + (head.2 + 3) / 4 * 4)) found
  else return found
termination_by body.length - i

def parseResponse (data : Bytes) : Except PyError (Option Mapping) :=
  if data.length < 20 then return none
  else do
    let head ← unpackHHI (slice data 0 8)
    if head.1 ≠ 0x0101 ∨ head.2.2 ≠ magic then return none
    else
      let found ← walk (data.drop 20) 0 ⟨none, none⟩
      return found.xor <|> found.mapped

structure TransactionId where
  bytes : Bytes
  length_eq : bytes.length = 12

/-- `make_request`; the random bytes are its argument. -/
def makeRequest (tid : TransactionId) : Bytes := packHHI 0x0001 0 magic ++ tid.bytes

/-! ## The encoding -/

structure Ipv4 where
  w : UInt8
  x : UInt8
  y : UInt8
  z : UInt8
deriving DecidableEq

namespace Ipv4

def bytes (a : Ipv4) : Bytes := [a.w, a.x, a.y, a.z]

def text (a : Ipv4) : Bytes :=
  decimal a.w.toNat ++ 46 :: (decimal a.x.toNat ++ 46 :: (decimal a.y.toNat ++ 46 :: decimal a.z.toNat))

theorem inetNtoa_bytes (a : Ipv4) : inetNtoa a.bytes = .ok a.text := rfl

@[simp] theorem bytes_length (a : Ipv4) : a.bytes.length = 4 := rfl

theorem text_injective {a b : Ipv4} (h : a.text = b.text) : a = b := by
  have hdot : ∀ rest : Bytes, ∀ c ∈ (46 :: rest).head?, ¬ isDigit c := by
    intro rest c hc
    obtain rfl : (46 : UInt8) = c := Option.some.inj hc
    decide
  obtain ⟨hw, h⟩ := decimal_append_inj (hdot _) (hdot _) h
  obtain ⟨hx, h⟩ := decimal_append_inj (hdot _) (hdot _) (List.cons.inj h).2
  obtain ⟨hy, h⟩ := decimal_append_inj (hdot _) (hdot _) (List.cons.inj h).2
  have hz : a.z.toNat = b.z.toNat := by
    rw [← digitsNat_decimal a.z.toNat, (List.cons.inj h).2, digitsNat_decimal]
  cases a
  cases b
  simp only [UInt8.toNat_inj] at hw hx hy hz
  simp only [hw, hx, hy, hz]

end Ipv4

structure Endpoint where
  addr : Ipv4
  port : UInt16
deriving DecidableEq

/-- An endpoint as the script shows it. -/
def Endpoint.mapping (e : Endpoint) : Mapping := ⟨e.addr.text, e.port.toNat⟩

theorem Endpoint.mapping_injective {a b : Endpoint} (h : a.mapping = b.mapping) : a = b := by
  have haddr : a.addr = b.addr := Ipv4.text_injective (congrArg Mapping.ip h)
  have hport : a.port = b.port := UInt16.toNat_inj.mp (congrArg Mapping.port h)
  cases a
  cases b
  simp only at haddr hport
  rw [haddr, hport]

/-- An attribute of a response: the two that carry an address, and all others. -/
inductive Attr
  | mappedAddress (e : Endpoint)
  | xorMappedAddress (e : Endpoint)
  | other (atype : UInt16) (value : Bytes) (type_ne : atype ≠ 0x0001 ∧ atype ≠ 0x0020)
      (length_le : value.length ≤ 65535)

namespace Attr

def atype : Attr → UInt16
  | mappedAddress _ => 0x0001
  | xorMappedAddress _ => 0x0020
  | other t _ _ _ => t

/-- A reserved byte, the address family, the port and the address; in an XOR-MAPPED-ADDRESS port
and address are combined with the magic cookie as numbers. -/
def value : Attr → Bytes
  | mappedAddress e => 0 :: 1 :: (beBytes 2 e.port.toNat ++ e.addr.bytes)
  | xorMappedAddress e =>
    0 :: 1 :: (beBytes 2 (e.port.toNat ^^^ (magic >>> 16)) ++ beBytes 4 (beNat e.addr.bytes ^^^ magic))
  | other _ v _ _ => v

/-- The zeros after a value of `n` bytes. -/
def padding (n : Nat) : Bytes := List.replicate ((4 - n % 4) % 4) 0

def encode (a : Attr) : Bytes :=
  beBytes 2 a.atype.toNat ++ (beBytes 2 a.value.length ++ (a.value ++ padding a.value.length))

def mapped : Attr → Option Endpoint
  | mappedAddress e => some e
  | _ => none

def xorMapped : Attr → Option Endpoint
  | xorMappedAddress e => some e
  | _ => none

end Attr

/-- The header of a Binding Success Response. -/
def successHeader (mlen : UInt16) (tid : TransactionId) : Bytes :=
  packHHI 0x0101 mlen.toNat magic ++ tid.bytes

/-- A response with its attributes; the header may declare any length. -/
def response (mlen : UInt16) (tid : TransactionId) (attrs : List Attr) : Bytes :=
  successHeader mlen tid ++ attrs.flatMap Attr.encode

/-- The endpoint that a list of attributes reports. -/
def reported (attrs : List Attr) : Option Endpoint :=
  (attrs.filterMap Attr.xorMapped).getLast? <|> (attrs.filterMap Attr.mapped).getLast?

/-! ## Slices of a concatenation -/

theorem slice_middle (a b c : Bytes) : slice (a ++ (b ++ c)) a.length b.length = b := by
  simp [slice]

theorem slice_left (b c : Bytes) : slice (b ++ c) 0 b.length = b := by
  simp [slice]

theorem unpackHH_pack {x y : Nat} (hx : x < 65536) (hy : y < 65536) :
    unpackHH (beBytes 2 x ++ beBytes 2 y) = .ok (x, y) := by
  have hfst : slice (beBytes 2 x ++ beBytes 2 y) 0 2 = beBytes 2 x := by
    simpa using slice_left (beBytes 2 x) (beBytes 2 y)
  have hsnd : slice (beBytes 2 x ++ beBytes 2 y) 2 2 = beBytes 2 y := by
    simpa using slice_middle (beBytes 2 x) (beBytes 2 y) []
  rw [unpackHH, if_pos (by simp), hfst, hsnd, beNat_beBytes hx, beNat_beBytes hy]

theorem unpackHHI_pack {x y z : Nat} (hx : x < 65536) (hy : y < 65536) (hz : z < 4294967296) :
    unpackHHI (packHHI x y z) = .ok (x, y, z) := by
  have h₁ : slice (packHHI x y z) 0 2 = beBytes 2 x := by
    simpa [packHHI] using slice_left (beBytes 2 x) (beBytes 2 y ++ beBytes 4 z)
  have h₂ : slice (packHHI x y z) 2 2 = beBytes 2 y := by
    simpa [packHHI] using slice_middle (beBytes 2 x) (beBytes 2 y) (beBytes 4 z)
  have h₃ : slice (packHHI x y z) 4 4 = beBytes 4 z := by
    simpa [packHHI] using slice_middle (beBytes 2 x ++ beBytes 2 y) (beBytes 4 z) []
  rw [unpackHHI, if_pos (by simp [packHHI]), h₁, h₂, h₃, beNat_beBytes hx, beNat_beBytes hy,
    beNat_beBytes hz]

theorem unpackH_pack {x : Nat} (hx : x < 65536) : unpackH (beBytes 2 x) = .ok x := by
  rw [unpackH, if_pos (by simp), beNat_beBytes hx]

/-! ## One attribute -/

theorem addressValue_port (p : Nat) (addr : Bytes) :
    slice (0 :: 1 :: (beBytes 2 p ++ addr)) 2 2 = beBytes 2 p := by
  simpa using slice_middle [0, 1] (beBytes 2 p) addr

theorem addressValue_addr (p : Nat) {addr : Bytes} (h : addr.length = 4) :
    slice (0 :: 1 :: (beBytes 2 p ++ addr)) 4 4 = addr := by
  simpa [h] using slice_middle (0 :: 1 :: beBytes 2 p) addr []

/-- Combining an address with the cookie twice, once as a number and once byte by byte, gives the
address back. -/
theorem xor_cookie_bytes (a : Ipv4) :
    List.zipWith (· ^^^ ·) (beBytes 4 (beNat a.bytes ^^^ magic)) (packI magic) = a.bytes := by
  have hmagic : beNat (packI magic) = magic := by rw [packI, beNat_beBytes magic_lt]
  have hlt : beNat a.bytes < 2 ^ 32 := by simpa using beNat_lt a.bytes
  have hword : beNat a.bytes ^^^ magic < 2 ^ 32 := Nat.xor_lt_two_pow hlt (by decide)
  have hlen : (beBytes 4 (beNat a.bytes ^^^ magic)).length = (packI magic).length := by
    simp [packI]
  have hvalue : beNat (List.zipWith (· ^^^ ·) (beBytes 4 (beNat a.bytes ^^^ magic)) (packI magic)) =
      beNat a.bytes := by
    rw [beNat_xor hlen, beNat_beBytes (by simpa using hword), hmagic, Nat.xor_assoc, Nat.xor_self, Nat.xor_zero]
  have hback := beBytes_beNat
    (List.zipWith (· ^^^ ·) (beBytes 4 (beNat a.bytes ^^^ magic)) (packI magic))
  rw [hvalue] at hback
  have haddr := beBytes_beNat a.bytes
  rw [← hback]
  simpa [packI] using haddr

theorem port_lt (p : UInt16) : p.toNat < 65536 := p.toNat_lt

theorem port_xor_lt (p : UInt16) : p.toNat ^^^ (magic >>> 16) < 65536 :=
  Nat.xor_lt_two_pow (n := 16) p.toNat_lt (by decide)

/-- What one attribute leaves in the two variables. -/
def Found.see (found : Found) : Attr → Found
  | .mappedAddress e => { found with mapped := some e.mapping }
  | .xorMappedAddress e => { found with xor := some e.mapping }
  | .other _ _ _ _ => found

theorem attrStep_encode (a : Attr) (found : Found) :
    attrStep a.atype.toNat a.value.length a.value found = .ok (found.see a) := by
  cases a with
  | mappedAddress e =>
    have hlen : 8 ≤ (Attr.mappedAddress e).value.length := by simp [Attr.value]
    rw [attrStep, if_pos ⟨rfl, hlen⟩, Attr.value, addressValue_port,
      addressValue_addr _ e.addr.bytes_length, unpackH_pack (port_lt _), Ipv4.inetNtoa_bytes]
    rfl
  | xorMappedAddress e =>
    have hlen : 8 ≤ (Attr.xorMappedAddress e).value.length := by simp [Attr.value]
    rw [attrStep, if_neg (by simp [Attr.atype]), if_pos ⟨rfl, hlen⟩, Attr.value, addressValue_port,
      addressValue_addr _ (beBytes_length 4 _), unpackH_pack (port_xor_lt _), xor_cookie_bytes]
    simp only [bind, Except.bind, pure, Except.pure, Ipv4.inetNtoa_bytes, Found.see,
      Endpoint.mapping, Nat.xor_assoc, Nat.xor_self, Nat.xor_zero]
  | other t v htype hlen =>
    have h₁ : t.toNat ≠ 0x0001 := fun h => htype.1 (UInt16.toNat_inj.mp h)
    have h₂ : t.toNat ≠ 0x0020 := fun h => htype.2 (UInt16.toNat_inj.mp h)
    rw [attrStep, if_neg (fun h => h₁ h.1), if_neg (fun h => h₂ h.1)]
    rfl

/-! ## The walk -/

theorem Attr.value_length_lt (a : Attr) : a.value.length < 65536 := by
  cases a with
  | mappedAddress e => simp [Attr.value]
  | xorMappedAddress e => simp [Attr.value]
  | other t v htype hlen => exact Nat.lt_succ_of_le hlen

theorem Attr.encode_length (a : Attr) :
    a.encode.length = 4 + (a.value.length + 3) / 4 * 4 := by
  simp only [Attr.encode, Attr.padding, List.length_append, beBytes_length, List.length_replicate]
  omega

/-- One turn of the loop at the start of an attribute takes that attribute and stops at its end. -/
theorem walk_encode (front rest : Bytes) (a : Attr) (found : Found) :
    walk (front ++ (a.encode ++ rest)) front.length found =
      walk (front ++ (a.encode ++ rest)) (front ++ a.encode).length (found.see a) := by
  have hsize := a.encode_length
  have hhead : slice (front ++ (a.encode ++ rest)) front.length 4 =
      beBytes 2 a.atype.toNat ++ beBytes 2 a.value.length := by
    simpa [Attr.encode] using slice_middle front
      (beBytes 2 a.atype.toNat ++ beBytes 2 a.value.length) (a.value ++ (Attr.padding a.value.length ++ rest))
  have hval : slice (front ++ (a.encode ++ rest)) (front.length + 4) a.value.length = a.value := by
    simpa [Attr.encode] using slice_middle
      (front ++ (beBytes 2 a.atype.toNat ++ beBytes 2 a.value.length)) a.value
      (Attr.padding a.value.length ++ rest)
  have hnext : front.length + (4 + (a.value.length + 3) / 4 * 4) = (front ++ a.encode).length := by
    rw [List.length_append, hsize]
  have hin : front.length + 4 ≤ (front ++ (a.encode ++ rest)).length := by
    simp only [List.length_append, hsize]
    omega
  rw [walk, dif_pos hin, hhead, unpackHH_pack a.atype.toNat_lt a.value_length_lt]
  simp only [bind, Except.bind, hval, attrStep_encode, hnext]

theorem walk_attrs (front : Bytes) (attrs : List Attr) (found : Found) :
    walk (front ++ attrs.flatMap Attr.encode) front.length found =
      .ok (attrs.foldl Found.see found) := by
  induction attrs generalizing front found with
  | nil =>
    rw [walk, dif_neg (by simp)]
    rfl
  | cons a attrs ih =>
    have hrest := ih (front ++ a.encode) (found.see a)
    rw [List.append_assoc] at hrest
    rw [List.flatMap_cons, walk_encode, hrest, List.foldl_cons]

theorem see_all (attrs : List Attr) (found : Found) :
    attrs.foldl Found.see found =
      ⟨((attrs.filterMap Attr.mapped).getLast?.map Endpoint.mapping) <|> found.mapped,
        ((attrs.filterMap Attr.xorMapped).getLast?.map Endpoint.mapping) <|> found.xor⟩ := by
  induction attrs using List.reverseRecOn with
  | nil => simp
  | append_singleton attrs a ih =>
    rw [List.foldl_append, ih]
    cases a <;> simp [Found.see, Attr.mapped, Attr.xorMapped]

/-- An XOR-MAPPED-ADDRESS goes before a MAPPED-ADDRESS, whichever comes first in the list. -/
theorem see_all_reported (attrs : List Attr) :
    ((attrs.foldl Found.see ⟨none, none⟩).xor <|> (attrs.foldl Found.see ⟨none, none⟩).mapped) =
      (reported attrs).map Endpoint.mapping := by
  simp [see_all, reported, Option.map_or]

theorem parseResponse_response (mlen : UInt16) (tid : TransactionId) (attrs : List Attr) :
    parseResponse (response mlen tid attrs) =
      .ok ((attrs.foldl Found.see ⟨none, none⟩).xor <|>
        (attrs.foldl Found.see ⟨none, none⟩).mapped) := by
  have hheader : (successHeader mlen tid).length = 20 := by
    simp [successHeader, packHHI, tid.length_eq]
  have hslice : slice (response mlen tid attrs) 0 8 = packHHI 0x0101 mlen.toNat magic := by
    have h := slice_left (packHHI 0x0101 mlen.toNat magic) (tid.bytes ++ attrs.flatMap Attr.encode)
    simpa [response, successHeader, packHHI] using h
  have hbody : (response mlen tid attrs).drop 20 = attrs.flatMap Attr.encode := by
    rw [response, ← hheader, List.drop_left]
  have hwalk := walk_attrs [] attrs ⟨none, none⟩
  rw [List.nil_append, List.length_nil] at hwalk
  have hlen : ¬ (response mlen tid attrs).length < 20 := by
    rw [response, List.length_append, hheader]
    omega
  rw [parseResponse, if_neg hlen, hslice, unpackHHI_pack (by decide) mlen.toNat_lt (by decide)]
  simp [bind, Except.bind, pure, Except.pure, hbody, hwalk]

/-- Decoding undoes encoding: the parser returns the address and port of the last
XOR-MAPPED-ADDRESS if there is one, otherwise those of the last MAPPED-ADDRESS, otherwise `None`. -/
theorem parseResponse_encode (mlen : UInt16) (tid : TransactionId) (attrs : List Attr) :
    parseResponse (response mlen tid attrs) = .ok ((reported attrs).map Endpoint.mapping) := by
  rw [parseResponse_response, see_all_reported]

end LinuxDriverLab.StunProbe
