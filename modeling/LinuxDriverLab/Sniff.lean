import LinuxDriverLab.Framework.ByteNumber
import LinuxDriverLab.Framework.Run
import LinuxDriverLab.Kernel.Decimal
import LinuxDriverLab.Kernel.Hex

/-!
# sniff

The program receives packets into one buffer and prints a line for each that has an Ethernet header.
What `recv` gives is the event of a step.
-/

namespace LinuxDriverLab.Sniff

/-- `sizeof buf` -/
def bufSize : Nat := 2048

/-- `sizeof(struct ethhdr)` -/
def headerSize : Nat := 14

/-- `struct ethhdr` -/
structure Header where
  dest : Bytes
  source : Bytes
  proto : Nat
deriving DecidableEq

/-- The header at the start of some bytes; `proto` is in network order. -/
def headerOf (b : Bytes) : Header := ⟨slice b 0 6, slice b 6 6, beNat (slice b 12 2)⟩

def printMac (m : Bytes) : Bytes := [58].intercalate (m.map fun b => formatHex 2 b.toNat)

/-- `%4zd` -/
def format4 (n : Nat) : Bytes := List.replicate (4 - (decimal n).length) 32 ++ decimal n

/-- The comparisons with `ETH_P_IP`, `ETH_P_ARP` and `ETH_P_IPV6` -/
def protoName (proto : Nat) : Bytes :=
  if proto = 0x0800 then literal " (IPv4)"
  else if proto = 0x0806 then literal " (ARP)"
  else if proto = 0x86DD then literal " (IPv6)"
  else []

/-- What is printed of a packet. -/
structure Captured where
  i : Nat
  len : Nat
  header : Header
deriving DecidableEq

def Captured.line (c : Captured) : Bytes :=
  literal "#" ++ decimal (c.i + 1) ++ literal " " ++ format4 c.len ++ literal " B  " ++
    printMac c.header.source ++ literal " -> " ++ printMac c.header.dest ++ literal "  type=0x" ++
    formatHex 4 c.header.proto ++ protoName c.header.proto ++ literal "\n"

structure State where
  buf : Buf bufSize
  i : Nat

def State.init (buf : Buf bufSize) : State := ⟨buf, 0⟩

inductive Recv
  | error
  | packet (data : Bytes)

/-- One turn of the loop, with the line that it prints. A packet is cut to the buffer; an error is a
length below that of a header. -/
def step (want : Int) (s : State) (r : Recv) : Option (State × Option Bytes) :=
  if s.i < want then
    match r with
    | .error => some (⟨s.buf, s.i + 1⟩, none)
    | .packet data =>
      let buf := s.buf.store 0 (data.take bufSize)
      let len := (data.take bufSize).length
      some (⟨buf, s.i + 1⟩,
        if len < headerSize then none else some (Captured.line ⟨s.i, len, headerOf buf.bytes⟩))
  else none

/-! ## What is captured -/

/-- What there is to print of the packet that comes as number `i`. -/
def capture (i : Nat) : Recv → Option Captured
  | .error => none
  | .packet data =>
    if data.length < headerSize then none else some ⟨i, min bufSize data.length, headerOf data⟩

def captures (rs : List Recv) : List Captured := rs.zipIdx.filterMap fun x => capture x.2 x.1

theorem headerOf_store (b : Buf bufSize) {data : Bytes} (h : headerSize ≤ data.length) :
    headerOf (b.store 0 (data.take bufSize)).bytes = headerOf data := by
  have hfit : (data.take bufSize).length ≤ bufSize := List.length_take_le bufSize data
  have htake : (b.store 0 (data.take bufSize)).bytes.take headerSize = data.take headerSize := by
    have hlong : headerSize ≤ (data.take bufSize).length := by
      rw [List.length_take, bufSize]
      unfold headerSize at h ⊢
      omega
    rw [b.store_start hfit, List.take_append_of_le_length hlong, List.take_take,
      Nat.min_eq_left (by decide)]
  have hslice : ∀ off n, off + n ≤ headerSize →
      slice (b.store 0 (data.take bufSize)).bytes off n = slice data off n := by
    intro off n hn
    rw [← slice_take hn, htake, slice_take hn]
  simp only [headerOf, hslice 0 6 (by decide), hslice 6 6 (by decide), hslice 12 2 (by decide)]

theorem step_eq {want : Int} {s t : State} {r : Recv} {o : Option Bytes}
    (h : step want s r = some (t, o)) :
    s.i < want ∧ t.i = s.i + 1 ∧ o = (capture s.i r).map Captured.line := by
  obtain ⟨hlt, h⟩ := Option.ite_none_right_eq_some.mp h
  cases r with
  | error =>
    cases h
    exact ⟨hlt, rfl, rfl⟩
  | packet data =>
    cases h
    refine ⟨hlt, rfl, ?_⟩
    have hshort : (data.take bufSize).length < headerSize ↔ data.length < headerSize := by
      rw [List.length_take]
      unfold bufSize headerSize
      omega
    by_cases hlen : data.length < headerSize
    · simp only [capture, if_pos hlen, if_pos (hshort.mpr hlen), Option.map_none]
    · simp only [capture, if_neg hlen, if_neg (fun hs => hlen (hshort.mp hs)), Option.map_some]
      rw [headerOf_store s.buf (Nat.le_of_not_lt hlen), List.length_take]

/-- In every run the lines are those of the packets with a header, in order. -/
theorem run_lines {want : Int} {buf : Buf bufSize} {tr : List (Record State Recv (Option Bytes))}
    {t : State} (h : Run (step want) (State.init buf) tr t) :
    t.i = tr.length ∧ (tr ≠ [] → (tr.length : Int) ≤ want) ∧
      tr.filterMap Record.out = (captures (tr.map Record.event)).map Captured.line := by
  induction h with
  | refl => exact ⟨rfl, fun hne => absurd rfl hne, rfl⟩
  | @tail s u tr r o _ hs ih =>
    obtain ⟨hi, hwant, hlines⟩ := ih
    obtain ⟨hlt, hnext, ho⟩ := step_eq hs
    refine ⟨by simp [hnext, hi], fun _ => ?_, ?_⟩
    · rw [List.length_append, List.length_singleton]
      omega
    · have hone : [(⟨s, r, o⟩ : Record State Recv (Option Bytes))].filterMap Record.out =
          ([(r, tr.length)].filterMap fun x => capture x.2 x.1).map Captured.line := by
        rw [← hi]
        cases hc : capture s.i r <;> simp [ho, hc]
      rw [List.filterMap_append, hlines, hone, captures, captures, List.map_append, List.zipIdx_append,
        List.filterMap_append, List.map_append]
      simp

/-! ## Reading a line back -/

theorem colon_notMem_hexDigits (n : Nat) : (58 : UInt8) ∉ hexDigits n := by
  have hdigit : ∀ d : Fin 16, (58 : UInt8) ≠ (Nat.digitChar d).toUInt8 := by decide
  induction n using Nat.strongRecOn with
  | ind n ih =>
    rw [hexDigits_eq]
    split
    · next h => exact fun hmem => hdigit ⟨n, h⟩ (List.mem_singleton.mp hmem)
    · next h =>
      rw [List.mem_append, List.mem_singleton, not_or]
      exact ⟨ih (n / 16) (by omega), hdigit ⟨n % 16, Nat.mod_lt n (by decide)⟩⟩

theorem colon_notMem_formatHex (w n : Nat) : (58 : UInt8) ∉ formatHex w n := by
  rw [formatHex, List.mem_append, not_or]
  exact ⟨fun h => absurd (List.eq_of_mem_replicate h) (by decide), colon_notMem_hexDigits n⟩

theorem formatHex_inj {w m n : Nat} (h : formatHex w m = formatHex w n) : m = n := by
  rw [← hexNat_formatHex w m, h, hexNat_formatHex]

theorem printMac_inj {m n : Bytes} (hm : m ≠ []) (hn : n ≠ []) (h : printMac m = printMac n) : m = n := by
  have hsplit : ∀ m : Bytes, m ≠ [] → (printMac m).splitOn 58 = m.map fun b => formatHex 2 b.toNat := by
    intro m hm
    refine List.splitOn_intercalate 58 ?_ (by simpa using hm)
    intro l hl
    obtain ⟨b, -, rfl⟩ := List.mem_map.mp hl
    exact colon_notMem_formatHex 2 b.toNat
  have hmap := hsplit m hm
  rw [h, hsplit n hn] at hmap
  refine List.map_injective_iff.mpr ?_ hmap.symm
  intro a b hab
  exact UInt8.toNat_inj.mp (formatHex_inj hab)

theorem printMac_length {m : Bytes} (h : m.length = 6) : (printMac m).length = 17 := by
  have htwo : ∀ b : UInt8, (formatHex 2 b.toNat).length = 2 :=
    fun b => formatHex_length (by decide) b.toNat_lt
  match m, h with
  | [_, _, _, _, _, _], _ => simp [printMac, List.intercalate, List.intersperse, htwo]

theorem notDigit_head {b : UInt8} (h : isDigit b = false) (u : Bytes) :
    ∀ c ∈ (b :: u).head?, ¬ isDigit c := by
  intro c hc
  obtain rfl : b = c := by simpa using hc
  simp [h]

theorem format4_append_inj {m n : Nat} {u v : Bytes} (hu : ∀ b ∈ u.head?, ¬ isDigit b)
    (hv : ∀ b ∈ v.head?, ¬ isDigit b) (h : format4 m ++ u = format4 n ++ v) : m = n ∧ u = v := by
  have hdrop : ∀ (n : Nat) (v : Bytes), (format4 n ++ v).dropWhile (· = 32) = decimal n ++ v := by
    intro n v
    obtain ⟨d, ds, hd⟩ := List.exists_cons_of_ne_nil (decimal_ne_nil n)
    have hdigit : isDigit d := decimal_isDigit (n := n) (by simp [hd])
    have hne : d ≠ 32 := by
      rintro rfl
      exact absurd hdigit (by decide)
    rw [format4, List.append_assoc, List.dropWhile_append_of_pos (by simp), hd]
    simp [hne]
  have hboth := congrArg (List.dropWhile (· = 32)) h
  rw [hdrop, hdrop] at hboth
  exact decimal_append_inj hu hv hboth

/-- A header as `headerOf` gives it for a packet that is long enough -/
structure Header.Valid (h : Header) : Prop where
  dest : h.dest.length = 6
  source : h.source.length = 6
  proto : h.proto < 65536

theorem line_inj {c d : Captured} (hc : c.header.Valid) (hd : d.header.Valid) (h : c.line = d.line) :
    c = d := by
  obtain ⟨i, len, dest, source, proto⟩ := c
  obtain ⟨i', len', dest', source', proto'⟩ := d
  have hspace : literal " " = [32] := by decide
  have hbytes : literal " B  " = [32, 66, 32, 32] := by decide
  have hlen : ∀ m n : Bytes, m.length = 6 → n.length = 6 → (printMac m).length = (printMac n).length := by
    intro m n hm hn
    rw [printMac_length hm, printMac_length hn]
  have hne : ∀ m : Bytes, m.length = 6 → m ≠ [] := by
    rintro m hm rfl
    cases hm
  simp only [Captured.line, hspace, hbytes, List.append_assoc, List.cons_append, List.nil_append] at h
  obtain ⟨hi, hlenb⟩ := decimal_append_inj (notDigit_head (by decide) _) (notDigit_head (by decide) _)
    (List.append_cancel_left h)
  obtain ⟨rfl, hmacs⟩ := format4_append_inj (notDigit_head (by decide) _) (notDigit_head (by decide) _)
    (List.cons.inj hlenb).2
  simp only [List.cons.injEq, true_and] at hmacs
  obtain ⟨hsource, harrow⟩ := List.append_inj hmacs (hlen _ _ hc.source hd.source)
  obtain ⟨hdest, htype⟩ := List.append_inj (List.append_cancel_left harrow) (hlen _ _ hc.dest hd.dest)
  have hproto : (formatHex 4 proto).length = (formatHex 4 proto').length := by
    rw [formatHex_length (by decide) hc.proto, formatHex_length (by decide) hd.proto]
  obtain rfl := printMac_inj (hne _ hc.source) (hne _ hd.source) hsource
  obtain rfl := printMac_inj (hne _ hc.dest) (hne _ hd.dest) hdest
  obtain rfl := formatHex_inj (List.append_inj (List.append_cancel_left htype) hproto).1
  obtain rfl := Nat.succ_injective hi
  rfl

theorem map_inj_of {α β : Type} {f : α → β} {xs ys : List α}
    (hf : ∀ x ∈ xs, ∀ y ∈ ys, f x = f y → x = y) (h : xs.map f = ys.map f) : xs = ys := by
  induction xs generalizing ys with
  | nil => exact (List.map_eq_nil_iff.mp h.symm).symm
  | cons x xs ih =>
    cases ys with
    | nil => cases h
    | cons y ys =>
      obtain ⟨hhead, htail⟩ := List.cons.inj h
      rw [hf x List.mem_cons_self y List.mem_cons_self hhead, ih ?_ htail]
      exact fun a ha b hb => hf a (List.mem_cons_of_mem x ha) b (List.mem_cons_of_mem y hb)

theorem captures_valid {rs : List Recv} {c : Captured} (h : c ∈ captures rs) : c.header.Valid := by
  obtain ⟨⟨r, i⟩, -, hc⟩ := List.mem_filterMap.mp h
  cases r with
  | error => cases hc
  | packet data =>
    obtain ⟨hlen, hc⟩ := Option.ite_none_left_eq_some.mp hc
    obtain rfl := Option.some.inj hc
    have hslice : ∀ off n, off + n ≤ headerSize → (slice data off n).length = n := by
      intro off n hn
      rw [slice_length]
      omega
    refine ⟨hslice 0 6 (by decide), hslice 6 6 (by decide), ?_⟩
    have hproto := beNat_lt (slice data 12 2)
    rwa [hslice 12 2 (by decide)] at hproto

/-- Whatever the buffer held, the packets with a header are printed in order, each with its place among
all that were received and the length that fits the buffer; and what is printed tells the number,
the length, both addresses and the type of every one of them. -/
theorem printed_determines {want : Int} {buf : Buf bufSize}
    {tr : List (Record State Recv (Option Bytes))} {t : State}
    (h : Run (step want) (State.init buf) tr t) :
    (tr ≠ [] → (tr.length : Int) ≤ want) ∧
    tr.filterMap Record.out = (captures (tr.map Record.event)).map Captured.line ∧
    ∀ rs, (captures rs).map Captured.line = tr.filterMap Record.out →
      captures rs = captures (tr.map Record.event) := by
  obtain ⟨-, hwant, hlines⟩ := run_lines h
  refine ⟨hwant, hlines, fun rs hrs => ?_⟩
  rw [hlines] at hrs
  exact map_inj_of (fun _ hx _ hy => line_inj (captures_valid hx) (captures_valid hy)) hrs

/-- An error, a packet that is too short and one of 60 bytes -/
theorem printed_determines_three : ∃ tr t, Run (step 5) (State.init (.zero bufSize)) tr t ∧
    tr.filterMap Record.out = [Captured.line ⟨2, 60, ⟨List.replicate 6 255, List.replicate 6 1, 0x0806⟩⟩] ∧
    ∀ rs, (captures rs).map Captured.line = tr.filterMap Record.out →
      captures rs = [⟨2, 60, ⟨List.replicate 6 255, List.replicate 6 1, 0x0806⟩⟩] := by
  let events : List Recv := [.error, .packet [1, 2], .packet
    (List.replicate 6 255 ++ List.replicate 6 1 ++ [8, 6] ++ List.replicate 46 0)]
  obtain ⟨tr, t, hrun, hevents, -⟩ := exists_exec (step 5) (State.init (.zero bufSize)) events
    (fun _ => true) (by decide +kernel)
  have hcaptures : captures (tr.map Record.event) =
      [⟨2, 60, ⟨List.replicate 6 255, List.replicate 6 1, 0x0806⟩⟩] := by
    rw [hevents]
    decide
  obtain ⟨-, hlines, hread⟩ := printed_determines hrun
  rw [hcaptures] at hlines hread
  exact ⟨tr, t, hrun, hlines, hread⟩

end LinuxDriverLab.Sniff
