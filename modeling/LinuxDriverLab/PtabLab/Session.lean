import LinuxDriverLab.Framework.Run
import LinuxDriverLab.PtabLab.Disklab

/-!
# Sessions with a medium

The partition table is on the medium, the partition nodes are in the kernel: it makes them when it
reads the table, and what is written to the medium afterwards does not touch them. A session is any
sequence of the subcommands on one disk, or on one image and the loop device that it is bound to.
The kernel's reading of a table is a parameter.
-/

namespace LinuxDriverLab.PtabLab

/-- A partition node: its number, and the two values that sysfs has of it. -/
structure Partition where
  no : Nat
  start : Nat
  nsect : Nat
deriving DecidableEq

/-! ## The table on the medium -/

/-- The two bytes that `dump` compares. -/
def Signed (mbr : Buf sector) : Prop := mbr.byte mbrSigOff = 0x55 ∧ mbr.byte (mbrSigOff + 1) = 0xAA

instance (mbr : Buf sector) : Decidable (Signed mbr) := by
  unfold Signed
  infer_instance

/-- An entry that is empty, or a Linux partition inside a medium of `total` sectors. -/
def Entry.Plain (total : Nat) (e : Entry) : Prop :=
  e.status = 0 ∧ (e.nsect = 0 ∨ e.type = 0x83 ∧ 0 < e.start ∧ e.start + e.nsect ≤ total)

section

variable {size : Nat}

/-- A medium and what the kernel has of it. A disk is always there; a loop device is bound with or
without `LO_FLAGS_PARTSCAN`, or not bound. -/
structure Device (size : Nat) where
  medium : Buf size
  bound : Option Bool
  parts : List Partition

/-- `busy` is whether a partition is in use. -/
inductive Command
  | attach (partscan : Bool)
  | detach
  | mkpt (sig : Nat)
  | corrupt (mode : String)
  | reread (busy : Bool)
  | lsdev
deriving DecidableEq

/-- What a subcommand comes to: a message, an error, or the partition nodes found. -/
inductive Answer
  | done
  | failed
  | listed (parts : List Partition)
deriving DecidableEq

/-- `cmd_mkpt` and `cmd_corrupt`: a device that is not bound has no sectors. -/
def Device.write (d : Device size) (f : Buf size → Option (Buf size)) : Device size × Answer :=
  if d.bound.isNone then (d, .failed)
  else match f d.medium with
    | some medium => ({ d with medium }, .done)
    | none => (d, .failed)

/-- `cmd_reread`: `BLKRRPART` is refused without partscan, and while a partition is in use. -/
def Device.reread (scan : Buf size → List Partition) (d : Device size) (busy : Bool) :
    Device size × Answer :=
  if d.bound = some true ∧ ¬ busy then ({ d with parts := scan d.medium }, .done) else (d, .failed)

/-- `cmd_loop_attach`; another `LOOP_CONFIGURE` of the image would take another device. -/
def Device.attach (scan : Buf size → List Partition) (d : Device size) (partscan : Bool) :
    Option (Device size × Answer) :=
  if d.bound.isNone then
    some ({ d with bound := some partscan, parts := if partscan then scan d.medium else [] }, .done)
  else none

/-- `cmd_loop_detach` -/
def Device.detach (d : Device size) : Device size × Answer :=
  if d.bound.isNone then (d, .failed) else ({ d with bound := none, parts := [] }, .done)

def step (scan : Buf size → List Partition) (d : Device size) : Command → Option (Device size × Answer)
  | .attach partscan => d.attach scan partscan
  | .detach => some d.detach
  | .mkpt sig => some (d.write fun medium => cmdMkpt medium sig)
  | .corrupt mode => some (d.write fun medium => cmdCorrupt medium mode)
  | .reread busy => some (d.reread scan busy)
  | .lsdev => some (d, .listed d.parts)

end

/-! ## What there is to remember -/

/-- Whether the table is whole, and whether it was so when the kernel last read it. -/
structure View where
  bound : Option Bool
  whole : Bool
  listed : Bool
deriving DecidableEq

/-- The session in these terms: `p` is the partition that `mkpt` makes. -/
def View.step (p : Partition) (v : View) : Command → Option (View × Answer)
  | .attach partscan =>
    if v.bound.isNone then some (⟨some partscan, v.whole, partscan && v.whole⟩, .done) else none
  | .detach => some (if v.bound.isNone then (v, .failed) else (⟨none, v.whole, false⟩, .done))
  | .mkpt _ => some (if v.bound.isNone then (v, .failed) else ({ v with whole := true }, .done))
  | .corrupt mode =>
    some (if v.bound.isNone ∨ (Mode.parse mode).isNone then (v, .failed)
      else ({ v with whole := false }, .done))
  | .reread busy =>
    some (if v.bound = some true ∧ ¬ busy then ({ v with listed := v.whole }, .done) else (v, .failed))
  | .lsdev => some (v, .listed (if v.listed then [p] else []))

/-! ## The first sector -/

/-- The table that `mkpt` makes. -/
def Whole (total : Nat) (mbr : Buf sector) : Prop :=
  Signed mbr ∧ entryAt mbr 0 = ⟨0x00, 0x83, 2048, total - 2048⟩ ∧
    ∀ i, 0 < i → i < 4 → entryAt mbr i = ⟨0, 0, 0, 0⟩

/-- A table that `corrupt` leaves, or a blank sector. -/
def Broken (mbr : Buf sector) : Prop := ¬ Signed mbr ∨ ∀ i < 4, entryAt mbr i = ⟨0, 0, 0, 0⟩

theorem mkptSector_whole {bytes : Nat} (sig : Nat) (hlo : 2048 < bytes / sector)
    (hhi : bytes / sector - 2048 < 2 ^ 32) : Whole (bytes / sector) (mkptSector bytes sig) := by
  have hnsect : usub64 (bytes / sector) 2048 % 2 ^ 32 = bytes / sector - 2048 := by
    rw [usub64_of_le hlo.le (by omega), Nat.mod_eq_of_lt hhi]
  refine ⟨mkptSector_sigOk bytes sig, ?_, fun i => mkptSector_empty bytes sig⟩
  rw [mkptSector_entry, hnsect]

theorem zeros_getD (n i : Nat) : (List.replicate n (0 : UInt8)).getD i 0 = 0 := by
  rw [List.getD_eq_getElem?_getD, List.getElem?_replicate]
  split <;> rfl

theorem sig_byte (mbr : Buf sector) : (Mode.apply mbr .sig).byte mbrSigOff = 0 := by
  rw [Mode.apply, Buf.byte_store, if_neg (by decide), Buf.byte_store, if_pos (by decide)]
  rfl

theorem entry_byte (mbr : Buf sector) {k : Nat} (hk : k < 64) :
    (Mode.apply mbr .entry).byte (mbrPartOff + k) = 0 := by
  rw [Mode.apply, Buf.byte_store, List.length_replicate, zeros_getD, if_pos]
  unfold sector mbrPartOff
  omega

theorem apply_broken (mbr : Buf sector) (m : Mode) : Broken (m.apply mbr) := by
  cases m with
  | sig =>
    refine .inl fun h => ?_
    have hbyte := h.1
    rw [sig_byte] at hbyte
    cases hbyte
  | entry =>
    refine .inr fun i hi => ?_
    simp (disch := omega) only [entryAt, le32, Nat.add_assoc, entry_byte]
    rfl
  | all =>
    refine .inl fun h => ?_
    have hbyte := h.1
    rw [Mode.apply, Buf.byte_zero] at hbyte
    cases hbyte

section

variable {size : Nat} {scan : Buf size → List Partition} {rest : Bytes}

/-- The partition that fills the medium from 1 MiB on. -/
def filling (size : Nat) : Partition := ⟨1, 2048, size / sector - 2048⟩

/-- What a view says of a device, for a medium with `rest` behind the first sector. -/
structure Views (rest : Bytes) (v : View) (d : Device size) : Prop where
  bound : d.bound = v.bound
  parts : d.parts = if v.listed then [filling size] else []
  table : ∃ mbr : Buf sector, d.medium.bytes = mbr.bytes ++ rest ∧
    if v.whole then Whole (size / sector) mbr else Broken mbr

theorem Views.write {v : View} {d : Device size} (h : Views rest v d) {mbr : Buf sector}
    {medium : Buf size} (hwrite : writeLba d.medium 0 mbr = some medium) {whole : Bool}
    (htable : if whole then Whole (size / sector) mbr else Broken mbr) :
    Views rest { v with whole } { d with medium } := by
  obtain ⟨old, hd, -⟩ := h.table
  refine ⟨h.bound, h.parts, mbr, ?_, htable⟩
  rw [writeLba_first hwrite, hd, List.drop_left' old.length_eq]

theorem Views.mkpt {v : View} {d : Device size} (h : Views rest v d) (sig : Nat)
    (hlo : 2048 < size / sector) (hhi : size / sector - 2048 < 2 ^ 32) :
    ∃ medium, cmdMkpt d.medium sig = some medium ∧
      Views rest { v with whole := true } { d with medium } := by
  have hsize : 1024 ≤ size := by
    unfold sector at hlo
    omega
  obtain ⟨medium, hwrite⟩ := Option.isSome_iff_exists.mp
    (writeLba_isSome d.medium (mkptSector size sig) hsize)
  exact ⟨medium, hwrite, h.write hwrite (by simpa using mkptSector_whole sig hlo hhi)⟩

theorem Views.corrupt {v : View} {d : Device size} (h : Views rest v d) {mode : String} {m : Mode}
    (hm : Mode.parse mode = some m) (hlo : 2048 < size / sector) :
    ∃ medium, cmdCorrupt d.medium mode = some medium ∧
      Views rest { v with whole := false } { d with medium } := by
  have hsize : 1024 ≤ size := by
    unfold sector at hlo
    omega
  obtain ⟨medium, hcorrupt⟩ := Option.isSome_iff_exists.mp (cmdCorrupt_isSome d.medium hsize mode hm)
  obtain ⟨mbr, m', -, hwrite⟩ := cmdCorrupt_write hcorrupt
  exact ⟨medium, hcorrupt, h.write hwrite (by simpa using apply_broken mbr m')⟩

end

end LinuxDriverLab.PtabLab
