import LinuxDriverLab.Framework.ByteNumber
import LinuxDriverLab.Framework.Words

/-!
# The partition table of ptab_lab

`mkpt` writes a boot record with one partition into the first sector of a medium, and `dump` reads
it back. The partition is to fill the medium from 1 MiB on.
-/

namespace LinuxDriverLab.PtabLab

/-- `SECTOR` -/
def sector : Nat := 512

/-- `MBR_PART_OFF` -/
def mbrPartOff : Nat := 0x1BE

/-- `MBR_SIG_OFF` -/
def mbrSigOff : Nat := 0x1FE

/-- `MBR_DISKSIG_OFF` -/
def mbrDisksigOff : Nat := 0x1B8

/-! ## Access to a sector -/

section

variable {size : Nat}

/-- `rw_lba` for reading; the program ends when the sector is not there. -/
def readLba (d : Buf size) (lba : Nat) : Option (Buf sector) :=
  if h : lba * sector + sector ≤ size then
    some ⟨slice d.bytes (lba * sector) sector, by
      rw [slice_length, d.length_eq]
      omega⟩
  else none

/-- `rw_lba` for writing. -/
def writeLba (d : Buf size) (lba : Nat) (mbr : Buf sector) : Option (Buf size) :=
  if lba * sector + sector ≤ size then some (d.store (lba * sector) mbr.bytes) else none

theorem readLba_isSome (d : Buf size) (lba : Nat) (h : lba * sector + sector ≤ size) :
    ∃ mbr, readLba d lba = some mbr := by
  rw [readLba, dif_pos h]
  exact ⟨_, rfl⟩

theorem readLba_store (d : Buf size) (mbr : Buf sector) (h : sector ≤ size) :
    readLba (d.store 0 mbr.bytes) 0 = some mbr := by
  have hslice : slice (d.store 0 mbr.bytes).bytes 0 mbr.bytes.length = mbr.bytes :=
    d.slice_store (by rw [mbr.length_eq]; omega)
  rw [mbr.length_eq] at hslice
  rw [readLba, dif_pos (by omega)]
  congr

end

/-- `le32` at offset `off` -/
def le32 (mbr : Buf sector) (off : Nat) : Nat :=
  leNat [mbr.byte off, mbr.byte (off + 1), mbr.byte (off + 2), mbr.byte (off + 3)]

/-- `put_le32` at offset `off` -/
def putLe32 (mbr : Buf sector) (off v : Nat) : Buf sector := mbr.store off (leBytes 4 v)

/-! ## dump -/

/-- What is printed of one of the four entries; an entry with no sectors is an empty one. -/
structure Entry where
  status : UInt8
  type : UInt8
  start : Nat
  nsect : Nat
deriving DecidableEq

def Entry.isEmpty (e : Entry) : Bool := e.nsect = 0

def entryAt (mbr : Buf sector) (i : Nat) : Entry where
  status := mbr.byte (mbrPartOff + i * 16)
  type := mbr.byte (mbrPartOff + i * 16 + 4)
  start := le32 mbr (mbrPartOff + i * 16 + 8)
  nsect := le32 mbr (mbrPartOff + i * 16 + 12)

structure Dump where
  bytes : Nat
  total : Nat
  sigOk : Bool
  dsig : Nat
  isGpt : Bool
  entries : List Entry
  first : Bytes
deriving DecidableEq

/-- `"EFI PART"` -/
def efiPart : Bytes := [69, 70, 73, 32, 80, 65, 82, 84]

/-- The fields of `dump`, from the two sectors it reads. -/
def decode (bytes : Nat) (mbr gpt : Buf sector) : Dump where
  bytes := bytes
  total := bytes / sector
  sigOk := mbr.byte mbrSigOff == 0x55 && mbr.byte (mbrSigOff + 1) == 0xAA
  dsig := le32 mbr mbrDisksigOff
  isGpt := slice gpt.bytes 0 8 == efiPart
  entries := (List.range 4).map (entryAt mbr)
  first := slice mbr.bytes mbrPartOff 16

def cmdDump {size : Nat} (d : Buf size) : Option Dump := do
  let mbr ← readLba d 0
  let gpt ← readLba d 1
  return decode size mbr gpt

/-! ## mkpt -/

/-- The sector that `mkpt` makes for a medium of `bytes` bytes. -/
def mkptSector (bytes sig : Nat) : Buf sector :=
  let total := bytes / sector
  let start := 2048
  let nsect := usub64 total start % 2 ^ 32
  let mbr := putLe32 (.zero sector) mbrDisksigOff sig
  let mbr := (mbr.store mbrPartOff [0x00]).store (mbrPartOff + 4) [0x83]
  let mbr := putLe32 (putLe32 mbr (mbrPartOff + 8) start) (mbrPartOff + 12) nsect
  (mbr.store mbrSigOff [0x55]).store (mbrSigOff + 1) [0xAA]

def cmdMkpt {size : Nat} (d : Buf size) (sig : Nat) : Option (Buf size) :=
  writeLba d 0 (mkptSector size sig)

/-! ## What is read back -/

theorem leNat_four {v : Nat} (h : v < 2 ^ 32) :
    leNat [UInt8.ofNat v, UInt8.ofNat (v / 256), UInt8.ofNat (v / 256 / 256),
      UInt8.ofNat (v / 256 / 256 / 256)] = v :=
  leNat_leBytes (k := 4) (by omega)

section

variable (bytes sig : Nat)

theorem mkptSector_sigOk : (mkptSector bytes sig).byte mbrSigOff = 0x55 ∧
    (mkptSector bytes sig).byte (mbrSigOff + 1) = 0xAA := by
  simp [mkptSector, putLe32, Buf.byte_store, sector, mbrSigOff]

theorem mkptSector_dsig {sig : Nat} (hsig : sig < 2 ^ 32) :
    le32 (mkptSector bytes sig) mbrDisksigOff = sig := by
  simpa [mkptSector, putLe32, le32, Buf.byte_store, sector, mbrSigOff, mbrPartOff, mbrDisksigOff,
    leBytes] using leNat_four hsig

theorem mkptSector_entry : entryAt (mkptSector bytes sig) 0 =
    ⟨0x00, 0x83, 2048, usub64 (bytes / sector) 2048 % 2 ^ 32⟩ := by
  have hnsect := leNat_four (v := usub64 (bytes / sector) 2048 % 2 ^ 32) (Nat.mod_lt _ (by decide))
  simpa [entryAt, mkptSector, putLe32, le32, Buf.byte_store, sector, mbrSigOff, mbrPartOff,
    mbrDisksigOff, leBytes] using hnsect

theorem mkptSector_empty {i : Nat} (hi : 0 < i) (hi4 : i < 4) :
    entryAt (mkptSector bytes sig) i = ⟨0, 0, 0, 0⟩ := by
  have hcases : i = 1 ∨ i = 2 ∨ i = 3 := by omega
  rcases hcases with rfl | rfl | rfl <;>
    simp [entryAt, mkptSector, putLe32, le32, Buf.byte_store, sector, mbrSigOff, mbrPartOff,
      mbrDisksigOff, leBytes]

end

theorem dump_mkpt {size : Nat} (d : Buf size) (hsize : 1024 ≤ size) {sig : Nat} (hsig : sig < 2 ^ 32) :
    ∃ d' dump, cmdMkpt d sig = some d' ∧ cmdDump d' = some dump ∧ dump.total = size / sector ∧
      dump.sigOk = true ∧ dump.dsig = sig ∧
      dump.entries = [⟨0x00, 0x83, 2048, usub64 (size / sector) 2048 % 2 ^ 32⟩, ⟨0, 0, 0, 0⟩,
        ⟨0, 0, 0, 0⟩, ⟨0, 0, 0, 0⟩] := by
  have hroom : 0 * sector + sector ≤ size := by
    unfold sector
    omega
  have hmkpt : cmdMkpt d sig = some (d.store 0 (mkptSector size sig).bytes) := by
    rw [cmdMkpt, writeLba, if_pos hroom, Nat.zero_mul]
  obtain ⟨gpt, hgpt⟩ := readLba_isSome (d.store 0 (mkptSector size sig).bytes) 1
    (by unfold sector; omega)
  have hread := readLba_store d (mkptSector size sig) (by omega)
  obtain ⟨hlow, hhigh⟩ := mkptSector_sigOk size sig
  have hentries : (List.range 4).map (entryAt (mkptSector size sig)) =
      [entryAt (mkptSector size sig) 0, entryAt (mkptSector size sig) 1,
        entryAt (mkptSector size sig) 2, entryAt (mkptSector size sig) 3] := rfl
  refine ⟨_, decode size (mkptSector size sig) gpt, hmkpt, ?_, rfl, ?_, ?_, ?_⟩
  · simp [cmdDump, hread, hgpt]
  · simp [decode, hlow, hhigh]
  · exact mkptSector_dsig size hsig
  · have hempty : ∀ i, 0 < i → i < 4 → entryAt (mkptSector size sig) i = ⟨0, 0, 0, 0⟩ :=
      fun i => mkptSector_empty size sig
    rw [decode, hentries, mkptSector_entry, hempty 1 (by decide) (by decide),
      hempty 2 (by decide) (by decide), hempty 3 (by decide) (by decide)]

/-- The boot record that `mkpt` is to leave, as `dump` shows it: one partition of type 0x83 that
ends where the medium does. -/
structure FillsDisk (dump : Dump) (sig : Nat) : Prop where
  sigOk : dump.sigOk = true
  dsig : dump.dsig = sig
  four : dump.entries.length = 4
  one : ∃ e, dump.entries.filter (fun e => !e.isEmpty) = [e] ∧ e.type = 0x83 ∧
    e.start + e.nsect = dump.total

theorem fillsDisk_iff {dump : Dump} {sig n : Nat} (hok : dump.sigOk = true) (hdsig : dump.dsig = sig)
    (hentries : dump.entries = [⟨0x00, 0x83, 2048, n⟩, ⟨0, 0, 0, 0⟩, ⟨0, 0, 0, 0⟩, ⟨0, 0, 0, 0⟩]) :
    FillsDisk dump sig ↔ n ≠ 0 ∧ 2048 + n = dump.total := by
  have hfilter : dump.entries.filter (fun e => !e.isEmpty) =
      if n = 0 then [] else [⟨0x00, 0x83, 2048, n⟩] := by
    rw [hentries]
    by_cases hn : n = 0 <;> simp [Entry.isEmpty, hn]
  constructor
  · intro hfills
    obtain ⟨e, he, -, hend⟩ := hfills.one
    rw [hfilter] at he
    split_ifs at he with hn
    obtain rfl := List.singleton_inj.mp he
    exact ⟨hn, hend⟩
  · intro ⟨hn, hend⟩
    rw [if_neg hn] at hfilter
    exact ⟨hok, hdsig, by rw [hentries]; rfl, _, hfilter, rfl, hend⟩

/-- The sectors behind the first 2048 are counted rightly when there are some, and no more than 32
bits can hold. -/
theorem nsect_fills_iff {total : Nat} (htotal : total < 2 ^ 64) :
    (usub64 total 2048 % 2 ^ 32 ≠ 0 ∧ 2048 + usub64 total 2048 % 2 ^ 32 = total) ↔
      2048 < total ∧ total - 2048 < 2 ^ 32 := by
  rcases Nat.lt_or_ge total 2048 with hlt | hle
  · rw [usub64_of_lt hlt (by decide)]
    omega
  · rw [usub64_of_le hle htotal]
    omega

/-- `mkpt` on a medium of any size of two sectors or more, read back by `dump`: the partition fills
the medium exactly if it has more than 2048 sectors and fewer than 2048 + 2^32. -/
theorem mkpt_fillsDisk_iff {size : Nat} (d : Buf size) (sig : Nat) (hsize : 1024 ≤ size)
    (hsize64 : size < 2 ^ 64) (hsig : sig < 2 ^ 32) :
    ∃ d' dump, cmdMkpt d sig = some d' ∧ cmdDump d' = some dump ∧
      (FillsDisk dump sig ↔ 2048 < size / sector ∧ size / sector - 2048 < 2 ^ 32) := by
  obtain ⟨d', dump, hmkpt, hdump, htotal, hok, hdsig, hentries⟩ := dump_mkpt d hsize hsig
  have hsectors : size / sector < 2 ^ 64 := (Nat.div_le_self _ _).trans_lt hsize64
  refine ⟨d', dump, hmkpt, hdump, ?_⟩
  rw [← nsect_fills_iff hsectors, fillsDisk_iff hok hdsig hentries, htotal]

/-- On a medium of 2 MiB the partition ends where the medium does. -/
theorem mkpt_fillsDisk_iff_small : ∃ d' dump, cmdMkpt (.zero 2097152) 0xdeadbeef = some d' ∧
    cmdDump d' = some dump ∧ FillsDisk dump 0xdeadbeef := by
  obtain ⟨d', dump, hmkpt, hdump, hfills⟩ :=
    mkpt_fillsDisk_iff (.zero 2097152) 0xdeadbeef (by decide) (by decide) (by decide)
  exact ⟨d', dump, hmkpt, hdump, hfills.mpr (by decide)⟩

/-- On a medium of two sectors `mkpt` writes a partition of 2^32 - 2046 sectors. -/
theorem mkpt_runs_past_end : ¬ ∀ (size : Nat) (d : Buf size) (sig : Nat), 1024 ≤ size →
    size < 2 ^ 64 → sig < 2 ^ 32 →
    ∃ d' dump, cmdMkpt d sig = some d' ∧ cmdDump d' = some dump ∧ FillsDisk dump sig := by
  intro hall
  obtain ⟨d', dump, hmkpt, hdump, hfills⟩ := hall 1024 (.zero 1024) 0 (by decide) (by decide) (by decide)
  obtain ⟨e, dump', hmkpt', hdump', htotal, hok, hdsig, hentries⟩ :=
    dump_mkpt (.zero 1024) (by decide) (by decide : 0 < 2 ^ 32)
  obtain rfl := Option.some.inj (hmkpt.symm.trans hmkpt')
  obtain rfl := Option.some.inj (hdump.symm.trans hdump')
  have hend := ((fillsDisk_iff hok hdsig hentries).mp hfills).2
  rw [htotal] at hend
  exact absurd hend (by decide)

end LinuxDriverLab.PtabLab
