import LinuxDriverLab.PtabLab.Mbr

/-!
# disklab

The flow on a real disk writes a boot record, breaks it and at last zeroes the first sector. What
it reads is never kept, so a disk is restored when its first sector was blank.
-/

namespace LinuxDriverLab.PtabLab

/-! ## corrupt -/

inductive Mode
  | sig
  | entry
  | all
deriving DecidableEq

/-- The comparisons with `strcmp`. -/
def Mode.parse (mode : String) : Option Mode :=
  if mode = "sig" then some .sig
  else if mode = "entry" then some .entry
  else if mode = "all" then some .all
  else none

def Mode.apply (mbr : Buf sector) : Mode → Buf sector
  | .sig => (mbr.store mbrSigOff [0x00]).store (mbrSigOff + 1) [0x00]
  | .entry => mbr.store mbrPartOff (List.replicate 64 0)
  | .all => .zero sector

section

variable {size : Nat}

/-- The program ends on a mode that it does not know, after the sector has been read. -/
def cmdCorrupt (d : Buf size) (mode : String) : Option (Buf size) := do
  let mbr ← readLba d 0
  let mode ← Mode.parse mode
  writeLba d 0 (mode.apply mbr)

/-- The steps that touch the medium; in between the kernel rereads the table and the nodes under
`/dev` are listed. -/
def cmdDisklab (d : Buf size) : Option (Buf size) := do
  let _ ← cmdDump d
  let d ← cmdMkpt d 0x5a5a5a5a
  let d ← cmdCorrupt d "sig"
  let _ ← cmdDump d
  let d ← cmdCorrupt d "all"
  let _ ← cmdDump d
  return d

/-! ## What is left on the medium -/

/-- Two media that agree behind the first sector. -/
def SameRest (d d' : Buf size) : Prop := d.bytes.drop sector = d'.bytes.drop sector

theorem writeLba_first {d d' : Buf size} {mbr : Buf sector} (h : writeLba d 0 mbr = some d') :
    d'.bytes = mbr.bytes ++ d.bytes.drop sector := by
  obtain ⟨hroom, hd⟩ := Option.ite_none_right_eq_some.mp h
  rw [← Option.some.inj hd, Nat.zero_mul, d.store_start (by rw [mbr.length_eq]; omega), mbr.length_eq]

theorem writeLba_sameRest {d d' : Buf size} {mbr : Buf sector} (h : writeLba d 0 mbr = some d') :
    SameRest d d' := by
  rw [SameRest, writeLba_first h, List.drop_left' mbr.length_eq]

theorem cmdCorrupt_write {d d' : Buf size} {mode : String} (h : cmdCorrupt d mode = some d') :
    ∃ mbr m, Mode.parse mode = some m ∧ writeLba d 0 (m.apply mbr) = some d' := by
  simp only [cmdCorrupt, Option.bind_eq_bind, Option.bind_eq_some_iff] at h
  obtain ⟨mbr, -, m, hm, hwrite⟩ := h
  exact ⟨mbr, m, hm, hwrite⟩

theorem cmdCorrupt_sameRest {d d' : Buf size} {mode : String} (h : cmdCorrupt d mode = some d') :
    SameRest d d' := by
  obtain ⟨mbr, m, -, hwrite⟩ := cmdCorrupt_write h
  exact writeLba_sameRest hwrite

/-- Whatever the disk held, `disklab` leaves a blank first sector and the rest as it was. -/
theorem cmdDisklab_bytes {d d' : Buf size} (h : cmdDisklab d = some d') :
    d'.bytes = List.replicate sector 0 ++ d.bytes.drop sector := by
  simp only [cmdDisklab, Option.bind_eq_bind, Option.bind_eq_some_iff, Option.pure_def,
    Option.some.injEq] at h
  obtain ⟨-, -, d₁, hmkpt, d₂, hsig, -, -, d₃, hall, -, -, rfl⟩ := h
  obtain ⟨mbr, m, hm, hwrite⟩ := cmdCorrupt_write hall
  obtain rfl : m = .all := by simpa [Mode.parse] using hm.symm
  have hrest : SameRest d d₂ := (writeLba_sameRest hmkpt).trans (cmdCorrupt_sameRest hsig)
  rw [writeLba_first hwrite, ← hrest]
  rfl

theorem writeLba_isSome (d : Buf size) (mbr : Buf sector) (h : 1024 ≤ size) :
    (writeLba d 0 mbr).isSome := by
  rw [writeLba, if_pos (by unfold sector; omega)]
  rfl

theorem cmdDump_isSome (d : Buf size) (h : 1024 ≤ size) : (cmdDump d).isSome := by
  obtain ⟨mbr, hmbr⟩ := readLba_isSome d 0 (by unfold sector; omega)
  obtain ⟨gpt, hgpt⟩ := readLba_isSome d 1 (by unfold sector; omega)
  simp [cmdDump, hmbr, hgpt]

theorem cmdCorrupt_isSome (d : Buf size) (h : 1024 ≤ size) (mode : String) {m : Mode}
    (hm : Mode.parse mode = some m) : (cmdCorrupt d mode).isSome := by
  obtain ⟨mbr, hmbr⟩ := readLba_isSome d 0 (by unfold sector; omega)
  simp only [cmdCorrupt, hmbr, hm, Option.bind_eq_bind, Option.bind_some]
  exact writeLba_isSome d _ h

theorem cmdDisklab_isSome (d : Buf size) (h : 1024 ≤ size) : (cmdDisklab d).isSome := by
  obtain ⟨dump, hdump⟩ := Option.isSome_iff_exists.mp (cmdDump_isSome d h)
  obtain ⟨d₁, hmkpt⟩ := Option.isSome_iff_exists.mp
    (writeLba_isSome d (mkptSector size 0x5a5a5a5a) h)
  obtain ⟨d₂, hsig⟩ := Option.isSome_iff_exists.mp
    (cmdCorrupt_isSome d₁ h "sig" rfl)
  obtain ⟨dump₂, hdump₂⟩ := Option.isSome_iff_exists.mp (cmdDump_isSome d₂ h)
  obtain ⟨d₃, hall⟩ := Option.isSome_iff_exists.mp
    (cmdCorrupt_isSome d₂ h "all" rfl)
  obtain ⟨dump₃, hdump₃⟩ := Option.isSome_iff_exists.mp (cmdDump_isSome d₃ h)
  simp [cmdDisklab, cmdMkpt, hdump, hmkpt, hsig, hdump₂, hall, hdump₃]

/-- On any disk of two sectors or more `disklab` runs to its end, leaves every byte behind the
first sector as it was and the first sector blank; the disk is as before exactly if that sector
was blank. -/
theorem disklab_restores_iff (d : Buf size) (h : 1024 ≤ size) :
    ∃ d', cmdDisklab d = some d' ∧ d'.bytes.drop sector = d.bytes.drop sector ∧
      d'.bytes.take sector = List.replicate sector 0 ∧
      (d' = d ↔ d.bytes.take sector = List.replicate sector 0) := by
  obtain ⟨d', hd'⟩ := Option.isSome_iff_exists.mp (cmdDisklab_isSome d h)
  have hbytes := cmdDisklab_bytes hd'
  have htake : d'.bytes.take sector = List.replicate sector 0 := by
    rw [hbytes, List.take_left' List.length_replicate]
  have hdrop : d'.bytes.drop sector = d.bytes.drop sector := by
    rw [hbytes, List.drop_left' List.length_replicate]
  refine ⟨d', hd', hdrop, htake, ?_⟩
  constructor
  · rintro rfl
    exact htake
  · intro hblank
    apply Buf.eq_of_bytes
    rw [hbytes, ← hblank, List.take_append_drop]

end

/-- A disk of three sectors with a boot record and data behind it -/
def usedDisk : Buf 1536 where
  bytes := (List.replicate 510 0xEB ++ [0x55, 0xAA]) ++
    (List.replicate 512 0x41 ++ List.replicate 512 0x42)
  length_eq := by
    simp only [List.length_append, List.length_replicate, List.length_cons, List.length_nil]

/-- It loses its boot record and keeps its data. -/
theorem disklab_restores_iff_used : ∃ d', cmdDisklab usedDisk = some d' ∧
    d'.bytes = List.replicate 512 0 ++ (List.replicate 512 0x41 ++ List.replicate 512 0x42) ∧
    d' ≠ usedDisk := by
  obtain ⟨d', hd', hdrop, htake, hrestored⟩ := disklab_restores_iff usedDisk (by decide)
  have hdata : usedDisk.bytes.drop sector = List.replicate 512 0x41 ++ List.replicate 512 0x42 := by
    apply List.drop_left'
    simp only [List.length_append, List.length_replicate, List.length_cons, List.length_nil, sector]
  refine ⟨d', hd', ?_, ?_⟩
  · rw [← List.take_append_drop sector d'.bytes, htake, hdrop, hdata, sector]
  · intro hsame
    exact absurd (congrArg List.head? (hrestored.mp hsame)) (by decide)

/-- A disk whose first byte is not zero does not get it back. -/
theorem disklab_erases_first_sector : ¬ ∀ (size : Nat) (d d' : Buf size), 1024 ≤ size →
    cmdDisklab d = some d' → d' = d := by
  intro hall
  obtain ⟨d', hd'⟩ := Option.isSome_iff_exists.mp
    (cmdDisklab_isSome ((Buf.zero 1024).store 0 [0xEB]) (by decide))
  have hsame := hall 1024 _ d' (by decide) hd'
  have hbytes := cmdDisklab_bytes hd'
  rw [hsame] at hbytes
  exact absurd (congrArg List.head? hbytes) (by decide)

end LinuxDriverLab.PtabLab
