import Mathlib.Algebra.Order.Ring.Nat
import LinuxDriverLab.Framework.LastMax
import LinuxDriverLab.Kernel.CString

/-!
# The mount that a path belongs to

`find_mount` of `ptab_lab` goes once through the mount table and keeps the entry with the longest
directory above the path.
-/

namespace LinuxDriverLab.PtabLab

/-- The fields of a `struct mntent` that are read. -/
structure MntEnt where
  fsname : CStr
  dir : CStr
  type : CStr
deriving DecidableEq

/-- The variables of the loop. -/
structure Best where
  best : Nat
  found : Bool
  src : Bytes
  mp : Bytes
  fst : Bytes
deriving DecidableEq

/-- What `find_mount` writes to its three arguments when it returns 1. -/
structure Mount where
  src : Bytes
  mp : Bytes
  fst : Bytes
deriving DecidableEq

/-- `strncmp(s, t, n) == 0` -/
def strncmpEq (s t : CStr) (n : Nat) : Bool := s.bytes.take n = t.bytes.take n

/-- `s[i]`, the NUL included -/
def charAt (s : CStr) (i : Nat) : UInt8 := s.bytes.getD i 0

/-- The variable `match`. -/
def mountMatch (path : CStr) (me : MntEnt) : Bool :=
  let l := me.dir.bytes.length
  if me.dir.bytes = [47] then true
  else strncmpEq path me.dir l && (charAt path l = 0 || charAt path l = 47)

/-- One turn of the loop. -/
def findMountStep (path : CStr) (b : Best) (me : MntEnt) : Best :=
  let l := me.dir.bytes.length
  if l = 0 then b
  else if mountMatch path me && b.best ≤ l then
    ⟨l, true, printedString 256 me.fsname.bytes, printedString 256 me.dir.bytes,
      printedString 256 me.type.bytes⟩
  else b

/-- `find_mount` for output arrays of `n` bytes; `none` where it returns 0. The table is missing when
`setmntent` fails. -/
def findMount (table : Option (List MntEnt)) (path : CStr) (n : Nat) : Option Mount :=
  match table with
  | none => none
  | some table =>
    let b := table.foldl (findMountStep path) ⟨0, false, [], [], []⟩
    if b.found then some ⟨printedString n b.src, printedString n b.mp, printedString n b.fst⟩ else none

/-- The directory of an entry is the root, or it is the path or a directory above it. -/
def Covers (path : CStr) (me : MntEnt) : Prop :=
  me.dir.bytes ≠ [] ∧ (me.dir.bytes = [47] ∨
    ∃ rest, path.bytes = me.dir.bytes ++ rest ∧ (rest = [] ∨ rest.head? = some 47))

/-- The loop keeps an entry that it considers. -/
def considered (path : CStr) (me : MntEnt) : Bool := me.dir.bytes.length ≠ 0 && mountMatch path me

/-! ## One entry -/

theorem below_iff (path : CStr) (dir : CStr) :
    (strncmpEq path dir dir.bytes.length && (charAt path dir.bytes.length = 0 ||
        charAt path dir.bytes.length = 47)) = true ↔
      ∃ rest, path.bytes = dir.bytes ++ rest ∧ (rest = [] ∨ rest.head? = some 47) := by
  simp only [strncmpEq, Bool.and_eq_true, Bool.or_eq_true, decide_eq_true_eq, List.take_length]
  simp only [charAt]
  constructor
  · rintro ⟨htake, hnext⟩
    refine ⟨path.bytes.drop dir.bytes.length, ?_, ?_⟩
    · conv_lhs => rw [← List.take_append_drop dir.bytes.length path.bytes, htake]
    · cases hrest : path.bytes.drop dir.bytes.length with
      | nil => exact .inl rfl
      | cons c rest =>
        have hget : path.bytes.getD dir.bytes.length 0 = c := by
          rw [List.getD_eq_getElem?_getD, ← List.head?_drop, hrest]
          rfl
        have hc : c ∈ path.bytes := List.mem_of_mem_drop (hrest ▸ List.mem_cons_self)
        rw [hget] at hnext
        rcases hnext with rfl | rfl
        · exact absurd hc path.nulFree
        · exact .inr rfl
  · rintro ⟨rest, hpath, hrest⟩
    rw [hpath, List.take_left, List.getD_eq_getElem?_getD, List.getElem?_append_right (Nat.le_refl _),
      Nat.sub_self, ← List.head?_eq_getElem?]
    refine ⟨rfl, ?_⟩
    rcases hrest with rfl | hslash
    · exact .inl rfl
    · rw [hslash]
      exact .inr rfl

theorem considered_iff (path : CStr) (me : MntEnt) : considered path me = true ↔ Covers path me := by
  rw [considered, Covers, Bool.and_eq_true, decide_eq_true_eq, ne_eq, List.length_eq_zero_iff, mountMatch]
  refine and_congr_right fun _ => ?_
  split
  · next hroot => simp [hroot]
  · next hroot => simp only [below_iff, hroot, false_or]

/-! ## The loop -/

/-- What the variables hold of the entry that was kept. -/
def Best.of : Option MntEnt → Best
  | none => ⟨0, false, [], [], []⟩
  | some me =>
    ⟨me.dir.bytes.length, true, printedString 256 me.fsname.bytes, printedString 256 me.dir.bytes,
      printedString 256 me.type.bytes⟩

theorem findMountStep_of (path : CStr) (kept : Option MntEnt) (me : MntEnt) :
    findMountStep path (Best.of kept) me =
      Best.of (lastMaxStep (considered path) (fun me => me.dir.bytes.length) kept me) := by
  have hbest : (Best.of kept).best ≤ me.dir.bytes.length ↔
      ∀ b ∈ kept, b.dir.bytes.length ≤ me.dir.bytes.length := by
    cases kept with
    | none => simp [Best.of]
    | some b => simp [Best.of]
  simp only [findMountStep, lastMaxStep, ← hbest, considered]
  by_cases hl : me.dir.bytes.length = 0
  · simp [hl]
  · by_cases hmatch : mountMatch path me = true ∧ (Best.of kept).best ≤ me.dir.bytes.length
    · rw [if_neg hl, if_pos (by simp [hmatch]), if_pos (by simp [hl, hmatch])]
      rfl
    · rw [if_neg hl, if_neg (by simpa using hmatch), if_neg (by simpa [hl] using hmatch)]

theorem findMount_loop (path : CStr) (table : List MntEnt) :
    table.foldl (findMountStep path) ⟨0, false, [], [], []⟩ =
      Best.of (lastMax (considered path) (fun me => me.dir.bytes.length) table) := by
  induction table using List.reverseRecOn with
  | nil => rfl
  | append_singleton table me ih =>
    rw [List.foldl_append, ih, lastMax_concat]
    exact findMountStep_of path _ me

theorem printedString_twice (s : CStr) {n : Nat} (hn : 256 ≤ n) :
    printedString n (printedString 256 s.bytes) = s.bytes.take 255 := by
  have htake : (0 : UInt8) ∉ s.bytes.take 255 := fun h => s.nulFree (List.mem_of_mem_take h)
  rw [printedString_eq s.nulFree, printedString_eq htake, List.take_take, Nat.min_eq_right (by omega)]

/-- `find_mount` returns 0 when no entry covers the path, and otherwise 1 and the fields of the last
entry among those with the longest directory. -/
theorem findMount_longest (table : List MntEnt) (path : CStr) (n : Nat) (hn : 256 ≤ n) :
    (findMount (some table) path n = none ↔ ∀ me ∈ table, ¬ Covers path me) ∧
    ∀ m, findMount (some table) path n = some m ↔ ∃ me,
      (Covers path me ∧ ∃ front back, table = front ++ me :: back ∧
        (∀ x ∈ front, Covers path x → x.dir.bytes.length ≤ me.dir.bytes.length) ∧
        ∀ x ∈ back, Covers path x → x.dir.bytes.length < me.dir.bytes.length) ∧
      m = ⟨me.fsname.bytes.take 255, me.dir.bytes.take 255, me.type.bytes.take 255⟩ := by
  have hlast : ∀ me, lastMax (considered path) (fun me => me.dir.bytes.length) table = some me ↔
      (Covers path me ∧ ∃ front back, table = front ++ me :: back ∧
        (∀ x ∈ front, Covers path x → x.dir.bytes.length ≤ me.dir.bytes.length) ∧
        ∀ x ∈ back, Covers path x → x.dir.bytes.length < me.dir.bytes.length) := by
    intro me
    simp only [← considered_iff]
    rw [lastMax_eq_some_iff]
    exact ⟨fun h => ⟨h.mem, h.place⟩, fun h => ⟨h.1, h.2⟩⟩
  have hnone : lastMax (considered path) (fun me => me.dir.bytes.length) table = none ↔
      ∀ me ∈ table, ¬ Covers path me := by
    simp only [lastMax_eq_none_iff, ← considered_iff, Bool.not_eq_true]
  simp only [findMount, findMount_loop, ← hnone, ← hlast]
  cases lastMax (considered path) (fun me => me.dir.bytes.length) table with
  | none => simp [Best.of]
  | some me =>
    simp only [Best.of, if_true, printedString_twice _ hn]
    simp [eq_comm]

def rootDir : CStr := ⟨literal "/", by decide⟩

def homeDir : CStr := ⟨literal "/home", by decide⟩

def homeworkDir : CStr := ⟨literal "/homework", by decide⟩

def homePi : CStr := ⟨literal "/home/pi", by decide⟩

def ext4 : CStr := ⟨literal "ext4", by decide⟩

def tmpfs : CStr := ⟨literal "tmpfs", by decide⟩

/-- A later mount on the same directory is found, and a longer name of a sibling is not. -/
theorem findMount_longest_stacked :
    findMount (some [⟨ext4, rootDir, ext4⟩, ⟨ext4, homeDir, ext4⟩, ⟨ext4, homeworkDir, ext4⟩,
      ⟨tmpfs, homeDir, tmpfs⟩]) homePi 256 =
      some ⟨literal "tmpfs", literal "/home", literal "tmpfs"⟩ := by
  rw [(findMount_longest _ homePi 256 (Nat.le_refl _)).2]
  refine ⟨⟨tmpfs, homeDir, tmpfs⟩, ⟨(considered_iff _ _).mp (by decide),
    [⟨ext4, rootDir, ext4⟩, ⟨ext4, homeDir, ext4⟩, ⟨ext4, homeworkDir, ext4⟩], [], rfl, ?_, by simp⟩,
    by decide⟩
  simp only [← considered_iff]
  decide

end LinuxDriverLab.PtabLab
