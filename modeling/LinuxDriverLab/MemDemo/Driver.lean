import Mathlib.Data.Finset.Basic
import LinuxDriverLab.Framework.Ledger
import LinuxDriverLab.Framework.Run
import LinuxDriverLab.Kernel.Hex
import LinuxDriverLab.Kernel.UserCopy

/-!
# The memdemo driver

`md_init` allocates three areas, prints a report of them and registers the device; `md_read` hands
the report out. The system loads and unloads the module any number of times, with any number of
files open in between. A file is read by one task at a time.
-/

namespace LinuxDriverLab.MemDemo

/-- What `small_p`, `zero_p` and `big_v` point to. -/
inductive Area
  | small
  | zero
  | big
deriving DecidableEq

/-- What the kernel answers to `md_init`: addresses, the physical address of `small_p`, and the result
of `misc_register`. -/
structure Answers where
  kmalloc : Option UInt64
  kzalloc : Option UInt64
  vmalloc : Option UInt64
  virtToPhys : UInt64
  miscRegister : Option Errno

/-- The pointers that the report shows. -/
structure Pointers where
  small : UInt64
  phys : UInt64
  zero : UInt64
  big : UInt64

/-- `%px` -/
def formatPtr (p : UInt64) : Bytes := formatHex 16 p.toNat

/-- `%pap` -/
def formatPhys (p : UInt64) : Bytes := literal "0x" ++ formatHex 16 p.toNat

def reportText (p : Pointers) : Bytes :=
  utf8 "kmalloc  64B  virt=" ++ formatPtr p.small ++ utf8 " phys=" ++ formatPhys p.phys ++
    utf8 "  (直接映射区,物理连续)\nkzalloc  1KB  virt=" ++ formatPtr p.zero ++
    utf8 "            (同 kmalloc,清零版)\nvmalloc  1MB  virt=" ++ formatPtr p.big ++
    utf8 "            (VMALLOC 区,虚拟连续)\n"

/-- `sizeof report` -/
def reportSize : Nat := 2048

/-- `report` and `report_len` after `md_init` -/
def report (p : Pointers) : Printed := snprintf reportSize (reportText p)

structure InitResult where
  ret : Int
  log : List (Action Area)
  live : Option Pointers

/-- The areas that were allocated, in order. `kfree` and `vfree` do nothing to the others. -/
def Answers.allocated (a : Answers) : List Area :=
  (if a.kmalloc.isSome then [.small] else []) ++ (if a.kzalloc.isSome then [.zero] else []) ++
    (if a.vmalloc.isSome then [.big] else [])

/-- `md_init`; a failing `misc_register` is returned as it is. -/
def mdInit (a : Answers) : InitResult :=
  match a.kmalloc, a.kzalloc, a.vmalloc with
  | some small, some zero, some big =>
    match a.miscRegister with
    | some e => ⟨e.ret, a.allocated.map .acquire, none⟩
    | none => ⟨0, a.allocated.map .acquire, some ⟨small, a.virtToPhys, zero, big⟩⟩
  | _, _, _ =>
    ⟨Errno.enomem.ret, a.allocated.map .acquire ++ a.allocated.map .release, none⟩

/-- `md_exit` after `misc_deregister` -/
def mdExit : List (Action Area) := [.release .small, .release .zero, .release .big]

/-- `md_read` -/
def mdRead (r : Printed) (room cnt pos : Nat) : ReadResult :=
  if pos ≥ r.ret then ⟨.ok 0, [], pos⟩
  else
    let cnt := if cnt > r.ret - pos then r.ret - pos else cnt
    let copy := copyToUser (r.line.drop pos) cnt room
    if copy.left ≠ 0 then ⟨.error .efault, copy.stored, pos⟩
    else ⟨.ok cnt, copy.stored, pos + cnt⟩

/-- `loads` counts the calls of `md_init`; while the module is loaded, the one that loaded it is kept
with the pointers of its report. -/
structure State where
  loads : Nat
  live : Option (Nat × Pointers)
  opened : Finset File
  pos : File → Nat

def State.init (pos : File → Nat) : State := ⟨0, none, ∅, pos⟩

inductive Event
  | load (a : Answers)
  | unload
  | openFile (f : File)
  | read (f : File) (room cnt : Nat)
  | release (f : File)

/-- What a step shows: the actions of `md_init` or `md_exit`, told apart by the load they belong to,
and the results of the calls. -/
inductive Shown
  | quiet
  | loaded (ret : Int) (log : List (Action (Nat × Area)))
  | unloaded (log : List (Action (Nat × Area)))
  | read (res : ReadResult)

/-- The same actions, for the areas of one load. -/
def ofLoad (n : Nat) (log : List (Action Area)) : List (Action (Nat × Area)) :=
  log.map fun
    | .acquire a => .acquire (n, a)
    | .release a => .release (n, a)

/-- A module with open files is not unloaded. -/
def step (s : State) : Event → Option (State × Shown)
  | .load a =>
    match s.live with
    | some _ => none
    | none =>
      let res := mdInit a
      some ({ s with loads := s.loads + 1, live := res.live.map fun p => (s.loads, p) },
        .loaded res.ret (ofLoad s.loads res.log))
  | .unload =>
    match s.live with
    | none => none
    | some (n, _) =>
      if s.opened = ∅ then some ({ s with live := none }, .unloaded (ofLoad n mdExit)) else none
  | .openFile f =>
    if s.live.isSome ∧ f ∉ s.opened then
      some ({ s with opened := insert f s.opened, pos := Function.update s.pos f 0 }, .quiet)
    else none
  | .read f room cnt =>
    match s.live with
    | none => none
    | some (_, p) =>
      if f ∈ s.opened then
        let res := mdRead (report p) room cnt (s.pos f)
        some ({ s with pos := storePos s.pos f res }, .read res)
      else none
  | .release f =>
    if f ∈ s.opened then some ({ s with opened := s.opened.erase f }, .quiet) else none

/-- The cases of `step`. -/
inductive Move (s : State) : Event → State → Shown → Prop
  | load {a} (h : s.live = none) :
      Move s (.load a)
        { s with loads := s.loads + 1, live := (mdInit a).live.map fun p => (s.loads, p) }
        (.loaded (mdInit a).ret (ofLoad s.loads (mdInit a).log))
  | unload {n p} (h : s.live = some (n, p)) (hfiles : s.opened = ∅) :
      Move s .unload { s with live := none } (.unloaded (ofLoad n mdExit))
  | openFile {f n p} (h : s.live = some (n, p)) (hf : f ∉ s.opened) :
      Move s (.openFile f)
        { s with opened := insert f s.opened, pos := Function.update s.pos f 0 } .quiet
  | read {f room cnt n p} (h : s.live = some (n, p)) (hf : f ∈ s.opened) :
      Move s (.read f room cnt)
        { s with pos := storePos s.pos f (mdRead (report p) room cnt (s.pos f)) }
        (.read (mdRead (report p) room cnt (s.pos f)))
  | release {f} (hf : f ∈ s.opened) :
      Move s (.release f) { s with opened := s.opened.erase f } .quiet

theorem step_move {s u : State} {e : Event} {o : Shown} (h : step s e = some (u, o)) :
    Move s e u o := by
  cases e with
  | load a =>
    simp only [step] at h
    split at h
    · cases h
    · next hlive =>
      cases h
      exact .load hlive
  | unload =>
    simp only [step] at h
    split at h
    · cases h
    · next hlive =>
      split_ifs at h with hfiles
      cases h
      exact .unload hlive hfiles
  | openFile f =>
    simp only [step] at h
    split_ifs at h with hopen
    cases h
    obtain ⟨⟨n, p⟩, hlive⟩ := Option.isSome_iff_exists.mp hopen.1
    exact .openFile hlive hopen.2
  | read f room cnt =>
    simp only [step] at h
    split at h
    · cases h
    · next hlive =>
      split_ifs at h with hf
      cases h
      exact .read hlive hf
  | release f =>
    simp only [step] at h
    split_ifs at h with hf
    cases h
    exact .release hf

end LinuxDriverLab.MemDemo
