import LinuxDriverLab.Framework.RefCount
import LinuxDriverLab.Framework.Run
import LinuxDriverLab.Kernel.UserCopy

/-!
# The mmapbuf driver

The driver's functions over physical memory, and the system around them: processes that open, map,
fork and exit, and a module that is loaded and unloaded. A file is counted by the descriptors and the
mappings that refer to it, and the module by the files that are open. The buffer is page aligned and
contiguous; mappings are `MAP_SHARED`.
-/

namespace LinuxDriverLab.MmapBuf

/-- `PAGE_SIZE` -/
structure PageSize where
  bytes : Nat
  pos : 0 < bytes

def bufPages : Nat := 4
def bufSize (P : PageSize) : Nat := P.bytes * bufPages

/-- Physical memory -/
abbrev Memory := Nat → UInt8

def readMem (mem : Memory) (a n : Nat) : Bytes := (List.range n).map fun i => mem (a + i)

def writeMem (mem : Memory) (a : Nat) (b : Bytes) : Memory :=
  fun x => if a ≤ x ∧ x < a + b.length then b.getD (x - a) 0 else mem x

def initText : Bytes := "hello from kernel init (via module_init)".toList.map Char.toUInt8

/-- The `memset` and the `strcpy` of `mbuf_init` -/
def mbufInitFill (P : PageSize) (mem : Memory) (kbuf : Nat) : Memory :=
  writeMem (writeMem mem kbuf (List.replicate (bufSize P) 0)) kbuf (initText ++ [0])

def mbufRead (P : PageSize) (mem : Memory) (kbuf room cnt pos : Nat) : ReadResult :=
  if pos ≥ bufSize P then ⟨.ok 0, [], pos⟩
  else
    let cnt := if cnt > bufSize P - pos then bufSize P - pos else cnt
    let copy := copyToUser (readMem mem (kbuf + pos) cnt) cnt room
    if copy.left ≠ 0 then ⟨.error .efault, copy.stored, pos⟩
    else ⟨.ok cnt, copy.stored, pos + cnt⟩

/-- `remap_pfn_range`: the frames of the pages of a mapping, in order -/
def remapPfnRange (pfn pages : Nat) : List Nat := (List.range pages).map fun j => pfn + j

/-- `mbuf_mmap` for a mapping of `size` bytes; `fails` is `remap_pfn_range` failing. -/
def mbufMmap (P : PageSize) (kbuf size pgoff : Nat) (fails : Bool) : Except Errno (List Nat) :=
  if pgoff ≠ 0 ∨ size > bufSize P then .error .einval
  else
    let pfn := kbuf / P.bytes
    if fails then .error .eagain else .ok (remapPfnRange pfn (size / P.bytes))

/-- `struct vm_area_struct`, with the frames that its page table entries hold -/
structure Vma where
  file : File
  pgoff : Nat
  frames : List Nat
deriving DecidableEq

/-- The physical address of byte `k` of a mapping -/
def Vma.phys (P : PageSize) (v : Vma) (k : Nat) : Option Nat :=
  v.frames[k / P.bytes]?.map fun n => n * P.bytes + k % P.bytes

/-- What is left of a mapping when `pages` pages from `first` on are unmapped. -/
def Vma.cut (v : Vma) (first pages : Nat) : List Vma :=
  (if 0 < first then [{ v with frames := v.frames.take first }] else []) ++
    if first + pages < v.frames.length then
      [{ v with pgoff := v.pgoff + (first + pages), frames := v.frames.drop (first + pages) }]
    else []

structure Process where
  fds : List File
  vmas : List Vma
deriving DecidableEq

/-- The files that a process refers to, once for each reference -/
def Process.held (x : Process) : List File := x.fds ++ x.vmas.map Vma.file

/-- `rmmod` leads from `live` to `going`, and `mbuf_exit` from there to `unloaded`. -/
inductive Stage
  | unloaded
  | live
  | going
  | deregistered
deriving DecidableEq

/-- A process is named by its place in `procs`; one that has exited leaves its place empty. -/
structure State where
  mem : Memory
  stage : Stage
  kbuf : Option Nat
  refs : Refs File
  pos : File → Nat
  procs : List (Option Process)

def State.init (mem : Memory) : State :=
  ⟨mem, .unloaded, none, Refs.empty, fun _ => 0, [some ⟨[], []⟩]⟩

def State.proc (s : State) (p : Nat) : Option Process := s.procs[p]?.join

def State.setProc (s : State) (p : Nat) (x : Option Process) : State :=
  { s with procs := s.procs.set p x }

inductive Event
  | insmod (frame : Option Nat) (err : Option Errno)
  | openFile (p : Nat) (f : File)
  | close (p : Nat) (f : File)
  | read (p : Nat) (f : File) (cnt room : Nat)
  | pread (p : Nat) (f : File) (pos cnt room : Nat)
  | mmap (p : Nat) (f : File) (pages pgoff : Nat) (fails : Bool)
  | munmap (p i first pages : Nat)
  | load (p i k : Nat)
  | store (p i k : Nat) (b : UInt8)
  | fork (p : Nat)
  | exit (p : Nat)
  | rmmod
  | miscDeregister
  | kfree
deriving DecidableEq

inductive Shown
  | quiet
  | initReturned (ret : Int)
  | opened (ret : Except Errno Unit)
  | readReturned (res : ReadResult)
  | mapped (v : Vma)
  | mmapFailed (e : Errno)
  | loaded (b : UInt8)
  | refused (e : Errno)
  | freed

/-- `P` is the page size. `kmalloc` gives the buffer by its first frame. -/
def step (P : PageSize) (s : State) : Event → Option (State × Shown)
  | .insmod frame err =>
    match s.stage, frame, err with
    | .unloaded, none, _ => some (s, .initReturned Errno.enomem.ret)
    | .unloaded, some n, some e =>
      some ({ s with mem := mbufInitFill P s.mem (n * P.bytes) }, .initReturned e.ret)
    | .unloaded, some n, none =>
      some ({ s with mem := mbufInitFill P s.mem (n * P.bytes), stage := .live,
                     kbuf := some (n * P.bytes) }, .initReturned 0)
    | _, _, _ => none
  | .openFile p f =>
    match s.proc p, s.stage with
    | some x, .live =>
      if s.refs.object f = 0 then
        some ({ s with refs := s.refs.acquire f, pos := Function.update s.pos f 0 }.setProc p
          (some { x with fds := f :: x.fds }), .opened (.ok ()))
      else none
    -- the module is on its way out
    | some _, .going => some (s, .opened (.error .enodev))
    | _, _ => none
  | .close p f =>
    match s.proc p with
    | some x =>
      if f ∈ x.fds then
        some ({ s with refs := s.refs.put f }.setProc p (some { x with fds := x.fds.erase f }), .quiet)
      else none
    | none => none
  | .read p f cnt room =>
    match s.proc p, s.kbuf with
    | some x, some kbuf =>
      if f ∈ x.fds then
        let res := mbufRead P s.mem kbuf room cnt (s.pos f)
        some ({ s with pos := storePos s.pos f res }, .readReturned res)
      else none
    | _, _ => none
  | .pread p f pos cnt room =>
    match s.proc p, s.kbuf with
    | some x, some kbuf =>
      if f ∈ x.fds then some (s, .readReturned (mbufRead P s.mem kbuf room cnt pos)) else none
    | _, _ => none
  | .mmap p f pages pgoff fails =>
    match s.proc p, s.kbuf with
    | some x, some kbuf =>
      if f ∈ x.fds ∧ 0 < pages then
        match mbufMmap P kbuf (pages * P.bytes) pgoff fails with
        | .error e => some (s, .mmapFailed e)
        | .ok frames =>
          let v : Vma := ⟨f, pgoff, frames⟩
          some ({ s with refs := s.refs.get f }.setProc p (some { x with vmas := x.vmas ++ [v] }),
            .mapped v)
      else none
    | _, _ => none
  | .munmap p i first pages =>
    match s.proc p with
    | some x =>
      match x.vmas[i]? with
      | some v =>
        if 0 < pages ∧ first + pages ≤ v.frames.length then
          let rest := v.cut first pages
          some ({ s with refs := ((rest.map Vma.file).foldl Refs.get s.refs).put v.file }.setProc p
            (some { x with vmas := x.vmas.eraseIdx i ++ rest }), .quiet)
        else none
      | none => none
    | none => none
  | .load p i k =>
    match s.proc p with
    | some x =>
      match x.vmas[i]?.bind fun v => v.phys P k with
      | some a => some (s, .loaded (s.mem a))
      | none => none
    | none => none
  | .store p i k b =>
    match s.proc p with
    | some x =>
      match x.vmas[i]?.bind fun v => v.phys P k with
      | some a => some ({ s with mem := writeMem s.mem a [b] }, .quiet)
      | none => none
    | none => none
  | .fork p =>
    match s.proc p with
    | some x =>
      some ({ s with refs := x.held.foldl Refs.get s.refs, procs := s.procs ++ [some x] }, .quiet)
    | none => none
  | .exit p =>
    match s.proc p with
    | some x => some ({ s with refs := x.held.foldl Refs.put s.refs }.setProc p none, .quiet)
    | none => none
  | .rmmod =>
    match s.stage with
    | .live =>
      if s.refs.owner = 0 then some ({ s with stage := .going }, .quiet)
      else some (s, .refused .eagain)
    | _ => none
  | .miscDeregister =>
    match s.stage with
    | .going => some ({ s with stage := .deregistered }, .quiet)
    | _ => none
  | .kfree =>
    match s.stage with
    | .deregistered => some ({ s with stage := .unloaded, kbuf := none }, .freed)
    | _ => none

/-- The cases of `step`. -/
inductive Move (P : PageSize) (s : State) : Event → State → Shown → Prop
  | insmodNoMemory {err} (h : s.stage = .unloaded) :
      Move P s (.insmod none err) s (.initReturned Errno.enomem.ret)
  | insmodFails {n e} (h : s.stage = .unloaded) :
      Move P s (.insmod (some n) (some e))
        { s with mem := mbufInitFill P s.mem (n * P.bytes) } (.initReturned e.ret)
  | insmod {n} (h : s.stage = .unloaded) :
      Move P s (.insmod (some n) none)
        { s with mem := mbufInitFill P s.mem (n * P.bytes), stage := .live,
                 kbuf := some (n * P.bytes) } (.initReturned 0)
  | openFile {p f x} (hp : s.proc p = some x) (h : s.stage = .live) (hf : s.refs.object f = 0) :
      Move P s (.openFile p f)
        ({ s with refs := s.refs.acquire f, pos := Function.update s.pos f 0 }.setProc p
          (some { x with fds := f :: x.fds })) (.opened (.ok ()))
  | openGoing {p f x} (hp : s.proc p = some x) (h : s.stage = .going) :
      Move P s (.openFile p f) s (.opened (.error .enodev))
  | close {p f x} (hp : s.proc p = some x) (hf : f ∈ x.fds) :
      Move P s (.close p f)
        ({ s with refs := s.refs.put f }.setProc p (some { x with fds := x.fds.erase f })) .quiet
  | read {p f cnt room x kbuf} (hp : s.proc p = some x) (hkbuf : s.kbuf = some kbuf)
      (hf : f ∈ x.fds) :
      Move P s (.read p f cnt room)
        { s with pos := storePos s.pos f (mbufRead P s.mem kbuf room cnt (s.pos f)) }
        (.readReturned (mbufRead P s.mem kbuf room cnt (s.pos f)))
  | pread {p f pos cnt room x kbuf} (hp : s.proc p = some x) (hkbuf : s.kbuf = some kbuf)
      (hf : f ∈ x.fds) :
      Move P s (.pread p f pos cnt room) s (.readReturned (mbufRead P s.mem kbuf room cnt pos))
  | mmapFails {p f pages pgoff fails x kbuf e} (hp : s.proc p = some x) (hkbuf : s.kbuf = some kbuf)
      (hf : f ∈ x.fds) (hpages : 0 < pages)
      (hmmap : mbufMmap P kbuf (pages * P.bytes) pgoff fails = .error e) :
      Move P s (.mmap p f pages pgoff fails) s (.mmapFailed e)
  | mmap {p f pages pgoff fails x kbuf frames} (hp : s.proc p = some x) (hkbuf : s.kbuf = some kbuf)
      (hf : f ∈ x.fds) (hpages : 0 < pages)
      (hmmap : mbufMmap P kbuf (pages * P.bytes) pgoff fails = .ok frames) :
      Move P s (.mmap p f pages pgoff fails)
        ({ s with refs := s.refs.get f }.setProc p
          (some { x with vmas := x.vmas ++ [Vma.mk f pgoff frames] })) (.mapped ⟨f, pgoff, frames⟩)
  | munmap {p i first pages x v} (hp : s.proc p = some x) (hv : x.vmas[i]? = some v)
      (hpages : 0 < pages) (hfit : first + pages ≤ v.frames.length) :
      Move P s (.munmap p i first pages)
        ({ s with refs := (((v.cut first pages).map Vma.file).foldl Refs.get s.refs).put
                    v.file }.setProc p
          (some { x with vmas := x.vmas.eraseIdx i ++ v.cut first pages })) .quiet
  | load {p i k x v a} (hp : s.proc p = some x) (hv : x.vmas[i]? = some v)
      (ha : v.phys P k = some a) : Move P s (.load p i k) s (.loaded (s.mem a))
  | store {p i k b x v a} (hp : s.proc p = some x) (hv : x.vmas[i]? = some v)
      (ha : v.phys P k = some a) :
      Move P s (.store p i k b) { s with mem := writeMem s.mem a [b] } .quiet
  | fork {p x} (hp : s.proc p = some x) :
      Move P s (.fork p)
        { s with refs := x.held.foldl Refs.get s.refs, procs := s.procs ++ [some x] } .quiet
  | exit {p x} (hp : s.proc p = some x) :
      Move P s (.exit p) ({ s with refs := x.held.foldl Refs.put s.refs }.setProc p none) .quiet
  | rmmod (h : s.stage = .live) (howner : s.refs.owner = 0) :
      Move P s .rmmod { s with stage := .going } .quiet
  | rmmodBusy (h : s.stage = .live) (howner : s.refs.owner ≠ 0) :
      Move P s .rmmod s (.refused .eagain)
  | miscDeregister (h : s.stage = .going) :
      Move P s .miscDeregister { s with stage := .deregistered } .quiet
  | kfree (h : s.stage = .deregistered) :
      Move P s .kfree { s with stage := .unloaded, kbuf := none } .freed

theorem bind_phys {P : PageSize} {x : Process} {i k a : Nat}
    (h : (x.vmas[i]?.bind fun v => v.phys P k) = some a) :
    ∃ v, x.vmas[i]? = some v ∧ v.phys P k = some a :=
  Option.bind_eq_some_iff.mp h

theorem step_move {P : PageSize} {s u : State} {e : Event} {o : Shown}
    (h : step P s e = some (u, o)) : Move P s e u o := by
  cases e with
  | insmod frame err =>
    simp only [step] at h
    split at h
    · next hs =>
      cases h
      exact .insmodNoMemory hs
    · next hs =>
      cases h
      exact .insmodFails hs
    · next hs =>
      cases h
      exact .insmod hs
    · cases h
  | openFile p f =>
    simp only [step] at h
    split at h
    · next hp hs =>
      split at h
      · next hf =>
        cases h
        exact .openFile hp hs hf
      · cases h
    · next hp hs =>
      cases h
      exact .openGoing hp hs
    · cases h
  | close p f =>
    simp only [step] at h
    split at h
    · next hp =>
      split at h
      · next hf =>
        cases h
        exact .close hp hf
      · cases h
    · cases h
  | read p f cnt room =>
    simp only [step] at h
    split at h
    · next hp hkbuf =>
      split at h
      · next hf =>
        cases h
        exact .read hp hkbuf hf
      · cases h
    · cases h
  | pread p f pos cnt room =>
    simp only [step] at h
    split at h
    · next hp hkbuf =>
      split at h
      · next hf =>
        cases h
        exact .pread hp hkbuf hf
      · cases h
    · cases h
  | mmap p f pages pgoff fails =>
    simp only [step] at h
    split at h
    · next hp hkbuf =>
      split at h
      · next hf =>
        split at h
        · next hmmap =>
          cases h
          exact .mmapFails hp hkbuf hf.1 hf.2 hmmap
        · next hmmap =>
          cases h
          exact .mmap hp hkbuf hf.1 hf.2 hmmap
      · cases h
    · cases h
  | munmap p i first pages =>
    simp only [step] at h
    split at h
    · next hp =>
      split at h
      · next hv =>
        split at h
        · next hfit =>
          cases h
          exact .munmap hp hv hfit.1 hfit.2
        · cases h
      · cases h
    · cases h
  | load p i k =>
    simp only [step] at h
    split at h
    · next hp =>
      split at h
      · next ha =>
        cases h
        obtain ⟨v, hv, hphys⟩ := bind_phys ha
        exact .load hp hv hphys
      · cases h
    · cases h
  | store p i k b =>
    simp only [step] at h
    split at h
    · next hp =>
      split at h
      · next ha =>
        cases h
        obtain ⟨v, hv, hphys⟩ := bind_phys ha
        exact .store hp hv hphys
      · cases h
    · cases h
  | fork p =>
    simp only [step] at h
    split at h
    · next hp =>
      cases h
      exact .fork hp
    · cases h
  | exit p =>
    simp only [step] at h
    split at h
    · next hp =>
      cases h
      exact .exit hp
    · cases h
  | rmmod =>
    simp only [step] at h
    split at h
    · next hs =>
      split at h
      · next howner =>
        cases h
        exact .rmmod hs howner
      · next howner =>
        cases h
        exact .rmmodBusy hs howner
    · cases h
  | miscDeregister =>
    simp only [step] at h
    split at h
    · next hs =>
      cases h
      exact .miscDeregister hs
    · cases h
  | kfree =>
    simp only [step] at h
    split at h
    · next hs =>
      cases h
      exact .kfree hs
    · cases h

@[simp] theorem setProc_mem (s : State) (p : Nat) (x : Option Process) :
    (s.setProc p x).mem = s.mem := rfl

@[simp] theorem setProc_stage (s : State) (p : Nat) (x : Option Process) :
    (s.setProc p x).stage = s.stage := rfl

@[simp] theorem setProc_kbuf (s : State) (p : Nat) (x : Option Process) :
    (s.setProc p x).kbuf = s.kbuf := rfl

@[simp] theorem setProc_refs (s : State) (p : Nat) (x : Option Process) :
    (s.setProc p x).refs = s.refs := rfl

@[simp] theorem setProc_pos (s : State) (p : Nat) (x : Option Process) :
    (s.setProc p x).pos = s.pos := rfl

@[simp] theorem setProc_procs (s : State) (p : Nat) (x : Option Process) :
    (s.setProc p x).procs = s.procs.set p x := rfl

theorem proc_eq_some {s : State} {p : Nat} {x : Process} :
    s.proc p = some x ↔ s.procs[p]? = some (some x) := by
  rw [State.proc, Option.join_eq_some_iff]

end LinuxDriverLab.MmapBuf
