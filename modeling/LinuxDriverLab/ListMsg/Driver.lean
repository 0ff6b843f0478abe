import LinuxDriverLab.Framework.IntrusiveRing
import LinuxDriverLab.Framework.Run
import LinuxDriverLab.Framework.Words
import LinuxDriverLab.Kernel.Ioctl
import LinuxDriverLab.Kernel.Printf

/-!
# The listmsg driver

Messages on an intrusive list, and a cursor for each open file. A call is cut where it takes or
leaves the lock: what a write prepares, `lm_read`'s test of its cursor and `LISTMSG_CLEAR`'s reset of
the caller's cursor are steps of their own. What a call does after its last access to shared memory
belongs to the step of that access.
-/

namespace LinuxDriverLab.ListMsg

def msgMax : Nat := 120

def listmsgMagic : Nat := 76
def listmsgClear : Nat := io listmsgMagic 1
def listmsgCount : Nat := ior listmsgMagic 2 sizeofInt

/-- `struct msg`, but for the list -/
structure Msg where
  len : Nat
  data : Bytes
deriving DecidableEq

/-- `struct cursor` -/
structure Cursor where
  pos : Option Addr
  idx : Int
deriving DecidableEq

def lmWriteClamp (cnt : Nat) : Nat := if cnt > msgMax then msgMax else cnt

/-- What `lm_write` has before it takes the lock: a result, or a message that is ready. -/
inductive Prepared
  | returned (ret : Except Errno Nat)
  | ready (m : Addr)

/-- `lm_write` up to the lock, `mem` being what `kmalloc` returns -/
def lmWritePrepare (h : Heap Msg) (u : Bytes) (count : Nat) (mem : Option Addr) :
    Option (Heap Msg × Prepared) :=
  let cnt := lmWriteClamp count
  if cnt = 0 then some (h, .returned (.ok 0))
  else
    match mem with
    | none => some (h, .returned (.error .enomem))
    | some m => do
      let h ← h.kmalloc m
      let copy := copyFromUser u cnt
      let h ← h.setVal m { h.val m with data := copy.stored }
      if copy.left ≠ 0 then do
        let h ← h.kfree m
        some (h, .returned (.error .efault))
      else do
        let h ← h.setVal m { h.val m with len := cnt }
        some (h, .ready m)

/-- The locked section of `lm_write` -/
def lmWriteLocked (h : Heap Msg) (msgCount : Int) (m : Addr) : Option (Heap Msg × Int) := do
  let h ← h.listAddTail m
  some (h, int32 (msgCount + 1))

/-- `"%d: %.*s\n"` -/
def msgText (idx : Int) (m : Msg) : Bytes :=
  formatInt idx ++ [58, 32] ++ formatString m.len m.data ++ [10]

/-- The locked section of `lm_read`: the text printed, and the cursor after it -/
def lmReadLocked (h : Heap Msg) (cur : Cursor) : Option (Bytes × Cursor) := do
  let pos ← cur.pos
  let m ← h.getVal pos
  let last ← h.listIsLast pos
  let next ← if last then some none else (h.listNextEntry pos).map some
  some (msgText cur.idx m, ⟨next, int32 (cur.idx + 1)⟩)

/-- The size of `line` -/
def lineSize : Nat := msgMax + 32

/-- `lm_read` after the lock -/
def lmReadCopy (text : Bytes) (cnt room : Nat) : Except Errno Nat × Bytes :=
  let printed := snprintf lineSize text
  let cnt := if cnt > printed.ret then printed.ret else cnt
  let copy := copyToUser printed.line cnt room
  if copy.left ≠ 0 then (.error .efault, copy.stored) else (.ok cnt, copy.stored)

/-- The locked section of `lm_open` -/
def lmOpenLocked (h : Heap Msg) : Option Cursor := do
  let pos ← h.listFirstEntryOrNull
  some ⟨pos, 1⟩

/-- The loop of `LISTMSG_CLEAR` -/
def lmClearLocked (h : Heap Msg) : Option (Heap Msg) :=
  h.listForEachEntrySafe fun h m => do
    let h ← h.listDel m
    h.kfree m

/-- Where a task stands in its call, with the file and what the call carries along; `oops` is a task
that accessed memory that it may not. -/
inductive Pc
  | idle
  | readTested (f : File) (cnt room : Nat)
  | writeReady (f : File) (m : Addr) (u : Bytes) (count : Nat)
  | clearDone (f : File)
  | oops

/-- An open of the device, from `lm_open` to `lm_release`. -/
inductive Opened
  | no
  | yes (cur : Cursor)
  | released

structure State where
  heap : Heap Msg
  msgCount : Int
  files : File → Opened
  pc : Task → Pc

def State.init (junk : Heap Msg) : State := ⟨.empty junk, 0, fun _ => .no, fun _ => .idle⟩

inductive Event
  | openFile (t : Task) (f : File) (mem : Bool)
  | release (f : File)
  | readTest (t : Task) (f : File) (cnt room : Nat)
  | readLocked (t : Task)
  | write (t : Task) (f : File) (u : Bytes) (count : Nat) (mem : Option Addr)
  | writeLocked (t : Task)
  | ioctl (t : Task) (f : File) (cmd : Nat) (arg : UserInt)
  | clearReset (t : Task)

/-- What a step shows; `written` comes with the arguments of the call. -/
inductive Shown
  | quiet
  | opened (f : File) (ret : Except Errno Unit)
  | readReturned (f : File) (ret : Except Errno Nat) (data : Bytes)
  | writeReturned (f : File) (ret : Except Errno Nat)
  | written (f : File) (ret : Nat) (u : Bytes) (count : Nat)
  | counted (f : File) (res : IoctlResult)
  | cleared (f : File)
  | ioctlReturned (f : File) (res : IoctlResult)
  | oops
deriving DecidableEq

def State.goto (s : State) (t : Task) (pc : Pc) : State :=
  { s with pc := Function.update s.pc t pc }

def State.setFile (s : State) (f : File) (o : Opened) : State :=
  { s with files := Function.update s.files f o }

/-- `kmalloc` does not return what is allocated. -/
def Fresh (h : Heap Msg) (mem : Option Addr) : Prop := ∀ m ∈ mem, m ∉ h.live

instance (h : Heap Msg) (mem : Option Addr) : Decidable (Fresh h mem) :=
  inferInstanceAs (Decidable (∀ m ∈ mem, m ∉ h.live))

/-- `put_user` of an `int` to the argument of an ioctl -/
def putInt (arg : UserInt) (val : Int) : IoctlResult :=
  if arg.writable then ⟨.ok (), some val⟩ else ⟨.error .efault, none⟩

def step (s : State) : Event → Option (State × Shown)
  | .openFile t f mem =>
    match s.pc t, s.files f with
    | .idle, .no =>
      if mem then
        match lmOpenLocked s.heap with
        | some cur => some (s.setFile f (.yes cur), .opened f (.ok ()))
        | none => some (s.goto t .oops, .oops)
      else some (s, .opened f (.error .enomem))
    | _, _ => none
  | .release f =>
    match s.files f with
    | .yes _ => some (s.setFile f .released, .quiet)
    | _ => none
  | .readTest t f cnt room =>
    match s.pc t, s.files f with
    | .idle, .yes cur =>
      match cur.pos with
      | none => some (s, .readReturned f (.ok 0) [])
      | some _ => some (s.goto t (.readTested f cnt room), .quiet)
    | _, _ => none
  | .readLocked t =>
    match s.pc t with
    | .readTested f cnt room =>
      match s.files f with
      | .yes cur =>
        match lmReadLocked s.heap cur with
        | some (text, cur') =>
          let (ret, data) := lmReadCopy text cnt room
          some ((s.setFile f (.yes cur')).goto t .idle, .readReturned f ret data)
        | none => some (s.goto t .oops, .oops)
      | _ => none
    | _ => none
  | .write t f u count mem =>
    match s.pc t, s.files f with
    | .idle, .yes _ =>
      if Fresh s.heap mem then
        match lmWritePrepare s.heap u count mem with
        | some (heap, .returned ret) => some ({ s with heap }, .writeReturned f ret)
        | some (heap, .ready m) =>
          some ({ s with heap }.goto t (.writeReady f m u count), .quiet)
        | none => some (s.goto t .oops, .oops)
      else none
    | _, _ => none
  | .writeLocked t =>
    match s.pc t with
    | .writeReady f m u count =>
      match lmWriteLocked s.heap s.msgCount m with
      | some (heap, msgCount) =>
        some ({ s with heap, msgCount }.goto t .idle, .written f (lmWriteClamp count) u count)
      | none => some (s.goto t .oops, .oops)
    | _ => none
  | .ioctl t f cmd arg =>
    match s.pc t, s.files f with
    | .idle, .yes _ =>
      if cmd = listmsgCount then some (s, .counted f (putInt arg s.msgCount))
      else if cmd = listmsgClear then
        match lmClearLocked s.heap with
        | some heap => some ({ s with heap, msgCount := 0 }.goto t (.clearDone f), .cleared f)
        | none => some (s.goto t .oops, .oops)
      else some (s, .ioctlReturned f ⟨.error .enotty, none⟩)
    | _, _ => none
  | .clearReset t =>
    match s.pc t with
    | .clearDone f =>
      match s.files f with
      | .yes cur =>
        some ((s.setFile f (.yes { cur with pos := none })).goto t .idle,
          .ioctlReturned f ⟨.ok (), none⟩)
      | _ => none
    | _ => none

/-- The cases of `step`. -/
inductive Move (s : State) : Event → State → Shown → Prop
  | openFile {t f cur} (ht : s.pc t = .idle) (hf : s.files f = .no) (hcur : lmOpenLocked s.heap = some cur) :
      Move s (.openFile t f true) (s.setFile f (.yes cur)) (.opened f (.ok ()))
  | openOops {t f} (ht : s.pc t = .idle) (hf : s.files f = .no) (hcur : lmOpenLocked s.heap = none) :
      Move s (.openFile t f true) (s.goto t .oops) .oops
  | openFails {t f} (ht : s.pc t = .idle) (hf : s.files f = .no) :
      Move s (.openFile t f false) s (.opened f (.error .enomem))
  | release {f cur} (hf : s.files f = .yes cur) :
      Move s (.release f) (s.setFile f .released) .quiet
  | readEnd {t f cnt room cur} (ht : s.pc t = .idle) (hf : s.files f = .yes cur)
      (hpos : cur.pos = none) : Move s (.readTest t f cnt room) s (.readReturned f (.ok 0) [])
  | readTest {t f cnt room cur a} (ht : s.pc t = .idle) (hf : s.files f = .yes cur)
      (hpos : cur.pos = some a) :
      Move s (.readTest t f cnt room) (s.goto t (.readTested f cnt room)) .quiet
  | readLocked {t f cnt room cur text cur'} (ht : s.pc t = .readTested f cnt room)
      (hf : s.files f = .yes cur) (hread : lmReadLocked s.heap cur = some (text, cur')) :
      Move s (.readLocked t) ((s.setFile f (.yes cur')).goto t .idle)
        (.readReturned f (lmReadCopy text cnt room).1 (lmReadCopy text cnt room).2)
  | readOops {t f cnt room cur} (ht : s.pc t = .readTested f cnt room) (hf : s.files f = .yes cur)
      (hread : lmReadLocked s.heap cur = none) : Move s (.readLocked t) (s.goto t .oops) .oops
  | writeReturn {t f u count mem cur heap ret} (ht : s.pc t = .idle) (hf : s.files f = .yes cur)
      (hmem : Fresh s.heap mem)
      (hprep : lmWritePrepare s.heap u count mem = some (heap, .returned ret)) :
      Move s (.write t f u count mem) { s with heap } (.writeReturned f ret)
  | writeReady {t f u count mem cur heap m} (ht : s.pc t = .idle) (hf : s.files f = .yes cur)
      (hmem : Fresh s.heap mem)
      (hprep : lmWritePrepare s.heap u count mem = some (heap, .ready m)) :
      Move s (.write t f u count mem) ({ s with heap }.goto t (.writeReady f m u count)) .quiet
  | writeOops {t f u count mem cur} (ht : s.pc t = .idle) (hf : s.files f = .yes cur)
      (hmem : Fresh s.heap mem) (hprep : lmWritePrepare s.heap u count mem = none) :
      Move s (.write t f u count mem) (s.goto t .oops) .oops
  | writeLocked {t f m u count heap msgCount} (ht : s.pc t = .writeReady f m u count)
      (hadd : lmWriteLocked s.heap s.msgCount m = some (heap, msgCount)) :
      Move s (.writeLocked t) ({ s with heap, msgCount }.goto t .idle)
        (.written f (lmWriteClamp count) u count)
  | writeLockedOops {t f m u count} (ht : s.pc t = .writeReady f m u count)
      (hadd : lmWriteLocked s.heap s.msgCount m = none) :
      Move s (.writeLocked t) (s.goto t .oops) .oops
  | count {t f arg cur} (ht : s.pc t = .idle) (hf : s.files f = .yes cur) :
      Move s (.ioctl t f listmsgCount arg) s (.counted f (putInt arg s.msgCount))
  | clear {t f arg cur heap} (ht : s.pc t = .idle) (hf : s.files f = .yes cur)
      (hclear : lmClearLocked s.heap = some heap) :
      Move s (.ioctl t f listmsgClear arg) ({ s with heap, msgCount := 0 }.goto t (.clearDone f))
        (.cleared f)
  | clearOops {t f arg cur} (ht : s.pc t = .idle) (hf : s.files f = .yes cur)
      (hclear : lmClearLocked s.heap = none) :
      Move s (.ioctl t f listmsgClear arg) (s.goto t .oops) .oops
  | ioctlOther {t f cmd arg cur} (ht : s.pc t = .idle) (hf : s.files f = .yes cur)
      (hcmd : cmd ≠ listmsgCount ∧ cmd ≠ listmsgClear) :
      Move s (.ioctl t f cmd arg) s (.ioctlReturned f ⟨.error .enotty, none⟩)
  | clearReset {t f cur} (ht : s.pc t = .clearDone f) (hf : s.files f = .yes cur) :
      Move s (.clearReset t) ((s.setFile f (.yes { cur with pos := none })).goto t .idle)
        (.ioctlReturned f ⟨.ok (), none⟩)

theorem step_move {s u : State} {e : Event} {o : Shown} (h : step s e = some (u, o)) :
    Move s e u o := by
  cases e with
  | openFile t f mem =>
    simp only [step] at h
    split at h
    · next ht hf =>
      cases mem with
      | true =>
        rw [if_pos rfl] at h
        split at h
        · next hcur =>
          cases h
          exact .openFile ht hf hcur
        · next hcur =>
          cases h
          exact .openOops ht hf hcur
      | false =>
        cases h
        exact .openFails ht hf
    · cases h
  | release f =>
    simp only [step] at h
    split at h
    · next hf =>
      cases h
      exact .release hf
    · cases h
  | readTest t f cnt room =>
    simp only [step] at h
    split at h
    · next ht hf =>
      split at h
      · next hpos =>
        cases h
        exact .readEnd ht hf hpos
      · next hpos =>
        cases h
        exact .readTest ht hf hpos
    · cases h
  | readLocked t =>
    simp only [step] at h
    split at h
    · next ht =>
      split at h
      · next hf =>
        split at h
        · next hread =>
          cases h
          exact .readLocked ht hf hread
        · next hread =>
          cases h
          exact .readOops ht hf hread
      · cases h
    · cases h
  | write t f u count mem =>
    simp only [step] at h
    split at h
    · next ht hf =>
      split at h
      · next hmem =>
        split at h
        · next hprep =>
          cases h
          exact .writeReturn ht hf hmem hprep
        · next hprep =>
          cases h
          exact .writeReady ht hf hmem hprep
        · next hprep =>
          cases h
          exact .writeOops ht hf hmem hprep
      · cases h
    · cases h
  | writeLocked t =>
    simp only [step] at h
    split at h
    · next ht =>
      split at h
      · next hadd =>
        cases h
        exact .writeLocked ht hadd
      · next hadd =>
        cases h
        exact .writeLockedOops ht hadd
    · cases h
  | ioctl t f cmd arg =>
    simp only [step] at h
    split at h
    · next ht hf =>
      split at h
      · next hcmd =>
        cases h
        subst hcmd
        exact .count ht hf
      · next hcount =>
        split at h
        · next hcmd =>
          subst hcmd
          split at h
          · next hclear =>
            cases h
            exact .clear ht hf hclear
          · next hclear =>
            cases h
            exact .clearOops ht hf hclear
        · next hclear =>
          cases h
          exact .ioctlOther ht hf ⟨hcount, hclear⟩
    · cases h
  | clearReset t =>
    simp only [step] at h
    split at h
    · next ht =>
      split at h
      · next hf =>
        cases h
        exact .clearReset ht hf
      · cases h
    · cases h

@[simp] theorem goto_heap (s : State) (t : Task) (pc : Pc) : (s.goto t pc).heap = s.heap := rfl

@[simp] theorem goto_msgCount (s : State) (t : Task) (pc : Pc) :
    (s.goto t pc).msgCount = s.msgCount := rfl

@[simp] theorem goto_files (s : State) (t : Task) (pc : Pc) : (s.goto t pc).files = s.files := rfl

@[simp] theorem goto_pc_self (s : State) (t : Task) (pc : Pc) : (s.goto t pc).pc t = pc := by
  simp [State.goto]

@[simp] theorem goto_pc_other (s : State) {t t' : Task} (pc : Pc) (h : t' ≠ t) :
    (s.goto t pc).pc t' = s.pc t' := by
  simp [State.goto, h]

theorem goto_pc_cases {s : State} {t t' : Task} {pc p : Pc} (h : (s.goto t pc).pc t' = p) :
    t' = t ∧ pc = p ∨ t' ≠ t ∧ s.pc t' = p := by
  by_cases ht : t' = t
  · subst ht
    rw [goto_pc_self] at h
    exact .inl ⟨rfl, h⟩
  · rw [goto_pc_other s pc ht] at h
    exact .inr ⟨ht, h⟩

theorem goto_pc_ne {s : State} {t t' : Task} {pc p : Pc} (hpc : pc ≠ p)
    (h : (s.goto t pc).pc t' = p) : t' ≠ t ∧ s.pc t' = p :=
  (goto_pc_cases h).resolve_left fun heq => hpc heq.2

@[simp] theorem setFile_heap (s : State) (f : File) (o : Opened) : (s.setFile f o).heap = s.heap := rfl

@[simp] theorem setFile_msgCount (s : State) (f : File) (o : Opened) :
    (s.setFile f o).msgCount = s.msgCount := rfl

@[simp] theorem setFile_pc (s : State) (f : File) (o : Opened) : (s.setFile f o).pc = s.pc := rfl

@[simp] theorem setFile_self (s : State) (f : File) (o : Opened) : (s.setFile f o).files f = o := by
  simp [State.setFile]

@[simp] theorem setFile_other (s : State) {f g : File} (o : Opened) (h : g ≠ f) :
    (s.setFile f o).files g = s.files g := by
  simp [State.setFile, h]

end LinuxDriverLab.ListMsg
