import LinuxDriverLab.Framework.Run
import LinuxDriverLab.Framework.Words
import LinuxDriverLab.Kernel.UserCopy

/-!
# The misc_echo driver

`ed_read` and `ed_write`, and the system in which any number of tasks call them. The kernel hands
every call its own copy of the file's position and stores it back when the call succeeds.
-/

namespace LinuxDriverLab.MiscEcho

def msgMax : Nat := 256

/-- `msg` and `msg_len`, zeroed when the module is loaded -/
structure Dev where
  msg : Buf msgMax
  msgLen : Nat

def Dev.init : Dev := ⟨Buf.zero msgMax, 0⟩

/-- `ed_read`, all of it under the lock -/
def edRead (d : Dev) (room cnt pos : Nat) : ReadResult :=
  if pos ≥ d.msgLen then ⟨.ok 0, [], pos⟩
  else
    let cnt := if cnt > usub64 d.msgLen pos then usub64 d.msgLen pos else cnt
    let copy := copyToUser (d.msg.bytes.drop pos) cnt room
    if copy.left ≠ 0 then ⟨.error .efault, copy.stored, pos⟩
    else ⟨.ok cnt, copy.stored, pos + cnt⟩

/-- The part of `ed_write` before the lock -/
def edWriteClamp (cnt : Nat) : Nat := if cnt > msgMax then msgMax else cnt

/-- The locked part of `ed_write` -/
def edWriteLocked (d : Dev) (u : Bytes) (cnt : Nat) : Dev × Except Errno Nat :=
  let copy := copyFromUser u cnt
  let msg := d.msg.store 0 copy.stored
  if copy.left ≠ 0 then (⟨msg, d.msgLen⟩, .error .efault)
  else (⟨msg, cnt⟩, .ok cnt)

def edWrite (d : Dev) (u : Bytes) (cnt : Nat) : Dev × Except Errno Nat :=
  edWriteLocked d u (edWriteClamp cnt)

/-- Where a task stands: a call keeps its arguments, its locals and its copy of the position. -/
inductive Pc
  | idle
  | readEntered (f : File) (room cnt pos : Nat)
  | writeClamped (f : File) (u : Bytes) (count cnt pos : Nat)
  | done (f : File) (res : ReadResult)

def Pc.file : Pc → Option File
  | .idle => none
  | .readEntered f .. => some f
  | .writeClamped f .. => some f
  | .done f .. => some f

structure State where
  dev : Dev
  pos : File → Nat
  pc : Task → Pc

def State.init (pos : File → Nat) : State := ⟨Dev.init, pos, fun _ => .idle⟩

inductive Event
  | readEnter (t : Task) (f : File) (room cnt : Nat)
  | readLocked (t : Task)
  | writeEnter (t : Task) (f : File) (u : Bytes) (count : Nat)
  | writeLocked (t : Task)
  | ret (t : Task)

def Event.task : Event → Task
  | .readEnter t .. => t
  | .readLocked t => t
  | .writeEnter t .. => t
  | .writeLocked t => t
  | .ret t => t

/-- What a step shows: the effect of a locked section, or the result a call returns. -/
inductive Shown
  | quiet
  | read (f : File) (cnt pos : Nat) (res : ReadResult)
  | wrote (f : File) (u : Bytes) (count : Nat) (ret : Except Errno Nat)
  | returned (f : File) (res : ReadResult)
deriving DecidableEq

def State.goto (s : State) (t : Task) (pc : Pc) : State :=
  { s with pc := Function.update s.pc t pc }

def step (s : State) : Event → Option (State × Shown)
  | .readEnter t f room cnt =>
    match s.pc t with
    | .idle => some (s.goto t (.readEntered f room cnt (s.pos f)), .quiet)
    | _ => none
  | .readLocked t =>
    match s.pc t with
    | .readEntered f room cnt pos =>
      let res := edRead s.dev room cnt pos
      some (s.goto t (.done f res), .read f cnt pos res)
    | _ => none
  | .writeEnter t f u count =>
    match s.pc t with
    | .idle => some (s.goto t (.writeClamped f u count (edWriteClamp count) (s.pos f)), .quiet)
    | _ => none
  | .writeLocked t =>
    match s.pc t with
    | .writeClamped f u count cnt pos =>
      let (dev, ret) := edWriteLocked s.dev u cnt
      some ({ s with dev }.goto t (.done f ⟨ret, [], pos⟩), .wrote f u count ret)
    | _ => none
  | .ret t =>
    match s.pc t with
    | .done f res => some ({ s with pos := storePos s.pos f res }.goto t .idle, .returned f res)
    | _ => none

/-- The cases of `step`. -/
inductive Move (s : State) : Event → State → Shown → Prop
  | readEnter {t f room cnt} (h : s.pc t = .idle) :
      Move s (.readEnter t f room cnt) (s.goto t (.readEntered f room cnt (s.pos f))) .quiet
  | readLocked {t f room cnt pos} (h : s.pc t = .readEntered f room cnt pos) :
      Move s (.readLocked t) (s.goto t (.done f (edRead s.dev room cnt pos)))
        (.read f cnt pos (edRead s.dev room cnt pos))
  | writeEnter {t f u count} (h : s.pc t = .idle) :
      Move s (.writeEnter t f u count)
        (s.goto t (.writeClamped f u count (edWriteClamp count) (s.pos f))) .quiet
  | writeLocked {t f u count cnt pos} (h : s.pc t = .writeClamped f u count cnt pos) :
      Move s (.writeLocked t)
        ({ s with dev := (edWriteLocked s.dev u cnt).1 }.goto t
          (.done f ⟨(edWriteLocked s.dev u cnt).2, [], pos⟩))
        (.wrote f u count (edWriteLocked s.dev u cnt).2)
  | ret {t f res} (h : s.pc t = .done f res) :
      Move s (.ret t) ({ s with pos := storePos s.pos f res }.goto t .idle) (.returned f res)

theorem step_move {s u : State} {e : Event} {o : Shown} (h : step s e = some (u, o)) :
    Move s e u o := by
  cases e with
  | readEnter t f room cnt =>
    simp only [step] at h
    split at h
    · next hpc =>
      cases h
      exact .readEnter hpc
    · cases h
  | readLocked t =>
    simp only [step] at h
    split at h
    · next hpc =>
      cases h
      exact .readLocked hpc
    · cases h
  | writeEnter t f u count =>
    simp only [step] at h
    split at h
    · next hpc =>
      cases h
      exact .writeEnter hpc
    · cases h
  | writeLocked t =>
    simp only [step] at h
    split at h
    · next hpc =>
      cases h
      exact .writeLocked hpc
    · cases h
  | ret t =>
    simp only [step] at h
    split at h
    · next hpc =>
      cases h
      exact .ret hpc
    · cases h

@[simp] theorem goto_pc_self (s : State) (t : Task) (pc : Pc) : (s.goto t pc).pc t = pc := by
  simp [State.goto]

@[simp] theorem goto_pc_other (s : State) {t t' : Task} (pc : Pc) (h : t' ≠ t) :
    (s.goto t pc).pc t' = s.pc t' := by
  simp [State.goto, h]

@[simp] theorem goto_dev (s : State) (t : Task) (pc : Pc) : (s.goto t pc).dev = s.dev := rfl

@[simp] theorem goto_pos (s : State) (t : Task) (pc : Pc) : (s.goto t pc).pos = s.pos := rfl

end LinuxDriverLab.MiscEcho
