import LinuxDriverLab.Framework.Run
import LinuxDriverLab.Framework.Words
import LinuxDriverLab.Kernel.Ioctl

/-!
# The twodev driver

The file operations of one instance, and the system in which any number of tasks call them. The
unlocked accesses to the instance are steps of their own.
-/

namespace LinuxDriverLab.TwoDev

def bufMax : Nat := 256

def twodevMagic : Nat := 87
def twodevGetBufsz : Nat := ior twodevMagic 1 sizeofInt
def twodevSetBufsz : Nat := iow twodevMagic 2 sizeofInt
def twodevDouble : Nat := iowr twodevMagic 3 sizeofInt

/-- The fields of `struct twodev` that the file operations use. -/
structure Twodev where
  buf : Buf bufMax
  len : Nat
  bufsz : Nat

/-- An instance as `td_init` sets it up. -/
def Twodev.init : Twodev := ⟨Buf.zero bufMax, 0, bufMax⟩

/-- `td_write` before the lock -/
def tdWriteClamp (d : Twodev) (cnt : Nat) : Nat := if cnt > d.bufsz then d.bufsz else cnt

/-- The locked section of `td_write` -/
def tdWriteLocked (d : Twodev) (u : Bytes) (cnt : Nat) : Twodev × Except Errno Nat :=
  let copy := copyFromUser u cnt
  let buf := d.buf.store 0 copy.stored
  if copy.left ≠ 0 then ({ d with buf }, .error .efault)
  else ({ d with buf, len := cnt }, .ok cnt)

def tdWrite (d : Twodev) (u : Bytes) (cnt : Nat) : Twodev × Except Errno Nat :=
  tdWriteLocked d u (tdWriteClamp d cnt)

/-- `td_read`'s second look at the length -/
def tdReadClamp (d : Twodev) (cnt pos : Nat) : Nat :=
  if cnt > usub64 d.len pos then usub64 d.len pos else cnt

/-- The locked section of `td_read`; `beyond` is the memory that follows the buffer. -/
def tdReadLocked (d : Twodev) (beyond : Bytes) (room cnt pos : Nat) : ReadResult :=
  let copy := copyToUser ((d.buf.bytes ++ beyond).drop pos) cnt room
  if copy.left ≠ 0 then ⟨.error .efault, copy.stored, pos⟩
  else ⟨.ok cnt, copy.stored, (pos + cnt) % 2 ^ 64⟩

def tdRead (d : Twodev) (beyond : Bytes) (room cnt pos : Nat) : ReadResult :=
  if pos ≥ d.len then ⟨.ok 0, [], pos⟩
  else tdReadLocked d beyond room (tdReadClamp d cnt pos) pos

/-- `td_ioctl` up to the lock: the call's result, or the limit that `TWODEV_SET_BUFSZ` takes to its
locked section. -/
def tdIoctlUnlocked (d : Twodev) (cmd : Nat) (arg : UserInt) : IoctlResult ⊕ Nat :=
  if cmd = twodevGetBufsz then
    if arg.writable then .inl ⟨.ok (), some (int32 d.bufsz)⟩ else .inl ⟨.error .efault, none⟩
  else if cmd = twodevSetBufsz then
    match arg.value with
    | none => .inl ⟨.error .efault, none⟩
    | some val => if val < 1 ∨ val > bufMax then .inl ⟨.error .einval, none⟩ else .inr val.toNat
  else if cmd = twodevDouble then
    match arg.value with
    | none => .inl ⟨.error .efault, none⟩
    | some val =>
      if arg.writable then .inl ⟨.ok (), some (int32 (val * 2))⟩ else .inl ⟨.error .efault, none⟩
  else .inl ⟨.error .enotty, none⟩

/-- The locked section of `TWODEV_SET_BUFSZ` -/
def tdIoctlLocked (d : Twodev) (val : Nat) : Twodev := { d with bufsz := val }

def tdIoctl (d : Twodev) (cmd : Nat) (arg : UserInt) : Twodev × IoctlResult :=
  match tdIoctlUnlocked d cmd arg with
  | .inl res => (d, res)
  | .inr val => (tdIoctlLocked d val, ⟨.ok (), none⟩)

/-- Where a task stands: a call keeps its arguments, its locals and its copy of the position; `seen`
is the length that `td_read`'s clamp found. -/
inductive Pc
  | idle
  | readTested (f : File) (room req pos : Nat)
  | readClamped (f : File) (room req pos seen cnt : Nat)
  | writeClamped (f : File) (u : Bytes) (cnt pos : Nat)
  | setChecked (f : File) (val : Nat)
  | done (f : File) (res : ReadResult)
  | ioctlDone (f : File) (res : IoctlResult)

structure State where
  dev : Twodev
  pos : File → Nat
  pc : Task → Pc

def State.init (pos : File → Nat) : State := ⟨Twodev.init, pos, fun _ => .idle⟩

inductive Event
  | readEnter (t : Task) (f : File) (room req : Nat)
  | readClamp (t : Task)
  | readLocked (t : Task) (beyond : Bytes)
  | writeEnter (t : Task) (f : File) (u : Bytes) (count : Nat)
  | writeLocked (t : Task)
  | ioctlEnter (t : Task) (f : File) (cmd : Nat) (arg : UserInt)
  | ioctlLocked (t : Task)
  | ret (t : Task)

/-- What a step shows: the range a locked section copies, the result of an ioctl that needs no lock,
the limit set, or the result a call returns. -/
inductive Shown
  | quiet
  | copied (pos cnt : Nat) (res : ReadResult)
  | stored (cnt : Nat) (ret : Except Errno Nat)
  | answered (cmd : Nat) (res : IoctlResult)
  | limited (val : Nat)
  | returned (f : File) (res : ReadResult)
  | ioctlReturned (f : File) (res : IoctlResult)
deriving DecidableEq

def State.goto (s : State) (t : Task) (pc : Pc) : State :=
  { s with pc := Function.update s.pc t pc }

/-- A read at a negative position does not reach the driver. -/
def step (s : State) : Event → Option (State × Shown)
  | .readEnter t f room req =>
    match s.pc t with
    | .idle =>
      if s.pos f < 2 ^ 63 then
        if s.pos f ≥ s.dev.len then some (s.goto t (.done f ⟨.ok 0, [], s.pos f⟩), .quiet)
        else some (s.goto t (.readTested f room req (s.pos f)), .quiet)
      else none
    | _ => none
  | .readClamp t =>
    match s.pc t with
    | .readTested f room req pos =>
      some (s.goto t (.readClamped f room req pos s.dev.len (tdReadClamp s.dev req pos)), .quiet)
    | _ => none
  | .readLocked t beyond =>
    match s.pc t with
    | .readClamped f room _ pos _ cnt =>
      let res := tdReadLocked s.dev beyond room cnt pos
      some (s.goto t (.done f res), .copied pos cnt res)
    | _ => none
  | .writeEnter t f u count =>
    match s.pc t with
    | .idle => some (s.goto t (.writeClamped f u (tdWriteClamp s.dev count) (s.pos f)), .quiet)
    | _ => none
  | .writeLocked t =>
    match s.pc t with
    | .writeClamped f u cnt pos =>
      let (dev, ret) := tdWriteLocked s.dev u cnt
      some ({ s with dev }.goto t (.done f ⟨ret, [], pos⟩), .stored cnt ret)
    | _ => none
  | .ioctlEnter t f cmd arg =>
    match s.pc t with
    | .idle =>
      match tdIoctlUnlocked s.dev cmd arg with
      | .inl res => some (s.goto t (.ioctlDone f res), .answered cmd res)
      | .inr val => some (s.goto t (.setChecked f val), .quiet)
    | _ => none
  | .ioctlLocked t =>
    match s.pc t with
    | .setChecked f val =>
      some ({ s with dev := tdIoctlLocked s.dev val }.goto t (.ioctlDone f ⟨.ok (), none⟩),
        .limited val)
    | _ => none
  | .ret t =>
    match s.pc t with
    | .done f res => some ({ s with pos := storePos s.pos f res }.goto t .idle, .returned f res)
    | .ioctlDone f res => some (s.goto t .idle, .ioctlReturned f res)
    | _ => none

/-- The cases of `step`. -/
inductive Move (s : State) : Event → State → Shown → Prop
  | readEnd {t f room req} (h : s.pc t = .idle) (hpos : s.pos f < 2 ^ 63)
      (hend : s.pos f ≥ s.dev.len) :
      Move s (.readEnter t f room req) (s.goto t (.done f ⟨.ok 0, [], s.pos f⟩)) .quiet
  | readEnter {t f room req} (h : s.pc t = .idle) (hpos : s.pos f < 2 ^ 63)
      (hlen : s.pos f < s.dev.len) :
      Move s (.readEnter t f room req) (s.goto t (.readTested f room req (s.pos f))) .quiet
  | readClamp {t f room req pos} (h : s.pc t = .readTested f room req pos) :
      Move s (.readClamp t)
        (s.goto t (.readClamped f room req pos s.dev.len (tdReadClamp s.dev req pos))) .quiet
  | readLocked {t f room req pos seen cnt beyond}
      (h : s.pc t = .readClamped f room req pos seen cnt) :
      Move s (.readLocked t beyond) (s.goto t (.done f (tdReadLocked s.dev beyond room cnt pos)))
        (.copied pos cnt (tdReadLocked s.dev beyond room cnt pos))
  | writeEnter {t f u count} (h : s.pc t = .idle) :
      Move s (.writeEnter t f u count)
        (s.goto t (.writeClamped f u (tdWriteClamp s.dev count) (s.pos f))) .quiet
  | writeLocked {t f u cnt pos} (h : s.pc t = .writeClamped f u cnt pos) :
      Move s (.writeLocked t)
        ({ s with dev := (tdWriteLocked s.dev u cnt).1 }.goto t
          (.done f ⟨(tdWriteLocked s.dev u cnt).2, [], pos⟩))
        (.stored cnt (tdWriteLocked s.dev u cnt).2)
  | ioctlAnswer {t f cmd arg res} (h : s.pc t = .idle)
      (hres : tdIoctlUnlocked s.dev cmd arg = .inl res) :
      Move s (.ioctlEnter t f cmd arg) (s.goto t (.ioctlDone f res)) (.answered cmd res)
  | ioctlEnter {t f cmd arg val} (h : s.pc t = .idle)
      (hval : tdIoctlUnlocked s.dev cmd arg = .inr val) :
      Move s (.ioctlEnter t f cmd arg) (s.goto t (.setChecked f val)) .quiet
  | ioctlLocked {t f val} (h : s.pc t = .setChecked f val) :
      Move s (.ioctlLocked t)
        ({ s with dev := tdIoctlLocked s.dev val }.goto t (.ioctlDone f ⟨.ok (), none⟩))
        (.limited val)
  | ret {t f res} (h : s.pc t = .done f res) :
      Move s (.ret t) ({ s with pos := storePos s.pos f res }.goto t .idle) (.returned f res)
  | ioctlRet {t f res} (h : s.pc t = .ioctlDone f res) :
      Move s (.ret t) (s.goto t .idle) (.ioctlReturned f res)

theorem step_move {s u : State} {e : Event} {o : Shown} (h : step s e = some (u, o)) :
    Move s e u o := by
  cases e with
  | readEnter t f room req =>
    simp only [step] at h
    split at h
    · next hpc =>
      split at h
      · next hpos =>
        split at h
        · next hend =>
          cases h
          exact .readEnd hpc hpos hend
        · next hlen =>
          cases h
          exact .readEnter hpc hpos (Nat.lt_of_not_ge hlen)
      · cases h
    · cases h
  | readClamp t =>
    simp only [step] at h
    split at h
    · next hpc =>
      cases h
      exact .readClamp hpc
    · cases h
  | readLocked t beyond =>
    simp only [step] at h
    split at h
    · next hpc =>
      cases h
      exact .readLocked hpc
    · cases h
  | writeEnter t f u count =>
    simp only [step] at h
    split at h
    · next hpc =>
      cases h
      exact .writeEnter hpc
    · cases h
  | writeLocked t =>
    simp only [step] at h
    split at h
    · next hpc =>
      cases h
      exact .writeLocked hpc
    · cases h
  | ioctlEnter t f cmd arg =>
    simp only [step] at h
    split at h
    · next hpc =>
      split at h
      · next hres =>
        cases h
        exact .ioctlAnswer hpc hres
      · next hval =>
        cases h
        exact .ioctlEnter hpc hval
    · cases h
  | ioctlLocked t =>
    simp only [step] at h
    split at h
    · next hpc =>
      cases h
      exact .ioctlLocked hpc
    · cases h
  | ret t =>
    simp only [step] at h
    split at h
    · next hpc =>
      cases h
      exact .ret hpc
    · next hpc =>
      cases h
      exact .ioctlRet hpc
    · cases h

@[simp] theorem goto_pc_self (s : State) (t : Task) (pc : Pc) : (s.goto t pc).pc t = pc := by
  simp [State.goto]

@[simp] theorem goto_pc_other (s : State) {t t' : Task} (pc : Pc) (h : t' ≠ t) :
    (s.goto t pc).pc t' = s.pc t' := by
  simp [State.goto, h]

@[simp] theorem goto_dev (s : State) (t : Task) (pc : Pc) : (s.goto t pc).dev = s.dev := rfl

@[simp] theorem goto_pos (s : State) (t : Task) (pc : Pc) : (s.goto t pc).pos = s.pos := rfl

end LinuxDriverLab.TwoDev
