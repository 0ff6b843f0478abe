import LinuxDriverLab.Framework.Run
import LinuxDriverLab.TwoDev.Memory

/-!
# The instances of twodev do not see each other

Calls on files of any minors in any order: what the files of one minor get, and what its instance
holds in the end, is what they get when all other calls are left out.
-/

namespace LinuxDriverLab.TwoDev

/-- A `struct file`, with the minor of the inode it was opened on. -/
structure OpenFile where
  minor : Nat
  privateData : Nat
  pos : Nat

/-- Memory, `inode->i_cdev` of every minor, and the open files. -/
structure Machine where
  mem : Memory
  iCdev : Nat → Option Nat
  files : File → Option OpenFile

/-- A call on an open file. -/
inductive Op
  | read (room cnt : Nat)
  | write (u : Bytes) (cnt : Nat)
  | ioctl (cmd : Nat) (arg : UserInt)
  | release

inductive Call
  | openFile (f : File) (minor : Nat)
  | onFile (f : File) (op : Op)

inductive Answer
  | opened
  | read (res : ReadResult)
  | wrote (ret : Except Errno Nat)
  | ioctl (res : IoctlResult)
  | released

/-! ## Loading and calling -/

/-- What the loop of `td_init` does to the memory of one instance. -/
def initInstance (l : Layout) (mem : Memory) (i : Nat) : Memory :=
  let mem := storeBytes mem (l.inst i) (Buf.zero bufMax).bytes
  let mem := storeSize mem (l.inst i + lenOff) 0
  storeSize mem (l.inst i + bufszOff) bufMax

/-- The loop of `td_init`: each instance is set up and its `cdev` added for its minor. -/
def initLoop (l : Layout) (mem : Memory) : Nat → Memory × (Nat → Option Nat)
  | 0 => (mem, fun _ => none)
  | i + 1 =>
    (initInstance l (initLoop l mem i).1 i,
      Function.update (initLoop l mem i).2 i (some (l.cdev i)))

def Machine.load (l : Layout) (mem : Memory) : Machine :=
  ⟨(initLoop l mem l.count).1, (initLoop l mem l.count).2, fun _ => none⟩

/-- A call on a file: memory, what becomes of the file, and the answer. -/
def fileCall (mem : Memory) (o : OpenFile) : Op → Memory × Option OpenFile × Answer
  | .read room cnt =>
    let res := tdReadAt mem o.privateData room cnt o.pos
    (mem, some { o with pos := storePos (fun _ => o.pos) 0 res 0 }, .read res)
  | .write u cnt =>
    let (mem, ret) := tdWriteAt mem o.privateData u cnt
    (mem, some o, .wrote ret)
  | .ioctl cmd arg =>
    let (mem, res) := tdIoctlAt mem o.privateData cmd arg
    (mem, some o, .ioctl res)
  | .release => (mem, none, .released)

/-- A minor without a `cdev` cannot be opened, and a file that is not open not be used. -/
def callStep (l : Layout) (s : Machine) : Call → Option (Machine × Answer)
  | .openFile f minor =>
    match s.files f, s.iCdev minor with
    | none, some cdev =>
      some ({ s with files := Function.update s.files f (some ⟨minor, l.containerOf cdev, 0⟩) },
        .opened)
    | _, _ => none
  | .onFile f op =>
    match s.files f with
    | some o =>
      let (mem, o', answer) := fileCall s.mem o op
      some ({ s with mem, files := Function.update s.files f o' }, answer)
    | none => none

/-- The cases of `callStep`. -/
inductive CallMove (l : Layout) (s : Machine) : Call → Machine → Answer → Prop
  | openFile {f minor cdev : Nat} : s.files f = none → s.iCdev minor = some cdev →
      CallMove l s (.openFile f minor)
        { s with files := Function.update s.files f (some ⟨minor, l.containerOf cdev, 0⟩) } .opened
  | onFile {f : File} {op : Op} {o : OpenFile} : s.files f = some o →
      CallMove l s (.onFile f op)
        { s with
          mem := (fileCall s.mem o op).1
          files := Function.update s.files f (fileCall s.mem o op).2.1 }
        (fileCall s.mem o op).2.2

theorem callStep_move {l : Layout} {s t : Machine} {c : Call} {a : Answer}
    (h : callStep l s c = some (t, a)) : CallMove l s c t a := by
  cases c with
  | openFile f minor =>
    simp only [callStep] at h
    split at h
    · next hfile hcdev =>
      cases h
      exact .openFile hfile hcdev
    · cases h
  | onFile f op =>
    simp only [callStep] at h
    split at h
    · next o ho =>
      cases h
      exact .onFile ho
    · cases h

/-! ## Every file refers to the instance of its minor -/

structure Sound (l : Layout) (s : Machine) : Prop where
  cdevs : ∀ minor cdev, s.iCdev minor = some cdev → minor < l.count ∧ cdev = l.cdev minor
  valid : ∀ i < l.count, Valid (instAt s.mem (l.inst i))
  files : ∀ f o, s.files f = some o → o.minor < l.count ∧ o.privateData = l.inst o.minor

theorem instAt_congr {mem mem' : Memory} {p : Nat}
    (h : ∀ x, p ≤ x → x < p + bufszOff + 8 → mem x = mem' x) : instAt mem p = instAt mem' p := by
  unfold bufszOff at h
  apply eq_of_fields
  · exact loadBytes_congr _ _ fun x hlo hhi => h x hlo (by unfold bufMax at hhi; omega)
  · exact congrArg leNat (loadBytes_congr _ _ fun x hlo hhi => by
      unfold lenOff at hlo hhi
      exact h x (by omega) (by omega))
  · exact congrArg leNat (loadBytes_congr _ _ fun x hlo hhi => by
      unfold bufszOff at hlo hhi
      exact h x (by omega) (by omega))

theorem Layout.outside (l : Layout) {i j x : Nat} (h : i ≠ j) (hlo : l.inst j ≤ x)
    (hhi : x < l.inst j + l.size) : x < l.inst i ∨ l.inst i + bufszOff + 8 ≤ x := by
  have hge := l.cdevOff_ge
  have hlt := l.cdevOff_lt
  rcases Nat.lt_or_gt_of_ne h with hij | hij
  · have := l.inst_add_size_le hij
    omega
  · have := l.inst_add_size_le hij
    omega

theorem Layout.members_lt (l : Layout) : bufszOff + 8 < l.size :=
  Nat.lt_of_le_of_lt l.cdevOff_ge l.cdevOff_lt

theorem Layout.inside (l : Layout) {i x : Nat} (h : x < l.inst i + bufszOff + 8) :
    x < l.inst i + l.size := by
  have := l.members_lt
  omega

section

variable {l : Layout} {mem : Memory} {o : OpenFile} {i : Nat}

theorem fileCall_outside (ho : o.privateData = l.inst i) (hv : Valid (instAt mem (l.inst i))) (op : Op)
    {x : Nat} (hx : x < l.inst i ∨ l.inst i + bufszOff + 8 ≤ x) : (fileCall mem o op).1 x = mem x := by
  cases op with
  | read => rfl
  | write u cnt =>
    simp only [fileCall, ho]
    exact tdWriteAt_outside hv u cnt hx
  | ioctl cmd arg =>
    simp only [fileCall, ho]
    exact tdIoctlAt_outside mem _ cmd arg hx
  | release => rfl

theorem fileCall_valid (ho : o.privateData = l.inst i) (hv : Valid (instAt mem (l.inst i))) (op : Op) :
    Valid (instAt (fileCall mem o op).1 (l.inst i)) := by
  cases op with
  | read => exact hv
  | write u cnt =>
    simp only [fileCall, ho, (tdWriteAt_eq hv u cnt).2]
    exact tdWrite_valid hv u cnt
  | ioctl cmd arg =>
    simp only [fileCall, ho, (tdIoctlAt_eq mem (l.inst i) cmd arg).2]
    exact tdIoctl_valid hv cmd arg
  | release => exact hv

theorem fileCall_file {op : Op} {o' : OpenFile} (h : (fileCall mem o op).2.1 = some o') :
    o'.minor = o.minor ∧ o'.privateData = o.privateData := by
  cases op with
  | release => simp [fileCall] at h
  | _ =>
    obtain rfl := Option.some.inj h
    exact ⟨rfl, rfl⟩

end

theorem fileCall_inst_ne {l : Layout} {mem : Memory} {o : OpenFile} {i j x : Nat}
    (ho : o.privateData = l.inst i) (hv : Valid (instAt mem (l.inst i))) (op : Op) (hne : i ≠ j)
    (hlo : l.inst j ≤ x) (hhi : x < l.inst j + l.size) : (fileCall mem o op).1 x = mem x :=
  fileCall_outside ho hv op (l.outside hne hlo hhi)

theorem Sound.step {l : Layout} {s t : Machine} {c : Call} {a : Answer} (h : Sound l s)
    (hs : callStep l s c = some (t, a)) : Sound l t := by
  cases callStep_move hs with
  | @openFile f minor cdev hfile hcdev =>
    obtain ⟨hminor, rfl⟩ := h.cdevs _ _ hcdev
    refine ⟨h.cdevs, h.valid, ?_⟩
    intro g o hg
    simp only [Function.update_apply] at hg
    split at hg
    · cases hg
      exact ⟨hminor, l.containerOf_cdev hminor⟩
    · exact h.files g o hg
  | @onFile f op o ho =>
    obtain ⟨hminor, hpriv⟩ := h.files f o ho
    have hv := h.valid _ hminor
    refine ⟨h.cdevs, ?_, ?_⟩
    · intro i hi
      by_cases hio : o.minor = i
      · subst hio
        exact fileCall_valid hpriv hv op
      · have hinst : instAt (fileCall s.mem o op).1 (l.inst i) = instAt s.mem (l.inst i) := by
          apply instAt_congr
          intro x hlo hhi
          exact fileCall_inst_ne hpriv hv op hio hlo (l.inside hhi)
        simp only [hinst]
        exact h.valid i hi
    · intro g o' hg
      simp only [Function.update_apply] at hg
      split at hg
      · obtain ⟨hm, hp⟩ := fileCall_file hg
        rw [hm, hp]
        exact ⟨hminor, hpriv⟩
      · exact h.files g o' hg

/-! ## What loading sets up -/

section

variable (l : Layout) (mem : Memory)

theorem initInstance_outside (i : Nat) {x : Nat} (hx : x < l.inst i ∨ l.inst i + bufszOff + 8 ≤ x) :
    initInstance l mem i x = mem x := by
  unfold bufszOff at hx
  have hbuf : storeBytes mem (l.inst i) (Buf.zero bufMax).bytes x = mem x := by
    apply storeBytes_outside
    rw [Buf.length_eq, bufMax]
    omega
  rw [← hbuf]
  simp only [initInstance, storeSize]
  rw [storeBytes_outside, storeBytes_outside]
  · rw [leBytes_length, lenOff]
    omega
  · rw [leBytes_length, bufszOff]
    omega

theorem initInstance_eq (i : Nat) : instAt (initInstance l mem i) (l.inst i) = Twodev.init := by
  simp only [initInstance]
  rw [instAt_storeBufsz _ _ (by decide), instAt_storeLen _ _ (by decide)]
  apply eq_of_fields
  · have hload := loadBytes_store mem (l.inst i) (Buf.zero bufMax).bytes
    rwa [Buf.length_eq] at hload
  · rfl
  · rfl

theorem initLoop_cdev (n minor : Nat) :
    (initLoop l mem n).2 minor = if minor < n then some (l.cdev minor) else none := by
  induction n with
  | zero => rfl
  | succ n ih =>
    simp only [initLoop, Function.update_apply, ih]
    by_cases hn : minor = n
    · subst hn
      simp
    · have hlt : minor < n + 1 ↔ minor < n := by omega
      simp [hn, hlt]

theorem initLoop_inst (n : Nat) : ∀ i < n, instAt (initLoop l mem n).1 (l.inst i) = Twodev.init := by
  induction n with
  | zero => simp
  | succ n ih =>
    intro i hi
    by_cases hn : n = i
    · subst hn
      exact initInstance_eq l _ _
    · rw [← ih i (by omega)]
      apply instAt_congr
      intro x hlo hhi
      exact initInstance_outside l _ n (l.outside hn hlo (l.inside hhi))

theorem twodev_init_valid : Valid Twodev.init := by
  constructor <;> simp [Twodev.init, bufMax]

theorem sound_load : Sound l (Machine.load l mem) := by
  constructor
  · intro minor cdev h
    simp only [Machine.load, initLoop_cdev] at h
    split at h
    · next hlt =>
      cases h
      exact ⟨hlt, rfl⟩
    · cases h
  · intro i hi
    simp only [Machine.load, initLoop_inst l mem l.count i hi]
    exact twodev_init_valid
  · intro f o h
    cases h

end

/-! ## The run without the other minors -/

/-- The step is a call on a file of the minor, or opens one. -/
def ofMinor (m : Nat) (r : Record Machine Call Answer) : Bool :=
  match r.event with
  | .openFile _ minor => minor = m
  | .onFile f _ => (r.pre.files f).any fun o => o.minor = m

/-- `t` is `s` as far as the minor goes: it has the instance and the files of that minor. -/
structure Sees (l : Layout) (m : Nat) (s t : Machine) : Prop where
  sound : Sound l s
  iCdev : t.iCdev = s.iCdev
  mem : ∀ x, l.inst m ≤ x → x < l.inst m + l.size → s.mem x = t.mem x
  files : ∀ f, t.files f = (s.files f).filter fun o => o.minor = m

theorem Sees.inst {l : Layout} {m : Nat} {s t : Machine} (h : Sees l m s t) :
    instAt s.mem (l.inst m) = instAt t.mem (l.inst m) := by
  apply instAt_congr
  intro x hlo hhi
  exact h.mem x hlo (l.inside hhi)

theorem sees_load (l : Layout) (mem : Memory) (m : Nat) :
    Sees l m (Machine.load l mem) (Machine.load l mem) :=
  ⟨sound_load l mem, rfl, fun _ _ _ => rfl, fun _ => rfl⟩

/-- A call answers from the instance of its file, and stores in the same places. -/
theorem fileCall_congr {mem mem' : Memory} {o : OpenFile} (hv : Valid (instAt mem o.privateData))
    (h : instAt mem o.privateData = instAt mem' o.privateData) (op : Op) :
    (fileCall mem o op).2 = (fileCall mem' o op).2 ∧
      ∀ x, mem x = mem' x → (fileCall mem o op).1 x = (fileCall mem' o op).1 x := by
  cases op with
  | read room cnt =>
    have hv' : Valid (instAt mem' o.privateData) := h ▸ hv
    simp only [fileCall, tdReadAt_eq hv, tdReadAt_eq hv', h, true_and]
    exact fun x hx => hx
  | write u cnt =>
    have hv' : Valid (instAt mem' o.privateData) := h ▸ hv
    simp only [fileCall, (tdWriteAt_eq hv u cnt).1, (tdWriteAt_eq hv' u cnt).1, h, true_and]
    exact fun x hx => tdWriteAt_congr h u cnt hx
  | ioctl cmd arg =>
    simp only [fileCall, (tdIoctlAt_eq mem _ cmd arg).1, (tdIoctlAt_eq mem' _ cmd arg).1, h, true_and]
    exact fun x hx => tdIoctlAt_congr h cmd arg hx
  | release => exact ⟨rfl, fun x hx => hx⟩

theorem filter_update (files : File → Option OpenFile) (p : OpenFile → Bool) (f g : File)
    (o : Option OpenFile) :
    (Function.update files f o g).filter p = if g = f then o.filter p else (files g).filter p := by
  rw [Function.update_apply]
  split <;> rfl

theorem Sees.mine {l : Layout} {m : Nat} {s t u : Machine} {c : Call} {a : Answer}
    (h : Sees l m s t) (hs : callStep l s c = some (u, a)) (hmine : ofMinor m ⟨s, c, a⟩ = true) :
    ∃ v, callStep l t c = some (v, a) ∧ Sees l m u v := by
  have hsound := h.sound.step hs
  cases callStep_move hs with
  | @openFile f minor cdev hfile hcdev =>
    have hm : minor = m := by simpa [ofMinor] using hmine
    subst hm
    have hfile' : t.files f = none := by rw [h.files, hfile, Option.filter_none]
    have hcdev' : t.iCdev minor = some cdev := by rw [h.iCdev, hcdev]
    refine ⟨{ t with files := Function.update t.files f (some ⟨minor, l.containerOf cdev, 0⟩) },
      by simp only [callStep, hfile', hcdev'], hsound, h.iCdev, h.mem, ?_⟩
    intro g
    have hnew : (some (⟨minor, l.containerOf cdev, 0⟩ : OpenFile)).filter (fun o => o.minor = minor) =
        some ⟨minor, l.containerOf cdev, 0⟩ := by simp
    rw [filter_update, ← h.files g, hnew]
    exact Function.update_apply _ _ _ _
  | @onFile f op o ho =>
    have hm : o.minor = m := by simpa [ofMinor, ho] using hmine
    subst hm
    obtain ⟨hminor, hpriv⟩ := h.sound.files f o ho
    have ho' : t.files f = some o := by rw [h.files, ho, Option.filter_some, if_pos (by simp)]
    have hinst : instAt s.mem o.privateData = instAt t.mem o.privateData := by
      rw [hpriv]
      exact h.inst
    have hv : Valid (instAt s.mem o.privateData) := by
      rw [hpriv]
      exact h.sound.valid _ hminor
    obtain ⟨hans, hmem⟩ := fileCall_congr hv hinst op
    refine ⟨{ t with
        mem := (fileCall t.mem o op).1
        files := Function.update t.files f (fileCall t.mem o op).2.1 },
      by simp only [callStep, ho', hans], hsound, h.iCdev, ?_, ?_⟩
    · intro x hlo hhi
      exact hmem x (h.mem x hlo hhi)
    · intro g
      -- what becomes of the file is a file of the same minor
      have hfile : (fileCall t.mem o op).2.1.filter (fun o' => o'.minor = o.minor) =
          (fileCall t.mem o op).2.1 := by
        cases hfile : (fileCall t.mem o op).2.1 with
        | none => rfl
        | some o' => simp [(fileCall_file hfile).1]
      rw [filter_update, ← h.files g, hans, hfile]
      exact Function.update_apply _ _ _ _

theorem Sees.other {l : Layout} {m : Nat} {s t u : Machine} {c : Call} {a : Answer}
    (h : Sees l m s t) (hs : callStep l s c = some (u, a)) (hother : ofMinor m ⟨s, c, a⟩ = false) :
    Sees l m u t := by
  have hsound := h.sound.step hs
  cases callStep_move hs with
  | @openFile f minor cdev hfile hcdev =>
    have hm : minor ≠ m := by simpa [ofMinor] using hother
    refine ⟨hsound, h.iCdev, h.mem, ?_⟩
    intro g
    have hnew : (some (⟨minor, l.containerOf cdev, 0⟩ : OpenFile)).filter (fun o => o.minor = m) =
        none := by simp [hm]
    rw [filter_update, hnew]
    split
    · next hg => rw [hg, h.files, hfile, Option.filter_none]
    · exact h.files g
  | @onFile f op o ho =>
    have hm : o.minor ≠ m := by simpa [ofMinor, ho] using hother
    obtain ⟨hminor, hpriv⟩ := h.sound.files f o ho
    have hv := h.sound.valid _ hminor
    refine ⟨hsound, h.iCdev, ?_, ?_⟩
    · intro x hlo hhi
      exact (fileCall_inst_ne hpriv hv op hm hlo hhi).trans (h.mem x hlo hhi)
    · intro g
      have hfile : (fileCall s.mem o op).2.1.filter (fun o' => o'.minor = m) = none := by
        cases hfile : (fileCall s.mem o op).2.1 with
        | none => rfl
        | some o' => simp [(fileCall_file hfile).1, hm]
      rw [filter_update, hfile]
      split
      · next hg => rw [hg, h.files, ho, Option.filter_some, if_neg (by simpa using hm)]
      · exact h.files g

/-- Whatever is called on files of any minors, the calls on the files of one minor give what they
give when only they are made, and its instance ends up with the same bytes. -/
theorem minors_isolated (l : Layout) (mem : Memory) (m : Nat) (tr : List (Record Machine Call Answer))
    (s : Machine) (h : Run (callStep l) (Machine.load l mem) tr s) :
    ∃ tr' t, Run (callStep l) (Machine.load l mem) tr' t ∧
      tr'.map Record.event = (tr.filter (ofMinor m)).map Record.event ∧
      tr'.map Record.out = (tr.filter (ofMinor m)).map Record.out ∧
      instAt t.mem (l.inst m) = instAt s.mem (l.inst m) ∧
      ∀ x, l.inst m ≤ x → x < l.inst m + l.size → t.mem x = s.mem x := by
  obtain ⟨tr', t, hrun, hevents, houts, hsees⟩ := h.unwinding (ofMinor m) (sees_load l mem m)
    (fun _ _ _ _ _ hR hs hmine => hR.mine hs hmine)
    (fun _ _ _ _ _ hR hs hother => hR.other hs hother)
  exact ⟨tr', t, hrun, hevents, houts, hsees.inst.symm, fun x hlo hhi => (hsees.mem x hlo hhi).symm⟩

def twoInstances : Layout :=
  ⟨4096, 512, 400, 2, by decide, by decide, by decide⟩

theorem minors_isolated_two : ∃ tr s,
    Run (callStep twoInstances) (Machine.load twoInstances fun _ => 0) tr s ∧
    tr.map Record.event = [.openFile 0 0, .openFile 1 1, .onFile 0 (.write [104, 105] 2),
      .onFile 1 (.write [121, 111] 2), .onFile 1 .release, .openFile 1 0, .onFile 1 (.read 8 8)] ∧
    (tr.filter (ofMinor 0)).length = 4 ∧
    ∃ tr' t, Run (callStep twoInstances) (Machine.load twoInstances fun _ => 0) tr' t ∧
      tr'.map Record.event = (tr.filter (ofMinor 0)).map Record.event ∧
      tr'.map Record.out = (tr.filter (ofMinor 0)).map Record.out ∧
      instAt t.mem (twoInstances.inst 0) = instAt s.mem (twoInstances.inst 0) ∧
      ∀ x, twoInstances.inst 0 ≤ x → x < twoInstances.inst 0 + twoInstances.size →
        t.mem x = s.mem x := by
  obtain ⟨tr, s, hrun, hev, hq⟩ := exists_exec (callStep twoInstances)
    (Machine.load twoInstances fun _ => 0)
    [.openFile 0 0, .openFile 1 1, .onFile 0 (.write [104, 105] 2),
      .onFile 1 (.write [121, 111] 2), .onFile 1 .release, .openFile 1 0, .onFile 1 (.read 8 8)]
    (fun x => (x.1.filter (ofMinor 0)).length == 4) (by decide +kernel)
  exact ⟨tr, s, hrun, hev, by simpa using hq, minors_isolated _ _ 0 tr s hrun⟩

end LinuxDriverLab.TwoDev
