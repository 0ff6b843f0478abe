import LinuxDriverLab.Framework.Critical
import LinuxDriverLab.Kernel.ByteCopy
import LinuxDriverLab.MiscEcho.Driver

/-!
# What the lock of misc_echo is for

Here the two calls touch `msg` and `msg_len` one access at a time, the bytes of a message one by one,
and other tasks run in between. Their lock makes each call's accesses one step: the calls return what
they return in the system of `Driver`, whose locked sections are steps.
-/

namespace LinuxDriverLab.MiscEcho

/-- What a task does outside the lock. -/
inductive Visible
  | readEnter (f : File) (room cnt : Nat)
  | writeEnter (f : File) (u : Bytes) (count : Nat)
  | ret

inductive Result
  | read (res : ReadResult)
  | write (ret : Except Errno Nat)

/-- Where a locked section stands, with the arguments and locals it still uses. -/
inductive Section
  | readTest (room cnt pos : Nat)
  | readClamp (room cnt pos : Nat)
  | readCopy (room cnt pos : Nat) (data : Bytes)
  | writeCopy (u : Bytes) (cnt k : Nat)
  | out (res : Result)

/-- The steps of the calls that do not touch the device -/
def plain : Pc → Visible → Dev → (File → Nat) → Option (Pc × (File → Nat) × Shown)
  | .idle, .readEnter f room cnt, _, pos => some (.readEntered f room cnt (pos f), pos, .quiet)
  | .idle, .writeEnter f u count, _, pos =>
    some (.writeClamped f u count (edWriteClamp count) (pos f), pos, .quiet)
  | .done f res, .ret, _, pos => some (.idle, storePos pos f res, .returned f res)
  | _, _, _, _ => none

/-- `mutex_lock` -/
def enter : Pc → Unit → Option Section
  | .readEntered _ room cnt pos, _ => some (.readTest room cnt pos)
  | .writeClamped _ u _ cnt _, _ => some (.writeCopy u cnt 0)
  | _, _ => none

/-- The next access of a locked section, or the call's result where only `mutex_unlock` is left -/
def access : Section → Dev → (Dev × Section) ⊕ Result
  | .readTest room cnt pos, d =>
    if pos ≥ d.msgLen then .inl (d, .out (.read ⟨.ok 0, [], pos⟩)) else .inl (d, .readClamp room cnt pos)
  | .readClamp room cnt pos, d =>
    if cnt > usub64 d.msgLen pos then .inl (d, .readCopy room (usub64 d.msgLen pos) pos [])
    else .inl (d, .readCopy room cnt pos [])
  | .readCopy room cnt pos data, d =>
    match copyOutNext d.msg.bytes room cnt pos data with
    | .byte b => .inl (d, .readCopy room cnt pos (data ++ [b]))
    | .finished => .inr (.read ⟨.ok cnt, data, pos + cnt⟩)
    | .fault => .inr (.read ⟨.error .efault, data, pos⟩)
  | .writeCopy u cnt k, d =>
    if k < cnt then
      .inl (⟨d.msg.store k [copyInByte u k], d.msgLen⟩, .writeCopy u cnt (k + 1))
    else if (copyFromUser u cnt).left ≠ 0 then .inr (.write (.error .efault))
    else .inl (⟨d.msg, cnt⟩, .out (.write (.ok cnt)))
  | .out res, _ => .inr res

/-- The place after `mutex_unlock` -/
def leave : Pc → Result → Pc
  | .readEntered f .., .read res => .done f res
  | .writeClamped f _ _ _ pos, .write ret => .done f ⟨ret, [], pos⟩
  | pc, _ => pc

def code : Code Dev (File → Nat) Pc Visible Shown Unit Section Result := ⟨plain, enter, access, leave⟩

/-- A locked section as a whole -/
def whole : Pc → Unit → Dev → Dev × Result
  | .readEntered _ room cnt pos, _, d => (d, .read (edRead d room cnt pos))
  | .writeClamped _ u _ cnt _, _, d => ((edWriteLocked d u cnt).1, .write (edWriteLocked d u cnt).2)
  | _, _, d => (d, .write (.ok 0))

theorem yields_readCopy (d : Dev) (room cnt pos : Nat) :
    code.Yields (.readCopy room cnt pos []) d d
      (.read (if (copyToUser (d.msg.bytes.drop pos) cnt room).left ≠ 0 then
        ⟨.error .efault, (copyToUser (d.msg.bytes.drop pos) cnt room).stored, pos⟩
      else ⟨.ok cnt, (copyToUser (d.msg.bytes.drop pos) cnt room).stored, pos + cnt⟩)) := by
  apply copyOut_induction d.msg.bytes room cnt pos
    (motive := fun data => code.Yields (.readCopy room cnt pos data) d d
      (.read (if (copyToUser (d.msg.bytes.drop pos) cnt room).left ≠ 0 then
        ⟨.error .efault, (copyToUser (d.msg.bytes.drop pos) cnt room).stored, pos⟩
      else ⟨.ok cnt, (copyToUser (d.msg.bytes.drop pos) cnt room).stored, pos + cnt⟩)))
  · intro data b hb ih
    have hstep : access (.readCopy room cnt pos data) d =
        .inl (d, .readCopy room cnt pos (data ++ [b])) := by
      simp only [access, hb]
    exact .access hstep ih
  · intro data hnext hdata hleft
    refine .done ?_
    rw [if_neg (not_not.mpr hleft), ← hdata]
    simp only [code, access, hnext]
  · intro data hnext hdata hleft
    refine .done ?_
    rw [if_pos hleft, ← hdata]
    simp only [code, access, hnext]

theorem yields_read (d : Dev) (room cnt pos : Nat) :
    code.Yields (.readTest room cnt pos) d d (.read (edRead d room cnt pos)) := by
  by_cases hend : pos ≥ d.msgLen
  · have htest : access (.readTest room cnt pos) d = .inl (d, .out (.read ⟨.ok 0, [], pos⟩)) := by
      simp only [access, if_pos hend]
    rw [edRead, if_pos hend]
    exact .access htest (.done rfl)
  · have htest : access (.readTest room cnt pos) d = .inl (d, .readClamp room cnt pos) := by
      simp only [access, if_neg hend]
    have hclamp : access (.readClamp room cnt pos) d = .inl (d, .readCopy room
        (if cnt > usub64 d.msgLen pos then usub64 d.msgLen pos else cnt) pos []) := by
      simp only [access]
      split <;> rfl
    have hcopy := yields_readCopy d room
      (if cnt > usub64 d.msgLen pos then usub64 d.msgLen pos else cnt) pos
    rw [edRead, if_neg hend]
    exact .access htest (.access hclamp hcopy)

theorem yields_write (d : Dev) (u : Bytes) (cnt : Nat) :
    code.Yields (.writeCopy u cnt 0) d (edWriteLocked d u cnt).1
      (.write (edWriteLocked d u cnt).2) := by
  obtain ⟨msg, len⟩ := d
  apply copyIn_induction msg u cnt (motive := fun k c => code.Yields (.writeCopy u cnt k) ⟨c, len⟩
    (edWriteLocked ⟨msg, len⟩ u cnt).1 (.write (edWriteLocked ⟨msg, len⟩ u cnt).2))
  · intro k c hk ih
    refine .access ?_ ih
    simp only [code, access, if_pos hk]
  · by_cases hleft : (copyFromUser u cnt).left ≠ 0
    · simp only [edWriteLocked, if_pos hleft]
      refine .done ?_
      simp only [code, access, Nat.lt_irrefl, if_false, if_pos hleft]
    · have hlen : access (.writeCopy u cnt cnt) ⟨msg.store 0 (copyFromUser u cnt).stored, len⟩ =
          .inl (⟨msg.store 0 (copyFromUser u cnt).stored, cnt⟩, .out (.write (.ok cnt))) := by
        simp only [access, Nat.lt_irrefl, if_false, if_neg hleft]
      simp only [edWriteLocked, if_neg hleft]
      exact .access hlen (.done rfl)

/-- The sections of misc_echo are atomic: no step outside the lock looks at the device. -/
def atomic : code.Atomic Unit where
  whole := whole
  view := fun _ => ()
  yields := by
    intro p a k h d
    cases p with
    | readEntered f room cnt pos =>
      cases h
      exact yields_read d room cnt pos
    | writeClamped f u count cnt pos =>
      cases h
      exact yields_write d u cnt
    | idle => cases h
    | done f res => cases h
  plain_view := by
    intro d d' _ p e g
    cases p <;> cases e <;> rfl
  access_view := fun _ => .inl rfl

/-- The calls and returns of a run of `step`, as the tasks see them. -/
def seen (r : Record State Event Shown) : Option (Task × Visible × Shown) :=
  match r.event with
  | .readEnter t f room cnt => some (t, .readEnter f room cnt, r.out)
  | .writeEnter t f u count => some (t, .writeEnter f u count, r.out)
  | .ret t => some (t, .ret, r.out)
  | .readLocked _ => none
  | .writeLocked _ => none

/-- The states of the two systems whose sections are single steps are the same states. -/
def State.coarse (s : State) : Code.Coarse Dev (File → Nat) Pc Task := ⟨s.dev, s.pos, s.pc⟩

theorem coarseStep_of_step {s u : State} {e : Event} {o : Shown} (h : step s e = some (u, o)) :
    ∃ e', code.coarseStep atomic s.coarse e' = some (u.coarse, seen ⟨s, e, o⟩) := by
  cases step_move h with
  | @readEnter t f room cnt hpc =>
    refine ⟨.plain t (.readEnter f room cnt), ?_⟩
    simp only [Code.coarseStep, State.coarse, code, plain, hpc, seen, State.goto]
  | @readLocked t f room cnt pos hpc =>
    refine ⟨.locked t (), ?_⟩
    simp only [Code.coarseStep, State.coarse, code, enter, hpc, seen, State.goto, atomic, whole,
      leave]
  | @writeEnter t f u count hpc =>
    refine ⟨.plain t (.writeEnter f u count), ?_⟩
    simp only [Code.coarseStep, State.coarse, code, plain, hpc, seen, State.goto]
  | @writeLocked t f u count cnt pos hpc =>
    refine ⟨.locked t (), ?_⟩
    simp only [Code.coarseStep, State.coarse, code, enter, hpc, seen, State.goto, atomic, whole,
      leave]
  | @ret t f res hpc =>
    refine ⟨.plain t .ret, ?_⟩
    simp only [Code.coarseStep, State.coarse, code, plain, hpc, seen, State.goto]

theorem step_of_coarseStep {s : State} {v : Code.Coarse Dev (File → Nat) Pc Task}
    {e : Code.Coarse.Event Visible Unit Task} {o : Option (Task × Visible × Shown)}
    (h : code.coarseStep atomic s.coarse e = some (v, o)) :
    ∃ e' u o', step s e' = some (u, o') ∧ v = u.coarse ∧ seen ⟨s, e', o'⟩ = o := by
  cases e with
  | plain t e =>
    simp only [Code.coarseStep, State.coarse, code] at h
    cases hpc : s.pc t <;> cases e <;> simp only [hpc, plain] at h <;> cases h
    · next f room cnt => exact ⟨.readEnter t f room cnt, _, _, by simp only [step, hpc]; rfl, rfl, rfl⟩
    · next f u count => exact ⟨.writeEnter t f u count, _, _, by simp only [step, hpc]; rfl, rfl, rfl⟩
    · exact ⟨.ret t, _, _, by simp only [step, hpc]; rfl, rfl, rfl⟩
  | locked t a =>
    simp only [Code.coarseStep, State.coarse, code] at h
    cases hpc : s.pc t <;> simp only [hpc, enter] at h <;> cases h
    · exact ⟨.readLocked t, _, _, by simp only [step, hpc]; rfl, rfl, rfl⟩
    · exact ⟨.writeLocked t, _, _, by simp only [step, hpc]; rfl, rfl, rfl⟩

abbrev LockedState := Code.Fine Dev (File → Nat) Pc Section Task

def LockedState.init (pos : File → Nat) : LockedState := ⟨Dev.init, pos, fun _ => .idle, none⟩

/-- Whatever the tasks do between the single accesses of a call, the calls of misc_echo return what
they return when each locked section is one step, and a task that holds the lock can always go on to
release it. -/
theorem edCalls_locked_atomic (pos : File → Nat) :
    (∀ h : List (Task × Visible × Shown),
      (∃ tr s, Run code.fineStep (LockedState.init pos) tr s ∧ Code.history tr = h) ↔
        ∃ tr s, Run step (State.init pos) tr s ∧ tr.filterMap seen = h) ∧
      ∀ tr s, Run code.fineStep (LockedState.init pos) tr s →
        ∃ tr' t, Run code.fineStep s tr' t ∧ Code.history tr' = [] ∧ t.lock = none := by
  refine ⟨fun h => ?_, fun tr s hrun => Code.can_unlock atomic hrun⟩
  exact Code.histories_iff_of atomic State.coarse seen (fun _ _ _ _ => coarseStep_of_step)
    (fun _ _ _ _ => step_of_coarseStep) (State.init pos) h

end LinuxDriverLab.MiscEcho
