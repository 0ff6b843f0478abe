import LinuxDriverLab.Framework.Critical
import LinuxDriverLab.Kernel.ByteCopy
import LinuxDriverLab.TwoDev.Driver

/-!
# What the lock of twodev is for

The file operations of one instance, their locked sections made one access at a time. The unlocked
looks at `len` and `bufsz` may fall between any two of these accesses; they find what was there
before the section or what is there after it, since a section stores such a field last.
-/

namespace LinuxDriverLab.TwoDev

/-- What a task does outside the lock. -/
inductive Visible
  | readEnter (f : File) (room req : Nat)
  | readClamp
  | writeEnter (f : File) (u : Bytes) (count : Nat)
  | ioctlEnter (f : File) (cmd : Nat) (arg : UserInt)
  | ret

inductive Result
  | read (res : ReadResult)
  | write (ret : Except Errno Nat)
  | set

/-- Where a locked section stands; `beyond` is the memory that follows the buffer. -/
inductive Section
  | readCopy (beyond : Bytes) (room cnt pos : Nat) (data : Bytes)
  | writeCopy (u : Bytes) (cnt k : Nat)
  | setBufsz (val : Nat)
  | out (res : Result)

/-- The steps of the calls outside the lock -/
def plain : Pc → Visible → Twodev → (File → Nat) → Option (Pc × (File → Nat) × Shown)
  | .idle, .readEnter f room req, d, pos =>
    if pos f < 2 ^ 63 then
      if pos f ≥ d.len then some (.done f ⟨.ok 0, [], pos f⟩, pos, .quiet)
      else some (.readTested f room req (pos f), pos, .quiet)
    else none
  | .readTested f room req p, .readClamp, d, pos =>
    some (.readClamped f room req p d.len (tdReadClamp d req p), pos, .quiet)
  | .idle, .writeEnter f u count, d, pos =>
    some (.writeClamped f u (tdWriteClamp d count) (pos f), pos, .quiet)
  | .idle, .ioctlEnter f cmd arg, d, pos =>
    match tdIoctlUnlocked d cmd arg with
    | .inl res => some (.ioctlDone f res, pos, .answered cmd res)
    | .inr val => some (.setChecked f val, pos, .quiet)
  | .done f res, .ret, _, pos => some (.idle, storePos pos f res, .returned f res)
  | .ioctlDone f res, .ret, _, pos => some (.idle, pos, .ioctlReturned f res)
  | _, _, _, _ => none

/-- `mutex_lock` -/
def enter : Pc → Bytes → Option Section
  | .readClamped _ room _ pos _ cnt, beyond => some (.readCopy beyond room cnt pos [])
  | .writeClamped _ u cnt _, _ => some (.writeCopy u cnt 0)
  | .setChecked _ val, _ => some (.setBufsz val)
  | _, _ => none

/-- The next access of a locked section, or its result where only `mutex_unlock` is left -/
def access : Section → Twodev → (Twodev × Section) ⊕ Result
  | .readCopy beyond room cnt pos data, d =>
    match copyOutNext (d.buf.bytes ++ beyond) room cnt pos data with
    | .byte b => .inl (d, .readCopy beyond room cnt pos (data ++ [b]))
    | .finished => .inr (.read ⟨.ok cnt, data, (pos + cnt) % 2 ^ 64⟩)
    | .fault => .inr (.read ⟨.error .efault, data, pos⟩)
  | .writeCopy u cnt k, d =>
    if k < cnt then
      .inl ({ d with buf := d.buf.store k [copyInByte u k] }, .writeCopy u cnt (k + 1))
    else if (copyFromUser u cnt).left ≠ 0 then .inr (.write (.error .efault))
    else .inl ({ d with len := cnt }, .out (.write (.ok cnt)))
  | .setBufsz val, d => .inl ({ d with bufsz := val }, .out .set)
  | .out res, _ => .inr res

/-- The place after `mutex_unlock` -/
def leave : Pc → Result → Pc
  | .readClamped f .., .read res => .done f res
  | .writeClamped f _ _ pos, .write ret => .done f ⟨ret, [], pos⟩
  | .setChecked f _, .set => .ioctlDone f ⟨.ok (), none⟩
  | pc, _ => pc

def code : Code Twodev (File → Nat) Pc Visible Shown Bytes Section Result :=
  ⟨plain, enter, access, leave⟩

/-- A locked section as a whole -/
def whole : Pc → Bytes → Twodev → Twodev × Result
  | .readClamped _ room _ pos _ cnt, beyond, d => (d, .read (tdReadLocked d beyond room cnt pos))
  | .writeClamped _ u cnt _, _, d => ((tdWriteLocked d u cnt).1, .write (tdWriteLocked d u cnt).2)
  | .setChecked _ val, _, d => (tdIoctlLocked d val, .set)
  | _, _, d => (d, .set)

theorem yields_read (d : Twodev) (beyond : Bytes) (room cnt pos : Nat) :
    code.Yields (.readCopy beyond room cnt pos []) d d
      (.read (tdReadLocked d beyond room cnt pos)) := by
  apply copyOut_induction (d.buf.bytes ++ beyond) room cnt pos
    (motive := fun data => code.Yields (.readCopy beyond room cnt pos data) d d
      (.read (tdReadLocked d beyond room cnt pos)))
  · intro data b hb ih
    have hstep : access (.readCopy beyond room cnt pos data) d =
        .inl (d, .readCopy beyond room cnt pos (data ++ [b])) := by
      simp only [access, hb]
    exact .access hstep ih
  · intro data hnext hdata hleft
    refine .done ?_
    simp only [tdReadLocked, if_neg (not_not.mpr hleft), ← hdata]
    simp only [code, access, hnext]
  · intro data hnext hdata hleft
    refine .done ?_
    simp only [tdReadLocked, if_pos hleft, ← hdata]
    simp only [code, access, hnext]

theorem yields_write (d : Twodev) (u : Bytes) (cnt : Nat) :
    code.Yields (.writeCopy u cnt 0) d (tdWriteLocked d u cnt).1
      (.write (tdWriteLocked d u cnt).2) := by
  obtain ⟨buf, len, bufsz⟩ := d
  apply copyIn_induction buf u cnt (motive := fun k c =>
    code.Yields (.writeCopy u cnt k) ⟨c, len, bufsz⟩ (tdWriteLocked ⟨buf, len, bufsz⟩ u cnt).1
      (.write (tdWriteLocked ⟨buf, len, bufsz⟩ u cnt).2))
  · intro k c hk ih
    have hstep : access (.writeCopy u cnt k) ⟨c, len, bufsz⟩ =
        .inl (⟨c.store k [copyInByte u k], len, bufsz⟩, .writeCopy u cnt (k + 1)) := by
      simp only [access, if_pos hk]
    exact .access hstep ih
  · by_cases hleft : (copyFromUser u cnt).left ≠ 0
    · simp only [tdWriteLocked, if_pos hleft]
      refine .done ?_
      simp only [code, access, Nat.lt_irrefl, if_false, if_pos hleft]
    · have hlen : access (.writeCopy u cnt cnt)
          ⟨buf.store 0 (copyFromUser u cnt).stored, len, bufsz⟩ =
          .inl (⟨buf.store 0 (copyFromUser u cnt).stored, cnt, bufsz⟩,
            .out (.write (.ok cnt))) := by
        simp only [access, Nat.lt_irrefl, if_false, if_neg hleft]
      simp only [tdWriteLocked, if_neg hleft]
      exact .access hlen (.done rfl)

theorem tdIoctlUnlocked_congr {d d' : Twodev} (h : d.bufsz = d'.bufsz) (cmd : Nat)
    (arg : UserInt) : tdIoctlUnlocked d cmd arg = tdIoctlUnlocked d' cmd arg := by
  simp only [tdIoctlUnlocked, h]

theorem plain_congr {d d' : Twodev} (hlen : d.len = d'.len) (hbufsz : d.bufsz = d'.bufsz) (p : Pc)
    (e : Visible) (pos : File → Nat) : plain p e d pos = plain p e d' pos := by
  cases p <;> cases e <;>
    simp only [plain, hlen, hbufsz, tdReadClamp, tdWriteClamp, tdIoctlUnlocked_congr hbufsz]

/-- The sections of twodev are atomic to the steps outside the lock. -/
def atomic : code.Atomic (Nat × Nat) where
  whole := whole
  view d := (d.len, d.bufsz)
  yields := by
    intro p a k h d
    cases p with
    | readClamped f room req pos seen cnt =>
      cases h
      exact yields_read d a room cnt pos
    | writeClamped f u cnt pos =>
      cases h
      exact yields_write d u cnt
    | setChecked f val =>
      cases h
      exact .access rfl (.done rfl)
    | idle => cases h
    | readTested f room req pos => cases h
    | done f res => cases h
    | ioctlDone f res => cases h
  plain_view := by
    intro d d' h p e g
    obtain ⟨hlen, hbufsz⟩ := Prod.mk.inj h
    exact plain_congr hlen hbufsz p e g
  access_view := by
    intro k d d' k' h
    cases k with
    | readCopy beyond room cnt pos data =>
      simp only [code, access] at h
      split at h
      · cases h
        exact .inl rfl
      · cases h
      · cases h
    | writeCopy u cnt k =>
      simp only [code, access] at h
      split_ifs at h
      · cases h
        exact .inl rfl
      · cases h
        exact .inr ⟨_, rfl⟩
    | setBufsz val =>
      cases h
      exact .inr ⟨_, rfl⟩
    | out res => cases h

/-- The calls, looks and returns of a run of `step`, as the tasks see them. -/
def seen (r : Record State Event Shown) : Option (Task × Visible × Shown) :=
  match r.event with
  | .readEnter t f room req => some (t, .readEnter f room req, r.out)
  | .readClamp t => some (t, .readClamp, r.out)
  | .writeEnter t f u count => some (t, .writeEnter f u count, r.out)
  | .ioctlEnter t f cmd arg => some (t, .ioctlEnter f cmd arg, r.out)
  | .ret t => some (t, .ret, r.out)
  | .readLocked .. => none
  | .writeLocked _ => none
  | .ioctlLocked _ => none

/-- The states of the two systems whose sections are single steps are the same states. -/
def State.coarse (s : State) : Code.Coarse Twodev (File → Nat) Pc Task := ⟨s.dev, s.pos, s.pc⟩

theorem coarseStep_of_step {s u : State} {e : Event} {o : Shown} (h : step s e = some (u, o)) :
    ∃ e', code.coarseStep atomic s.coarse e' = some (u.coarse, seen ⟨s, e, o⟩) := by
  cases step_move h with
  | @readEnd t f room req hpc hpos hend =>
    refine ⟨.plain t (.readEnter f room req), ?_⟩
    simp only [Code.coarseStep, State.coarse, code, plain, hpc, if_pos hpos, if_pos hend, seen,
      State.goto]
  | @readEnter t f room req hpc hpos hlen =>
    refine ⟨.plain t (.readEnter f room req), ?_⟩
    simp only [Code.coarseStep, State.coarse, code, plain, hpc, if_pos hpos,
      if_neg (Nat.not_le_of_lt hlen), seen, State.goto]
  | @readClamp t f room req pos hpc =>
    refine ⟨.plain t .readClamp, ?_⟩
    simp only [Code.coarseStep, State.coarse, code, plain, hpc, seen, State.goto]
  | @readLocked t f room req pos seenLen cnt beyond hpc =>
    refine ⟨.locked t beyond, ?_⟩
    simp only [Code.coarseStep, State.coarse, code, enter, hpc, seen, State.goto, atomic, whole,
      leave]
  | @writeEnter t f u count hpc =>
    refine ⟨.plain t (.writeEnter f u count), ?_⟩
    simp only [Code.coarseStep, State.coarse, code, plain, hpc, seen, State.goto]
  | @writeLocked t f u cnt pos hpc =>
    refine ⟨.locked t [], ?_⟩
    simp only [Code.coarseStep, State.coarse, code, enter, hpc, seen, State.goto, atomic, whole,
      leave]
  | @ioctlAnswer t f cmd arg res hpc hres =>
    refine ⟨.plain t (.ioctlEnter f cmd arg), ?_⟩
    simp only [Code.coarseStep, State.coarse, code, plain, hpc, hres, seen, State.goto]
  | @ioctlEnter t f cmd arg val hpc hval =>
    refine ⟨.plain t (.ioctlEnter f cmd arg), ?_⟩
    simp only [Code.coarseStep, State.coarse, code, plain, hpc, hval, seen, State.goto]
  | @ioctlLocked t f val hpc =>
    refine ⟨.locked t [], ?_⟩
    simp only [Code.coarseStep, State.coarse, code, enter, hpc, seen, State.goto, atomic, whole,
      leave]
  | @ret t f res hpc =>
    refine ⟨.plain t .ret, ?_⟩
    simp only [Code.coarseStep, State.coarse, code, plain, hpc, seen, State.goto]
  | @ioctlRet t f res hpc =>
    refine ⟨.plain t .ret, ?_⟩
    simp only [Code.coarseStep, State.coarse, code, plain, hpc, seen, State.goto]

theorem step_of_coarseStep {s : State} {v : Code.Coarse Twodev (File → Nat) Pc Task}
    {e : Code.Coarse.Event Visible Bytes Task} {o : Option (Task × Visible × Shown)}
    (h : code.coarseStep atomic s.coarse e = some (v, o)) :
    ∃ e' u o', step s e' = some (u, o') ∧ v = u.coarse ∧ seen ⟨s, e', o'⟩ = o := by
  cases e with
  | plain t e =>
    simp only [Code.coarseStep, State.coarse, code] at h
    cases hpc : s.pc t with
    | idle =>
      cases e with
      | readEnter f room req =>
        simp only [hpc, plain] at h
        by_cases hpos : s.pos f < 2 ^ 63
        · by_cases hend : s.pos f ≥ s.dev.len
          · simp only [if_pos hpos, if_pos hend] at h
            cases h
            exact ⟨.readEnter t f room req, _, _,
              by simp only [step, hpc, if_pos hpos, if_pos hend]; rfl, rfl, rfl⟩
          · simp only [if_pos hpos, if_neg hend] at h
            cases h
            exact ⟨.readEnter t f room req, _, _,
              by simp only [step, hpc, if_pos hpos, if_neg hend]; rfl, rfl, rfl⟩
        · simp only [if_neg hpos] at h
          cases h
      | writeEnter f u count =>
        simp only [hpc, plain] at h
        cases h
        exact ⟨.writeEnter t f u count, _, _, by simp only [step, hpc]; rfl, rfl, rfl⟩
      | ioctlEnter f cmd arg =>
        simp only [hpc, plain] at h
        cases hun : tdIoctlUnlocked s.dev cmd arg with
        | inl res =>
          simp only [hun] at h
          cases h
          exact ⟨.ioctlEnter t f cmd arg, _, _, by simp only [step, hpc, hun]; rfl, rfl, rfl⟩
        | inr val =>
          simp only [hun] at h
          cases h
          exact ⟨.ioctlEnter t f cmd arg, _, _, by simp only [step, hpc, hun]; rfl, rfl, rfl⟩
      | readClamp =>
        simp only [hpc, plain] at h
        cases h
      | ret =>
        simp only [hpc, plain] at h
        cases h
    | readTested f room req pos =>
      cases e <;> simp only [hpc, plain] at h <;> cases h
      exact ⟨.readClamp t, _, _, by simp only [step, hpc]; rfl, rfl, rfl⟩
    | done f res =>
      cases e <;> simp only [hpc, plain] at h <;> cases h
      exact ⟨.ret t, _, _, by simp only [step, hpc]; rfl, rfl, rfl⟩
    | ioctlDone f res =>
      cases e <;> simp only [hpc, plain] at h <;> cases h
      exact ⟨.ret t, _, _, by simp only [step, hpc]; rfl, rfl, rfl⟩
    | readClamped f room req pos seenLen cnt =>
      cases e <;> simp only [hpc, plain] at h <;> cases h
    | writeClamped f u cnt pos =>
      cases e <;> simp only [hpc, plain] at h <;> cases h
    | setChecked f val =>
      cases e <;> simp only [hpc, plain] at h <;> cases h
  | locked t a =>
    simp only [Code.coarseStep, State.coarse, code] at h
    cases hpc : s.pc t <;> simp only [hpc, enter] at h <;> cases h
    · exact ⟨.readLocked t a, _, _, by simp only [step, hpc]; rfl, rfl, rfl⟩
    · exact ⟨.writeLocked t, _, _, by simp only [step, hpc]; rfl, rfl, rfl⟩
    · exact ⟨.ioctlLocked t, _, _, by simp only [step, hpc]; rfl, rfl, rfl⟩

abbrev LockedState := Code.Fine Twodev (File → Nat) Pc Section Task

def LockedState.init (pos : File → Nat) : LockedState := ⟨Twodev.init, pos, fun _ => .idle, none⟩

/-- Whatever the tasks do between the single accesses of a locked section, the unlocked looks at
`len` and `bufsz` included, the calls of twodev see and return what they do when each section is one
step; and a task that holds the lock can always go on to release it. -/
theorem tdCalls_locked_atomic (pos : File → Nat) :
    (∀ h : List (Task × Visible × Shown),
      (∃ tr s, Run code.fineStep (LockedState.init pos) tr s ∧ Code.history tr = h) ↔
        ∃ tr s, Run step (State.init pos) tr s ∧ tr.filterMap seen = h) ∧
      ∀ tr s, Run code.fineStep (LockedState.init pos) tr s →
        ∃ tr' t, Run code.fineStep s tr' t ∧ Code.history tr' = [] ∧ t.lock = none := by
  refine ⟨fun h => ?_, fun tr s hrun => Code.can_unlock atomic hrun⟩
  exact Code.histories_iff_of atomic State.coarse seen (fun _ _ _ _ => coarseStep_of_step)
    (fun _ _ _ _ => step_of_coarseStep) (State.init pos) h

end LinuxDriverLab.TwoDev
