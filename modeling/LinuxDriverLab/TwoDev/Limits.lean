import LinuxDriverLab.Framework.Intent
import LinuxDriverLab.TwoDev.Driver

/-!
# The limits of a twodev instance

A write may use a limit that is out of date by the time it copies, and the limit may be set below
the current length, so neither `len ≤ bufsz` nor `cnt ≤ bufsz` holds. What holds is that all of them
stay within the buffer.
-/

namespace LinuxDriverLab.TwoDev

/-- The counts that calls in flight take to their locked sections fit the buffer. -/
def Pc.Fits : Pc → Prop
  | .writeClamped _ _ cnt _ => cnt ≤ bufMax
  | .setChecked _ val => 1 ≤ val ∧ val ≤ bufMax
  | _ => True

structure Bounded (s : State) : Prop where
  bufsz_pos : 1 ≤ s.dev.bufsz
  bufsz_le : s.dev.bufsz ≤ bufMax
  len_le : s.dev.len ≤ bufMax
  fits : ∀ t, (s.pc t).Fits

theorem bounded_init (pos : File → Nat) : Bounded (State.init pos) :=
  ⟨by simp only [State.init, Twodev.init, bufMax]; omega, Nat.le_refl _, Nat.zero_le _,
    fun _ => trivial⟩

theorem bounded_goto {s : State} {t : Task} {pc : Pc} (h : Bounded s) (hpc : pc.Fits) :
    Bounded (s.goto t pc) :=
  ⟨h.bufsz_pos, h.bufsz_le, h.len_le, (Function.forall_update_iff _ _).mpr ⟨hpc, fun t' _ => h.fits t'⟩⟩

theorem tdWriteClamp_eq_min (d : Twodev) (cnt : Nat) : tdWriteClamp d cnt = min cnt d.bufsz :=
  clamp_eq_min cnt d.bufsz

theorem tdWriteClamp_le (d : Twodev) (cnt : Nat) : tdWriteClamp d cnt ≤ d.bufsz := by
  rw [tdWriteClamp_eq_min]
  exact Nat.min_le_right _ _

@[simp] theorem tdWriteLocked_bufsz (d : Twodev) (u : Bytes) (cnt : Nat) :
    (tdWriteLocked d u cnt).1.bufsz = d.bufsz := by
  simp only [tdWriteLocked]
  split <;> rfl

theorem tdWriteLocked_len_le {d : Twodev} {u : Bytes} {cnt : Nat} (hd : d.len ≤ bufMax)
    (hcnt : cnt ≤ bufMax) : (tdWriteLocked d u cnt).1.len ≤ bufMax := by
  simp only [tdWriteLocked]
  split
  · exact hd
  · exact hcnt

/-- What holds of an instance at all times. -/
structure Valid (d : Twodev) : Prop where
  len_le : d.len ≤ bufMax
  bufsz_pos : 1 ≤ d.bufsz
  bufsz_le : d.bufsz ≤ bufMax

theorem tdWrite_valid {d : Twodev} (h : Valid d) (u : Bytes) (cnt : Nat) : Valid (tdWrite d u cnt).1 := by
  have hcnt := (tdWriteClamp_le d cnt).trans h.bufsz_le
  constructor
  · exact tdWriteLocked_len_le h.len_le hcnt
  · rw [tdWrite, tdWriteLocked_bufsz]
    exact h.bufsz_pos
  · rw [tdWrite, tdWriteLocked_bufsz]
    exact h.bufsz_le

theorem tdIoctlUnlocked_inr {d : Twodev} {cmd : Nat} {arg : UserInt} {val : Nat}
    (h : tdIoctlUnlocked d cmd arg = .inr val) :
    cmd = twodevSetBufsz ∧ arg.value = some (val : Int) ∧ 1 ≤ val ∧ val ≤ bufMax := by
  unfold tdIoctlUnlocked at h
  split at h
  · split at h <;> cases h
  · next hget =>
    split at h
    · next hset =>
      split at h
      · cases h
      · next v hv =>
        split at h
        · cases h
        · next hrange =>
          cases h
          refine ⟨hset, ?_, by omega, by omega⟩
          rw [hv, Int.toNat_of_nonneg (by omega)]
    · split at h
      · split at h
        · cases h
        · split at h <;> cases h
      · cases h

theorem tdIoctl_valid {d : Twodev} (h : Valid d) (cmd : Nat) (arg : UserInt) :
    Valid (tdIoctl d cmd arg).1 := by
  unfold tdIoctl
  split
  · exact h
  · next val hval =>
    obtain ⟨-, -, hpos, hle⟩ := tdIoctlUnlocked_inr hval
    exact ⟨h.len_le, hpos, hle⟩

theorem bounded_step {s u : State} {e : Event} {o : Shown} (h : Bounded s)
    (hstep : step s e = some (u, o)) : Bounded u := by
  cases step_move hstep with
  | readEnd => exact bounded_goto h trivial
  | readEnter => exact bounded_goto h trivial
  | readClamp => exact bounded_goto h trivial
  | readLocked => exact bounded_goto h trivial
  | writeEnter => exact bounded_goto h ((tdWriteClamp_le _ _).trans h.bufsz_le)
  | @writeLocked t f w cnt pos hpc =>
    have hcnt : cnt ≤ bufMax := by
      have hf := h.fits t
      rw [hpc] at hf
      exact hf
    have hdev : Bounded { s with dev := (tdWriteLocked s.dev w cnt).1 } := by
      refine ⟨?_, ?_, tdWriteLocked_len_le h.len_le hcnt, h.fits⟩
      · rw [tdWriteLocked_bufsz]
        exact h.bufsz_pos
      · rw [tdWriteLocked_bufsz]
        exact h.bufsz_le
    exact bounded_goto hdev trivial
  | ioctlAnswer => exact bounded_goto h trivial
  | ioctlEnter _ hval =>
    obtain ⟨_, _, hlo, hhi⟩ := tdIoctlUnlocked_inr hval
    exact bounded_goto h ⟨hlo, hhi⟩
  | @ioctlLocked t f val hpc =>
    have hval : 1 ≤ val ∧ val ≤ bufMax := by
      have hf := h.fits t
      rw [hpc] at hf
      exact hf
    have hdev : Bounded { s with dev := tdIoctlLocked s.dev val } :=
      ⟨hval.1, hval.2, h.len_le, h.fits⟩
    exact bounded_goto hdev trivial
  | ret => exact bounded_goto (s := { s with pos := _ }) ⟨h.1, h.2, h.3, h.4⟩ trivial
  | ioctlRet => exact bounded_goto h trivial

theorem bounded_run {pos : File → Nat} {tr : List (Record State Event Shown)} {s : State}
    (h : Run step (State.init pos) tr s) : Bounded s :=
  h.invariant (bounded_init pos) fun _ _ _ _ hI hs => bounded_step hI hs

/-- The part of an event in the calls of `TWODEV_SET_BUFSZ`, read off its arguments. -/
def Event.intent : Event → Intent Task Nat
  | .ioctlEnter t _ cmd arg =>
    if cmd = twodevSetBufsz then
      match arg.value with
      | some val => .prepare t val.toNat
      | none => .other
    else .other
  | .ioctlLocked t => .commit t
  | _ => .other

/-- The argument of the last `TWODEV_SET_BUFSZ` that took effect, 256 if none has. -/
def lastLimit (es : List Event) : Nat := (asked (fun _ val => val) Event.intent bufMax es).value

/-- The limit that a step sets. -/
def limitSet (r : Record State Event Shown) : Option Nat :=
  match r.out with
  | .limited val => some val
  | _ => none

/-- The task is about to set the limit. -/
def SetsLimit (s : State) (t : Task) (val : Nat) : Prop := ∃ f, s.pc t = .setChecked f val

theorem setsLimit_goto {s : State} {t t' : Task} {pc : Pc} {val : Nat}
    (hpc : ∀ f val, pc ≠ .setChecked f val) (h : SetsLimit (s.goto t pc) t' val) :
    t' ≠ t ∧ SetsLimit s t' val := by
  obtain ⟨f, ht⟩ := h
  by_cases heq : t' = t
  · subst heq
    rw [goto_pc_self] at ht
    exact absurd ht (hpc f val)
  · rw [goto_pc_other _ _ heq] at ht
    exact ⟨heq, f, ht⟩

theorem intent_ioctlEnter (t : Task) (f : File) (cmd : Nat) (arg : UserInt) :
    (Event.ioctlEnter t f cmd arg).intent = .other ∨
      ∃ val, (Event.ioctlEnter t f cmd arg).intent = .prepare t val := by
  simp only [Event.intent]
  split
  · split
    · exact .inr ⟨_, rfl⟩
    · exact .inl rfl
  · exact .inl rfl

theorem intent_step {s u : State} {e : Event} {o : Shown} (hstep : step s e = some (u, o)) :
    Intent.Fits SetsLimit s u e.intent (limitSet ⟨s, e, o⟩) := by
  have hplain : ∀ {pos' dev' t pc}, (∀ f val, pc ≠ Pc.setChecked f val) →
      ∀ t' val, SetsLimit (({ s with pos := pos', dev := dev' } : State).goto t pc) t' val →
        t' ≠ t ∧ SetsLimit s t' val :=
    fun hpc t' val h => setsLimit_goto (s := { s with pos := _, dev := _ }) hpc h
  cases step_move hstep with
  | @ioctlAnswer t f cmd arg res hpc hres =>
    rcases intent_ioctlEnter t f cmd arg with hi | ⟨val, hi⟩
    · exact hi ▸ .other fun t' val h => (hplain (by simp) t' val h).2
    · exact hi ▸ .prepare fun t' val' h => .inr (hplain (by simp) t' val' h)
  | @ioctlEnter t f cmd arg val hpc hval =>
    obtain ⟨rfl, hv, -, -⟩ := tdIoctlUnlocked_inr hval
    have hi : (Event.ioctlEnter t f twodevSetBufsz arg).intent = .prepare t val := by
      simp only [Event.intent, if_true, hv, Int.toNat_natCast]
    refine hi ▸ .prepare fun t' val' h => ?_
    obtain ⟨f', ht⟩ := h
    by_cases heq : t' = t
    · subst heq
      rw [goto_pc_self] at ht
      cases ht
      exact .inl ⟨rfl, rfl⟩
    · rw [goto_pc_other _ _ heq] at ht
      exact .inr ⟨heq, f', ht⟩
  | @ioctlLocked t f val hpc =>
    exact .commit ⟨f, hpc⟩ fun t' val' h => setsLimit_goto (s := { s with dev := _ }) (by simp) h
  | _ => exact .other fun t' val h => (hplain (by simp) t' val h).2

theorem lastLimit_eq {pos : File → Nat} {tr : List (Record State Event Shown)} {s : State}
    (h : Run step (State.init pos) tr s) :
    lastLimit (tr.map Record.event) = replay (fun _ val => val) limitSet bufMax tr := by
  refine (h.asked_eq SetsLimit limitSet Event.intent ?_ ?_).1
  · rintro t val ⟨f, ht⟩
    cases ht
  · exact fun _ _ _ _ _ _ hs => intent_step hs

theorem bufsz_run {pos : File → Nat} {tr : List (Record State Event Shown)} {s : State}
    (h : Run step (State.init pos) tr s) : s.dev.bufsz = lastLimit (tr.map Record.event) := by
  have hinit : (State.init pos).dev.bufsz = bufMax := rfl
  rw [lastLimit_eq h]
  refine h.simulates (fun _ val => val) limitSet bufMax (R := fun a s => s.dev.bufsz = a) hinit ?_
  intro b t e u o hb hs
  cases step_move hs with
  | writeLocked => exact (tdWriteLocked_bufsz _ _ _).trans hb
  | ioctlLocked => rfl
  | _ => exact hb

/-- What the ioctls and the copies of writes do in a state whose limit is `limit`. -/
structure Answers (limit : Nat) (s : State) : Prop where
  writeEnter : ∀ t f u count, s.pc t = .idle →
    step s (.writeEnter t f u count) =
      some (s.goto t (.writeClamped f u (min count limit) (s.pos f)), .quiet)
  copy : ∀ t f u cnt p, s.pc t = .writeClamped f u cnt p →
    cnt ≤ bufMax ∧ ∃ v ret, step s (.writeLocked t) = some (v, .stored cnt ret)
  setFaults : ∀ t f arg, s.pc t = .idle → arg.value = none →
    step s (.ioctlEnter t f twodevSetBufsz arg) =
      some (s.goto t (.ioctlDone f ⟨.error .efault, none⟩),
        .answered twodevSetBufsz ⟨.error .efault, none⟩)
  setInvalid : ∀ t f arg val, s.pc t = .idle → arg.value = some val → val < 1 ∨ 256 < val →
    step s (.ioctlEnter t f twodevSetBufsz arg) =
      some (s.goto t (.ioctlDone f ⟨.error .einval, none⟩),
        .answered twodevSetBufsz ⟨.error .einval, none⟩)
  set : ∀ t f arg val, s.pc t = .idle → arg.value = some val → 1 ≤ val → val ≤ 256 →
    step s (.ioctlEnter t f twodevSetBufsz arg) = some (s.goto t (.setChecked f val.toNat), .quiet)
  setLocked : ∀ t f val, s.pc t = .setChecked f val →
    step s (.ioctlLocked t) =
      some ({ s with dev := { s.dev with bufsz := val } }.goto t (.ioctlDone f ⟨.ok (), none⟩),
        .limited val)
  get : ∀ t f arg, s.pc t = .idle →
    step s (.ioctlEnter t f twodevGetBufsz arg) =
      some (s.goto t (.ioctlDone f (if arg.writable then ⟨.ok (), some limit⟩ else ⟨.error .efault, none⟩)),
        .answered twodevGetBufsz (if arg.writable then ⟨.ok (), some limit⟩ else ⟨.error .efault, none⟩))
  ret : ∀ t f res, s.pc t = .ioctlDone f res →
    step s (.ret t) = some (s.goto t .idle, .ioctlReturned f res)

theorem bounded_answers {s : State} (h : Bounded s) : Answers s.dev.bufsz s := by
  have hset : twodevSetBufsz ≠ twodevGetBufsz := by decide
  constructor
  · intro t f u count hpc
    simp only [step, hpc, tdWriteClamp_eq_min]
  · intro t f u cnt p hpc
    have hf := h.fits t
    rw [hpc] at hf
    refine ⟨hf, { s with dev := (tdWriteLocked s.dev u cnt).1 }.goto t
      (.done f ⟨(tdWriteLocked s.dev u cnt).2, [], p⟩), (tdWriteLocked s.dev u cnt).2, ?_⟩
    simp only [step, hpc]
  · intro t f arg hpc harg
    simp only [step, hpc, tdIoctlUnlocked, if_neg hset, if_true, harg]
  · intro t f arg val hpc harg hval
    have hbad : val < 1 ∨ val > (bufMax : Nat) := by
      rw [bufMax]
      omega
    simp only [step, hpc, tdIoctlUnlocked, if_neg hset, if_true, harg, if_pos hbad]
  · intro t f arg val hpc harg hlo hhi
    have hgood : ¬ (val < 1 ∨ val > (bufMax : Nat)) := by
      rw [bufMax]
      omega
    simp only [step, hpc, tdIoctlUnlocked, if_neg hset, if_true, harg, if_neg hgood]
  · intro t f val hpc
    simp only [step, hpc, tdIoctlLocked]
  · intro t f arg hpc
    have hval : int32 s.dev.bufsz = s.dev.bufsz := by
      have := h.bufsz_le
      exact int32_of_range (by omega) (by simp only [bufMax] at this; omega)
    simp only [step, hpc, tdIoctlUnlocked, if_true, hval]
    cases arg.writable <;> rfl
  · intro t f res hpc
    simp only [step, hpc]

/-- In every state that calls of any number of tasks can reach, the limit is between 1 and 256 and
the length at most 256; every copy into the buffer stays inside it; a `TWODEV_SET_BUFSZ` that fails
ends without touching the instance; and a `TWODEV_GET_BUFSZ` gives the limit last set. -/
theorem tdCalls_limits (pos : File → Nat) (tr : List (Record State Event Shown)) (s : State)
    (h : Run step (State.init pos) tr s) :
    (1 ≤ s.dev.bufsz ∧ s.dev.bufsz ≤ bufMax ∧ s.dev.len ≤ bufMax) ∧
      s.dev.bufsz = lastLimit (tr.map Record.event) ∧ Answers (lastLimit (tr.map Record.event)) s := by
  have hb := bounded_run h
  exact ⟨⟨hb.bufsz_pos, hb.bufsz_le, hb.len_le⟩, bufsz_run h, bufsz_run h ▸ bounded_answers hb⟩

/-- A limit set while a write waits for the lock, three that are refused, and two questions for it. -/
def setWriteGet : List Event :=
  [.ioctlEnter 0 0 twodevSetBufsz ⟨some 8, true⟩, .writeEnter 1 1 (List.replicate 20 65) 20,
    .ioctlLocked 0, .writeLocked 1, .ret 0, .ioctlEnter 0 0 twodevSetBufsz ⟨some 0, true⟩, .ret 0,
    .ioctlEnter 0 0 twodevSetBufsz ⟨some 257, true⟩, .ret 0,
    .ioctlEnter 0 0 twodevSetBufsz ⟨none, false⟩, .ioctlEnter 2 2 twodevGetBufsz ⟨some 0, true⟩, .ret 2,
    .ioctlEnter 2 2 twodevGetBufsz ⟨none, false⟩]

theorem tdCalls_limits_set_write_get : ∃ tr s,
    (Run step (State.init fun _ => 0) tr s ∧ tr.map Record.event = setWriteGet ∧
      tr.map Record.out = [.quiet, .quiet, .limited 8, .stored 20 (.ok 20),
        .ioctlReturned 0 ⟨.ok (), none⟩, .answered twodevSetBufsz ⟨.error .einval, none⟩,
        .ioctlReturned 0 ⟨.error .einval, none⟩, .answered twodevSetBufsz ⟨.error .einval, none⟩,
        .ioctlReturned 0 ⟨.error .einval, none⟩, .answered twodevSetBufsz ⟨.error .efault, none⟩,
        .answered twodevGetBufsz ⟨.ok (), some 8⟩, .ioctlReturned 2 ⟨.ok (), some 8⟩,
        .answered twodevGetBufsz ⟨.error .efault, none⟩] ∧
      s.dev.len = 20 ∧ lastLimit setWriteGet = 8) ∧
    (1 ≤ s.dev.bufsz ∧ s.dev.bufsz ≤ bufMax ∧ s.dev.len ≤ bufMax) ∧
      s.dev.bufsz = lastLimit (tr.map Record.event) ∧ Answers (lastLimit (tr.map Record.event)) s := by
  obtain ⟨tr, s, hrun, hev, hq⟩ := exists_exec step (State.init fun _ => 0) setWriteGet
    (fun x => x.1.map Record.out = [.quiet, .quiet, .limited 8, .stored 20 (.ok 20),
      .ioctlReturned 0 ⟨.ok (), none⟩, .answered twodevSetBufsz ⟨.error .einval, none⟩,
      .ioctlReturned 0 ⟨.error .einval, none⟩, .answered twodevSetBufsz ⟨.error .einval, none⟩,
      .ioctlReturned 0 ⟨.error .einval, none⟩, .answered twodevSetBufsz ⟨.error .efault, none⟩,
      .answered twodevGetBufsz ⟨.ok (), some 8⟩, .ioctlReturned 2 ⟨.ok (), some 8⟩,
      .answered twodevGetBufsz ⟨.error .efault, none⟩] ∧ x.2.dev.len = 20) (by decide +kernel)
  obtain ⟨houts, hlen⟩ := of_decide_eq_true hq
  exact ⟨tr, s, ⟨hrun, hev, houts, hlen, by decide +kernel⟩, tdCalls_limits _ tr s hrun⟩

end LinuxDriverLab.TwoDev
