import LinuxDriverLab.TwoDev.Limits

/-!
# The limit after a TWODEV_SET_BUFSZ has returned

A write takes its limit when it begins. A `TWODEV_SET_BUFSZ` that takes effect and returns while the
write waits for the lock does not bind it, so the write stores up to the limit of its beginning.
-/

namespace LinuxDriverLab.TwoDev

abbrev Trace := List (Record State Event Shown)

/-- A `TWODEV_SET_BUFSZ` that has taken effect -/
structure SetCall where
  task : Task
  val : Nat
  returned : Bool

/-- What a step does to such a call: another one takes its place, or a call of a task returns. -/
inductive SetMark
  | took (t : Task) (val : Nat)
  | back (t : Task)

def setMark (r : Record State Event Shown) : Option SetMark :=
  match r.event, r.out with
  | .ioctlLocked t, .limited val => some (.took t val)
  | .ret t, _ => some (.back t)
  | _, _ => none

def SetCall.after : Option SetCall → SetMark → Option SetCall
  | _, .took t val => some ⟨t, val, false⟩
  | some c, .back t => some { c with returned := c.returned || c.task = t }
  | none, .back _ => none

/-- The last `TWODEV_SET_BUFSZ` that took effect -/
def lastSet (tr : Trace) : Option SetCall := replay SetCall.after setMark none tr

/-- The limit of a `TWODEV_SET_BUFSZ` that has returned, no other having taken effect since. -/
def settled (tr : Trace) : Option Nat :=
  (lastSet tr).bind fun c => if c.returned then some c.val else none

/-- A `td_write` up to its lock: the count it was called with and the limit it read. -/
structure WriteCall where
  count : Nat
  limit : Nat

def writeBegun (t : Task) (r : Record State Event Shown) : Option WriteCall :=
  match r.event with
  | .writeEnter t' _ _ count => if t' = t then some ⟨count, r.pre.dev.bufsz⟩ else none
  | _ => none

/-- The last `td_write` that task `t` began -/
def lastWrite (t : Task) (tr : Trace) : Option WriteCall :=
  replay (fun _ c => some c) (writeBegun t) none tr

/-- A locked section of `td_write` stores no more than the limit that was set and has returned. -/
def StoresWithin (past : Trace) (r : Record State Event Shown) : Prop :=
  ∀ n cnt ret, settled past = some n → r.out = .stored cnt ret → cnt ≤ n

/-- The write was called with no more bytes than that limit, or had already read one as small. -/
def BeganWithin (past : Trace) (r : Record State Event Shown) : Prop :=
  ∀ n t c, settled past = some n → r.event = .writeLocked t → lastWrite t past = some c →
    c.count ≤ n ∨ c.limit ≤ n

/-- The writes in flight go to the lock with the clamp that their beginning gave them. -/
def Clamped (tr : Trace) (s : State) : Prop :=
  ∀ t f u cnt pos, s.pc t = .writeClamped f u cnt pos →
    ∃ c, lastWrite t tr = some c ∧ cnt = min c.count c.limit

theorem lastWrite_concat_other {t : Task} {tr : Trace} {r : Record State Event Shown}
    (hr : writeBegun t r = none) : lastWrite t (tr ++ [r]) = lastWrite t tr := by
  unfold lastWrite
  rw [replay_concat, hr]

theorem lastWrite_concat_begun {t : Task} {tr : Trace} {r : Record State Event Shown} {c : WriteCall}
    (hr : writeBegun t r = some c) : lastWrite t (tr ++ [r]) = some c := by
  unfold lastWrite
  rw [replay_concat, hr]

theorem clamped_goto {tr : Trace} {s s' : State} {t : Task} {pc : Pc} {r : Record State Event Shown}
    (h : Clamped tr s) (hs : s'.pc = s.pc) (hpc : ∀ f u cnt pos, pc ≠ .writeClamped f u cnt pos)
    (hr : ∀ t', writeBegun t' r = none) : Clamped (tr ++ [r]) (s'.goto t pc) := by
  intro t' f u cnt pos hat
  rw [lastWrite_concat_other (hr t')]
  by_cases ht : t' = t
  · subst ht
    rw [goto_pc_self] at hat
    exact absurd hat (hpc f u cnt pos)
  · rw [goto_pc_other _ _ ht, hs] at hat
    exact h t' f u cnt pos hat

theorem clamped_step {tr : Trace} {s u : State} {e : Event} {o : Shown} (h : Clamped tr s)
    (hs : step s e = some (u, o)) : Clamped (tr ++ [⟨s, e, o⟩]) u := by
  cases step_move hs with
  | @writeEnter t f w count hidle =>
    intro t' f' w' cnt pos hat
    by_cases ht : t' = t
    · subst ht
      rw [goto_pc_self, Pc.writeClamped.injEq] at hat
      obtain ⟨-, -, hcnt, -⟩ := hat
      refine ⟨⟨count, s.dev.bufsz⟩, lastWrite_concat_begun (if_pos rfl), ?_⟩
      rw [← hcnt]
      exact tdWriteClamp_eq_min _ _
    · rw [goto_pc_other _ _ ht] at hat
      have hother : writeBegun t' ⟨s, .writeEnter t f w count, .quiet⟩ = none :=
        if_neg (Ne.symm ht)
      rw [lastWrite_concat_other hother]
      exact h t' f' w' cnt pos hat
  | _ => exact clamped_goto h rfl (fun _ _ _ _ => Pc.noConfusion) fun _ => rfl

theorem clamped_run {pos : File → Nat} {tr : Trace} {s : State}
    (h : Run step (State.init pos) tr s) : Clamped tr s :=
  h.history (fun _ _ _ _ _ hat => Pc.noConfusion hat) fun _ _ _ _ _ _ hI hs => clamped_step hI hs

theorem storesWithin_iff_beganWithin {tr : Trace} {s u : State} {e : Event} {o : Shown}
    (h : Clamped tr s) (hs : step s e = some (u, o)) :
    StoresWithin tr ⟨s, e, o⟩ ↔ BeganWithin tr ⟨s, e, o⟩ := by
  cases step_move hs with
  | @writeLocked t f w cnt pos hpc =>
    obtain ⟨c, hc, hcnt⟩ := h t f w cnt pos hpc
    constructor
    · intro hstores n t' c' hn ht hc'
      obtain rfl : t = t' := Event.writeLocked.inj ht
      obtain rfl : c = c' := Option.some.inj (hc.symm.trans hc')
      have := hstores n cnt _ hn rfl
      omega
    · intro hbegan n cnt' ret hn hout
      obtain ⟨rfl, -⟩ := Shown.stored.inj hout
      have := hbegan n t c hn rfl hc
      omega
  | _ =>
    exact ⟨fun _ _ _ _ _ ht => Event.noConfusion ht, fun _ _ _ _ _ hout => Shown.noConfusion hout⟩

/-- In every run of calls by any number of tasks, no locked section of `td_write` that runs after a
`TWODEV_SET_BUFSZ` has returned, and before the next takes effect, stores more than its limit,
exactly when each of these writes was called with no more bytes than the limit or had already read
one as small when it began. -/
theorem tdWrite_within_limit_iff (pos : File → Nat) (tr : Trace) (s : State)
    (h : Run step (State.init pos) tr s) : Each StoresWithin tr ↔ Each BeganWithin tr := by
  induction h with
  | refl => exact ⟨fun _ => each_nil, fun _ => each_nil⟩
  | tail hrun hs ih => rw [each_concat, each_concat, ih,
      storesWithin_iff_beganWithin (clamped_run hrun) hs]

theorem tdWrite_within_limit_iff_waiting : ∃ tr s, Run step (State.init fun _ => 0) tr s ∧
    tr.map Record.event = [.writeEnter 1 1 (List.replicate 8 65) 8,
      .ioctlEnter 0 0 twodevSetBufsz ⟨some 8, true⟩, .ioctlLocked 0, .ret 0, .writeLocked 1] ∧
    settled tr = some 8 ∧ (Each StoresWithin tr ↔ Each BeganWithin tr) := by
  obtain ⟨tr, s, hrun, hev, hq⟩ := exists_exec step (State.init fun _ => 0)
    [.writeEnter 1 1 (List.replicate 8 65) 8, .ioctlEnter 0 0 twodevSetBufsz ⟨some 8, true⟩,
      .ioctlLocked 0, .ret 0, .writeLocked 1]
    (fun x => settled x.1 == some 8) (by decide +kernel)
  exact ⟨tr, s, hrun, hev, by simpa using hq, tdWrite_within_limit_iff _ tr s hrun⟩

def storesTwenty (r : Record State Event Shown) : Bool :=
  match r.out with
  | .stored cnt _ => cnt == 20
  | _ => false

/-- A write of 20 bytes reads the limit 256; the limit 8 is set and its call returns 0; the write
then takes the lock and stores 20 bytes. -/
theorem tdWrite_exceeds_limit : ¬ ∀ pos tr s, Run step (State.init pos) tr s →
    Each StoresWithin tr := by
  intro hall
  obtain ⟨past, r, s, hrun, -, hq⟩ := exists_exec_concat step (State.init fun _ => 0)
    [.writeEnter 1 1 (List.replicate 20 65) 20, .ioctlEnter 0 0 twodevSetBufsz ⟨some 8, true⟩,
      .ioctlLocked 0, .ret 0] (.writeLocked 1)
    (fun past r => settled past == some 8 && storesTwenty r) (by decide +kernel)
  rw [Bool.and_eq_true, beq_iff_eq] at hq
  obtain ⟨hn, hr⟩ := hq
  have hwithin := ((each_concat past r).mp (hall _ _ s hrun)).2
  unfold storesTwenty at hr
  split at hr
  · next cnt ret hout =>
    have hle := hwithin 8 cnt ret hn hout
    have hcnt : cnt = 20 := beq_iff_eq.mp hr
    omega
  · cases hr

end LinuxDriverLab.TwoDev
