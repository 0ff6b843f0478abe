import LinuxDriverLab.Irq.Lifecycle

/-!
# The two bottom halves of irqbh

The pending mark of a work item and the wake flag of an irq thread are both single bits, so a second
interrupt can find its bit already set. A work item still sees every interrupt, since it reads the
counter after its mark was cleared. An irq thread runs once for each time its flag was set from
clear, so it falls behind by one for each handler that returned while the flag was set.
-/

namespace LinuxDriverLab.Irq

abbrev Trace := List (Record State Event Shown)

/-- A module that was just loaded -/
structure Fresh (s : State) : Prop where
  irqHits : s.irqHits = 0
  bhDone : s.bhDone = 0
  lastHit : s.lastHit = 0
  entered : s.entered = 0
  counted : s.counted = 0
  wake : s.wake = false
  thread : s.thread = .idle
  pending : s.pending = false
  work : s.work = .idle

/-- The step does not load the module again. -/
def SameLoad (_ : Trace) (r : Record State Event Shown) : Prop := r.event ≠ .load

/-- The step is not the exit function's `cancel_work_sync`. -/
def NotCancelled (_ : Trace) (r : Record State Event Shown) : Prop := r.event ≠ .cancelWorkSync

/-- Neither of the two, of one step -/
def resident (r : Record State Event Shown) : Bool :=
  r.event != .load && r.event != .cancelWorkSync

theorem resident_of_all {tr : Trace} (h : tr.all resident = true) :
    Each SameLoad tr ∧ Each NotCancelled tr := by
  constructor
  · refine each_of_all _ h fun _ r hr => ?_
    simp only [resident, Bool.and_eq_true, bne_iff_ne] at hr
    exact hr.1
  · refine each_of_all _ h fun _ r hr => ?_
    simp only [resident, Bool.and_eq_true, bne_iff_ne] at hr
    exact hr.2

/-- The first load -/
def State.loaded : State := { State.init with stage := .gpioRequest }

theorem fresh_loaded : Fresh State.loaded := ⟨rfl, rfl, rfl, rfl, rfl, rfl, rfl, rfl, rfl⟩

/-- A run of the irq thread's function that has not yet counted itself -/
def Thread.toCount : Thread → Nat
  | .started => 1
  | _ => 0

/-- A run of `wq_fn` that has not yet counted itself -/
def Work.toCount : Work → Nat
  | .started => 1
  | _ => 0

/-- A run of `wq_fn` that has yet to read `irq_hits` -/
def Work.toRead : Work → Bool
  | .started | .counted => true
  | _ => false

/-! ## The work item -/

section Work

/-- What a module with a work item keeps, apart from what `wq_fn` has seen. -/
structure WorkCounts (s : State) : Prop where
  wake : s.wake = false
  thread : s.thread = .idle
  bound : s.bhDone + s.pending.toNat + s.work.toCount + s.counted ≤ s.irqHits

theorem Fresh.workCounts {s : State} (h : Fresh s) : WorkCounts s := by
  refine ⟨h.wake, h.thread, ?_⟩
  rw [h.bhDone, h.pending, h.work, h.counted]
  exact Nat.zero_le _

theorem workCounts_step {s u : State} {e : Event} {o : Shown} (h : WorkCounts s) (he : e ≠ .load)
    (hs : step (.irqbh 0) s e = some (u, o)) : WorkCounts u := by
  obtain ⟨hwake, hthread, hbound⟩ := h
  cases step_move hs with
  | load => exact absurd rfl he
  | hardCount hin =>
    refine ⟨hwake, hthread, ?_⟩
    show s.bhDone + s.pending.toNat + s.work.toCount + (s.counted + 1) ≤ s.irqHits + 1
    omega
  | hardReturn hin =>
    refine ⟨hwake, hthread, ?_⟩
    show s.bhDone + 1 + s.work.toCount + (s.counted - 1) ≤ s.irqHits
    omega
  | threadStart hset =>
    rw [hwake] at hset
    cases hset
  | threadCount hrun =>
    rw [hthread] at hrun
    cases hrun
  | threadReturn hrun =>
    rw [hthread] at hrun
    cases hrun
  | workStart hpending hidle =>
    refine ⟨hwake, hthread, ?_⟩
    rw [hpending, hidle] at hbound
    exact hbound
  | workCount hrun =>
    refine ⟨hwake, hthread, ?_⟩
    rw [hrun] at hbound
    show s.bhDone + 1 + s.pending.toNat + 0 + s.counted ≤ s.irqHits
    simp only [Work.toCount] at hbound
    omega
  | workRead hrun =>
    refine ⟨hwake, hthread, ?_⟩
    rw [hrun] at hbound
    exact hbound
  | workReturn hrun =>
    refine ⟨hwake, hthread, ?_⟩
    rw [hrun] at hbound
    exact hbound
  | cancelWorkSync _ hidle =>
    refine ⟨hwake, hthread, ?_⟩
    show s.bhDone + 0 + s.work.toCount + s.counted ≤ s.irqHits
    omega
  | _ => exact ⟨hwake, hthread, hbound⟩

/-- Somebody is still about to read `irq_hits`. -/
def Unread (s : State) : Prop := 0 < s.counted ∨ s.pending = true ∨ s.work.toRead = true

/-- A run of `wq_fn` has begun in `tr` and is the last to have begun. -/
def Begun (tr : Trace) : Prop :=
  ∃ before q run, tr = before ++ q :: run ∧ q.event = .workStart ∧ ∀ x ∈ run, x.event ≠ .workStart

/-- A run of `wq_fn` begins in `tr` and reads `hits` or more from `irq_hits`. -/
def Followed (hits : Nat) (tr : Trace) : Prop :=
  ∃ before q run w after, tr = before ++ q :: (run ++ w :: after) ∧ q.event = .workStart ∧
    (∀ x ∈ run, x.event ≠ .workStart) ∧ w.event = .workRead ∧ hits ≤ w.pre.irqHits

theorem Begun.concat {tr : Trace} (h : Begun tr) {r : Record State Event Shown}
    (hr : r.event ≠ .workStart) : Begun (tr ++ [r]) := by
  obtain ⟨before, q, run, htr, hq, hrun⟩ := h
  refine ⟨before, q, run ++ [r], by simp [htr], hq, ?_⟩
  simp only [List.forall_mem_append, List.forall_mem_singleton]
  exact ⟨hrun, hr⟩

theorem Begun.followed {tr : Trace} (h : Begun tr) {hits : Nat} {r : Record State Event Shown}
    (hr : r.event = .workRead) (hhits : hits ≤ r.pre.irqHits) : Followed hits (tr ++ [r]) := by
  obtain ⟨before, q, run, htr, hq, hrun⟩ := h
  exact ⟨before, q, run, r, [], by simp [htr], hq, hrun, hr, hhits⟩

theorem Followed.concat {hits : Nat} {tr : Trace} (h : Followed hits tr)
    (r : Record State Event Shown) : Followed hits (tr ++ [r]) := by
  obtain ⟨before, q, run, w, after, htr, hq, hrun, hw, hhits⟩ := h
  exact ⟨before, q, run, w, after ++ [r], by simp [htr], hq, hrun, hw, hhits⟩

/-- The last run of `wq_fn` has read the counter as it is, unless a reading is still to come. -/
def LastRead (s : State) : Prop := Unread s ∨ s.lastHit = s.irqHits

theorem lastRead_step {s u : State} {e : Event} {o : Shown} (h : LastRead s) (he : e ≠ .load)
    (hc : e ≠ .cancelWorkSync) (hs : step (.irqbh 0) s e = some (u, o)) : LastRead u := by
  cases step_move hs with
  | load => exact absurd rfl he
  | cancelWorkSync => exact absurd rfl hc
  | hardCount => exact .inl (.inl (Nat.succ_pos _))
  | hardReturn => exact .inl (.inr (.inl rfl))
  | workStart => exact .inl (.inr (.inr rfl))
  | workCount => exact .inl (.inr (.inr rfl))
  | workRead => exact .inr rfl
  | workReturn hrun =>
    rcases h with (hcounted | hpending | hread) | hlast
    · exact .inl (.inl hcounted)
    · exact .inl (.inr (.inl hpending))
    · rw [hrun] at hread
      cases hread
    · exact .inr hlast
  | _ => exact h

/-- What an interrupt counted as number `hits` may rely on, `tr` being the steps since. -/
structure Answered (hits : Nat) (tr : Trace) (s : State) : Prop where
  counted : hits ≤ s.irqHits
  answer : 0 < s.counted ∨ s.pending = true ∨ (s.work.toRead = true ∧ Begun tr) ∨ Followed hits tr

theorem Answered.same {hits : Nat} {tr : Trace} {s u : State} (h : Answered hits tr s)
    {r : Record State Event Shown} (hr : r.event ≠ .workStart) (hirq : u.irqHits = s.irqHits)
    (hcounted : u.counted = s.counted) (hpending : u.pending = s.pending) (hwork : u.work = s.work) :
    Answered hits (tr ++ [r]) u := by
  refine ⟨hirq ▸ h.counted, ?_⟩
  rw [hcounted, hpending, hwork]
  rcases h.answer with hin | hmark | ⟨hread, hbegun⟩ | hdone
  · exact .inl hin
  · exact .inr (.inl hmark)
  · exact .inr (.inr (.inl ⟨hread, hbegun.concat hr⟩))
  · exact .inr (.inr (.inr (hdone.concat r)))

theorem answered_step {hits : Nat} {tr : Trace} {s u : State} {e : Event} {o : Shown}
    (h : Answered hits tr s) (he : e ≠ .load) (hc : e ≠ .cancelWorkSync)
    (hs : step (.irqbh 0) s e = some (u, o)) : Answered hits (tr ++ [⟨s, e, o⟩]) u := by
  cases step_move hs with
  | load => exact absurd rfl he
  | cancelWorkSync => exact absurd rfl hc
  | hardCount => exact ⟨Nat.le_succ_of_le h.counted, .inl (Nat.succ_pos _)⟩
  | hardReturn => exact ⟨h.counted, .inr (.inl rfl)⟩
  | workStart =>
    refine ⟨h.counted, .inr (.inr (.inl ⟨rfl, tr, _, [], rfl, rfl, ?_⟩))⟩
    exact List.forall_mem_nil _
  | workCount hrun =>
    refine ⟨h.counted, ?_⟩
    rcases h.answer with hin | hmark | ⟨-, hbegun⟩ | hdone
    · exact .inl hin
    · exact .inr (.inl hmark)
    · exact .inr (.inr (.inl ⟨rfl, hbegun.concat Event.noConfusion⟩))
    · exact .inr (.inr (.inr (hdone.concat _)))
  | workRead =>
    refine ⟨h.counted, ?_⟩
    rcases h.answer with hin | hmark | ⟨-, hbegun⟩ | hdone
    · exact .inl hin
    · exact .inr (.inl hmark)
    · exact .inr (.inr (.inr (hbegun.followed rfl h.counted)))
    · exact .inr (.inr (.inr (hdone.concat _)))
  | workReturn hrun =>
    refine ⟨h.counted, ?_⟩
    rcases h.answer with hin | hmark | ⟨hread, -⟩ | hdone
    · exact .inl hin
    · exact .inr (.inl hmark)
    · rw [hrun] at hread
      cases hread
    · exact .inr (.inr (.inr (hdone.concat _)))
  | _ => exact h.same Event.noConfusion rfl rfl rfl rfl

section

variable {s t : State} {tr : Trace}

theorem workCounts_run (hs : Fresh s) (h : Run (step (.irqbh 0)) s tr t) (hload : Each SameLoad tr) :
    WorkCounts t :=
  h.guarded (I := fun _ s => WorkCounts s) hload hs.workCounts
    fun _ _ _ _ _ _ hI hP hstep => workCounts_step hI hP hstep

theorem lastRead_run (hs : Fresh s) (h : Run (step (.irqbh 0)) s tr t) (hload : Each SameLoad tr)
    (hcancel : Each NotCancelled tr) : LastRead t := by
  induction h with
  | refl => exact .inr (by rw [hs.lastHit, hs.irqHits])
  | tail _ hstep ih =>
    obtain ⟨hprev, hl⟩ := (each_concat _ _).mp hload
    obtain ⟨hprev', hc⟩ := (each_concat _ _).mp hcancel
    exact lastRead_step (ih hprev hprev') hl hc hstep

theorem answered_run {hits : Nat} (hs : Answered hits [] s) (h : Run (step (.irqbh 0)) s tr t)
    (hload : Each SameLoad tr) (hcancel : Each NotCancelled tr) : Answered hits tr t := by
  induction h with
  | refl => exact hs
  | tail _ hstep ih =>
    obtain ⟨hprev, hl⟩ := (each_concat _ _).mp hload
    obtain ⟨hprev', hc⟩ := (each_concat _ _).mp hcancel
    exact answered_step (ih hprev hprev') hl hc hstep

/-- An interrupt that was counted in a run is answered in the rest of it. -/
theorem answered_of_hardCount {past rest : Trace} {r : Record State Event Shown}
    (h : Run (step (.irqbh 0)) s (past ++ r :: rest) t) (hr : r.event = .hardCount)
    (hload : Each SameLoad (past ++ r :: rest)) (hcancel : Each NotCancelled (past ++ r :: rest)) :
    Answered (r.pre.irqHits + 1) rest t := by
  obtain ⟨-, u, hstep, hrest⟩ := h.split
  have hcat : past ++ r :: rest = (past ++ [r]) ++ rest := by simp
  rw [hcat] at hload hcancel
  refine answered_run ?_ hrest hload.suffix hcancel.suffix
  rw [hr] at hstep
  generalize r.out = o at hstep
  cases step_move hstep with
  | hardCount => exact ⟨Nat.le_refl _, .inl (Nat.succ_pos _)⟩

end

/-- From a freshly loaded module in mode 0, whatever the order of the handler's and the work item's
steps, `bh_done` never passes `irq_hits`. Until the work is cancelled, whenever it is neither
pending nor running and no handler stands between its increment and its `schedule_work`, the last
run of `wq_fn` read the counter as it is, and every interrupt was followed by a run that began after
it and saw it. -/
theorem wqFn_sees_every_interrupt (s t : State) (tr : Trace) (hs : Fresh s)
    (h : Run (step (.irqbh 0)) s tr t) (hload : Each SameLoad tr) :
    t.bhDone ≤ t.irqHits ∧
    (Each NotCancelled tr → t.pending = false → t.work = .idle → t.counted = 0 →
      (0 < t.irqHits → t.lastHit = t.irqHits) ∧
      ∀ past r rest, tr = past ++ r :: rest → r.event = .hardCount →
        Followed (r.pre.irqHits + 1) rest) := by
  constructor
  · have hbound := (workCounts_run hs h hload).bound
    omega
  · intro hcancel hpending hwork hcounted
    constructor
    · intro _
      rcases lastRead_run hs h hload hcancel with (hin | hmark | hread) | hlast
      · omega
      · rw [hpending] at hmark
        cases hmark
      · rw [hwork] at hread
        cases hread
      · exact hlast
    · intro past r rest htr hr
      subst htr
      rcases (answered_of_hardCount h hr hload hcancel).answer with hin | hmark | ⟨hread, -⟩ | hdone
      · omega
      · rw [hpending] at hmark
        cases hmark
      · rw [hwork] at hread
        cases hread
      · exact hdone

/-- The init function after its first call, up to `misc_register` -/
def armEvents : List Event :=
  [.gpioRequestOne none, .requestIrq none, .gpioSetValue, .gpioSetValue, .gpioSetValue,
    .gpioSetValue, .gpioSetValue, .gpioSetValue]

/-- Two interrupts, the second counted before the first one's work item starts -/
def burstEvents : List Event :=
  [.hardEnter, .hardCount, .hardReturn, .edge, .hardEnter, .hardCount, .hardReturn]

/-- Two interrupts that share one run of `wq_fn` -/
theorem wqFn_sees_every_interrupt_burst : ∃ tr t, Run (step (.irqbh 0)) State.loaded tr t ∧
    tr.map Record.event =
      armEvents ++ burstEvents ++ [.workStart, .workCount, .workRead, .workReturn] ∧
    t.bhDone ≤ t.irqHits ∧ t.lastHit = t.irqHits ∧
    ∀ past r rest, tr = past ++ r :: rest → r.event = .hardCount →
      Followed (r.pre.irqHits + 1) rest := by
  obtain ⟨tr, t, hrun, hev, hq⟩ := exists_exec (step (.irqbh 0)) State.loaded
    (armEvents ++ burstEvents ++ [.workStart, .workCount, .workRead, .workReturn])
    (fun x => x.1.all resident && !x.2.pending &&
      x.2.work == .idle && x.2.counted == 0 && x.2.irqHits == 2) (by decide +kernel)
  simp only [Bool.and_eq_true, Bool.not_eq_true', beq_iff_eq] at hq
  obtain ⟨⟨⟨⟨hall, hpending⟩, hwork⟩, hcounted⟩, hhits⟩ := hq
  obtain ⟨hload, hcancel⟩ := resident_of_all hall
  obtain ⟨hle, hrest⟩ := wqFn_sees_every_interrupt _ t tr fresh_loaded hrun hload
  obtain ⟨hlast, hfollowed⟩ := hrest hcancel hpending hwork hcounted
  exact ⟨tr, t, hrun, hev, hle, hlast (by omega), hfollowed⟩

/-- Between its increment and its `schedule_work` a handler leaves a work item that is neither
pending nor running and has not read the counter. -/
theorem wqFn_behind_inside_handler : ¬ ∀ s t tr, Fresh s → Run (step (.irqbh 0)) s tr t →
    Each SameLoad tr → t.bhDone ≤ t.irqHits ∧ (Each NotCancelled tr → t.pending = false →
      t.work = .idle → 0 < t.irqHits → t.lastHit = t.irqHits) := by
  intro hall
  obtain ⟨tr, t, hrun, _, hq⟩ := exists_exec (step (.irqbh 0)) State.loaded
    (armEvents ++ [.hardEnter, .hardCount])
    (fun x => x.1.all resident && !x.2.pending &&
      x.2.work == .idle && x.2.irqHits == 1 && x.2.lastHit == 0) (by decide +kernel)
  simp only [Bool.and_eq_true, Bool.not_eq_true', beq_iff_eq] at hq
  obtain ⟨⟨⟨⟨hrecs, hpending⟩, hwork⟩, hhits⟩, hlast⟩ := hq
  obtain ⟨hload, hcancel⟩ := resident_of_all hrecs
  have hsame := (hall _ t tr fresh_loaded hrun hload).2 hcancel hpending hwork (by omega)
  omega

end Work

/-! ## The irq thread -/

section Thread

/-- The step is not the return of a handler that finds the wake flag of its action still set. -/
def WakeClear (_ : Trace) (r : Record State Event Shown) : Prop :=
  r.event = .hardReturn → r.pre.wake = false

/-- The handlers that returned while the flag was set -/
def merged (tr : Trace) : Nat := tr.countP fun r => r.event == .hardReturn && r.pre.wake

theorem merged_concat (tr : Trace) (r : Record State Event Shown) :
    merged (tr ++ [r]) = merged tr + if r.event = .hardReturn ∧ r.pre.wake = true then 1 else 0 := by
  simp [merged, List.countP_append, List.countP_cons]

theorem merged_eq_zero_iff (tr : Trace) : merged tr = 0 ↔ Each WakeClear tr := by
  induction tr using List.reverseRecOn with
  | nil => simp [merged]
  | append_singleton tr r ih =>
    rw [merged_concat, each_concat, ← ih, Nat.add_eq_zero_iff]
    simp [WakeClear]

/-- Every handler that has counted itself is either not back yet, or waits in the flag or in a run
of the thread, or has been counted by such a run, or was merged into another. -/
structure ThreadCounts (tr : Trace) (s : State) : Prop where
  pending : s.pending = false
  work : s.work = .idle
  balance : s.bhDone + s.wake.toNat + s.thread.toCount + s.counted + merged tr = s.irqHits

theorem Fresh.threadCounts {s : State} (h : Fresh s) : ThreadCounts [] s := by
  refine ⟨h.pending, h.work, ?_⟩
  rw [h.bhDone, h.wake, h.thread, h.counted, h.irqHits]
  rfl

theorem bottomHalf_thread {mode : Int} (hm : mode ≠ 0) :
    (Module.irqbh mode).bottomHalf = .thread := if_neg hm

theorem merged_same {tr : Trace} {r : Record State Event Shown} (hr : r.event ≠ .hardReturn) :
    merged (tr ++ [r]) = merged tr := by
  simp [merged_concat, hr]

theorem threadCounts_step {mode : Int} (hm : mode ≠ 0) {tr : Trace} {s u : State} {e : Event}
    {o : Shown} (h : ThreadCounts tr s) (he : e ≠ .load)
    (hs : step (.irqbh mode) s e = some (u, o)) : ThreadCounts (tr ++ [⟨s, e, o⟩]) u := by
  obtain ⟨hpending, hwork, hbalance⟩ := h
  cases step_move hs with
  | load => exact absurd rfl he
  | hardCount hin =>
    refine ⟨hpending, hwork, ?_⟩
    rw [merged_same Event.noConfusion]
    show s.bhDone + s.wake.toNat + s.thread.toCount + (s.counted + 1) + merged tr = s.irqHits + 1
    omega
  | hardReturn hin =>
    rw [bottomHalf_thread hm]
    refine ⟨hpending, hwork, ?_⟩
    rw [merged_concat]
    show s.bhDone + 1 + s.thread.toCount + (s.counted - 1) + (merged tr + _) = s.irqHits
    cases hwake : s.wake with
    | false =>
      -- the flag was clear, so the interrupt moves into it
      rw [hwake, Bool.toNat_false] at hbalance
      simp only [Bool.false_eq_true, and_false, if_false]
      omega
    | true =>
      -- the flag was set already, so the interrupt is lost to the count
      rw [hwake, Bool.toNat_true] at hbalance
      simp only [and_self, if_true]
      omega
  | threadStart hset hidle =>
    refine ⟨hpending, hwork, ?_⟩
    rw [merged_same Event.noConfusion]
    rw [hset, hidle] at hbalance
    exact hbalance
  | threadCount hrun =>
    refine ⟨hpending, hwork, ?_⟩
    rw [merged_same Event.noConfusion]
    rw [hrun] at hbalance
    show s.bhDone + 1 + s.wake.toNat + 0 + s.counted + merged tr = s.irqHits
    simp only [Thread.toCount] at hbalance
    omega
  | threadReturn hrun =>
    refine ⟨hpending, hwork, ?_⟩
    rw [merged_same Event.noConfusion]
    rw [hrun] at hbalance
    exact hbalance
  | workStart hset =>
    rw [hpending] at hset
    cases hset
  | workCount hrun =>
    rw [hwork] at hrun
    cases hrun
  | workRead hrun =>
    rw [hwork] at hrun
    cases hrun
  | workReturn hrun =>
    rw [hwork] at hrun
    cases hrun
  | cancelWorkSync =>
    refine ⟨rfl, hwork, ?_⟩
    rw [merged_same Event.noConfusion]
    exact hbalance
  | _ =>
    refine ⟨hpending, hwork, ?_⟩
    rw [merged_same Event.noConfusion]
    exact hbalance

theorem threadCounts_run {mode : Int} (hm : mode ≠ 0) {s t : State} {tr : Trace} (hs : Fresh s)
    (h : Run (step (.irqbh mode)) s tr t) (hload : Each SameLoad tr) : ThreadCounts tr t :=
  h.guarded hload hs.threadCounts fun _ _ _ _ _ _ hI hP hstep => threadCounts_step hm hI hP hstep

/-- From a freshly loaded module in a mode with an irq thread, in every state where the wake flag is
clear and the thread is not running, `bh_done` equals `irq_hits` exactly when no handler so far
returned while the flag was set and none stands between its increment and its return. -/
theorem threadFn_counts_every_interrupt_iff (mode : Int) (hm : mode ≠ 0) (s t : State) (tr : Trace)
    (hs : Fresh s) (h : Run (step (.irqbh mode)) s tr t) (hload : Each SameLoad tr)
    (hwake : t.wake = false) (hthread : t.thread = .idle) :
    t.bhDone = t.irqHits ↔ Each WakeClear tr ∧ t.counted = 0 := by
  have hbalance := (threadCounts_run hm hs h hload).balance
  rw [hwake, hthread, Bool.toNat_false] at hbalance
  simp only [Thread.toCount] at hbalance
  rw [← merged_eq_zero_iff]
  omega

/-- Two interrupts, the second after the thread took the first -/
theorem threadFn_counts_every_interrupt_iff_spaced : ∃ tr t,
    Run (step (.irqbh 1)) State.loaded tr t ∧
    tr.map Record.event = armEvents ++ [.hardEnter, .hardCount, .hardReturn, .threadStart, .edge,
      .hardEnter, .hardCount, .hardReturn, .threadCount, .threadReturn, .threadStart, .threadCount,
      .threadReturn] ∧
    t.irqHits = 2 ∧ (t.bhDone = t.irqHits ↔ Each WakeClear tr ∧ t.counted = 0) := by
  obtain ⟨tr, t, hrun, hev, hq⟩ := exists_exec (step (.irqbh 1)) State.loaded
    (armEvents ++ [.hardEnter, .hardCount, .hardReturn, .threadStart, .edge, .hardEnter, .hardCount,
      .hardReturn, .threadCount, .threadReturn, .threadStart, .threadCount, .threadReturn])
    (fun x => x.1.all resident && !x.2.wake && x.2.thread == .idle && x.2.irqHits == 2)
    (by decide +kernel)
  simp only [Bool.and_eq_true, Bool.not_eq_true', beq_iff_eq] at hq
  obtain ⟨⟨⟨hall, hwake⟩, hthread⟩, hhits⟩ := hq
  obtain ⟨hload, -⟩ := resident_of_all hall
  exact ⟨tr, t, hrun, hev, hhits, threadFn_counts_every_interrupt_iff 1 (by decide) _ t tr
    fresh_loaded hrun hload hwake hthread⟩

/-- Two interrupts before the thread is scheduled make it run once. -/
theorem threadFn_misses_interrupt : ¬ ∀ s t tr, Fresh s → Run (step (.irqbh 1)) s tr t →
    Each SameLoad tr → t.wake = false → t.thread = .idle → t.counted = 0 → t.bhDone = t.irqHits := by
  intro hall
  obtain ⟨tr, t, hrun, _, hq⟩ := exists_exec (step (.irqbh 1)) State.loaded
    (armEvents ++ burstEvents ++ [.threadStart, .threadCount, .threadReturn])
    (fun x => x.1.all resident && !x.2.wake && x.2.thread == .idle && x.2.counted == 0 &&
      x.2.irqHits == 2 && x.2.bhDone == 1) (by decide +kernel)
  simp only [Bool.and_eq_true, Bool.not_eq_true', beq_iff_eq] at hq
  obtain ⟨⟨⟨⟨⟨hrecs, hwake⟩, hthread⟩, hcounted⟩, hhits⟩, hdone⟩ := hq
  obtain ⟨hload, -⟩ := resident_of_all hrecs
  have hsame := hall _ t tr fresh_loaded hrun hload hwake hthread hcounted
  omega

end Thread

end LinuxDriverLab.Irq
