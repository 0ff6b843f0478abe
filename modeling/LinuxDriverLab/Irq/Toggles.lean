import LinuxDriverLab.Irq.BottomHalf

/-!
# The six toggles

The init functions drive their line from low six times and report how many interrupts came of it. Each
toggle is an edge; an edge that finds another one still latched is not seen. In the threaded mode a
handler that finds the wake flag set is not seen by the thread either.
-/

namespace LinuxDriverLab.Irq

/-- The level that the next `gpio_set_value` writes. -/
def Stage.level : Stage → Bool
  | .toggle i => i % 2 = 1
  | _ => false

/-- The toggles that are over, and the level of the line, while the module holds it. -/
def Stage.driven : Stage → Option (Nat × Bool)
  | .unloaded | .gpioRequest | .gpioFreeUndo _ => none
  | .requestIrq => some (0, false)
  | .toggle i => some (i - 1, i % 2 = 0)
  | _ => some (6, false)

/-- The loop of the init function is over. -/
def Stage.toggled : Stage → Bool
  | .unloaded | .gpioRequest | .gpioFreeUndo _ | .requestIrq | .toggle _ => false
  | _ => true

/-- An edge that the module makes itself -/
def toggles (r : Record State Event Shown) : Bool :=
  r.event == .gpioSetValue && r.pre.gpio != some r.pre.stage.level

/-- An edge from outside -/
def outside (r : Record State Event Shown) : Bool := r.event == .edge

/-- An edge that comes while another one is latched. -/
def unseen (r : Record State Event Shown) : Bool := (toggles r || outside r) && r.pre.raised

theorem countP_concat (p : Record State Event Shown → Bool) (tr : Trace)
    (r : Record State Event Shown) : (tr ++ [r]).countP p = tr.countP p + if p r then 1 else 0 := by
  rw [List.countP_append, List.countP_singleton]

section

variable {m : Module} {s t u : State} {tr : Trace} {e : Event} {o : Shown}

theorem toggles_eq_false (s : State) (o : Shown) (he : e ≠ .gpioSetValue) :
    toggles ⟨s, e, o⟩ = false := by
  simp [toggles, he]

theorem unseen_eq_false (s : State) (o : Shown) (he : e ≠ .gpioSetValue) (he' : e ≠ .edge) :
    unseen ⟨s, e, o⟩ = false := by
  simp [unseen, toggles, outside, he, he']

/-! ## The edges of the module -/

/-- How far the loop has come. -/
structure Driven (tr : Trace) (s : State) : Prop where
  bound : tr.countP toggles ≤ 6
  request : s.stage = .gpioRequest → tr.countP toggles = 0
  turn : ∀ i, s.stage = .toggle i → 1 ≤ i ∧ i ≤ 6
  line : ∀ n level, s.stage.driven = some (n, level) → tr.countP toggles = n ∧ s.gpio = some level

theorem Driven.of_request (hstage : s.stage = .gpioRequest) : Driven [] s := by
  refine ⟨Nat.zero_le 6, fun _ => rfl, fun i h => ?_, fun n level h => ?_⟩
  · rw [hstage] at h
    cases h
  · rw [hstage] at h
    cases h

theorem Driven.pass (h : Driven tr s) {r : Record State Event Shown} (hr : toggles r = false)
    (hrequest : u.stage = .gpioRequest → s.stage = .gpioRequest)
    (hturn : ∀ i, u.stage = .toggle i → s.stage = .toggle i)
    (hline : ∀ x, u.stage.driven = some x → s.stage.driven = some x ∧ u.gpio = s.gpio) :
    Driven (tr ++ [r]) u := by
  have hcount : (tr ++ [r]).countP toggles = tr.countP toggles := by rw [countP_concat, hr]; rfl
  refine ⟨hcount ▸ h.bound, fun hs => hcount ▸ h.request (hrequest hs),
    fun i hs => h.turn i (hturn i hs), ?_⟩
  intro n level hs
  obtain ⟨hdriven, hgpio⟩ := hline _ hs
  rw [hcount, hgpio]
  exact h.line n level hdriven

theorem driven_step (h : Driven tr s) (he : e ≠ .load) (hs : step m s e = some (u, o)) :
    Driven (tr ++ [⟨s, e, o⟩]) u := by
  have hquiet : e ≠ .gpioSetValue → toggles ⟨s, e, o⟩ = false := toggles_eq_false s o
  cases step_move hs with
  | load => exact absurd rfl he
  | gpioRequest hstage hgpio =>
    have hcount : (tr ++ [⟨s, .gpioRequestOne none, .quiet⟩] : Trace).countP toggles = 0 := by
      rw [countP_concat, hquiet Event.noConfusion, h.request hstage]
      rfl
    refine ⟨by omega, fun hs => (by cases hs), fun i hs => (by cases hs), ?_⟩
    rintro n level ⟨⟩
    exact ⟨hcount, rfl⟩
  | requestIrq hstage =>
    obtain ⟨hzero, hgpio⟩ := h.line 0 false (by rw [hstage]; rfl)
    have hcount : (tr ++ [⟨s, .requestIrq none, .quiet⟩] : Trace).countP toggles = 0 := by
      rw [countP_concat, hquiet Event.noConfusion, hzero]
      rfl
    refine ⟨by omega, fun hs => (by cases hs), ?_, ?_⟩
    · rintro i ⟨⟩
      exact ⟨Nat.le_refl 1, by decide⟩
    · rintro n level ⟨⟩
      exact ⟨hcount, hgpio⟩
  | @toggle i hstage =>
    obtain ⟨hlo, hhi⟩ := h.turn i hstage
    obtain ⟨hsofar, hgpio⟩ := h.line (i - 1) (decide (i % 2 = 0)) (by rw [hstage]; rfl)
    -- the line is at the other level, so this is an edge
    have hcount : (tr ++ [⟨s, .gpioSetValue, .quiet⟩] : Trace).countP toggles = i := by
      have hedge : toggles ⟨s, .gpioSetValue, .quiet⟩ = true := by
        simp only [toggles, hgpio, hstage, Stage.level, beq_self_eq_true, Bool.true_and, bne_iff_ne,
          ne_eq, Option.some.injEq, decide_eq_decide]
        omega
      rw [countP_concat, hedge, hsofar, if_pos rfl]
      omega
    by_cases hlast : i < 6
    · rw [if_pos hlast]
      refine ⟨by omega, fun hs => (by cases hs), ?_, ?_⟩
      · rintro j ⟨⟩
        omega
      · rintro n level ⟨⟩
        refine ⟨hcount, ?_⟩
        change some (decide (i % 2 = 1)) = some (decide ((i + 1) % 2 = 0))
        rw [Option.some.injEq, decide_eq_decide]
        omega
    · obtain rfl : i = 6 := by omega
      refine ⟨by omega, fun hs => (by cases hs), fun i hs => (by cases hs), ?_⟩
      rintro n level ⟨⟩
      exact ⟨hcount, rfl⟩
  | gpioSetLow hstage =>
    -- the line is low already
    obtain ⟨hcount, hgpio⟩ := h.line 6 false (by rw [hstage]; rfl)
    have hedge : toggles ⟨s, .gpioSetValue, .quiet⟩ = false := by
      simp [toggles, hgpio, hstage, Stage.level]
    refine h.pass hedge (fun hs => by cases hs) (fun i hs => by cases hs) fun x hx => ?_
    rw [hstage]
    exact ⟨hx, hgpio.symm⟩
  | miscRegister hstage | unload hstage | miscDeregister hstage | freeIrq hstage
  | cancelWorkSync hstage =>
    refine h.pass (hquiet Event.noConfusion) (fun hs => by cases hs) (fun i hs => by cases hs)
      fun x hx => ?_
    rw [hstage]
    exact ⟨hx, rfl⟩
  | freeIrqReturn hstage =>
    refine h.pass (hquiet Event.noConfusion) (fun hs => ?_) (fun i hs => ?_) fun x hx => ?_
    · cases m <;> cases hs
    · cases m <;> cases hs
    · rw [hstage]
      cases m <;> exact ⟨hx, rfl⟩
  | gpioRequestFails | requestIrqFails | miscRegisterFails | gpioFreeUndo | gpioFree =>
    refine h.pass (hquiet Event.noConfusion) (fun hs => by cases hs) (fun i hs => by cases hs)
      fun x hx => ?_
    cases hx
  | hardReturn =>
    refine h.pass (hquiet Event.noConfusion) ?_ ?_ ?_ <;> cases m.bottomHalf <;>
      first | exact id | exact fun _ => id | exact fun x hx => ⟨hx, rfl⟩
  | _ =>
    exact h.pass (hquiet Event.noConfusion) id (fun _ => id) fun x hx => ⟨hx, rfl⟩

/-! ## The interrupts -/

/-- Every edge is latched, or handled, or was not seen. -/
def Balanced (raised : Bool) (tr : Trace) (s : State) : Prop :=
  s.irqHits + s.entered + s.raised.toNat + tr.countP unseen =
    raised.toNat + tr.countP toggles + tr.countP outside

theorem balanced_step {raised : Bool} (h : Balanced raised tr s) (he : e ≠ .load)
    (hs : step m s e = some (u, o)) : Balanced raised (tr ++ [⟨s, e, o⟩]) u := by
  have hquiet : e ≠ .gpioSetValue → e ≠ .edge → u.irqHits + u.entered + u.raised.toNat =
      s.irqHits + s.entered + s.raised.toNat → Balanced raised (tr ++ [⟨s, e, o⟩]) u := by
    intro hset hedge hsum
    have hout : outside ⟨s, e, o⟩ = false := by simp [outside, hedge]
    unfold Balanced at h ⊢
    rw [countP_concat, countP_concat, countP_concat, toggles_eq_false s o hset,
      unseen_eq_false s o hset hedge, hout, hsum]
    exact h
  -- an edge is latched, unless one is latched already
  have hlatch : ∀ b : Bool, (toggles ⟨s, e, o⟩ || outside ⟨s, e, o⟩) = b →
      (toggles ⟨s, e, o⟩ && outside ⟨s, e, o⟩) = false →
      u.irqHits = s.irqHits → u.entered = s.entered → u.raised = (s.raised || b) →
      Balanced raised (tr ++ [⟨s, e, o⟩]) u := by
    intro b hb hone hhits hentered hraised
    unfold Balanced at h ⊢
    rw [countP_concat, countP_concat, countP_concat, unseen, hhits, hentered, hraised]
    cases htog : toggles ⟨s, e, o⟩ <;> cases hout : outside ⟨s, e, o⟩ <;> cases hr : s.raised <;>
      simp_all <;> omega
  cases step_move hs with
  | load => exact absurd rfl he
  | edge => exact hlatch true (by simp [outside]) (by simp [toggles]) rfl rfl (by simp)
  | @toggle i hstage =>
    refine hlatch (s.gpio != some (decide (i % 2 = 1))) ?_ (by simp [outside]) rfl rfl rfl
    simp [toggles, outside, hstage, Stage.level]
  | gpioSetLow hstage =>
    refine hlatch (s.gpio != some false) ?_ (by simp [outside]) rfl rfl rfl
    simp [toggles, outside, hstage, Stage.level]
  | hardEnter _ hraised =>
    refine hquiet Event.noConfusion Event.noConfusion ?_
    rw [hraised]
    exact (Nat.add_right_comm _ _ _).symm
  | hardCount hin =>
    refine hquiet Event.noConfusion Event.noConfusion ?_
    show s.irqHits + 1 + (s.entered - 1) + s.raised.toNat = _
    omega
  | hardReturn =>
    refine hquiet Event.noConfusion Event.noConfusion ?_
    cases m.bottomHalf <;> rfl
  | _ => exact hquiet Event.noConfusion Event.noConfusion rfl

theorem driven_run (hstage : s.stage = .gpioRequest) (h : Run (step m) s tr t)
    (hload : Each SameLoad tr) : Driven tr t :=
  h.guarded hload (.of_request hstage) fun _ _ _ _ _ _ hI hP hstep => driven_step hI hP hstep

theorem balanced_run (hs : Fresh s) (h : Run (step m) s tr t) (hload : Each SameLoad tr) :
    Balanced s.raised tr t := by
  refine h.guarded hload ?_ fun _ _ _ _ _ _ hI hP hstep => balanced_step hI hP hstep
  rw [Balanced, hs.irqHits, hs.entered]
  simp

theorem Driven.of_toggled (h : Driven tr s) (hs : s.stage.toggled) : tr.countP toggles = 6 := by
  have hdriven : s.stage.driven = some (6, false) := by
    cases hstage : s.stage <;> simp_all [Stage.toggled, Stage.driven]
  exact (h.line 6 false hdriven).1

/-- From a load on, the edges of the line are accounted for. After the loop the module has made six; if no
other edge came, the counter shows 6 exactly when none of them was latched over another and none is
on its way, and in the threaded mode the thread has run six times exactly when in addition no handler
found the wake flag set and none of its runs is still to come. -/
theorem six_toggles (m : Module) (s t : State) (tr : Trace) (hs : Fresh s)
    (hstage : s.stage = .gpioRequest) (h : Run (step m) s tr t) (hload : Each SameLoad tr) :
    t.irqHits + t.entered + t.raised.toNat + tr.countP unseen =
      s.raised.toNat + tr.countP toggles + tr.countP outside ∧
    tr.countP toggles ≤ 6 ∧
    (t.stage.toggled → tr.countP toggles = 6 ∧ (s.raised = false → tr.countP outside = 0 →
      (t.irqHits = 6 ↔ tr.countP unseen = 0 ∧ t.entered = 0 ∧ t.raised = false) ∧
      ∀ mode, mode ≠ 0 → m = .irqbh mode → (t.bhDone = 6 ↔ t.irqHits = 6 ∧ merged tr = 0 ∧
        t.wake = false ∧ t.thread.toCount = 0 ∧ t.counted = 0))) := by
  have hdriven := driven_run hstage h hload
  have hbalance : t.irqHits + t.entered + t.raised.toNat + tr.countP unseen =
      s.raised.toNat + tr.countP toggles + tr.countP outside := balanced_run hs h hload
  refine ⟨hbalance, hdriven.bound, fun htoggled => ⟨hdriven.of_toggled htoggled, ?_⟩⟩
  intro hraised hout
  rw [hdriven.of_toggled htoggled, hraised, hout, Bool.toNat_false] at hbalance
  have hlatched : t.raised = false ↔ t.raised.toNat = 0 := by cases t.raised <;> simp
  constructor
  · rw [hlatched]
    omega
  · rintro mode hm rfl
    have hthread := (threadCounts_run hm hs h hload).balance
    have hwake : t.wake = false ↔ t.wake.toNat = 0 := by cases t.wake <;> simp
    rw [hwake]
    omega

end

/-- One edge, seen by the handler and by the thread -/
def seenEdge : List Event :=
  [.gpioSetValue, .hardEnter, .hardCount, .hardReturn, .threadStart, .threadCount, .threadReturn]

/-- A load that takes every edge before the next one. -/
theorem six_toggles_spaced : ∃ tr t, Run (step (.irqbh 1)) State.loaded tr t ∧
    tr.map Record.event =
      [.gpioRequestOne none, .requestIrq none] ++ (List.replicate 6 seenEdge).flatten ∧
    t.stage = .miscRegister ∧ t.irqHits = 6 ∧ t.bhDone = 6 := by
  obtain ⟨tr, t, hrun, hev, hq⟩ := exists_exec (step (.irqbh 1)) State.loaded
    ([.gpioRequestOne none, .requestIrq none] ++ (List.replicate 6 seenEdge).flatten)
    (fun x => x.1.all resident && x.2.stage == .miscRegister && x.1.countP outside == 0 &&
      x.1.countP unseen == 0 && x.2.entered == 0 && x.2.raised == false && merged x.1 == 0 &&
      x.2.wake == false && x.2.thread.toCount == 0 && x.2.counted == 0) (by decide +kernel)
  simp only [Bool.and_eq_true, beq_iff_eq] at hq
  obtain ⟨⟨⟨⟨⟨⟨⟨⟨⟨hall, hstage⟩, hout⟩, hunseen⟩, hentered⟩, hraised⟩, hmerged⟩, hwake⟩, hthread⟩,
    hcounted⟩ := hq
  obtain ⟨-, -, hover⟩ := six_toggles (.irqbh 1) State.loaded t tr fresh_loaded rfl hrun
    (resident_of_all hall).1
  obtain ⟨hhits, hdone⟩ := (hover (by rw [hstage]; rfl)).2 rfl hout
  have hsix := hhits.mpr ⟨hunseen, hentered, hraised⟩
  exact ⟨tr, t, hrun, hev, hstage, hsix,
    (hdone 1 (by decide) rfl).mpr ⟨hsix, hmerged, hwake, hthread, hcounted⟩⟩

end LinuxDriverLab.Irq
