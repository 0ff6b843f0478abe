import LinuxDriverLab.Irq.Driver

/-!
# What an unloaded interrupt module leaves behind

A failing `misc_register` is returned as it is, with the line held and the action registered. When
no `misc_register` fails, every path to an unloaded module has torn down what was set up.
-/

namespace LinuxDriverLab.Irq

/-- Nothing of a module that is not loaded is left in the kernel. -/
def Clean (s : State) : Prop :=
  s.stage = .unloaded →
    s.gpio = none ∧ s.action = false ∧ s.entered = 0 ∧ s.counted = 0 ∧ s.wake = false ∧
      s.thread = .idle ∧ s.pending = false ∧ s.work = .idle

/-- The step is not a `misc_register` that fails. -/
def MiscRegisters (_ : List (Record State Event Shown)) (r : Record State Event Shown) : Prop :=
  ∀ e, r.event ≠ .miscRegister (some e)

def Stage.held : Stage → Bool
  | .unloaded | .gpioRequest => false
  | _ => true

def Stage.armed : Stage → Bool
  | .toggle _ | .miscRegister | .live | .miscDeregister | .freeIrq => true
  | _ => false

/-- The stages in which hard handlers and the irq thread may run. -/
def Stage.handling : Stage → Bool
  | .freeIrqWait => true
  | stage => stage.armed

/-- The stages in which the work item may be pending or running. -/
def Stage.working : Stage → Bool
  | .cancelWorkSync => true
  | stage => stage.handling

/-- What the stage says about the rest of the state. -/
structure Inv (m : Module) (s : State) : Prop where
  gpio : s.gpio.isSome = s.stage.held
  action : s.action = s.stage.armed
  handling : s.stage.handling = false →
    s.entered = 0 ∧ s.counted = 0 ∧ s.wake = false ∧ s.thread = .idle
  working : s.stage.working = false → s.pending = false ∧ s.work = .idle
  noWork : m.bottomHalf ≠ .work → s.pending = false ∧ s.work = .idle

theorem inv_init (m : Module) : Inv m State.init :=
  ⟨rfl, rfl, fun _ => ⟨rfl, rfl, rfl, rfl⟩, fun _ => ⟨rfl, rfl⟩, fun _ => ⟨rfl, rfl⟩⟩

theorem working_of_handling {stage : Stage} (h : stage.handling = true) : stage.working = true := by
  cases stage <;> first | rfl | cases h

theorem Inv.clean {m : Module} {s : State} (h : Inv m s) : Clean s := by
  intro hs
  obtain ⟨hentered, hcounted, hwake, hthread⟩ := h.handling (by rw [hs]; rfl)
  obtain ⟨hpending, hwork⟩ := h.working (by rw [hs]; rfl)
  have hgpio := h.gpio
  rw [hs] at hgpio
  have haction := h.action
  rw [hs] at haction
  exact ⟨Option.isSome_eq_false_iff.mp hgpio |> Option.isNone_iff_eq_none.mp, haction, hentered,
    hcounted, hwake, hthread, hpending, hwork⟩

theorem Inv.handling_of_busy {m : Module} {s : State} (h : Inv m s)
    (hbusy : 0 < s.entered ∨ 0 < s.counted ∨ s.wake = true ∨ s.thread ≠ .idle) :
    s.stage.handling = true := by
  by_contra hno
  obtain ⟨hentered, hcounted, hwake, hthread⟩ := h.handling (by simpa using hno)
  simp [hentered, hcounted, hwake, hthread] at hbusy

theorem Inv.working_of_busy {m : Module} {s : State} (h : Inv m s)
    (hbusy : s.pending = true ∨ s.work ≠ .idle) : s.stage.working = true := by
  by_contra hno
  obtain ⟨hpending, hwork⟩ := h.working (by simpa using hno)
  simp [hpending, hwork] at hbusy

theorem inv_call {m : Module} {s u : State} {e : Event} {o : Shown} (h : Inv m s)
    (he : e.isCall = true) (hmisc : ∀ err, e ≠ .miscRegister (some err))
    (hstep : step m s e = some (u, o)) : Inv m u := by
  obtain ⟨hgpio, haction, hhandling, hworking, hnoWork⟩ := h
  cases call_move he hstep with
  | load hs =>
    rw [hs] at hgpio haction hhandling hworking
    exact ⟨hgpio, haction, hhandling, hworking, hnoWork⟩
  | gpioRequestFails hs =>
    rw [hs] at hgpio haction hhandling hworking
    exact ⟨hgpio, haction, hhandling, hworking, hnoWork⟩
  | gpioRequest hs =>
    rw [hs] at haction hhandling hworking
    exact ⟨rfl, haction, hhandling, hworking, hnoWork⟩
  | requestIrqFails hs =>
    rw [hs] at hgpio haction hhandling hworking
    exact ⟨hgpio, haction, hhandling, hworking, hnoWork⟩
  | requestIrq hs =>
    rw [hs] at hgpio
    exact ⟨hgpio, rfl, nofun, nofun, hnoWork⟩
  | @toggle i hs =>
    rw [hs] at haction
    dsimp only [State.drive]
    split
    · exact ⟨rfl, haction, nofun, nofun, hnoWork⟩
    · exact ⟨rfl, haction, nofun, nofun, hnoWork⟩
  | miscRegisterFails => exact absurd rfl (hmisc _)
  | miscRegister hs =>
    rw [hs] at hgpio haction
    exact ⟨hgpio, haction, nofun, nofun, hnoWork⟩
  | unload hs =>
    rw [hs] at hgpio haction
    exact ⟨hgpio, haction, nofun, nofun, hnoWork⟩
  | miscDeregister hs =>
    rw [hs] at hgpio haction
    exact ⟨hgpio, haction, nofun, nofun, hnoWork⟩
  | freeIrq hs =>
    rw [hs] at hgpio
    exact ⟨hgpio, rfl, nofun, nofun, hnoWork⟩
  | freeIrqReturn hs hentered hcounted hwake hthread =>
    rw [hs] at hgpio haction
    cases m with
    | gpioirq =>
      -- no work item to wait for
      exact ⟨hgpio, haction, fun _ => ⟨hentered, hcounted, hwake, hthread⟩,
        fun _ => hnoWork nofun, hnoWork⟩
    | irqbh mode =>
      exact ⟨hgpio, haction, fun _ => ⟨hentered, hcounted, hwake, hthread⟩, nofun, hnoWork⟩
  | cancelWorkSync hs hwork =>
    rw [hs] at hgpio haction hhandling
    exact ⟨hgpio, haction, hhandling, fun _ => ⟨rfl, hwork⟩, fun _ => ⟨rfl, hwork⟩⟩
  | gpioSetLow hs =>
    rw [hs] at haction hhandling hworking
    exact ⟨rfl, haction, hhandling, hworking, hnoWork⟩
  | gpioFreeUndo hs =>
    rw [hs] at haction hhandling hworking
    exact ⟨rfl, haction, hhandling, hworking, hnoWork⟩
  | gpioFree hs =>
    rw [hs] at haction hhandling hworking
    exact ⟨rfl, haction, hhandling, hworking, hnoWork⟩
  | _ => simp [Event.isCall] at he

theorem Inv.of_handling {m : Module} {s u : State} (h : Inv m s) (hstage : s.stage.handling = true)
    (hsame : u.stage = s.stage) (hgpio : u.gpio = s.gpio) (haction : u.action = s.action)
    (hpending : u.pending = s.pending) (hwork : u.work = s.work) : Inv m u := by
  refine ⟨?_, ?_, fun hno => ?_, ?_, ?_⟩
  · rw [hgpio, hsame]
    exact h.gpio
  · rw [haction, hsame]
    exact h.action
  · rw [hsame, hstage] at hno
    cases hno
  · rw [hsame, hpending, hwork]
    exact h.working
  · rw [hpending, hwork]
    exact h.noWork

theorem Inv.of_working {m : Module} {s u : State} (h : Inv m s) (hm : m.bottomHalf = .work)
    (hstage : s.stage.working = true) (hsame : u.stage = s.stage) (hgpio : u.gpio = s.gpio)
    (haction : u.action = s.action)
    (hhard : s.stage.handling = false → u.entered = 0 ∧ u.counted = 0 ∧ u.wake = false ∧
      u.thread = .idle) : Inv m u := by
  refine ⟨?_, ?_, ?_, fun hno => ?_, fun hne => absurd hm hne⟩
  · rw [hgpio, hsame]
    exact h.gpio
  · rw [haction, hsame]
    exact h.action
  · rw [hsame]
    exact hhard
  · rw [hsame, hstage] at hno
    cases hno

theorem Inv.bottomHalf_of_busy {m : Module} {s : State} (h : Inv m s)
    (hbusy : s.pending = true ∨ s.work ≠ .idle) : m.bottomHalf = .work := by
  by_contra hne
  obtain ⟨hpending, hwork⟩ := h.noWork hne
  simp [hpending, hwork] at hbusy

theorem inv_step {m : Module} {s u : State} {e : Event} {o : Shown} (h : Inv m s)
    (hmisc : ∀ err, e ≠ .miscRegister (some err)) (hstep : step m s e = some (u, o)) : Inv m u := by
  cases step_move hstep with
  | edge => exact ⟨h.gpio, h.action, h.handling, h.working, h.noWork⟩
  | hardEnter haction =>
    have hstage : s.stage.handling = true := by
      have hs := h.action
      rw [haction] at hs
      cases hstage : s.stage <;> simp [hstage, Stage.armed] at hs <;> rfl
    exact h.of_handling hstage rfl rfl rfl rfl rfl
  | hardCount hin => exact h.of_handling (h.handling_of_busy (.inl hin)) rfl rfl rfl rfl rfl
  | hardReturn hin =>
    have hstage := h.handling_of_busy (.inr (.inl hin))
    cases hb : m.bottomHalf with
    | none => exact h.of_handling hstage rfl rfl rfl rfl rfl
    | work =>
      refine h.of_working hb (working_of_handling hstage) rfl rfl rfl fun hno => ?_
      rw [hstage] at hno
      cases hno
    | thread => exact h.of_handling hstage rfl rfl rfl rfl rfl
  | threadStart hwake =>
    exact h.of_handling (h.handling_of_busy (.inr (.inr (.inl hwake)))) rfl rfl rfl rfl rfl
  | threadCount hrun =>
    have hstage := h.handling_of_busy (.inr (.inr (.inr (by simp [hrun]))))
    exact h.of_handling hstage rfl rfl rfl rfl rfl
  | threadReturn hrun =>
    have hstage := h.handling_of_busy (.inr (.inr (.inr (by simp [hrun]))))
    exact h.of_handling hstage rfl rfl rfl rfl rfl
  | workStart hpending =>
    have hbusy : s.pending = true ∨ s.work ≠ .idle := .inl hpending
    exact h.of_working (h.bottomHalf_of_busy hbusy) (h.working_of_busy hbusy) rfl rfl rfl h.handling
  | workCount hrun =>
    have hbusy : s.pending = true ∨ s.work ≠ .idle := .inr (by simp [hrun])
    exact h.of_working (h.bottomHalf_of_busy hbusy) (h.working_of_busy hbusy) rfl rfl rfl h.handling
  | workRead hrun =>
    have hbusy : s.pending = true ∨ s.work ≠ .idle := .inr (by simp [hrun])
    exact h.of_working (h.bottomHalf_of_busy hbusy) (h.working_of_busy hbusy) rfl rfl rfl h.handling
  | workReturn hrun =>
    have hbusy : s.pending = true ∨ s.work ≠ .idle := .inr (by simp [hrun])
    exact h.of_working (h.bottomHalf_of_busy hbusy) (h.working_of_busy hbusy) rfl rfl rfl h.handling
  | _ => exact inv_call h rfl hmisc hstep

/-- A `misc_register` that fails leaves a module that is not loaded and still holds its line. -/
theorem not_clean_of_miscRegister {m : Module} {s u : State} {err : Errno} {o : Shown} (h : Inv m s)
    (hstep : step m s (.miscRegister (some err)) = some (u, o)) : ¬ Clean u := by
  cases call_move rfl hstep with
  | miscRegisterFails hs =>
    intro hclean
    have hgpio := h.gpio
    rw [hs] at hgpio
    obtain ⟨hnone, -⟩ := hclean rfl
    simp [show s.gpio = none from hnone, Stage.held] at hgpio

/-- Every state of the run is clean. -/
def CleanRun (tr : List (Record State Event Shown)) (s : State) : Prop :=
  Each (fun _ r => Clean r.pre) tr ∧ Clean s

theorem inv_run {m : Module} {tr : List (Record State Event Shown)} {s : State}
    (h : Run (step m) State.init tr s) (hmisc : Each MiscRegisters tr) : Inv m s :=
  h.guarded (I := fun _ s => Inv m s) hmisc (inv_init m)
    fun _ _ _ _ _ _ hI hP hs => inv_step hI hP hs

/-- In every run of either module, an unloaded module leaves nothing behind in any state of the run
exactly when no `misc_register` of the run fails. -/
theorem unload_clean_iff_miscRegisters (m : Module) (tr : List (Record State Event Shown)) (s : State)
    (h : Run (step m) State.init tr s) : CleanRun tr s ↔ Each MiscRegisters tr := by
  unfold CleanRun
  induction h with
  | refl => exact ⟨fun _ => each_nil, fun _ => ⟨each_nil, (inv_init m).clean⟩⟩
  | @tail t u tr e o hrun hs ih =>
    rw [each_concat, each_concat]
    constructor
    · rintro ⟨⟨hpast, ht⟩, hu⟩
      have hmisc := ih.mp ⟨hpast, ht⟩
      refine ⟨hmisc, fun err he => ?_⟩
      obtain rfl : e = _ := he
      exact not_clean_of_miscRegister (inv_run hrun hmisc) hs hu
    · rintro ⟨hmisc, hlast⟩
      obtain ⟨hpast, ht⟩ := ih.mpr hmisc
      exact ⟨⟨hpast, ht⟩, (inv_step (inv_run hrun hmisc) hlast hs).clean⟩

/-- Loading up to the call of `misc_register`. -/
def loadEvents : List Event :=
  [.load, .gpioRequestOne none, .requestIrq none, .gpioSetValue, .gpioSetValue, .gpioSetValue,
    .gpioSetValue, .gpioSetValue, .gpioSetValue]

theorem unload_clean_iff_miscRegisters_irqbh : ∃ tr s,
    Run (step (.irqbh 0)) State.init tr s ∧
    tr.map Record.event = loadEvents ++ [.hardEnter, .hardCount, .hardReturn, .miscRegister none,
      .unload, .miscDeregister, .freeIrq, .freeIrqReturn, .workStart, .workCount, .workRead,
      .workReturn, .cancelWorkSync, .gpioSetValue, .gpioFree] ∧
    (CleanRun tr s ↔ Each MiscRegisters tr) := by
  obtain ⟨tr, s, hrun, hev, _⟩ := exists_exec (step (.irqbh 0)) State.init
    (loadEvents ++ [.hardEnter, .hardCount, .hardReturn, .miscRegister none, .unload,
      .miscDeregister, .freeIrq, .freeIrqReturn, .workStart, .workCount, .workRead, .workReturn,
      .cancelWorkSync, .gpioSetValue, .gpioFree]) (fun _ => true) (by decide +kernel)
  exact ⟨tr, s, hrun, hev, unload_clean_iff_miscRegisters _ tr s hrun⟩

/-- After a `misc_register` that fails with `-EBUSY` the module is gone, and its line and its irq
action are still there. -/
theorem miscRegister_failure_leaks : ¬ ∀ m tr s, Run (step m) State.init tr s → CleanRun tr s := by
  intro hall
  obtain ⟨tr, s, hrun, _, hq⟩ := exists_exec (step .gpioirq) State.init
    (loadEvents ++ [.miscRegister (some .ebusy)])
    (fun x => x.2.stage == .unloaded && x.2.gpio.isSome && x.2.action) (by decide +kernel)
  simp only [Bool.and_eq_true, beq_iff_eq] at hq
  obtain ⟨⟨hs, hgpio⟩, -⟩ := hq
  obtain ⟨hnone, -⟩ := (hall _ tr s hrun).2 hs
  simp [hnone] at hgpio

end LinuxDriverLab.Irq
