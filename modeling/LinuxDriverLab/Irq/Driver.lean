import LinuxDriverLab.Framework.Run
import LinuxDriverLab.Kernel.UserCopy

/-!
# The gpioirq and irqbh modules

Both modules drive a GPIO line as an output and take an interrupt on each of its edges. `gpioirq`
only counts; `irqbh` hands the slow part to a work item (`mode` 0) or to an irq thread. The two init
functions and the two exit functions make the same calls, apart from `irqbh`'s `cancel_work_sync`.

The interrupt core is part of the system: an edge is latched until the hard handler runs, the wake
flag of an action and the pending mark of a work item are single bits, and `free_irq` and
`cancel_work_sync` return when what they wait for is over.
-/

namespace LinuxDriverLab.Irq

inductive Module
  | gpioirq
  | irqbh (mode : Int)
deriving DecidableEq

inductive BottomHalf
  | none
  | work
  | thread
deriving DecidableEq

/-- What the hard handler leaves to do after it. -/
def Module.bottomHalf : Module → BottomHalf
  | .gpioirq => .none
  | .irqbh mode => if mode = 0 then .work else .thread

/-- Where the init or the exit function stands: the call it makes next. -/
inductive Stage
  | unloaded
  | gpioRequest
  | requestIrq
  | gpioFreeUndo (err : Errno)
  | toggle (i : Nat)
  | miscRegister
  | live
  | miscDeregister
  | freeIrq
  | freeIrqWait
  | cancelWorkSync
  | gpioSetLow
  | gpioFree
deriving DecidableEq

/-- A run of the irq thread's function -/
inductive Thread
  | idle
  | started
  | counted
deriving DecidableEq

/-- A run of `wq_fn` -/
inductive Work
  | idle
  | started
  | counted
  | read
deriving DecidableEq

/-- The hard handlers in flight are those that have `entered` and those that have `counted`; the
counters are exact numbers. -/
structure State where
  stage : Stage
  gpio : Option Bool
  raised : Bool
  action : Bool
  entered : Nat
  counted : Nat
  wake : Bool
  thread : Thread
  pending : Bool
  work : Work
  irqHits : Nat
  bhDone : Nat
  lastHit : Nat

def State.init : State :=
  ⟨.unloaded, none, false, false, 0, 0, false, .idle, false, .idle, 0, 0, 0⟩

inductive Event
  | load
  | gpioRequestOne (err : Option Errno)
  | requestIrq (err : Option Errno)
  | gpioSetValue
  | miscRegister (err : Option Errno)
  | unload
  | miscDeregister
  | freeIrq
  | freeIrqReturn
  | cancelWorkSync
  | gpioFree
  | edge
  | hardEnter
  | hardCount
  | hardReturn
  | threadStart
  | threadCount
  | threadReturn
  | workStart
  | workCount
  | workRead
  | workReturn
deriving DecidableEq

inductive Shown
  | quiet
  | initReturned (ret : Int)
  | exitReturned
deriving DecidableEq

/-- `gpio_set_value`; a change of level is an edge -/
def State.drive (s : State) (level : Bool) : State :=
  { s with gpio := some level, raised := s.raised || s.gpio != some level }

/-- What the hard handler does after it has counted the interrupt. -/
def State.handOver (s : State) : BottomHalf → State
  | .none => s
  | .work => { s with pending := true }
  | .thread => { s with wake := true }

/-- The stage after `free_irq` -/
def Module.afterFreeIrq : Module → Stage
  | .gpioirq => .gpioSetLow
  | .irqbh _ => .cancelWorkSync

def step (m : Module) (s : State) : Event → Option (State × Shown)
  | .load =>
    match s.stage with
    | .unloaded =>
      some ({ s with stage := .gpioRequest, irqHits := 0, bhDone := 0, lastHit := 0 }, .quiet)
    | _ => none
  | .gpioRequestOne err =>
    match s.stage, err with
    | .gpioRequest, some e => some ({ s with stage := .unloaded }, .initReturned e.ret)
    | .gpioRequest, none =>
      -- a line that is held is refused
      if s.gpio.isNone then some ({ s with stage := .requestIrq, gpio := some false }, .quiet)
      else none
    | _, _ => none
  | .requestIrq err =>
    match s.stage, err with
    | .requestIrq, some e => some ({ s with stage := .gpioFreeUndo e }, .quiet)
    | .requestIrq, none =>
      if s.action then none else some ({ s with stage := .toggle 1, action := true }, .quiet)
    | _, _ => none
  | .gpioSetValue =>
    match s.stage with
    | .toggle i =>
      some ({ s.drive (i % 2 = 1) with
              stage := if i < 6 then .toggle (i + 1) else .miscRegister }, .quiet)
    | .gpioSetLow => some ({ s.drive false with stage := .gpioFree }, .quiet)
    | _ => none
  | .miscRegister err =>
    match s.stage, err with
    | .miscRegister, some e => some ({ s with stage := .unloaded }, .initReturned e.ret)
    | .miscRegister, none => some ({ s with stage := .live }, .initReturned 0)
    | _, _ => none
  | .unload =>
    match s.stage with
    | .live => some ({ s with stage := .miscDeregister }, .quiet)
    | _ => none
  | .miscDeregister =>
    match s.stage with
    | .miscDeregister => some ({ s with stage := .freeIrq }, .quiet)
    | _ => none
  | .freeIrq =>
    match s.stage with
    | .freeIrq => some ({ s with stage := .freeIrqWait, action := false }, .quiet)
    | _ => none
  | .freeIrqReturn =>
    match s.stage with
    | .freeIrqWait =>
      if s.entered = 0 ∧ s.counted = 0 ∧ s.wake = false ∧ s.thread = .idle then
        some ({ s with stage := m.afterFreeIrq }, .quiet)
      else none
    | _ => none
  | .cancelWorkSync =>
    match s.stage with
    | .cancelWorkSync =>
      if s.work = .idle then some ({ s with stage := .gpioSetLow, pending := false }, .quiet)
      else none
    | _ => none
  | .gpioFree =>
    match s.stage with
    | .gpioFreeUndo e => some ({ s with stage := .unloaded, gpio := none }, .initReturned e.ret)
    | .gpioFree => some ({ s with stage := .unloaded, gpio := none }, .exitReturned)
    | _ => none
  | .edge => some ({ s with raised := true }, .quiet)
  | .hardEnter =>
    if s.action ∧ s.raised then some ({ s with raised := false, entered := s.entered + 1 }, .quiet)
    else none
  | .hardCount =>
    if 0 < s.entered then
      some ({ s with entered := s.entered - 1, counted := s.counted + 1,
                     irqHits := s.irqHits + 1 }, .quiet)
    else none
  | .hardReturn =>
    if 0 < s.counted then
      some ({ s with counted := s.counted - 1 }.handOver m.bottomHalf, .quiet)
    else none
  | .threadStart =>
    if s.wake ∧ s.thread = .idle then some ({ s with wake := false, thread := .started }, .quiet)
    else none
  | .threadCount =>
    if s.thread = .started then some ({ s with thread := .counted, bhDone := s.bhDone + 1 }, .quiet)
    else none
  | .threadReturn =>
    if s.thread = .counted then some ({ s with thread := .idle }, .quiet) else none
  | .workStart =>
    if s.pending ∧ s.work = .idle then some ({ s with pending := false, work := .started }, .quiet)
    else none
  | .workCount =>
    if s.work = .started then some ({ s with work := .counted, bhDone := s.bhDone + 1 }, .quiet)
    else none
  | .workRead =>
    if s.work = .counted then some ({ s with work := .read, lastHit := s.irqHits }, .quiet)
    else none
  | .workReturn =>
    if s.work = .read then some ({ s with work := .idle }, .quiet) else none

/-- The cases of `step`. -/
inductive Move (m : Module) (s : State) : Event → State → Shown → Prop
  | load (h : s.stage = .unloaded) :
      Move m s .load { s with stage := .gpioRequest, irqHits := 0, bhDone := 0, lastHit := 0 } .quiet
  | gpioRequestFails {e} (h : s.stage = .gpioRequest) :
      Move m s (.gpioRequestOne (some e)) { s with stage := .unloaded } (.initReturned e.ret)
  | gpioRequest (h : s.stage = .gpioRequest) (hgpio : s.gpio = none) :
      Move m s (.gpioRequestOne none) { s with stage := .requestIrq, gpio := some false } .quiet
  | requestIrqFails {e} (h : s.stage = .requestIrq) :
      Move m s (.requestIrq (some e)) { s with stage := .gpioFreeUndo e } .quiet
  | requestIrq (h : s.stage = .requestIrq) (haction : s.action = false) :
      Move m s (.requestIrq none) { s with stage := .toggle 1, action := true } .quiet
  | toggle {i} (h : s.stage = .toggle i) :
      Move m s .gpioSetValue
        { s.drive (i % 2 = 1) with stage := if i < 6 then .toggle (i + 1) else .miscRegister } .quiet
  | miscRegisterFails {e} (h : s.stage = .miscRegister) :
      Move m s (.miscRegister (some e)) { s with stage := .unloaded } (.initReturned e.ret)
  | miscRegister (h : s.stage = .miscRegister) :
      Move m s (.miscRegister none) { s with stage := .live } (.initReturned 0)
  | unload (h : s.stage = .live) : Move m s .unload { s with stage := .miscDeregister } .quiet
  | miscDeregister (h : s.stage = .miscDeregister) :
      Move m s .miscDeregister { s with stage := .freeIrq } .quiet
  | freeIrq (h : s.stage = .freeIrq) :
      Move m s .freeIrq { s with stage := .freeIrqWait, action := false } .quiet
  | freeIrqReturn (h : s.stage = .freeIrqWait) (hentered : s.entered = 0) (hcounted : s.counted = 0)
      (hwake : s.wake = false) (hthread : s.thread = .idle) :
      Move m s .freeIrqReturn { s with stage := m.afterFreeIrq } .quiet
  | cancelWorkSync (h : s.stage = .cancelWorkSync) (hwork : s.work = .idle) :
      Move m s .cancelWorkSync { s with stage := .gpioSetLow, pending := false } .quiet
  | gpioSetLow (h : s.stage = .gpioSetLow) :
      Move m s .gpioSetValue { s.drive false with stage := .gpioFree } .quiet
  | gpioFreeUndo {e} (h : s.stage = .gpioFreeUndo e) :
      Move m s .gpioFree { s with stage := .unloaded, gpio := none } (.initReturned e.ret)
  | gpioFree (h : s.stage = .gpioFree) :
      Move m s .gpioFree { s with stage := .unloaded, gpio := none } .exitReturned
  | edge : Move m s .edge { s with raised := true } .quiet
  | hardEnter (h : s.action = true) (hraised : s.raised = true) :
      Move m s .hardEnter { s with raised := false, entered := s.entered + 1 } .quiet
  | hardCount (h : 0 < s.entered) :
      Move m s .hardCount
        { s with entered := s.entered - 1, counted := s.counted + 1, irqHits := s.irqHits + 1 } .quiet
  | hardReturn (h : 0 < s.counted) :
      Move m s .hardReturn ({ s with counted := s.counted - 1 }.handOver m.bottomHalf) .quiet
  | threadStart (h : s.wake = true) (hidle : s.thread = .idle) :
      Move m s .threadStart { s with wake := false, thread := .started } .quiet
  | threadCount (h : s.thread = .started) :
      Move m s .threadCount { s with thread := .counted, bhDone := s.bhDone + 1 } .quiet
  | threadReturn (h : s.thread = .counted) :
      Move m s .threadReturn { s with thread := .idle } .quiet
  | workStart (h : s.pending = true) (hidle : s.work = .idle) :
      Move m s .workStart { s with pending := false, work := .started } .quiet
  | workCount (h : s.work = .started) :
      Move m s .workCount { s with work := .counted, bhDone := s.bhDone + 1 } .quiet
  | workRead (h : s.work = .counted) :
      Move m s .workRead { s with work := .read, lastHit := s.irqHits } .quiet
  | workReturn (h : s.work = .read) : Move m s .workReturn { s with work := .idle } .quiet

/-- The calls of the init and exit functions. -/
def Event.isCall : Event → Bool
  | .load | .gpioRequestOne _ | .requestIrq _ | .gpioSetValue | .miscRegister _ | .unload
  | .miscDeregister | .freeIrq | .freeIrqReturn | .cancelWorkSync | .gpioFree => true
  | _ => false

theorem call_move {m : Module} {s u : State} {e : Event} {o : Shown} (he : e.isCall = true)
    (h : step m s e = some (u, o)) : Move m s e u o := by
  cases e with
  | load =>
    simp only [step] at h
    split at h
    · next hs =>
      cases h
      exact .load hs
    · cases h
  | gpioRequestOne err =>
    simp only [step] at h
    split at h
    · next hs =>
      cases h
      exact .gpioRequestFails hs
    · next hs =>
      split at h
      · next hgpio =>
        cases h
        exact .gpioRequest hs (Option.isNone_iff_eq_none.mp hgpio)
      · cases h
    · cases h
  | requestIrq err =>
    simp only [step] at h
    split at h
    · next hs =>
      cases h
      exact .requestIrqFails hs
    · next hs =>
      split at h
      · cases h
      · next haction =>
        cases h
        exact .requestIrq hs (by simpa using haction)
    · cases h
  | gpioSetValue =>
    simp only [step] at h
    split at h
    · next i hs =>
      cases h
      exact .toggle hs
    · next hs =>
      cases h
      exact .gpioSetLow hs
    · cases h
  | miscRegister err =>
    simp only [step] at h
    split at h
    · next hs =>
      cases h
      exact .miscRegisterFails hs
    · next hs =>
      cases h
      exact .miscRegister hs
    · cases h
  | unload =>
    simp only [step] at h
    split at h
    · next hs =>
      cases h
      exact .unload hs
    · cases h
  | miscDeregister =>
    simp only [step] at h
    split at h
    · next hs =>
      cases h
      exact .miscDeregister hs
    · cases h
  | freeIrq =>
    simp only [step] at h
    split at h
    · next hs =>
      cases h
      exact .freeIrq hs
    · cases h
  | freeIrqReturn =>
    simp only [step] at h
    split at h
    · next hs =>
      split at h
      · next hquiet =>
        cases h
        obtain ⟨hentered, hcounted, hwake, hthread⟩ := hquiet
        exact .freeIrqReturn hs hentered hcounted hwake hthread
      · cases h
    · cases h
  | cancelWorkSync =>
    simp only [step] at h
    split at h
    · next hs =>
      split at h
      · next hwork =>
        cases h
        exact .cancelWorkSync hs hwork
      · cases h
    · cases h
  | gpioFree =>
    simp only [step] at h
    split at h
    · next hs =>
      cases h
      exact .gpioFreeUndo hs
    · next hs =>
      cases h
      exact .gpioFree hs
    · cases h
  | _ => simp [Event.isCall] at he

theorem step_move {m : Module} {s u : State} {e : Event} {o : Shown}
    (h : step m s e = some (u, o)) : Move m s e u o := by
  cases e with
  | edge =>
    cases h
    exact .edge
  | hardEnter =>
    simp only [step, Option.ite_none_right_eq_some] at h
    obtain ⟨hc, h⟩ := h
    cases h
    exact .hardEnter hc.1 hc.2
  | hardCount =>
    simp only [step, Option.ite_none_right_eq_some] at h
    obtain ⟨hc, h⟩ := h
    cases h
    exact .hardCount hc
  | hardReturn =>
    simp only [step, Option.ite_none_right_eq_some] at h
    obtain ⟨hc, h⟩ := h
    cases h
    exact .hardReturn hc
  | threadStart =>
    simp only [step, Option.ite_none_right_eq_some] at h
    obtain ⟨hc, h⟩ := h
    cases h
    exact .threadStart hc.1 hc.2
  | threadCount =>
    simp only [step, Option.ite_none_right_eq_some] at h
    obtain ⟨hc, h⟩ := h
    cases h
    exact .threadCount hc
  | threadReturn =>
    simp only [step, Option.ite_none_right_eq_some] at h
    obtain ⟨hc, h⟩ := h
    cases h
    exact .threadReturn hc
  | workStart =>
    simp only [step, Option.ite_none_right_eq_some] at h
    obtain ⟨hc, h⟩ := h
    cases h
    exact .workStart hc.1 hc.2
  | workCount =>
    simp only [step, Option.ite_none_right_eq_some] at h
    obtain ⟨hc, h⟩ := h
    cases h
    exact .workCount hc
  | workRead =>
    simp only [step, Option.ite_none_right_eq_some] at h
    obtain ⟨hc, h⟩ := h
    cases h
    exact .workRead hc
  | workReturn =>
    simp only [step, Option.ite_none_right_eq_some] at h
    obtain ⟨hc, h⟩ := h
    cases h
    exact .workReturn hc
  | _ => exact call_move rfl h

end LinuxDriverLab.Irq
