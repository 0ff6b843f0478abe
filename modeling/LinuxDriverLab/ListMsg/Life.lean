import LinuxDriverLab.ListMsg.Store

/-!
# listmsg from load to unload

The messages are freed by `LISTMSG_CLEAR`, by a write that faults and by `lm_exit`. The kernel lets
`lm_exit` run when no file is open and no task is in a call; the memory that is allocated outlives
the module.
-/

namespace LinuxDriverLab.ListMsg

/-- The loop of `lm_exit`, before `misc_deregister` -/
def lmExit (h : Heap Msg) : Option (Heap Msg) :=
  h.listForEachEntrySafe fun h m => do
    let h ← h.listDel m
    h.kfree m

/-- The data of the module with the memory allocated for it, the files that are open, and the tasks
that are in a call. -/
structure Module where
  loaded : Bool
  data : State
  opened : Finset File
  busy : Finset Task

/-- `LIST_HEAD`, `msg_count` and the lock of a module just loaded, with what is allocated already. -/
def State.load (h : Heap Msg) : State :=
  ⟨{ Heap.empty h with live := h.live, freed := h.freed }, 0, fun _ => .no, fun _ => .idle⟩

def Module.init (junk : Heap Msg) : Module := ⟨false, State.init junk, ∅, ∅⟩

/-- `lm_init` with the answer of `misc_register`, `lm_exit`, and a step of a call -/
inductive ModuleEvent
  | load (err : Option Errno)
  | unload
  | call (e : Event)

inductive ModuleShown
  | loaded (ret : Int)
  | unloaded
  | oops
  | call (o : Shown)

def Event.task? : Event → Option Task
  | .openFile t .. => some t
  | .release _ => none
  | .readTest t .. => some t
  | .readLocked t => some t
  | .write t .. => some t
  | .writeLocked t => some t
  | .ioctl t .. => some t
  | .clearReset t => some t

def Pc.isIdle : Pc → Bool
  | .idle => true
  | _ => false

/-- The tasks in a call after a step that leads to `s` -/
def busyAfter (busy : Finset Task) (s : State) (e : Event) : Finset Task :=
  match e.task? with
  | none => busy
  | some t => if (s.pc t).isIdle then busy.erase t else insert t busy

/-- The open files after a step -/
def openedAfter (opened : Finset File) (e : Event) (o : Shown) : Finset File :=
  match e, o with
  | .openFile .., .opened f (.ok _) => insert f opened
  | .release f, _ => opened.erase f
  | _, _ => opened

def moduleStep (m : Module) : ModuleEvent → Option (Module × ModuleShown)
  | .load err =>
    if m.loaded then none
    else
      match err with
      | some e => some (m, .loaded e.ret)
      | none => some (⟨true, State.load m.data.heap, ∅, ∅⟩, .loaded 0)
  | .unload =>
    if m.loaded ∧ m.opened = ∅ ∧ m.busy = ∅ then
      match lmExit m.data.heap with
      | some heap => some ({ m with loaded := false, data := { m.data with heap } }, .unloaded)
      | none => some (m, .oops)
    else none
  | .call e =>
    if m.loaded then
      match step m.data e with
      | none => none
      | some (data, o) =>
        some ({ m with data, opened := openedAfter m.opened e o, busy := busyAfter m.busy data e },
          .call o)
    else none

/-- The cases of `moduleStep`. -/
inductive ModuleMove (m : Module) : ModuleEvent → Module → ModuleShown → Prop
  | loadFails {e} (h : m.loaded = false) : ModuleMove m (.load (some e)) m (.loaded e.ret)
  | load (h : m.loaded = false) :
      ModuleMove m (.load none) ⟨true, State.load m.data.heap, ∅, ∅⟩ (.loaded 0)
  | unload {heap} (h : m.loaded = true) (hopened : m.opened = ∅) (hbusy : m.busy = ∅)
      (hexit : lmExit m.data.heap = some heap) :
      ModuleMove m .unload { m with loaded := false, data := { m.data with heap } } .unloaded
  | unloadOops (h : m.loaded = true) (hopened : m.opened = ∅) (hbusy : m.busy = ∅)
      (hexit : lmExit m.data.heap = none) : ModuleMove m .unload m .oops
  | call {e data o} (h : m.loaded = true) (hs : step m.data e = some (data, o)) :
      ModuleMove m (.call e)
        { m with data, opened := openedAfter m.opened e o, busy := busyAfter m.busy data e } (.call o)

theorem moduleStep_move {m n : Module} {e : ModuleEvent} {o : ModuleShown}
    (h : moduleStep m e = some (n, o)) : ModuleMove m e n o := by
  cases e with
  | load err =>
    simp only [moduleStep] at h
    split at h
    · cases h
    · next hloaded =>
      cases err with
      | none =>
        cases h
        exact .load (by simpa using hloaded)
      | some e =>
        cases h
        exact .loadFails (by simpa using hloaded)
  | unload =>
    simp only [moduleStep] at h
    split at h
    · next hguard =>
      obtain ⟨hloaded, hopened, hbusy⟩ := hguard
      split at h
      · next hexit =>
        cases h
        exact .unload hloaded hopened hbusy hexit
      · next hexit =>
        cases h
        exact .unloadOops hloaded hopened hbusy hexit
    · cases h
  | call e =>
    simp only [moduleStep] at h
    split at h
    · next hloaded =>
      split at h
      · cases h
      · next hs =>
        cases h
        exact .call hloaded hs
    · cases h

theorem step_pc_other {s u : State} {e : Event} {o : Shown} (h : step s e = some (u, o)) {t : Task}
    (ht : e.task? ≠ some t) : u.pc t = s.pc t := by
  cases step_move h <;> first
    | rfl
    | exact goto_pc_other _ _ fun heq => ht (by rw [heq]; rfl)

/-- The messages, the allocations, the tasks and the cursors of a module: nothing is allocated while
it is not loaded. -/
structure Life (m : Module) : Prop where
  busy : ∀ t, t ∉ m.busy → m.data.pc t = .idle
  opened : ∀ f cur, m.data.files f = .yes cur → f ∈ m.opened
  holds : m.loaded = true → ∃ xs msgs, Holds xs msgs m.data
  clean : m.loaded = false → m.data.heap.live = ∅
  closed : m.loaded = false → ∀ f cur, m.data.files f ≠ .yes cur

theorem Life.idle {m : Module} (h : Life m) (hbusy : m.busy = ∅) (t : Task) : m.data.pc t = .idle :=
  h.busy t (by rw [hbusy]; exact Finset.notMem_empty t)

theorem life_init (junk : Heap Msg) : Life (Module.init junk) :=
  ⟨fun _ _ => rfl, by simp [Module.init, State.init], by simp [Module.init], fun _ => rfl,
    by simp [Module.init, State.init]⟩

theorem holds_load {h : Heap Msg} (hlive : h.live = ∅) : Holds [] [] (State.load h) where
  ring := (Heap.empty_ring h).congr (by simp) rfl rfl
  vals := rfl
  live := fun a => by simp [State.load, hlive]
  outside := by simp [State.load]
  ready := by simp [State.load]
  apart := by simp [State.load]
  count := rfl

theorem busy_step {m : Module} {data : State} {e : Event} {o : Shown}
    (h : ∀ t, t ∉ m.busy → m.data.pc t = .idle) (hs : step m.data e = some (data, o)) :
    ∀ t, t ∉ busyAfter m.busy data e → data.pc t = .idle := by
  intro t ht
  by_cases htask : e.task? = some t
  · simp only [busyAfter, htask] at ht
    split at ht
    · next hidle =>
      cases hpc : data.pc t <;> rw [hpc] at hidle <;> first | rfl | cases hidle
    · exact absurd (Finset.mem_insert_self t m.busy) ht
  · rw [step_pc_other hs htask]
    refine h t fun hmem => ht ?_
    simp only [busyAfter]
    cases htask' : e.task? with
    | none => exact hmem
    | some t' =>
      have hne : t ≠ t' := fun heq => htask (by rw [htask', heq])
      simp only
      split
      · exact Finset.mem_erase.mpr ⟨hne, hmem⟩
      · exact Finset.mem_insert_of_mem hmem

theorem opened_step {m : Module} {data : State} {e : Event} {o : Shown}
    (h : ∀ f cur, m.data.files f = .yes cur → f ∈ m.opened) (hs : step m.data e = some (data, o)) :
    ∀ f cur, data.files f = .yes cur → f ∈ openedAfter m.opened e o := by
  -- a call that moves the cursor of a file that has one
  have hmove : ∀ {g cur' cur'' t pc}, m.data.files g = .yes cur' → ∀ f cur,
      ((m.data.setFile g (.yes cur'')).goto t pc).files f = .yes cur → f ∈ m.opened := by
    intro g cur' cur'' t pc hg f cur hf
    by_cases heq : f = g
    · exact heq ▸ h g cur' hg
    · exact h f cur (by simpa [State.setFile, heq] using hf)
  intro f cur hf
  cases step_move hs with
  | @openFile t g cur' =>
    by_cases heq : f = g
    · exact heq ▸ Finset.mem_insert_self g m.opened
    · exact Finset.mem_insert_of_mem (h f cur (by simpa [State.setFile, heq] using hf))
  | @release g cur' =>
    by_cases heq : f = g
    · simp [State.setFile, heq] at hf
    · exact Finset.mem_erase.mpr ⟨heq, h f cur (by simpa [State.setFile, heq] using hf)⟩
  | readLocked _ hg => exact hmove hg f cur hf
  | clearReset _ hg => exact hmove hg f cur hf
  | _ => exact h f cur hf

/-- With no write on its way, all that is allocated is on the list. -/
theorem live_of_idle {xs : List Addr} {msgs : List Bytes} {s : State} (h : Holds xs msgs s)
    (hidle : ∀ t, s.pc t = .idle) (a : Addr) : a ∈ s.heap.live ↔ a ∈ xs := by
  rw [h.live]
  simp [hidle]

/-- What `lm_exit` frees: with no write on its way, all that is allocated. -/
theorem lmExit_frees {xs : List Addr} {msgs : List Bytes} {s : State} (h : Holds xs msgs s)
    (hidle : ∀ t, s.pc t = .idle) :
    ∃ heap, lmExit s.heap = some heap ∧ heap.live = ∅ ∧ heap.freed = s.heap.freed ++ xs := by
  obtain ⟨heap, hexit, -, hfreed, hlive, -⟩ := lmClearLocked_ring h.ring
  refine ⟨heap, hexit, ?_, hfreed⟩
  refine Finset.eq_empty_iff_forall_notMem.mpr fun a ha => ?_
  obtain ⟨hmem, hout⟩ := (hlive a).mp ha
  exact hout ((live_of_idle h hidle a).mp hmem)

theorem life_step {m n : Module} {e : ModuleEvent} {o : ModuleShown} (h : Life m)
    (hs : moduleStep m e = some (n, o)) : Life n := by
  cases moduleStep_move hs with
  | loadFails => exact h
  | load hloaded =>
    exact ⟨fun _ _ => rfl, by simp [State.load], fun _ => ⟨[], [], holds_load (h.clean hloaded)⟩, by simp,
      by simp⟩
  | unload hloaded hopened hbusy hexit =>
    obtain ⟨xs, msgs, hholds⟩ := h.holds hloaded
    obtain ⟨heap, hexit', hlive, -⟩ := lmExit_frees hholds (h.idle hbusy)
    rw [hexit] at hexit'
    cases hexit'
    refine ⟨h.busy, h.opened, by simp, fun _ => hlive, ?_⟩
    intro _ f cur hf
    have hmem := h.opened f cur hf
    rw [hopened] at hmem
    exact Finset.notMem_empty f hmem
  | unloadOops => exact h
  | call hloaded hstep =>
    obtain ⟨xs, msgs, hholds⟩ := h.holds hloaded
    obtain ⟨ys, hys, -⟩ := holds_step hholds hstep
    exact ⟨busy_step h.busy hstep, opened_step h.opened hstep, fun _ => ⟨ys, _, hys⟩, by simp [hloaded],
      by simp [hloaded]⟩

theorem life_run {junk : Heap Msg} {tr : List (Record Module ModuleEvent ModuleShown)} {m : Module}
    (h : Run moduleStep (Module.init junk) tr m) : Life m :=
  h.invariant (life_init junk) fun _ _ _ _ hI hs => life_step hI hs

/-- Only a `lm_read` can access memory that it may not: `lm_exit` and the other calls do not. -/
def ModuleNoFault (_ : List (Record Module ModuleEvent ModuleShown))
    (r : Record Module ModuleEvent ModuleShown) : Prop :=
  r.out ≠ .oops ∧ (r.out = .call .oops → ∃ t, r.event = .call (.readLocked t))

/-- `lm_exit` frees the objects of the list, each once, and they are all that was allocated. -/
def ExitFrees (_ : List (Record Module ModuleEvent ModuleShown))
    (r : Record Module ModuleEvent ModuleShown) : Prop :=
  r.event = .unload → ∃ xs heap, r.pre.data.heap.IsRing xs ∧ (∀ a, a ∈ r.pre.data.heap.live ↔ a ∈ xs) ∧
    lmExit r.pre.data.heap = some heap ∧ heap.live = ∅ ∧ heap.freed = r.pre.data.heap.freed ++ xs

/-- Over any loads, failing loads and unloads, with any calls in between: `lm_exit` frees every
message, each once, and no message is allocated and no file has a cursor while the module is not
loaded; and no call but `lm_read` touches memory that is not allocated. -/
theorem lmModule_frees_all (junk : Heap Msg) (tr : List (Record Module ModuleEvent ModuleShown))
    (m : Module) (h : Run moduleStep (Module.init junk) tr m) :
    Each ModuleNoFault tr ∧ Each ExitFrees tr ∧ (m.loaded = false → m.data.heap.live = ∅ ∧ ∀ f cur, m.data.files f ≠ .yes cur) := by
  refine ⟨?_, ?_, fun hm => ⟨(life_run h).clean hm, (life_run h).closed hm⟩⟩
  · rintro past ⟨t, e, o⟩ rest rfl
    obtain ⟨hpast, u, hu, -⟩ := h.split
    have hlife := life_run hpast
    cases moduleStep_move hu with
    | loadFails => simp [ModuleNoFault]
    | load => simp [ModuleNoFault]
    | unload => simp [ModuleNoFault]
    | unloadOops hloaded _ hbusy hexit =>
      obtain ⟨xs, msgs, hholds⟩ := hlife.holds hloaded
      obtain ⟨heap, hexit', -⟩ := lmExit_frees hholds (hlife.idle hbusy)
      rw [hexit] at hexit'
      cases hexit'
    | call hloaded hstep =>
      obtain ⟨xs, msgs, hholds⟩ := hlife.holds hloaded
      refine ⟨by simp, ?_⟩
      intro hoops
      obtain ⟨t, ht⟩ := noFault_step [] hholds hstep (by cases hoops; rfl)
      exact ⟨t, congrArg ModuleEvent.call ht⟩
  · rintro past ⟨t, e, o⟩ rest rfl rfl
    obtain ⟨hpast, u, hu, -⟩ := h.split
    have hlife := life_run hpast
    have hguard : t.loaded = true ∧ t.busy = ∅ := by
      cases moduleStep_move hu with
      | unload hloaded _ hbusy _ => exact ⟨hloaded, hbusy⟩
      | unloadOops hloaded _ hbusy _ => exact ⟨hloaded, hbusy⟩
    obtain ⟨xs, msgs, hholds⟩ := hlife.holds hguard.1
    obtain ⟨heap, hexit, hlive, hfreed⟩ := lmExit_frees hholds (hlife.idle hguard.2)
    exact ⟨xs, heap, hholds.ring, live_of_idle hholds (hlife.idle hguard.2), hexit, hlive, hfreed⟩

/-- Two messages stored, a third that faults, and the module unloaded. -/
def storesAndUnloads : List ModuleEvent :=
  [.load (some .enomem), .load none, .call (.openFile 1 5 true), .call (.write 1 5 [104, 105] 2 (some 100)),
    .call (.writeLocked 1), .call (.write 1 5 [104] 2 (some 200)), .call (.write 1 5 [104] 1 (some 200)),
    .call (.writeLocked 1), .call (.release 5), .unload]

theorem lmModule_frees_all_storesAndUnloads : ∃ tr m,
    (Run moduleStep (Module.init blank) tr m ∧ tr.map Record.event = storesAndUnloads ∧
      m.data.heap.freed = [200, 100, 200]) ∧
    Each ModuleNoFault tr ∧ Each ExitFrees tr ∧ (m.loaded = false → m.data.heap.live = ∅ ∧ ∀ f cur, m.data.files f ≠ .yes cur) := by
  obtain ⟨tr, m, hrun, hev, hq⟩ := exists_exec moduleStep (Module.init blank) storesAndUnloads
    (fun x => x.2.data.heap.freed = [200, 100, 200]) (by decide +kernel)
  exact ⟨tr, m, ⟨hrun, hev, by simpa using hq⟩, lmModule_frees_all blank tr m hrun⟩

end LinuxDriverLab.ListMsg
