import Mathlib.Order.Interval.Finset.Nat
import LinuxDriverLab.MmapBuf.Shared

/-!
# The pages of the buffer

`mbuf_init` marks the pages of the buffer one by one before it registers the device, and takes the
marks back when that fails; `mbuf_exit` clears them before it frees the buffer. Processes make their
calls in between. What they see is what they would if `mbuf_init` made its calls all at once.
-/

namespace LinuxDriverLab.MmapBuf

/-- Where `mbuf_init` or `mbuf_exit` stands: `n` is the first frame of the buffer, `i` the counter of
the loop over its pages. -/
inductive Phase
  | idle
  | marking (n i : Nat)
  | registered (n : Nat)
  | undoing (n i : Nat) (err : Errno)
  | clearing (n i : Nat)
deriving DecidableEq

structure Module where
  phase : Phase
  marked : Finset Nat
  io : State

def Module.init (mem : Memory) : Module := ⟨.idle, ∅, State.init mem⟩

/-- What the kernel answers to the calls of `mbuf_init` and `mbuf_exit`, a turn of one of their loops,
and a call of a process or an attempt to unload -/
inductive ModuleEvent
  | kmalloc (frame : Option Nat)
  | setPageReserved
  | miscRegister (err : Option Errno)
  | clearPageReserved
  | miscDeregister
  | kfree
  | call (e : Event)

/-- What a step shows; `ended` is the `kfree` of a failing `mbuf_init`, with what it returns. -/
inductive ModuleShown
  | quiet
  | initReturned (ret : Int)
  | reserved (frame : Nat)
  | cleared (frame : Nat)
  | ended (n : Nat) (ret : Int)
  | freed (n : Nat)
  | call (o : Shown)

/-- The events that are not steps of `mbuf_init` or `mbuf_exit` -/
def Event.isCall : Event → Bool
  | .insmod _ _ | .miscDeregister | .kfree => false
  | _ => true

/-- The buffer at frame `n` after `memset` and `strcpy` -/
def State.fill (P : PageSize) (n : Nat) (s : State) : State :=
  { s with mem := mbufInitFill P s.mem (n * P.bytes) }

def moduleStep (P : PageSize) (s : Module) : ModuleEvent → Option (Module × ModuleShown)
  | .kmalloc frame =>
    match s.phase, frame with
    | .idle, none => some (s, .initReturned Errno.enomem.ret)
    | .idle, some n => some ({ s with phase := .marking n 0, io := s.io.fill P n }, .quiet)
    | _, _ => none
  | .setPageReserved =>
    match s.phase with
    | .marking n i =>
      if i < bufPages then
        some ({ s with phase := .marking n (i + 1), marked := insert (n + i) s.marked },
          .reserved (n + i))
      else none
    | _ => none
  | .miscRegister err =>
    match s.phase, err with
    | .marking n i, none =>
      if i < bufPages then none
      else
        some ({ s with phase := .registered n,
                       io := { s.io with stage := .live, kbuf := some (n * P.bytes) } },
          .initReturned 0)
    | .marking n i, some e =>
      if i < bufPages then none else some ({ s with phase := .undoing n 0 e }, .quiet)
    | _, _ => none
  | .clearPageReserved =>
    match s.phase with
    | .undoing n i e =>
      if i < bufPages then
        some ({ s with phase := .undoing n (i + 1) e, marked := s.marked.erase (n + i) },
          .cleared (n + i))
      else none
    | .clearing n i =>
      if i < bufPages then
        some ({ s with phase := .clearing n (i + 1), marked := s.marked.erase (n + i) },
          .cleared (n + i))
      else none
    | _ => none
  | .miscDeregister =>
    match s.phase, step P s.io .miscDeregister with
    | .registered n, some (io, _) => some ({ s with phase := .clearing n 0, io }, .quiet)
    | _, _ => none
  | .kfree =>
    match s.phase with
    | .undoing n i e =>
      if i < bufPages then none else some ({ s with phase := .idle }, .ended n e.ret)
    | .clearing n i =>
      match step P s.io .kfree with
      | some (io, _) => if i < bufPages then none else some ({ s with phase := .idle, io }, .freed n)
      | none => none
    | _ => none
  | .call e =>
    match step P s.io e with
    | some (io, o) => if e.isCall then some ({ s with io }, .call o) else none
    | none => none

/-- The cases of `moduleStep`. -/
inductive ModuleMove (P : PageSize) (s : Module) : ModuleEvent → Module → ModuleShown → Prop
  | noMemory (h : s.phase = .idle) :
      ModuleMove P s (.kmalloc none) s (.initReturned Errno.enomem.ret)
  | kmalloc {n} (h : s.phase = .idle) :
      ModuleMove P s (.kmalloc (some n)) { s with phase := .marking n 0, io := s.io.fill P n } .quiet
  | reserve {n i} (h : s.phase = .marking n i) (hi : i < bufPages) :
      ModuleMove P s .setPageReserved
        { s with phase := .marking n (i + 1), marked := insert (n + i) s.marked } (.reserved (n + i))
  | register {n i} (h : s.phase = .marking n i) (hi : bufPages ≤ i) :
      ModuleMove P s (.miscRegister none)
        { s with phase := .registered n,
                 io := { s.io with stage := .live, kbuf := some (n * P.bytes) } } (.initReturned 0)
  | registerFails {n i e} (h : s.phase = .marking n i) (hi : bufPages ≤ i) :
      ModuleMove P s (.miscRegister (some e)) { s with phase := .undoing n 0 e } .quiet
  | undo {n i e} (h : s.phase = .undoing n i e) (hi : i < bufPages) :
      ModuleMove P s .clearPageReserved
        { s with phase := .undoing n (i + 1) e, marked := s.marked.erase (n + i) } (.cleared (n + i))
  | clear {n i} (h : s.phase = .clearing n i) (hi : i < bufPages) :
      ModuleMove P s .clearPageReserved
        { s with phase := .clearing n (i + 1), marked := s.marked.erase (n + i) } (.cleared (n + i))
  | deregister {n io o} (h : s.phase = .registered n) (hs : step P s.io .miscDeregister = some (io, o)) :
      ModuleMove P s .miscDeregister { s with phase := .clearing n 0, io } .quiet
  | ended {n i e} (h : s.phase = .undoing n i e) (hi : bufPages ≤ i) :
      ModuleMove P s .kfree { s with phase := .idle } (.ended n e.ret)
  | freed {n i io o} (h : s.phase = .clearing n i) (hi : bufPages ≤ i)
      (hs : step P s.io .kfree = some (io, o)) :
      ModuleMove P s .kfree { s with phase := .idle, io } (.freed n)
  | call {e io o} (he : e.isCall = true) (hs : step P s.io e = some (io, o)) :
      ModuleMove P s (.call e) { s with io } (.call o)

variable {P : PageSize}

theorem moduleStep_move {s u : Module} {e : ModuleEvent} {o : ModuleShown}
    (h : moduleStep P s e = some (u, o)) : ModuleMove P s e u o := by
  cases e with
  | kmalloc frame =>
    simp only [moduleStep] at h
    split at h
    · next hs =>
      cases h
      exact .noMemory hs
    · next hs =>
      cases h
      exact .kmalloc hs
    · cases h
  | setPageReserved =>
    simp only [moduleStep] at h
    split at h
    · next hs =>
      split_ifs at h with hi
      cases h
      exact .reserve hs hi
    · cases h
  | miscRegister err =>
    simp only [moduleStep] at h
    split at h
    · next hs =>
      split_ifs at h with hi
      cases h
      exact .register hs (Nat.le_of_not_lt hi)
    · next hs =>
      split_ifs at h with hi
      cases h
      exact .registerFails hs (Nat.le_of_not_lt hi)
    · cases h
  | clearPageReserved =>
    simp only [moduleStep] at h
    split at h
    · next hs =>
      split_ifs at h with hi
      cases h
      exact .undo hs hi
    · next hs =>
      split_ifs at h with hi
      cases h
      exact .clear hs hi
    · cases h
  | miscDeregister =>
    simp only [moduleStep] at h
    split at h
    · next hs hio =>
      cases h
      exact .deregister hs hio
    · cases h
  | kfree =>
    simp only [moduleStep] at h
    split at h
    · next hs =>
      split_ifs at h with hi
      cases h
      exact .ended hs (Nat.le_of_not_lt hi)
    · next hs =>
      split at h
      · next hio =>
        split_ifs at h with hi
        cases h
        exact .freed hs (Nat.le_of_not_lt hi) hio
      · cases h
    · cases h
  | call e =>
    simp only [moduleStep] at h
    split at h
    · next hio =>
      split_ifs at h with he
      cases h
      exact .call he hio
    · cases h

/-! ## What holds in each phase -/

/-- The frames marked Reserved. -/
def Phase.marks : Phase → Finset Nat
  | .idle => ∅
  | .marking n i => Finset.Ico n (n + i)
  | .registered n => Finset.Ico n (n + bufPages)
  | .undoing n i _ => Finset.Ico (n + i) (n + bufPages)
  | .clearing n i => Finset.Ico (n + i) (n + bufPages)

def Phase.turn : Phase → Nat
  | .marking _ i | .undoing _ i _ | .clearing _ i => i
  | _ => 0

/-- The first frame of the buffer, while there is one. -/
def Phase.frame : Phase → Option Nat
  | .idle => none
  | .marking n _ | .registered n | .undoing n _ _ | .clearing n _ => some n

/-- What the phase says about the rest of the system. -/
def Phase.Fits (P : PageSize) (s : State) : Phase → Prop
  | .idle | .marking _ _ | .undoing _ _ _ => s.stage = .unloaded
  | .registered n => (s.stage = .live ∨ s.stage = .going) ∧ s.kbuf = some (n * P.bytes)
  | .clearing n _ => s.stage = .deregistered ∧ s.kbuf = some (n * P.bytes)

structure Life (P : PageSize) (s : Module) : Prop where
  counted : Counted s.io
  windows : Windows P s.io
  marked : s.marked = s.phase.marks
  turn : s.phase.turn ≤ bufPages
  fits : s.phase.Fits P s.io

theorem ico_erase_left (a b : Nat) : (Finset.Ico a b).erase a = Finset.Ico (a + 1) b := by
  ext k
  simp only [Finset.mem_erase, Finset.mem_Ico]
  omega

theorem ico_insert_right {a b : Nat} (h : a ≤ b) : insert b (Finset.Ico a b) = Finset.Ico a (b + 1) := by
  ext k
  simp only [Finset.mem_insert, Finset.mem_Ico]
  omega

theorem call_stage {s u : State} {e : Event} {o : Shown} (he : e.isCall = true)
    (h : step P s e = some (u, o)) :
    u.kbuf = s.kbuf ∧ (u.stage = s.stage ∨ s.stage = .live ∧ u.stage = .going) := by
  cases step_move h with
  | insmodNoMemory => cases he
  | insmodFails => cases he
  | insmod => cases he
  | miscDeregister => cases he
  | kfree => cases he
  | rmmod hstage => exact ⟨rfl, .inr ⟨hstage, rfl⟩⟩
  | _ => exact ⟨rfl, .inl rfl⟩

theorem Phase.Fits.call {s u : State} {ph : Phase} (h : ph.Fits P s) (hkbuf : u.kbuf = s.kbuf)
    (hstage : u.stage = s.stage ∨ s.stage = .live ∧ u.stage = .going) : ph.Fits P u := by
  rcases hstage with hsame | ⟨hlive, hgoing⟩
  · cases ph <;> simpa only [Phase.Fits, hsame, hkbuf] using h
  · cases ph with
    | registered n =>
      rw [Phase.Fits, hkbuf]
      exact ⟨.inr hgoing, h.2⟩
    | _ => simp [Phase.Fits, hlive] at h

theorem life_init (mem : Memory) : Life P (Module.init mem) :=
  ⟨counted_init mem, windows_init mem, rfl, Nat.zero_le _, rfl⟩

theorem counted_fill {s : State} (h : Counted s) (n : Nat) : Counted (s.fill P n) :=
  h.same rfl rfl rfl rfl

theorem windows_fill {s : State} (h : Windows P s) (n : Nat) : Windows P (s.fill P n) :=
  h.same rfl rfl

theorem registered_keeps {s : State} (hc : Counted s) (hw : Windows P s) (hstage : s.stage = .unloaded)
    (n : Nat) : Counted { s with stage := .live, kbuf := some (n * P.bytes) } ∧
      Windows P { s with stage := .live, kbuf := some (n * P.bytes) } := by
  have hload : step P s (.insmod (some n) none) =
      some ({ s.fill P n with stage := .live, kbuf := some (n * P.bytes) }, .initReturned 0) := by
    simp [step, hstage, State.fill]
  exact ⟨(counted_step hc hload).same rfl rfl rfl rfl, (windows_step hc hw hload).same rfl rfl⟩

theorem life_step {s u : Module} {e : ModuleEvent} {o : ModuleShown} (h : Life P s)
    (hs : moduleStep P s e = some (u, o)) : Life P u := by
  obtain ⟨hcounted, hwindows, hmarked, hturn, hfits⟩ := h
  cases moduleStep_move hs with
  | noMemory => exact ⟨hcounted, hwindows, hmarked, hturn, hfits⟩
  | @kmalloc n hp =>
    rw [hp] at hmarked hfits
    refine ⟨counted_fill hcounted n, windows_fill hwindows n, ?_, Nat.zero_le _, hfits⟩
    simp [hmarked, Phase.marks]
  | @reserve n i hp hi =>
    rw [hp] at hmarked hfits
    refine ⟨hcounted, hwindows, ?_, hi, hfits⟩
    simp only [hmarked, Phase.marks]
    exact ico_insert_right (Nat.le_add_right n i)
  | @register n i hp hi =>
    rw [hp] at hmarked hturn hfits
    obtain ⟨hc, hw⟩ := registered_keeps hcounted hwindows hfits n
    have heq : i = bufPages := Nat.le_antisymm hturn hi
    refine ⟨hc, hw, ?_, Nat.zero_le _, ⟨.inl rfl, rfl⟩⟩
    simp only [hmarked, Phase.marks, heq]
  | @registerFails n i e hp hi =>
    rw [hp] at hmarked hturn hfits
    have heq : i = bufPages := Nat.le_antisymm hturn hi
    refine ⟨hcounted, hwindows, ?_, Nat.zero_le _, hfits⟩
    simp only [hmarked, Phase.marks, heq, Nat.add_zero]
  | @undo n i e hp hi =>
    rw [hp] at hmarked hfits
    refine ⟨hcounted, hwindows, ?_, hi, hfits⟩
    simp only [hmarked, Phase.marks]
    exact ico_erase_left (n + i) (n + bufPages)
  | @clear n i hp hi =>
    rw [hp] at hmarked hfits
    refine ⟨hcounted, hwindows, ?_, hi, hfits⟩
    simp only [hmarked, Phase.marks]
    exact ico_erase_left (n + i) (n + bufPages)
  | @deregister n io o hp hio =>
    rw [hp] at hmarked hfits
    refine ⟨counted_step hcounted hio, windows_step hcounted hwindows hio, ?_, Nat.zero_le _, ?_⟩
    · simp only [hmarked, Phase.marks, Nat.add_zero]
    · cases step_move hio with
      | miscDeregister => exact ⟨rfl, hfits.2⟩
  | @ended n i e hp hi =>
    rw [hp] at hmarked hfits
    refine ⟨hcounted, hwindows, ?_, Nat.zero_le _, hfits⟩
    rw [hmarked]
    exact Finset.Ico_eq_empty_of_le (Nat.add_le_add_left hi n)
  | @freed n i io o hp hi hio =>
    rw [hp] at hmarked
    refine ⟨counted_step hcounted hio, windows_step hcounted hwindows hio, ?_, Nat.zero_le _, ?_⟩
    · rw [hmarked]
      exact Finset.Ico_eq_empty_of_le (Nat.add_le_add_left hi n)
    · cases step_move hio with
      | kfree => rfl
  | @call e io o he hio =>
    obtain ⟨hkbuf, hstage⟩ := call_stage he hio
    exact ⟨counted_step hcounted hio, windows_step hcounted hwindows hio, hmarked, hturn,
      hfits.call hkbuf hstage⟩

theorem life_run {mem : Memory} {tr : List (Record Module ModuleEvent ModuleShown)} {s : Module}
    (h : Run (moduleStep P) (Module.init mem) tr s) : Life P s :=
  h.invariant (life_init mem) fun _ _ _ _ hI hs => life_step hI hs

theorem Life.mapped {s : Module} (h : Life P s) {p : Nat} {x : Process} {v : Vma}
    (hp : s.io.proc p = some x) (hv : v ∈ x.vmas) :
    ∃ n, s.phase = .registered n ∧ Window P (n * P.bytes) v := by
  have hlive := h.counted.live (mem_held_of_vma hp hv)
  have hfits := h.fits
  cases hphase : s.phase with
  | registered n =>
    rw [hphase] at hfits
    exact ⟨n, rfl, h.windows.window _ p x v hfits.2 hp hv⟩
  | _ =>
    rw [hphase] at hfits
    simp [Phase.Fits, hlive] at hfits

/-- Every frame that a process has mapped is marked. -/
theorem Life.mapped_marked {s : Module} (h : Life P s) {p f : Nat} {x : Process} {v : Vma}
    (hp : s.io.proc p = some x) (hv : v ∈ x.vmas) (hf : f ∈ v.frames) : f ∈ s.marked := by
  obtain ⟨n, hphase, hwindow⟩ := h.mapped hp hv
  have hwithin := hwindow.within
  rw [hwindow.frames, Nat.mul_div_cancel _ P.pos] at hf
  obtain ⟨j, hj, rfl⟩ := List.mem_map.mp hf
  rw [List.mem_range] at hj
  rw [h.marked, hphase, Phase.marks, Finset.mem_Ico]
  omega

/-! ## What a step does -/

/-- The step marks only pages of the buffer that are not marked, clears only marked ones, and frees the
buffer when none is marked and none mapped; it changes no byte outside the buffer. -/
structure Careful (P : PageSize) (r : Record Module ModuleEvent ModuleShown) : Prop where
  reserves : ∀ f, r.out = .reserved f → f ∉ r.pre.marked ∧
    ∃ n, r.pre.phase.frame = some n ∧ n ≤ f ∧ f < n + bufPages
  clears : ∀ f, r.out = .cleared f → f ∈ r.pre.marked
  frees : ∀ n, r.out = .freed n ∨ (∃ ret, r.out = .ended n ret) → r.pre.phase.frame = some n ∧
    r.pre.marked = ∅ ∧ ∀ p x, r.pre.io.proc p = some x → x.vmas = []
  writes : ∀ u, moduleStep P r.pre r.event = some (u, r.out) → ∀ a, u.io.mem a ≠ r.pre.io.mem a →
    ∃ n, u.phase.frame = some n ∧ n * P.bytes ≤ a ∧ a < n * P.bytes + bufSize P

theorem writeMem_other {mem : Memory} {a x : Nat} {b : Bytes} (h : x < a ∨ a + b.length ≤ x) :
    writeMem mem a b x = mem x := by
  rw [writeMem, if_neg (by omega)]

theorem fill_other {s : State} {n a : Nat} (hP : initText.length < bufSize P)
    (h : a < n * P.bytes ∨ n * P.bytes + bufSize P ≤ a) : (s.fill P n).mem a = s.mem a := by
  have hlen : (initText ++ [0]).length ≤ bufSize P := by
    rw [List.length_append, List.length_singleton]
    exact hP
  simp only [State.fill, mbufInitFill]
  rw [writeMem_other (by omega), writeMem_other (by rw [List.length_replicate]; exact h)]

/-- A call changes memory only by a store through a mapping. -/
theorem call_mem {s u : State} {e : Event} {o : Shown} (he : e.isCall = true)
    (h : step P s e = some (u, o)) {a : Nat} (ha : u.mem a ≠ s.mem a) :
    ∃ p x v k, s.proc p = some x ∧ v ∈ x.vmas ∧ v.phys P k = some a := by
  cases step_move h with
  | insmodFails => cases he
  | insmod => cases he
  | @store p i k b x v a' hp hv hphys =>
    have heq : a = a' := by
      by_contra hne
      exact ha (writeMem_other (by rw [List.length_singleton]; omega))
    exact ⟨p, x, v, k, hp, List.mem_of_getElem? hv, heq ▸ hphys⟩
  | _ => exact absurd rfl ha

theorem frees_step {s u : Module} {e : ModuleEvent} {o : ModuleShown} (h : Life P s)
    (hs : moduleStep P s e = some (u, o)) {n : Nat} (ho : o = .freed n ∨ ∃ ret, o = .ended n ret) :
    s.phase.frame = some n ∧ s.marked = ∅ ∧ ∀ p x, s.io.proc p = some x → x.vmas = [] := by
  have hmarked := h.marked
  have hunmapped : (∀ m, s.phase ≠ .registered m) → ∀ p x, s.io.proc p = some x → x.vmas = [] := by
    intro hne p x hp
    apply List.eq_nil_iff_forall_not_mem.mpr
    intro v hv
    obtain ⟨m, hphase, -⟩ := h.mapped hp hv
    exact hne m hphase
  cases moduleStep_move hs with
  | @ended m i e hp hi =>
    obtain rfl : m = n := by simpa using ho
    refine ⟨by rw [hp, Phase.frame], ?_, hunmapped (by simp [hp])⟩
    rw [hmarked, hp]
    exact Finset.Ico_eq_empty_of_le (Nat.add_le_add_left hi m)
  | @freed m i io o hp hi hio =>
    obtain rfl : m = n := by simpa using ho
    refine ⟨by rw [hp, Phase.frame], ?_, hunmapped (by simp [hp])⟩
    rw [hmarked, hp]
    exact Finset.Ico_eq_empty_of_le (Nat.add_le_add_left hi m)
  | _ => simp at ho

theorem writes_step {s u : Module} {e : ModuleEvent} {o : ModuleShown}
    (hP : initText.length < bufSize P) (h : Life P s) (hs : moduleStep P s e = some (u, o)) {a : Nat}
    (ha : u.io.mem a ≠ s.io.mem a) :
    ∃ n, u.phase.frame = some n ∧ n * P.bytes ≤ a ∧ a < n * P.bytes + bufSize P := by
  cases moduleStep_move hs with
  | @kmalloc n hp =>
    refine ⟨n, rfl, ?_⟩
    by_contra hout
    exact ha (fill_other hP (by omega))
  | deregister hp hio =>
    cases step_move hio with
    | miscDeregister => exact absurd rfl ha
  | freed hp hi hio =>
    cases step_move hio with
    | kfree => exact absurd rfl ha
  | @call e io o he hio =>
    obtain ⟨p, x, v, k, hp, hv, hphys⟩ := call_mem he hio ha
    obtain ⟨n, hphase, hwindow⟩ := h.mapped hp hv
    rw [hwindow.phys (Nat.dvd_mul_left _ _)] at hphys
    split at hphys
    · next hk =>
      have hlt := hwindow.lt_bufSize hk
      have heq := Option.some.inj hphys
      exact ⟨n, congrArg Phase.frame hphase, by omega, by omega⟩
    · cases hphys
  | _ => exact absurd rfl ha

theorem careful_step {s u : Module} {e : ModuleEvent} {o : ModuleShown}
    (hP : initText.length < bufSize P) (h : Life P s) (hs : moduleStep P s e = some (u, o)) :
    Careful P ⟨s, e, o⟩ := by
  have hmarked := h.marked
  constructor
  · rintro f rfl
    cases moduleStep_move hs with
    | @reserve n i hp hi =>
      rw [hp] at hmarked
      refine ⟨?_, n, by rw [hp, Phase.frame], Nat.le_add_right n i, Nat.add_lt_add_left hi n⟩
      simp [hmarked, Phase.marks]
  · rintro f rfl
    cases moduleStep_move hs with
    | @undo n i e hp hi =>
      rw [hp] at hmarked
      simp [hmarked, Phase.marks, hi]
    | @clear n i hp hi =>
      rw [hp] at hmarked
      simp [hmarked, Phase.marks, hi]
  · intro n ho
    exact frees_step h hs ho
  · rintro u' hs' a ha
    obtain ⟨rfl, -⟩ := Prod.mk.inj (Option.some.inj (hs'.symm.trans hs))
    exact writes_step hP h hs ha

/-! ## What processes see -/

inductive Seen
  | call (e : Event) (o : Shown)
  | initReturned (ret : Int)
  | freed

/-- What a step shows when `mbuf_init` makes its calls all at once -/
def seen (r : Record State Event Shown) : Option Seen :=
  match r.event with
  | .insmod _ _ =>
    match r.out with
    | .initReturned ret => some (.initReturned ret)
    | _ => none
  | .miscDeregister => none
  | .kfree => some .freed
  | e => some (.call e r.out)

/-- What it shows when they are made one by one -/
def moduleSeen (r : Record Module ModuleEvent ModuleShown) : Option Seen :=
  match r.event, r.out with
  | .call e, .call o => some (.call e o)
  | _, .initReturned ret => some (.initReturned ret)
  | _, .ended _ ret => some (.initReturned ret)
  | _, .freed _ => some .freed
  | _, _ => none

theorem seen_call {s : State} {e : Event} (he : e.isCall = true) (o : Shown) :
    seen ⟨s, e, o⟩ = some (.call e o) := by
  cases e <;> first | rfl | cases he

/-- The system while `mbuf_init` is under way: the buffer is filled, and no process has to do with
it. -/
def Phase.view (P : PageSize) (s : State) : Phase → State
  | .marking n _ | .undoing n _ _ => s.fill P n
  | _ => s

/-- Without the module, no call depends on what is in the buffer. -/
theorem step_fill {s u : State} {e : Event} {o : Shown} {n : Nat} (hc : Counted s)
    (hstage : s.stage = .unloaded) (he : e.isCall = true)
    (h : step P (s.fill P n) e = some (u, o)) : ∃ v, step P s e = some (v, o) ∧ u = v.fill P n := by
  have hkbuf : s.kbuf = none := hc.kbuf.mpr hstage
  have hnotLive : s.stage ≠ .live := hstage ▸ Stage.noConfusion
  have hfree : ∀ {f}, f ∉ s.held := fun hf => hnotLive (hc.live hf)
  cases step_move h with
  | insmodNoMemory => cases he
  | insmodFails => cases he
  | insmod => cases he
  | miscDeregister => cases he
  | kfree => cases he
  | openFile hp hlive => exact absurd hlive hnotLive
  | openGoing hp hgoing => exact absurd (hstage.symm.trans hgoing) Stage.noConfusion
  | close hp hf => exact absurd (mem_held_of_fd (s := s) hp hf) hfree
  | read hp hk => exact absurd (hkbuf.symm.trans hk) (by simp)
  | pread hp hk => exact absurd (hkbuf.symm.trans hk) (by simp)
  | mmapFails hp hk => exact absurd (hkbuf.symm.trans hk) (by simp)
  | mmap hp hk => exact absurd (hkbuf.symm.trans hk) (by simp)
  | munmap hp hv => exact absurd (mem_held_of_vma (s := s) hp (List.mem_of_getElem? hv)) hfree
  | load hp hv => exact absurd (mem_held_of_vma (s := s) hp (List.mem_of_getElem? hv)) hfree
  | store hp hv => exact absurd (mem_held_of_vma (s := s) hp (List.mem_of_getElem? hv)) hfree
  | @fork p x hp =>
    have hp' : s.proc p = some x := hp
    exact ⟨{ s with refs := x.held.foldl Refs.get s.refs, procs := s.procs ++ [some x] },
      by simp only [step, hp'], rfl⟩
  | @exit p x hp =>
    have hp' : s.proc p = some x := hp
    exact ⟨{ s with refs := x.held.foldl Refs.put s.refs }.setProc p none,
      by simp only [step, hp'], rfl⟩
  | rmmod hlive => exact absurd hlive hnotLive
  | rmmodBusy hlive => exact absurd hlive hnotLive

theorem counted_of_fill {s : State} {n : Nat} (h : Counted (s.fill P n)) : Counted s :=
  h.same rfl rfl rfl rfl

theorem step_view {s u : State} {ph : Phase} {e : Event} {o : Shown} (hc : Counted (ph.view P s))
    (hfits : ph.Fits P (ph.view P s)) (he : e.isCall = true)
    (h : step P (ph.view P s) e = some (u, o)) : ∃ v, step P s e = some (v, o) ∧ u = ph.view P v := by
  cases ph with
  | marking n i => exact step_fill (counted_of_fill hc) hfits he h
  | undoing n i err => exact step_fill (counted_of_fill hc) hfits he h
  | idle => exact ⟨u, h, rfl⟩
  | registered n => exact ⟨u, h, rfl⟩
  | clearing n i => exact ⟨u, h, rfl⟩

/-- The state stands for one of the system in which `mbuf_init` makes its calls all at once. -/
structure Refines (P : PageSize) (s : Module) (b : State) : Prop where
  life : Life P s
  view : s.io = s.phase.view P b

theorem refines_step {s u : Module} {b : State} {e : ModuleEvent} {o : ModuleShown}
    (h : Refines P s b) (hs : moduleStep P s e = some (u, o)) :
    ∃ tr v, Run (step P) b tr v ∧ tr.filterMap seen = (moduleSeen ⟨s, e, o⟩).toList ∧
      Refines P u v := by
  have hlife := life_step h.life hs
  have hview := h.view
  have hfits := h.life.fits
  -- a step of a loop, which nobody sees
  have hstay : moduleSeen ⟨s, e, o⟩ = none → u.io = u.phase.view P b →
      ∃ tr v, Run (step P) b tr v ∧ tr.filterMap seen = (moduleSeen ⟨s, e, o⟩).toList ∧
        Refines P u v := by
    intro hnone hu
    exact ⟨[], b, .refl, by rw [hnone]; rfl, hlife, hu⟩
  -- one that the other system makes as well
  have hmove : ∀ {e' v o'}, step P b e' = some (v, o') → seen ⟨b, e', o'⟩ = moduleSeen ⟨s, e, o⟩ →
      u.io = u.phase.view P v → ∃ tr v, Run (step P) b tr v ∧
        tr.filterMap seen = (moduleSeen ⟨s, e, o⟩).toList ∧ Refines P u v := by
    intro e' v o' hstep hseen hu
    refine ⟨_, v, .tail .refl hstep, ?_, hlife, hu⟩
    rw [List.nil_append, List.filterMap_cons, hseen]
    cases moduleSeen ⟨s, e, o⟩ <;> rfl
  cases moduleStep_move hs with
  | noMemory hp =>
    rw [hp] at hview hfits
    have hb : b.stage = .unloaded := by rwa [hview] at hfits
    have hstep : step P b (.insmod none none) = some (b, .initReturned Errno.enomem.ret) := by
      simp only [step, hb]
    exact hmove hstep rfl (by rw [hp]; exact hview)
  | @kmalloc n hp =>
    rw [hp] at hview
    exact hstay rfl (congrArg (State.fill P n) hview)
  | reserve hp =>
    rw [hp] at hview
    exact hstay rfl hview
  | @register n i hp hi =>
    rw [hp] at hview hfits
    have hb : b.stage = .unloaded := by rwa [hview] at hfits
    have hstep : step P b (.insmod (some n) none) =
        some ({ b.fill P n with stage := .live, kbuf := some (n * P.bytes) }, .initReturned 0) := by
      simp only [step, hb, State.fill]
    refine hmove hstep rfl ?_
    simp only [hview, Phase.view]
  | registerFails hp =>
    rw [hp] at hview
    exact hstay rfl hview
  | undo hp =>
    rw [hp] at hview
    exact hstay rfl hview
  | clear hp =>
    rw [hp] at hview
    exact hstay rfl hview
  | deregister hp hio =>
    rw [hp] at hview
    exact hmove (hview ▸ hio) rfl rfl
  | @ended n i err hp hi =>
    rw [hp] at hview hfits
    have hb : b.stage = .unloaded := by rwa [hview] at hfits
    have hstep : step P b (.insmod (some n) (some err)) = some (b.fill P n, .initReturned err.ret) := by
      simp only [step, hb, State.fill]
    exact hmove hstep rfl hview
  | freed hp hi hio =>
    rw [hp] at hview
    exact hmove (hview ▸ hio) rfl rfl
  | call he hio =>
    rw [hview] at hio hfits
    obtain ⟨v, hv, hu⟩ := step_view (hview ▸ h.life.counted) hfits he hio
    exact hmove hv (seen_call he _) hu

/-- Over any loads, with `kmalloc` or `misc_register` failing, and unloads, with any processes making
their calls between any two steps of `mbuf_init` and `mbuf_exit`: every page that a process has mapped
is marked Reserved, the marks go with the buffer, and what the processes see is what they would if
`mbuf_init` made its calls all at once. -/
theorem mbufModule_life (P : PageSize) (hP : initText.length < bufSize P) (mem : Memory)
    (tr : List (Record Module ModuleEvent ModuleShown)) (s : Module)
    (h : Run (moduleStep P) (Module.init mem) tr s) :
    Each (fun _ r => Careful P r) tr ∧
    (∀ p x v f, s.io.proc p = some x → v ∈ x.vmas → f ∈ v.frames → f ∈ s.marked) ∧
    (s.phase = .idle → s.marked = ∅) ∧
    ∃ tr' s', Run (step P) (State.init mem) tr' s' ∧ tr'.filterMap seen = tr.filterMap moduleSeen := by
  have hlife := life_run h
  refine ⟨?_, ?_, ?_, ?_⟩
  · rintro past r rest rfl
    obtain ⟨hpast, u, hu, -⟩ := h.split
    exact careful_step hP (life_run hpast) hu
  · intro p x v f hp hv hf
    exact hlife.mapped_marked hp hv hf
  · intro hidle
    rw [hlife.marked, hidle, Phase.marks]
  · obtain ⟨tr', s', hrun, hseen, -⟩ := h.forward moduleSeen seen (R := Refines P)
      ⟨life_init mem, rfl⟩ fun _ _ _ _ _ hR hs => refines_step hR hs
    exact ⟨tr', s', hrun, hseen⟩

/-- A load that fails in `misc_register` while a process forks, then one that is used before the module
is unloaded. -/
def loadTwice : List ModuleEvent :=
  [.kmalloc (some 9), .setPageReserved, .setPageReserved, .call (.fork 0), .setPageReserved,
    .setPageReserved, .miscRegister (some .ebusy), .clearPageReserved, .clearPageReserved,
    .clearPageReserved, .clearPageReserved, .kfree,
    .kmalloc (some 2), .setPageReserved, .setPageReserved, .setPageReserved, .setPageReserved,
    .miscRegister none, .call (.openFile 1 3), .call (.mmap 1 3 2 0 false), .call (.store 1 0 17 65),
    .call (.read 1 3 20 20), .call (.exit 1), .call .rmmod, .miscDeregister, .clearPageReserved,
    .clearPageReserved, .clearPageReserved, .clearPageReserved, .kfree]

theorem mbufModule_life_loadTwice : ∃ tr s,
    (Run (moduleStep ⟨16, by decide⟩) (Module.init fun _ => 0) tr s ∧
      tr.map Record.event = loadTwice ∧ s.phase = .idle) ∧
    Each (fun _ r => Careful ⟨16, by decide⟩ r) tr ∧ s.marked = ∅ ∧
    ∃ tr' s', Run (step ⟨16, by decide⟩) (State.init fun _ => 0) tr' s' ∧
      tr'.filterMap seen = tr.filterMap moduleSeen := by
  obtain ⟨tr, s, hrun, hev, hs⟩ := exists_exec (moduleStep ⟨16, by decide⟩) (Module.init fun _ => 0)
    loadTwice (fun x => x.2.phase = .idle) (by decide +kernel)
  have hidle : s.phase = .idle := by simpa using hs
  obtain ⟨hcareful, -, hmarks, hseen⟩ := mbufModule_life _ (by decide) _ tr s hrun
  exact ⟨tr, s, ⟨hrun, hev, hidle⟩, hcareful, hmarks hidle, hseen⟩

end LinuxDriverLab.MmapBuf
