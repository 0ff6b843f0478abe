import LinuxDriverLab.Framework.Run
import Mathlib.Logic.Function.Basic

/-!
# Critical sections

Tasks run code on a shared device. What the code does outside the lock is a step of its own and sees
the device through `view` only; what it does under the lock is a section, made access by access
while other tasks go on. Such sections can be taken for single steps: what the tasks show outside
them is the same either way.
-/

namespace LinuxDriverLab

/-- Code on a device `δ`, with the places `π` a task can stand at and `γ` shared besides the device.
A section that begins at a place finds `α` outside the device and keeps `κ` while it runs. -/
structure Code (δ γ π ε ω α κ ρ : Type) where
  plain : π → ε → δ → γ → Option (π × γ × ω)
  enter : π → α → Option κ
  access : κ → δ → (δ × κ) ⊕ ρ
  leave : π → ρ → π

namespace Code

variable {δ γ π ε ω α κ ρ τ ν : Type}

/-- A section that stands at `k` and finds `d` runs to its end, leaving `d'` and the result `r`. -/
inductive Yields (C : Code δ γ π ε ω α κ ρ) : κ → δ → δ → ρ → Prop
  | done {k d r} : C.access k d = .inr r → Yields C k d d r
  | access {k d d' k' d'' r} : C.access k d = .inl (d', k') → Yields C k' d' d'' r →
      Yields C k d d'' r

/-- What makes the sections of the code atomic: `whole` is each of them at once, and what steps
outside the lock see of the device changes with the last access of a section only. -/
structure Atomic (C : Code δ γ π ε ω α κ ρ) (ν : Type) where
  whole : π → α → δ → δ × ρ
  view : δ → ν
  yields : ∀ {p a k}, C.enter p a = some k → ∀ d, C.Yields k d (whole p a d).1 (whole p a d).2
  plain_view : ∀ {d d'}, view d = view d' → ∀ p e g, C.plain p e d g = C.plain p e d' g
  access_view : ∀ {k d d' k'}, C.access k d = .inl (d', k') →
    view d' = view d ∨ ∃ r, C.access k' d' = .inr r

theorem Yields.of_done {C : Code δ γ π ε ω α κ ρ} {k : κ} {d d' : δ} {r r' : ρ}
    (h : C.Yields k d d' r) (hdone : C.access k d = .inr r') : d' = d ∧ r = r' := by
  cases h with
  | done hr =>
    rw [hr] at hdone
    exact ⟨rfl, Sum.inr.inj hdone⟩
  | access ha _ =>
    rw [ha] at hdone
    cases hdone

theorem Yields.of_access {C : Code δ γ π ε ω α κ ρ} {k k' : κ} {d d' e : δ} {r : ρ}
    (h : C.Yields k d e r) (ha : C.access k d = .inl (d', k')) : C.Yields k' d' e r := by
  cases h with
  | done hr =>
    rw [hr] at ha
    cases ha
  | access hb hrest =>
    rw [ha] at hb
    cases hb
    exact hrest

/-- The state of the system whose sections run access by access: `lock` is the task that holds the
lock and where its section stands. -/
structure Fine (δ γ π κ τ : Type) where
  dev : δ
  shared : γ
  pc : τ → π
  lock : Option (τ × κ)

inductive Fine.Event (ε α τ : Type)
  | plain (t : τ) (e : ε)
  | lock (t : τ) (a : α)
  | access
  | unlock

/-- The state of the system whose sections are single steps. -/
structure Coarse (δ γ π τ : Type) where
  dev : δ
  shared : γ
  pc : τ → π

inductive Coarse.Event (ε α τ : Type)
  | plain (t : τ) (e : ε)
  | locked (t : τ) (a : α)

variable [DecidableEq τ]

/-- A step outside the lock shows the task, what it did and what it gave. -/
def fineStep (C : Code δ γ π ε ω α κ ρ) (s : Fine δ γ π κ τ) :
    Fine.Event ε α τ → Option (Fine δ γ π κ τ × Option (τ × ε × ω))
  | .plain t e =>
    if s.lock.map Prod.fst = some t then none
    else
      match C.plain (s.pc t) e s.dev s.shared with
      | none => none
      | some (p, g, o) =>
        some ({ s with shared := g, pc := Function.update s.pc t p }, some (t, e, o))
  | .lock t a =>
    match s.lock, C.enter (s.pc t) a with
    | none, some k => some ({ s with lock := some (t, k) }, none)
    | _, _ => none
  | .access =>
    match s.lock with
    | none => none
    | some (t, k) =>
      match C.access k s.dev with
      | .inl (d, k') => some ({ s with dev := d, lock := some (t, k') }, none)
      | .inr _ => none
  | .unlock =>
    match s.lock with
    | none => none
    | some (t, k) =>
      match C.access k s.dev with
      | .inl _ => none
      | .inr r =>
        some ({ s with pc := Function.update s.pc t (C.leave (s.pc t) r), lock := none }, none)

def coarseStep (C : Code δ γ π ε ω α κ ρ) (A : C.Atomic ν) (s : Coarse δ γ π τ) :
    Coarse.Event ε α τ → Option (Coarse δ γ π τ × Option (τ × ε × ω))
  | .plain t e =>
    match C.plain (s.pc t) e s.dev s.shared with
    | none => none
    | some (p, g, o) =>
      some ({ s with shared := g, pc := Function.update s.pc t p }, some (t, e, o))
  | .locked t a =>
    match C.enter (s.pc t) a with
    | none => none
    | some _ =>
      let (dev, r) := A.whole (s.pc t) a s.dev
      some ({ s with dev, pc := Function.update s.pc t (C.leave (s.pc t) r) }, none)

/-- What the steps outside the lock show, in order. -/
def history {σ ε' : Type} (tr : List (Record σ ε' (Option (τ × ε × ω)))) : List (τ × ε × ω) :=
  tr.filterMap Record.out

/-- The cases of `fineStep`. -/
inductive FineMove (C : Code δ γ π ε ω α κ ρ) (s : Fine δ γ π κ τ) :
    Fine.Event ε α τ → Fine δ γ π κ τ → Option (τ × ε × ω) → Prop
  | plain {t e p g o} (hfree : s.lock.map Prod.fst ≠ some t)
      (h : C.plain (s.pc t) e s.dev s.shared = some (p, g, o)) :
      FineMove C s (.plain t e) { s with shared := g, pc := Function.update s.pc t p }
        (some (t, e, o))
  | lock {t a k} (hfree : s.lock = none) (h : C.enter (s.pc t) a = some k) :
      FineMove C s (.lock t a) { s with lock := some (t, k) } none
  | access {t k d k'} (hheld : s.lock = some (t, k)) (h : C.access k s.dev = .inl (d, k')) :
      FineMove C s .access { s with dev := d, lock := some (t, k') } none
  | unlock {t k r} (hheld : s.lock = some (t, k)) (h : C.access k s.dev = .inr r) :
      FineMove C s .unlock
        { s with pc := Function.update s.pc t (C.leave (s.pc t) r), lock := none } none

theorem fineStep_move {C : Code δ γ π ε ω α κ ρ} {s u : Fine δ γ π κ τ} {e : Fine.Event ε α τ}
    {o : Option (τ × ε × ω)} (h : C.fineStep s e = some (u, o)) : C.FineMove s e u o := by
  cases e with
  | plain t e =>
    simp only [fineStep] at h
    split at h
    · cases h
    · next hfree =>
      split at h
      · cases h
      · next hp =>
        cases h
        exact .plain hfree hp
  | lock t a =>
    simp only [fineStep] at h
    split at h
    · next hfree hk =>
      cases h
      exact .lock hfree hk
    · cases h
  | access =>
    simp only [fineStep] at h
    split at h
    · cases h
    · next hheld =>
      split at h
      · next ha =>
        cases h
        exact .access hheld ha
      · cases h
  | unlock =>
    simp only [fineStep] at h
    split at h
    · cases h
    · next hheld =>
      split at h
      · cases h
      · next hr =>
        cases h
        exact .unlock hheld hr

variable {C : Code δ γ π ε ω α κ ρ}

/-- How the two systems stand to each other while a task `t` holds the lock, its section at `k`: the
section is still to be made as one step, or it was made and only the lock is to be released. -/
inductive Within (A : C.Atomic ν) (s : Fine δ γ π κ τ) (c : Coarse δ γ π τ) (t : τ) (k : κ) : Prop
  | pending (a : α) (k₀ : κ) (henter : C.enter (s.pc t) a = some k₀) (hpc : c.pc = s.pc)
      (hview : A.view s.dev = A.view c.dev)
      (hyields : C.Yields k s.dev (A.whole (s.pc t) a c.dev).1 (A.whole (s.pc t) a c.dev).2)
  | made (r : ρ) (hdone : C.access k s.dev = .inr r) (hdev : c.dev = s.dev)
      (hpc : c.pc = Function.update s.pc t (C.leave (s.pc t) r))

/-- The relation of the simulation. -/
structure Matches (A : C.Atomic ν) (s : Fine δ γ π κ τ) (c : Coarse δ γ π τ) : Prop where
  shared : c.shared = s.shared
  free : s.lock = none → c.dev = s.dev ∧ c.pc = s.pc
  held : ∀ t k, s.lock = some (t, k) → Within A s c t k

variable {A : C.Atomic ν}

theorem Matches.seen {s : Fine δ γ π κ τ} {c : Coarse δ γ π τ} (h : Matches A s c) {t : τ}
    (ht : s.lock.map Prod.fst ≠ some t) : c.pc t = s.pc t ∧ A.view s.dev = A.view c.dev := by
  cases hl : s.lock with
  | none =>
    obtain ⟨hdev, hpc⟩ := h.free hl
    exact ⟨by rw [hpc], by rw [hdev]⟩
  | some x =>
    obtain ⟨t', k⟩ := x
    have hne : t ≠ t' := by
      rintro rfl
      exact ht (by rw [hl]; rfl)
    cases h.held t' k hl with
    | pending a k₀ _ hpc hview _ => exact ⟨by rw [hpc], hview⟩
    | made r _ hdev hpc => exact ⟨by rw [hpc, Function.update_of_ne hne], by rw [hdev]⟩

theorem Matches.plain {s : Fine δ γ π κ τ} {c : Coarse δ γ π τ} (h : Matches A s c) {t : τ}
    (ht : s.lock.map Prod.fst ≠ some t) (p : π) (g : γ) :
    Matches A { s with shared := g, pc := Function.update s.pc t p }
      { c with shared := g, pc := Function.update c.pc t p } where
  shared := rfl
  free hfree := ⟨(h.free hfree).1, congrArg (Function.update · t p) (h.free hfree).2⟩
  held t' k hl := by
    have hne : t' ≠ t := by
      rintro rfl
      exact ht (by rw [show s.lock = some (t', k) from hl]; rfl)
    cases h.held t' k hl with
    | pending a k₀ henter hpc hview hyields =>
      refine .pending a k₀ ?_ (congrArg (Function.update · t p) hpc) hview ?_
      · simpa only [Function.update_of_ne hne] using henter
      · simpa only [Function.update_of_ne hne] using hyields
    | made r hdone hdev hpc =>
      refine .made r hdone hdev ?_
      simp only [hpc, Function.update_of_ne hne]
      rw [Function.update_comm hne]

theorem coarseStep_locked {c : Coarse δ γ π τ} {t : τ} {a : α} {k₀ : κ} {d : δ} {r : ρ}
    (henter : C.enter (c.pc t) a = some k₀) (hwhole : A.whole (c.pc t) a c.dev = (d, r)) :
    C.coarseStep A c (.locked t a) =
      some ({ c with dev := d, pc := Function.update c.pc t (C.leave (c.pc t) r) }, none) := by
  simp only [coarseStep, henter, hwhole]

theorem Matches.step {s u : Fine δ γ π κ τ} {c : Coarse δ γ π τ} {e : Fine.Event ε α τ}
    {o : Option (τ × ε × ω)} (h : Matches A s c) (hs : C.fineStep s e = some (u, o)) :
    ∃ tr v, Run (C.coarseStep A) c tr v ∧ history tr = o.toList ∧ Matches A u v := by
  cases fineStep_move hs with
  | @plain t e p g o hfree hp =>
    obtain ⟨hpc, hview⟩ := h.seen hfree
    have hc : C.coarseStep A c (.plain t e) =
        some ({ c with shared := g, pc := Function.update c.pc t p }, some (t, e, o)) := by
      simp only [coarseStep, hpc, h.shared, ← A.plain_view hview, hp]
    exact ⟨_, _, .tail .refl hc, rfl, h.plain hfree p g⟩
  | @lock t a k hfree hk =>
    obtain ⟨hdev, hpc⟩ := h.free hfree
    refine ⟨[], c, .refl, rfl, h.shared, by simp, ?_⟩
    intro t' k' hl
    cases hl
    exact .pending a k hk hpc (by rw [hdev]) (by rw [hdev]; exact A.yields hk s.dev)
  | @access t k d k' hheld ha =>
    cases h.held t k hheld with
    | made r hdone _ _ =>
      rw [hdone] at ha
      cases ha
    | pending a k₀ henter hpc hview hyields =>
      have hrest := hyields.of_access ha
      rcases A.access_view ha with hsame | ⟨r, hr⟩
      · refine ⟨[], c, .refl, rfl, h.shared, by simp, ?_⟩
        intro t' k'' hl
        cases hl
        exact .pending a k₀ henter hpc (hsame.trans hview) hrest
      · -- the access that the steps outside the lock can see: here the section is made
        obtain ⟨hd, hres⟩ := hrest.of_done hr
        have hc := coarseStep_locked (A := A) (c := c) (t := t) (a := a) (d := d) (r := r)
          (by rw [hpc]; exact henter) (by rw [hpc, ← hd, ← hres])
        refine ⟨_, _, .tail .refl hc, rfl, h.shared, by simp, ?_⟩
        intro t' k'' hl
        cases hl
        exact .made r hr rfl (by simp only [hpc])
  | @unlock t k r hheld hr =>
    cases h.held t k hheld with
    | made r' hdone hdev hpc =>
      obtain rfl : r' = r := Sum.inr.inj (hdone.symm.trans hr)
      exact ⟨[], c, .refl, rfl, h.shared, fun _ => ⟨hdev, hpc⟩, by simp⟩
    | pending a k₀ henter hpc _ hyields =>
      obtain ⟨hd, hres⟩ := hyields.of_done hr
      have hc := coarseStep_locked (A := A) (c := c) (t := t) (a := a) (d := s.dev) (r := r)
        (by rw [hpc]; exact henter) (by rw [hpc, ← hd, ← hres])
      exact ⟨_, _, .tail .refl hc, rfl, h.shared, fun _ => ⟨rfl, by simp only [hpc]⟩,
        by simp⟩

theorem Yields.run {k : κ} {d d' : δ} {r : ρ} (h : C.Yields k d d' r) (g : γ) (pc : τ → π)
    (t : τ) :
    ∃ tr, Run (C.fineStep (ε := ε) (α := α)) ⟨d, g, pc, some (t, k)⟩ tr
      ⟨d', g, Function.update pc t (C.leave (pc t) r), none⟩ ∧ history tr = [] := by
  induction h with
  | done hr =>
    refine ⟨_, .tail .refl (e := .unlock) (o := none) ?_, rfl⟩
    simp only [fineStep, hr]
  | @access k d d' k' d'' r ha _ ih =>
    obtain ⟨tr, hrun, hhist⟩ := ih
    have hstep : C.fineStep (⟨d, g, pc, some (t, k)⟩ : Fine δ γ π κ τ) .access =
        some (⟨d', g, pc, some (t, k')⟩, none) := by
      simp only [fineStep, ha]
    refine ⟨_, (Run.tail .refl hstep).append hrun, ?_⟩
    simpa [history] using hhist

theorem coarseStep_fine {c v : Coarse δ γ π τ} {e : Coarse.Event ε α τ} {o : Option (τ × ε × ω)}
    (hs : C.coarseStep A c e = some (v, o)) :
    ∃ tr, Run C.fineStep (⟨c.dev, c.shared, c.pc, none⟩ : Fine δ γ π κ τ) tr
      ⟨v.dev, v.shared, v.pc, none⟩ ∧ history tr = o.toList := by
  cases e with
  | plain t e =>
    simp only [coarseStep] at hs
    split at hs
    · cases hs
    · next p g o hp =>
      cases hs
      refine ⟨_, .tail .refl (e := .plain t e) (o := some (t, e, o)) ?_, rfl⟩
      simp only [fineStep, hp, Option.map_none, reduceCtorEq, if_false]
  | locked t a =>
    simp only [coarseStep] at hs
    split at hs
    · cases hs
    · next k hk =>
      cases hs
      obtain ⟨tr, hrun, hhist⟩ := (A.yields hk c.dev).run (ε := ε) (α := α) c.shared c.pc t
      have hlock : C.fineStep (⟨c.dev, c.shared, c.pc, none⟩ : Fine δ γ π κ τ) (.lock t a) =
          some (⟨c.dev, c.shared, c.pc, some (t, k)⟩, none) := by
        simp only [fineStep, hk]
      refine ⟨_, (Run.tail .refl hlock).append hrun, ?_⟩
      simpa [history] using hhist

/-- Sections may be taken for single steps: the system whose sections run access by access, between
any steps of the other tasks, shows exactly what the one whose sections are single steps shows. -/
theorem histories_iff (A : C.Atomic ν) (d : δ) (g : γ) (pc : τ → π) (h : List (τ × ε × ω)) :
    (∃ tr t, Run C.fineStep (⟨d, g, pc, none⟩ : Fine δ γ π κ τ) tr t ∧ history tr = h) ↔
      ∃ tr t, Run (C.coarseStep A) ⟨d, g, pc⟩ tr t ∧ history tr = h := by
  constructor
  · rintro ⟨tr, t, hrun, rfl⟩
    have hinit : Matches A (⟨d, g, pc, none⟩ : Fine δ γ π κ τ) ⟨d, g, pc⟩ :=
      ⟨rfl, fun _ => ⟨rfl, rfl⟩, by simp⟩
    obtain ⟨tr', t', hrun', hhist, -⟩ := hrun.forward Record.out Record.out hinit
      (fun _ _ _ _ _ hm hs => hm.step hs)
    exact ⟨tr', t', hrun', hhist⟩
  · rintro ⟨tr, t, hrun, rfl⟩
    have hsim : ∃ tr' t', Run C.fineStep (⟨d, g, pc, none⟩ : Fine δ γ π κ τ) tr' t' ∧
        history tr' = history tr ∧ t' = ⟨t.dev, t.shared, t.pc, none⟩ := by
      refine hrun.forward (R := fun (c : Coarse δ γ π τ) (s : Fine δ γ π κ τ) =>
        s = ⟨c.dev, c.shared, c.pc, none⟩) _ _ rfl ?_
      rintro c _ e v o rfl hs
      obtain ⟨tr', hrun', hhist⟩ := coarseStep_fine hs
      exact ⟨tr', _, hrun', hhist, rfl⟩
    obtain ⟨tr', t', hrun', hhist, -⟩ := hsim
    exact ⟨tr', t', hrun', hhist⟩

/-- The same against a system `step` that makes the steps of `coarseStep` under its own events:
`seen` is what its steps outside the lock show. -/
theorem histories_iff_of (A : C.Atomic ν) {σ ε' ω' : Type} {step : σ → ε' → Option (σ × ω')}
    (coarse : σ → Coarse δ γ π τ) (seen : Record σ ε' ω' → Option (τ × ε × ω))
    (hcoarse : ∀ s e u o, step s e = some (u, o) →
      ∃ e', C.coarseStep A (coarse s) e' = some (coarse u, seen ⟨s, e, o⟩))
    (hstep : ∀ s e v o, C.coarseStep A (coarse s) e = some (v, o) →
      ∃ e' u o', step s e' = some (u, o') ∧ v = coarse u ∧ seen ⟨s, e', o'⟩ = o)
    (s : σ) (h : List (τ × ε × ω)) :
    (∃ tr t, Run C.fineStep (⟨(coarse s).dev, (coarse s).shared, (coarse s).pc, none⟩ :
        Fine δ γ π κ τ) tr t ∧ history tr = h) ↔
      ∃ tr t, Run step s tr t ∧ tr.filterMap seen = h := by
  refine (histories_iff A _ _ _ h).trans ?_
  constructor
  · rintro ⟨tr, t, hrun, rfl⟩
    have hsim : ∃ tr' t', Run step s tr' t' ∧ tr'.filterMap seen = history tr ∧
        t = coarse t' := by
      refine hrun.lockstep (R := fun c s => c = coarse s) _ _ rfl ?_
      rintro _ s e v o rfl hs
      obtain ⟨e', u, o', hu, hv, hseen⟩ := hstep s e v o hs
      exact ⟨e', u, o', hu, hseen, hv⟩
    obtain ⟨tr', t', hrun', hseen, -⟩ := hsim
    exact ⟨tr', t', hrun', hseen⟩
  · rintro ⟨tr, t, hrun, rfl⟩
    have hsim : ∃ tr' c, Run (C.coarseStep A) (coarse s) tr' c ∧
        history tr' = tr.filterMap seen ∧ c = coarse t := by
      refine hrun.lockstep (R := fun s c => c = coarse s) _ _ rfl ?_
      rintro s _ e u o rfl hs
      obtain ⟨e', hc⟩ := hcoarse s e u o hs
      exact ⟨e', coarse u, _, hc, rfl, rfl⟩
    obtain ⟨tr', c, hrun', hhist, -⟩ := hsim
    exact ⟨tr', c, hrun', hhist⟩

/-- No run is stuck with the lock taken: the task that holds it can go on to release it. -/
theorem can_unlock (A : C.Atomic ν) {d : δ} {g : γ} {pc : τ → π} {s : Fine δ γ π κ τ}
    {tr : List (Record (Fine δ γ π κ τ) (Fine.Event ε α τ) (Option (τ × ε × ω)))}
    (h : Run C.fineStep ⟨d, g, pc, none⟩ tr s) :
    ∃ tr' t, Run C.fineStep s tr' t ∧ history tr' = [] ∧ t.lock = none := by
  have hinit : Matches A (⟨d, g, pc, none⟩ : Fine δ γ π κ τ) ⟨d, g, pc⟩ :=
    ⟨rfl, fun _ => ⟨rfl, rfl⟩, by simp⟩
  obtain ⟨-, c, -, -, hm⟩ := h.forward Record.out Record.out hinit
    (fun _ _ _ _ _ hm hs => hm.step hs)
  obtain ⟨dev, shared, pc', lock⟩ := s
  cases lock with
  | none => exact ⟨[], _, .refl, rfl, rfl⟩
  | some x =>
    obtain ⟨t, k⟩ := x
    have hyields : ∃ d' r, C.Yields k dev d' r := by
      cases hm.held t k rfl with
      | pending a k₀ _ _ _ hy => exact ⟨_, _, hy⟩
      | made r hdone _ _ => exact ⟨_, _, .done hdone⟩
    obtain ⟨d', r, hy⟩ := hyields
    obtain ⟨tr', hrun, hhist⟩ := hy.run (ε := ε) (α := α) shared pc' t
    exact ⟨tr', _, hrun, hhist, rfl⟩

end Code

end LinuxDriverLab
