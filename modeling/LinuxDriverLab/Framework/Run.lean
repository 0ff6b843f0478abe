import Mathlib.Data.List.Induction

/-!
# Runs of a guarded step function

A system is a step function `step : σ → ε → Option (σ × ω)`: it is `none` where the event is not
enabled, and otherwise gives the next state and what the step shows to the outside. A run keeps
every step together with the state before it, so that a statement can be about one step, about the
steps that came before it, or about all states reached.
-/

namespace LinuxDriverLab

/-- One step of a run: the state before it, the event, and what the step showed. -/
structure Record (σ ε ω : Type) where
  pre : σ
  event : ε
  out : ω

/-- `Run step s tr t`: the steps `tr`, oldest first, lead from `s` to `t`. -/
inductive Run {σ ε ω : Type} (step : σ → ε → Option (σ × ω)) (s : σ) :
    List (Record σ ε ω) → σ → Prop
  | refl : Run step s [] s
  | tail {t u : σ} {tr : List (Record σ ε ω)} {e : ε} {o : ω} :
      Run step s tr t → step t e = some (u, o) → Run step s (tr ++ [⟨t, e, o⟩]) u

/-- `P past r` holds of every step `r` of the run, `past` being the steps before it. -/
def Each {σ ε ω : Type} (P : List (Record σ ε ω) → Record σ ε ω → Prop)
    (tr : List (Record σ ε ω)) : Prop :=
  ∀ past r rest, tr = past ++ r :: rest → P past r

section

variable {σ ε ω : Type} {step : σ → ε → Option (σ × ω)}
variable {P Q : List (Record σ ε ω) → Record σ ε ω → Prop}

@[simp] theorem each_nil : Each P [] := by
  intro past r rest h
  simp at h

theorem each_concat (tr : List (Record σ ε ω)) (r : Record σ ε ω) :
    Each P (tr ++ [r]) ↔ Each P tr ∧ P tr r := by
  constructor
  · intro h
    refine ⟨?_, h tr r [] rfl⟩
    intro past q rest htr
    exact h past q (rest ++ [r]) (by simp [htr])
  · rintro ⟨h, hr⟩ past q rest htr
    rcases List.eq_nil_or_concat rest with rfl | ⟨rest', z, rfl⟩
    · obtain ⟨rfl, hq⟩ := List.append_inj' htr rfl
      obtain rfl := List.singleton_inj.mp hq
      exact hr
    · have hcat : tr ++ [r] = (past ++ q :: rest') ++ [z] := by simpa using htr
      exact h past q rest' (List.append_inj' hcat rfl).1

theorem Each.mono {tr : List (Record σ ε ω)} (h : Each P tr) (hPQ : ∀ past r, P past r → Q past r) :
    Each Q tr :=
  fun past r rest htr => hPQ past r (h past r rest htr)

theorem Each.prefix {past rest : List (Record σ ε ω)} (h : Each P (past ++ rest)) :
    Each P past := by
  intro a r b hab
  exact h a r (b ++ rest) (by simp [hab])

theorem Each.suffix {past rest : List (Record σ ε ω)} (h : Each P (past ++ rest)) :
    Each (fun a r => P (past ++ a) r) rest := by
  intro a r b hab
  exact h (past ++ a) r b (by simp [hab])

namespace Run

variable {s t : σ} {tr : List (Record σ ε ω)}

theorem concat_inv {r : Record σ ε ω} (h : Run step s (tr ++ [r]) t) :
    Run step s tr r.pre ∧ step r.pre r.event = some (t, r.out) := by
  generalize htr : tr ++ [r] = all at h
  cases h with
  | refl => simp at htr
  | tail hrun hstep =>
    obtain ⟨rfl, hr⟩ := List.append_inj' htr rfl
    obtain rfl := List.singleton_inj.mp hr
    exact ⟨hrun, hstep⟩

theorem split {past rest : List (Record σ ε ω)} {r : Record σ ε ω}
    (h : Run step s (past ++ r :: rest) t) :
    Run step s past r.pre ∧ ∃ u, step r.pre r.event = some (u, r.out) ∧ Run step u rest t := by
  induction rest using List.reverseRecOn generalizing t with
  | nil =>
    obtain ⟨hrun, hstep⟩ := concat_inv h
    exact ⟨hrun, t, hstep, .refl⟩
  | append_singleton rest z ih =>
    have hcat : Run step s ((past ++ r :: rest) ++ [z]) t := by simpa using h
    obtain ⟨hrun, hz⟩ := concat_inv hcat
    obtain ⟨hpast, u, hu, hrest⟩ := ih hrun
    exact ⟨hpast, u, hu, hrest.tail hz⟩

theorem append {u : σ} {tr' : List (Record σ ε ω)} (h : Run step s tr t) (h' : Run step t tr' u) :
    Run step s (tr ++ tr') u := by
  induction h' with
  | refl => simpa using h
  | tail _ hstep ih =>
    rw [← List.append_assoc]
    exact ih.tail hstep

/-- The invariant rule: what holds at first and is preserved by every step holds in every state
reached. -/
theorem invariant {I : σ → Prop} (h : Run step s tr t) (hinit : I s)
    (hstep : ∀ s e s' o, I s → step s e = some (s', o) → I s') : I t := by
  induction h with
  | refl => exact hinit
  | tail _ hs ih => exact hstep _ _ _ _ ih hs

/-- The invariant rule for a property that also looks back at the steps made so far. -/
theorem history {I : List (Record σ ε ω) → σ → Prop} (h : Run step s tr t) (hinit : I [] s)
    (hstep : ∀ tr t e u o, Run step s tr t → I tr t → step t e = some (u, o) →
      I (tr ++ [⟨t, e, o⟩]) u) : I tr t := by
  induction h with
  | refl => exact hinit
  | tail hrun hs ih => exact hstep _ _ _ _ _ hrun ih hs

/-- The invariant rule for runs whose steps all meet a condition `P`. -/
theorem guarded {I : List (Record σ ε ω) → σ → Prop} (h : Run step s tr t) (hP : Each P tr)
    (hinit : I [] s)
    (hstep : ∀ tr t e u o, Run step s tr t → I tr t → P tr ⟨t, e, o⟩ →
      step t e = some (u, o) → I (tr ++ [⟨t, e, o⟩]) u) : I tr t := by
  induction h with
  | refl => exact hinit
  | tail hrun hs ih =>
    obtain ⟨hprev, hlast⟩ := (each_concat _ _).mp hP
    exact hstep _ _ _ _ _ hrun (ih hprev) hlast hs

end Run

/-- The run that given events make, if they are all enabled. -/
def exec (step : σ → ε → Option (σ × ω)) : σ → List ε → Option (List (Record σ ε ω) × σ)
  | s, [] => some ([], s)
  | s, e :: es =>
    match step s e with
    | none => none
    | some (t, o) =>
      match exec step t es with
      | none => none
      | some (tr, u) => some (⟨s, e, o⟩ :: tr, u)

theorem exec_run {s t : σ} {es : List ε} {tr : List (Record σ ε ω)}
    (h : exec step s es = some (tr, t)) : Run step s tr t ∧ tr.map Record.event = es := by
  induction es generalizing s tr with
  | nil =>
    cases h
    exact ⟨.refl, rfl⟩
  | cons e es ih =>
    simp only [exec] at h
    split at h
    · cases h
    · next u o hs =>
      split at h
      · cases h
      · next tr' v hes =>
        cases h
        obtain ⟨hrun, hev⟩ := ih hes
        exact ⟨(Run.tail .refl hs).append hrun, by simp [hev]⟩

theorem exists_exec (step : σ → ε → Option (σ × ω)) (s : σ) (es : List ε)
    (q : List (Record σ ε ω) × σ → Bool)
    (h : (exec step s es).any q = true) :
    ∃ tr t, Run step s tr t ∧ tr.map Record.event = es ∧ q (tr, t) = true := by
  cases hx : exec step s es with
  | none => simp [hx] at h
  | some x =>
    obtain ⟨tr, t⟩ := x
    obtain ⟨hrun, hev⟩ := exec_run hx
    exact ⟨tr, t, hrun, hev, by simpa [hx] using h⟩

theorem exists_exec_concat (step : σ → ε → Option (σ × ω)) (s : σ) (es : List ε) (e : ε)
    (q : List (Record σ ε ω) → Record σ ε ω → Bool)
    (h : (exec step s es).any (fun x => (step x.2 e).any fun y => q x.1 ⟨x.2, e, y.2⟩) = true) :
    ∃ tr r t, Run step s (tr ++ [r]) t ∧ r.event = e ∧ q tr r = true := by
  obtain ⟨tr, t, hrun, -, hq⟩ := exists_exec step s es _ h
  cases hs : step t e with
  | none => simp [hs] at hq
  | some y =>
    obtain ⟨u, o⟩ := y
    exact ⟨tr, ⟨t, e, o⟩, u, hrun.tail hs, rfl, by simpa [hs] using hq⟩

theorem each_of_all {tr : List (Record σ ε ω)} (p : Record σ ε ω → Bool) (h : tr.all p = true)
    (hp : ∀ past r, p r = true → P past r) : Each P tr := by
  intro past r rest htr
  refine hp past r (List.all_eq_true.mp h r ?_)
  simp [htr]

/-- `Each`, to be computed: `past` is what came before `tr`. -/
def checkEach (p : List (Record σ ε ω) → Record σ ε ω → Bool) :
    List (Record σ ε ω) → List (Record σ ε ω) → Bool
  | _, [] => true
  | past, r :: rest => p past r && checkEach p (past ++ [r]) rest

theorem each_of_checkEach {p : List (Record σ ε ω) → Record σ ε ω → Bool}
    {tr : List (Record σ ε ω)} (h : checkEach p [] tr = true)
    (hp : ∀ past r, p past r = true → P past r) : Each P tr := by
  have hall : ∀ (rest before past : List (Record σ ε ω)) (r : Record σ ε ω)
      (after : List (Record σ ε ω)), checkEach p before rest = true → rest = past ++ r :: after →
        P (before ++ past) r := by
    intro rest
    induction rest with
    | nil =>
      intro before past r after _ hrest
      simp at hrest
    | cons q rest ih =>
      intro before past r after hcheck hrest
      obtain ⟨hq, hnext⟩ := (Bool.and_eq_true _ _).mp hcheck
      cases past with
      | nil =>
        obtain ⟨rfl, -⟩ := List.cons.inj hrest
        rw [List.append_nil]
        exact hp before q hq
      | cons z past =>
        obtain ⟨rfl, htail⟩ := List.cons.inj hrest
        have := ih (before ++ [q]) past r after hnext htail
        rwa [List.append_assoc, List.singleton_append] at this
  intro past r after htr
  exact hall tr [] past r after h htr

theorem not_each_of_any {tr : List (Record σ ε ω)} (p : Record σ ε ω → Bool) (h : tr.any p = true)
    (hp : ∀ past r, p r = true → ¬ P past r) : ¬ Each P tr := by
  intro hall
  obtain ⟨r, hr, hpr⟩ := List.any_eq_true.mp h
  obtain ⟨past, rest, htr⟩ := List.append_of_mem hr
  exact hp past r hpr (hall past r rest htr)

/-- What the steps so far amount to for an abstract system: each step is read as at most one
operation of it, and the operations are applied in order. -/
def replay {σ ε ω τ α : Type} (apply : τ → α → τ) (label : Record σ ε ω → Option α) (a : τ)
    (tr : List (Record σ ε ω)) : τ :=
  (tr.filterMap label).foldl apply a

section

variable {τ α : Type} (apply : τ → α → τ) (label : Record σ ε ω → Option α) (a : τ)

@[simp] theorem replay_nil : replay apply label a ([] : List (Record σ ε ω)) = a := rfl

theorem replay_concat (tr : List (Record σ ε ω)) (r : Record σ ε ω) :
    replay apply label a (tr ++ [r]) =
      match label r with
      | none => replay apply label a tr
      | some op => apply (replay apply label a tr) op := by
  unfold replay
  rw [List.filterMap_append, List.foldl_append]
  cases h : label r <;> simp [h]

/-- The simulation rule: when every step keeps the states related to the abstract state that
replays it, a whole run does. -/
theorem Run.simulates {R : τ → σ → Prop} {s t : σ} {tr : List (Record σ ε ω)}
    (h : Run step s tr t) (hinit : R a s)
    (hstep : ∀ b t e u o, R b t → step t e = some (u, o) →
      R (match label ⟨t, e, o⟩ with | none => b | some op => apply b op) u) :
    R (replay apply label a tr) t := by
  induction h with
  | refl => exact hinit
  | tail _ hs ih =>
    rw [replay_concat]
    exact hstep _ _ _ _ _ ih hs

end

/-- The unwinding rule: when the steps that are not `mine` keep two states related, and each of
mine can be made from the related state with the same output, then so can the run without the
other steps. -/
theorem Run.unwinding {R : σ → σ → Prop} (mine : Record σ ε ω → Bool) {s s' t : σ}
    {tr : List (Record σ ε ω)} (h : Run step s tr t) (hinit : R s s')
    (hmine : ∀ a b e u o, R a b → step a e = some (u, o) → mine ⟨a, e, o⟩ = true →
      ∃ v, step b e = some (v, o) ∧ R u v)
    (hother : ∀ a b e u o, R a b → step a e = some (u, o) → mine ⟨a, e, o⟩ = false → R u b) :
    ∃ tr' t', Run step s' tr' t' ∧ tr'.map Record.event = (tr.filter mine).map Record.event ∧
      tr'.map Record.out = (tr.filter mine).map Record.out ∧ R t t' := by
  induction h with
  | refl => exact ⟨[], s', .refl, rfl, rfl, hinit⟩
  | @tail a u tr e o _ hs ih =>
    obtain ⟨tr', b, hrun, hevents, houts, hR⟩ := ih
    cases hm : mine ⟨a, e, o⟩ with
    | true =>
      obtain ⟨v, hv, hRv⟩ := hmine a b e u o hR hs hm
      refine ⟨_, v, hrun.tail hv, ?_, ?_, hRv⟩
      · simp [hevents, hm]
      · simp [houts, hm]
    | false => exact ⟨tr', b, hrun, by simp [hevents, hm], by simp [houts, hm], hother a b e u o hR hs hm⟩

/-- The forward simulation rule: when each step of one system is matched by a run of the other that
shows the same, then so is each of its runs. -/
theorem Run.forward {σ' ε' ω' η : Type} {step' : σ' → ε' → Option (σ' × ω')} {R : σ → σ' → Prop}
    (vis : Record σ ε ω → Option η) (vis' : Record σ' ε' ω' → Option η) {s t : σ} {s' : σ'}
    {tr : List (Record σ ε ω)} (h : Run step s tr t) (hinit : R s s')
    (hstep : ∀ a b e u o, R a b → step a e = some (u, o) →
      ∃ tr' v, Run step' b tr' v ∧ tr'.filterMap vis' = (vis ⟨a, e, o⟩).toList ∧ R u v) :
    ∃ tr' t', Run step' s' tr' t' ∧ tr'.filterMap vis' = tr.filterMap vis ∧ R t t' := by
  induction h with
  | refl => exact ⟨[], s', .refl, rfl, hinit⟩
  | @tail a u tr e o _ hs ih =>
    obtain ⟨tr₁, b, hrun₁, hvis₁, hR₁⟩ := ih
    obtain ⟨tr₂, v, hrun₂, hvis₂, hR₂⟩ := hstep a b e u o hR₁ hs
    refine ⟨tr₁ ++ tr₂, v, hrun₁.append hrun₂, ?_, hR₂⟩
    rw [List.filterMap_append, List.filterMap_append, hvis₁, hvis₂]
    cases hv : vis ⟨a, e, o⟩ <;> simp [hv]

theorem Run.lockstep {σ' ε' ω' η : Type} {step' : σ' → ε' → Option (σ' × ω')} {R : σ → σ' → Prop}
    (vis : Record σ ε ω → Option η) (vis' : Record σ' ε' ω' → Option η) {s t : σ} {s' : σ'}
    {tr : List (Record σ ε ω)} (h : Run step s tr t) (hinit : R s s')
    (hstep : ∀ a b e u o, R a b → step a e = some (u, o) →
      ∃ e' v o', step' b e' = some (v, o') ∧ vis' ⟨b, e', o'⟩ = vis ⟨a, e, o⟩ ∧ R u v) :
    ∃ tr' t', Run step' s' tr' t' ∧ tr'.filterMap vis' = tr.filterMap vis ∧ R t t' := by
  refine h.forward vis vis' hinit ?_
  intro a b e u o hR hs
  obtain ⟨e', v, o', hs', hvis, hRv⟩ := hstep a b e u o hR hs
  refine ⟨[⟨b, e', o'⟩], v, .tail .refl hs', ?_, hRv⟩
  rw [List.filterMap_cons, hvis]
  cases vis ⟨a, e, o⟩ <;> rfl

/-- What a step shows, with its event. -/
def Record.seen (r : Record σ ε ω) : ε × ω := (r.event, r.out)

end

end LinuxDriverLab
