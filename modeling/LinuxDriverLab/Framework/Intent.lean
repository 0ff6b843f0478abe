import Mathlib.Logic.Function.Basic
import LinuxDriverLab.Framework.Run

/-!
# What the events of a run ask for

A call says what it is to do when it begins, and does it at a later step of its own or at once. What
a list of events comes to is read off the events alone. Where the steps of a system also show what
they did, the two can be compared.
-/

namespace LinuxDriverLab

/-- The part of an event in the calls: the call `k` begins and is to do `p`, it does so, or `p` is done
at once. -/
inductive Intent (κ π : Type) where
  | prepare (k : κ) (p : π)
  | commit (k : κ)
  | whole (p : π)
  | other

/-- What the calls under way are to do, and what the others have come to. -/
structure Asked (κ π α : Type) where
  prepared : κ → Option π
  value : α

namespace Asked

variable {κ π α ε : Type} [DecidableEq κ] (apply : α → π → α)

def init (a : α) : Asked κ π α := ⟨fun _ => none, a⟩

def after (x : Asked κ π α) : Intent κ π → Asked κ π α
  | .prepare k p => { x with prepared := Function.update x.prepared k (some p) }
  | .commit k =>
    match x.prepared k with
    | some p => ⟨Function.update x.prepared k none, apply x.value p⟩
    | none => x
  | .whole p => { x with value := apply x.value p }
  | .other => x

end Asked

/-- What the events `es` come to. -/
def asked {κ π α ε : Type} [DecidableEq κ] (apply : α → π → α) (intent : ε → Intent κ π) (a : α)
    (es : List ε) : Asked κ π α :=
  es.foldl (fun x e => x.after apply (intent e)) (Asked.init a)

section

variable {σ κ π : Type}

/-- What is done is what a call was ready to do. -/
def Intent.Does (Ready : κ → π → Prop) (done : Option π) : Intent κ π → Prop
  | .commit k => ∃ p, Ready k p ∧ done = some p
  | .whole p => done = some p
  | _ => done = none

/-- A step from `s` to `u` with the part `i` did `done`, and the calls that are ready in `u` were so
in `s` or begin now. -/
structure Intent.Fits (Ready : σ → κ → π → Prop) (s u : σ) (i : Intent κ π) (done : Option π) : Prop where
  ready : ∀ k p, Ready u k p →
    i = .prepare k p ∨ Ready s k p ∧ (∀ q, i ≠ .prepare k q) ∧ i ≠ .commit k
  does : i.Does (Ready s) done

namespace Intent.Fits

variable {Ready : σ → κ → π → Prop} {s u : σ} {k : κ} {p : π}

theorem other (h : ∀ k' q, Ready u k' q → Ready s k' q) : Fits Ready s u (.other : Intent κ π) none :=
  ⟨fun k' q hq => .inr ⟨h k' q hq, by simp, by simp⟩, rfl⟩

theorem whole (h : ∀ k' q, Ready u k' q → Ready s k' q) : Fits Ready s u (.whole p) (some p) :=
  ⟨fun k' q hq => .inr ⟨h k' q hq, by simp, by simp⟩, rfl⟩

theorem prepare (h : ∀ k' q, Ready u k' q → k' = k ∧ q = p ∨ k' ≠ k ∧ Ready s k' q) :
    Fits Ready s u (.prepare k p) none := by
  refine ⟨fun k' q hq => ?_, rfl⟩
  rcases h k' q hq with ⟨rfl, rfl⟩ | ⟨hne, hold⟩
  · exact .inl rfl
  · refine .inr ⟨hold, ?_, by simp⟩
    intro r hr
    injection hr with hk
    exact hne hk.symm

theorem commit (hk : Ready s k p) (h : ∀ k' q, Ready u k' q → k' ≠ k ∧ Ready s k' q) :
    Fits Ready s u (.commit k) (some p) := by
  refine ⟨fun k' q hq => ?_, p, hk, rfl⟩
  obtain ⟨hne, hold⟩ := h k' q hq
  refine .inr ⟨hold, by simp, ?_⟩
  intro hr
  injection hr with hk
  exact hne hk.symm

end Intent.Fits

end

section

variable {σ ε ω κ π α : Type} [DecidableEq κ] {apply : α → π → α} {intent : ε → Intent κ π} {a : α}

theorem asked_concat (es : List ε) (e : ε) :
    asked apply intent a (es ++ [e]) = (asked apply intent a es).after apply (intent e) := by
  simp [asked]

/-- What the events ask for is what the steps show. -/
theorem Run.asked_eq {step : σ → ε → Option (σ × ω)} (Ready : σ → κ → π → Prop)
    (shown : Record σ ε ω → Option π) (intent : ε → Intent κ π) {s t : σ}
    {tr : List (Record σ ε ω)} (h : Run step s tr t)
    (hinit : ∀ k p, ¬ Ready s k p)
    (hstep : ∀ past t e u o, Run step s past t → step t e = some (u, o) →
      Intent.Fits Ready t u (intent e) (shown ⟨t, e, o⟩)) :
    (asked apply intent a (tr.map Record.event)).value = replay apply shown a tr ∧
      ∀ k p, Ready t k p → (asked apply intent a (tr.map Record.event)).prepared k = some p := by
  refine h.history (I := fun tr t => (asked apply intent a (tr.map Record.event)).value =
    replay apply shown a tr ∧ ∀ k p, Ready t k p →
      (asked apply intent a (tr.map Record.event)).prepared k = some p) ?_ ?_
  · exact ⟨rfl, fun k p hr => absurd hr (hinit k p)⟩
  · intro tr t e u o hrun hI hs
    obtain ⟨hvalue, hprepared⟩ := hI
    obtain ⟨hready, hdoes⟩ := hstep tr t e u o hrun hs
    rw [List.map_append, List.map_singleton, asked_concat, replay_concat]
    cases hi : intent e with
    | prepare k p =>
      rw [hi] at hready hdoes
      have hnone : shown ⟨t, e, o⟩ = none := hdoes
      refine ⟨by rw [hnone]; exact hvalue, ?_⟩
      intro k' q hq
      rcases hready k' q hq with heq | ⟨hold, hne, -⟩
      · injection heq with hk hp
        subst hk hp
        exact Function.update_self _ _ _
      · have hk : k' ≠ k := fun hk => hne p (by rw [hk])
        exact (Function.update_of_ne hk _ _).trans (hprepared k' q hold)
    | commit k =>
      rw [hi] at hready hdoes
      obtain ⟨p, hp, hshown⟩ := hdoes
      have hprep := hprepared k p hp
      simp only [Asked.after, hprep, hshown, hvalue, true_and]
      intro k' q hq
      rcases hready k' q hq with heq | ⟨hold, -, hne⟩
      · cases heq
      · have hk : k' ≠ k := fun hk => hne (by rw [hk])
        exact (Function.update_of_ne hk _ _).trans (hprepared k' q hold)
    | whole p =>
      rw [hi] at hready hdoes
      have hshown : shown ⟨t, e, o⟩ = some p := hdoes
      simp only [Asked.after, hshown, hvalue, true_and]
      intro k' q hq
      rcases hready k' q hq with heq | ⟨hold, -, -⟩
      · cases heq
      · exact hprepared k' q hold
    | other =>
      rw [hi] at hready hdoes
      have hnone : shown ⟨t, e, o⟩ = none := hdoes
      refine ⟨by rw [hnone]; exact hvalue, ?_⟩
      intro k' q hq
      rcases hready k' q hq with heq | ⟨hold, -, -⟩
      · cases heq
      · exact hprepared k' q hold

end

end LinuxDriverLab
