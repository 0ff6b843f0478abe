import Mathlib.Data.List.Induction
import Mathlib.Order.Lattice

/-!
# The last of the largest

A scan of a list that keeps the best element so far, a later one being better than an earlier one of
the same size.
-/

namespace LinuxDriverLab

section

variable {α β : Type} [LinearOrder β] (p : α → Bool) (f : α → β)

/-- The scan at one element: it has to satisfy `p` and to be no smaller than the best. -/
def lastMaxStep (best : Option α) (x : α) : Option α :=
  if p x = true ∧ ∀ b ∈ best, f b ≤ f x then some x else best

def lastMax (l : List α) : Option α := l.foldl (lastMaxStep p f) none

/-- `a` is the last of the largest of those elements that satisfy `p`. -/
structure IsLastMax (l : List α) (a : α) : Prop where
  mem : p a = true
  place : ∃ front back, l = front ++ a :: back ∧ (∀ x ∈ front, p x = true → f x ≤ f a) ∧
    ∀ x ∈ back, p x = true → f x < f a

variable {p f}

theorem lastMax_concat (l : List α) (x : α) :
    lastMax p f (l ++ [x]) = lastMaxStep p f (lastMax p f l) x := by
  simp [lastMax]

theorem IsLastMax.max {l : List α} {a x : α} (h : IsLastMax p f l a) (hx : x ∈ l) (hp : p x = true) :
    f x ≤ f a := by
  obtain ⟨front, back, rfl, hfront, hback⟩ := h.place
  rcases List.mem_append.mp hx with hx | hx
  · exact hfront x hx hp
  · rcases List.mem_cons.mp hx with rfl | hx
    · exact le_refl _
    · exact le_of_lt (hback x hx hp)

theorem IsLastMax.concat {l : List α} {a x : α} (h : IsLastMax p f l a) (hx : p x = true → f x < f a) :
    IsLastMax p f (l ++ [x]) a := by
  obtain ⟨front, back, rfl, hfront, hback⟩ := h.place
  refine ⟨h.mem, front, back ++ [x], by simp, hfront, ?_⟩
  intro y hy
  rcases List.mem_append.mp hy with hy | hy
  · exact hback y hy
  · rwa [List.mem_singleton.mp hy]

theorem lastMax_spec {l : List α} :
    match lastMax p f l with
    | none => ∀ x ∈ l, p x = false
    | some a => IsLastMax p f l a := by
  induction l using List.reverseRecOn with
  | nil => exact fun x hx => absurd hx List.not_mem_nil
  | append_singleton l x ih =>
    rw [lastMax_concat, lastMaxStep]
    cases hbest : lastMax p f l with
    | none =>
      rw [hbest] at ih
      cases hx : p x with
      | true =>
        rw [if_pos (by simp)]
        exact ⟨hx, l, [], rfl, fun y hy hp => absurd hp (by simp [ih y hy]), by simp⟩
      | false =>
        rw [if_neg (by simp)]
        intro y hy
        rcases List.mem_append.mp hy with hy | hy
        · exact ih y hy
        · rwa [List.mem_singleton.mp hy]
    | some a =>
      rw [hbest] at ih
      by_cases hx : p x = true ∧ ∀ b ∈ some a, f b ≤ f x
      · rw [if_pos hx]
        refine ⟨hx.1, l, [], rfl, ?_, by simp⟩
        intro y hy hp
        exact le_trans (ih.max hy hp) (hx.2 a rfl)
      · rw [if_neg hx]
        apply ih.concat
        intro hp
        by_contra hlt
        exact hx ⟨hp, fun b hb => Option.some.inj hb ▸ le_of_not_gt hlt⟩

theorem lastMax_eq_none_iff {l : List α} : lastMax p f l = none ↔ ∀ x ∈ l, p x = false := by
  have hspec := @lastMax_spec α β _ p f l
  cases h : lastMax p f l with
  | none =>
    rw [h] at hspec
    exact ⟨fun _ => hspec, fun _ => rfl⟩
  | some a =>
    rw [h] at hspec
    obtain ⟨front, back, rfl, -, -⟩ := hspec.place
    have hmem := hspec.mem
    constructor
    · nofun
    · intro hall
      rw [hall a (by simp)] at hmem
      cases hmem

theorem foldl_lastMaxStep_keep {back : List α} {a : α} (h : ∀ x ∈ back, p x = true → f x < f a) :
    back.foldl (lastMaxStep p f) (some a) = some a := by
  induction back with
  | nil => rfl
  | cons x back ih =>
    obtain ⟨hx, hrest⟩ := List.forall_mem_cons.mp h
    have hstep : lastMaxStep p f (some a) x = some a :=
      if_neg fun h => absurd (h.2 a rfl) (not_le_of_gt (hx h.1))
    rw [List.foldl_cons, hstep]
    exact ih hrest

theorem lastMax_eq_some_iff {l : List α} {a : α} : lastMax p f l = some a ↔ IsLastMax p f l a := by
  have hspec : ∀ {l a}, lastMax p f l = some a → IsLastMax p f l a := by
    intro l a h
    have := @lastMax_spec α β _ p f l
    rwa [h] at this
  constructor
  · exact hspec
  · intro h
    obtain ⟨front, back, rfl, hfront, hback⟩ := h.place
    have htake : lastMax p f (front ++ [a]) = some a := by
      rw [lastMax_concat]
      apply if_pos
      refine ⟨h.mem, ?_⟩
      intro b hb
      obtain ⟨_, _, hsplit, -, -⟩ := (hspec hb).place
      exact hfront b (by simp [hsplit]) (hspec hb).mem
    have hall : lastMax p f (front ++ a :: back) =
        back.foldl (lastMaxStep p f) (lastMax p f (front ++ [a])) := by
      simp [lastMax]
    rw [hall, htake]
    exact foldl_lastMaxStep_keep hback

end

end LinuxDriverLab
