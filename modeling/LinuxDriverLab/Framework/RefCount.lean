import Mathlib.Data.Finset.Card
import Mathlib.Data.Multiset.AddSub

/-!
# Reference counts on two levels

Objects are counted by the references to them, and an object keeps one reference on the owner of all
of them from its first reference to its last. The counts are right when they agree with the
references that exist; then an owner without references means that nothing refers to any object.
-/

namespace LinuxDriverLab

structure Refs (α : Type) where
  object : α → Nat
  owner : Nat

namespace Refs

variable {α : Type} [DecidableEq α]

def empty : Refs α := ⟨fun _ => 0, 0⟩

/-- The first reference to an object -/
def acquire (r : Refs α) (a : α) : Refs α := ⟨Function.update r.object a 1, r.owner + 1⟩

/-- One more reference to an object that has some -/
def get (r : Refs α) (a : α) : Refs α := { r with object := Function.update r.object a (r.object a + 1) }

/-- One reference less; the last one lets go of the owner. -/
def put (r : Refs α) (a : α) : Refs α :=
  ⟨Function.update r.object a (r.object a - 1), if r.object a = 1 then r.owner - 1 else r.owner⟩

/-- The counts agree with the references `held`. -/
structure Balanced (r : Refs α) (held : Multiset α) : Prop where
  object : ∀ a, r.object a = held.count a
  owner : r.owner = held.toFinset.card

variable {r : Refs α} {held : Multiset α} {a : α}

theorem balanced_empty : Balanced (empty : Refs α) 0 := ⟨fun _ => rfl, rfl⟩

theorem Balanced.acquire (h : Balanced r held) (ha : r.object a = 0) :
    Balanced (r.acquire a) (a ::ₘ held) := by
  have hnotMem : a ∉ held := Multiset.count_eq_zero.mp ((h.object a).symm.trans ha)
  constructor
  · intro b
    by_cases hb : b = a
    · subst hb
      rw [Multiset.count_cons_self, ← h.object, ha]
      exact Function.update_self _ _ _
    · rw [Multiset.count_cons_of_ne hb, ← h.object]
      exact Function.update_of_ne hb _ _
  · rw [Multiset.toFinset_cons, Finset.card_insert_of_notMem (by simpa using hnotMem), ← h.owner]
    rfl

theorem Balanced.get (h : Balanced r held) (ha : a ∈ held) : Balanced (r.get a) (a ::ₘ held) := by
  constructor
  · intro b
    by_cases hb : b = a
    · subst hb
      rw [Multiset.count_cons_self, ← h.object]
      exact Function.update_self _ _ _
    · rw [Multiset.count_cons_of_ne hb, ← h.object]
      exact Function.update_of_ne hb _ _
  · rw [Multiset.toFinset_cons, Finset.insert_eq_of_mem (by simpa using ha)]
    exact h.owner

theorem Balanced.put (h : Balanced r (a ::ₘ held)) : Balanced (r.put a) held := by
  have hcount : r.object a = held.count a + 1 := by
    rw [h.object, Multiset.count_cons_self]
  constructor
  · intro b
    by_cases hb : b = a
    · subst hb
      have hput : (r.put b).object b = r.object b - 1 := Function.update_self _ _ _
      omega
    · have hput : (r.put a).object b = r.object b := Function.update_of_ne hb _ _
      rw [hput, h.object, Multiset.count_cons_of_ne hb]
  · have howner : (r.put a).owner = if r.object a = 1 then r.owner - 1 else r.owner := rfl
    rw [howner, h.owner, Multiset.toFinset_cons, hcount]
    by_cases ha : a ∈ held
    · have := Multiset.count_pos.mpr ha
      rw [if_neg (by omega), Finset.insert_eq_of_mem (by simpa using ha)]
    · rw [if_pos (by rw [Multiset.count_eq_zero.mpr ha]),
        Finset.card_insert_of_notMem (by simpa using ha), Nat.add_sub_cancel]

theorem Balanced.getAll {l : List α} (h : Balanced r held) (hl : ∀ b ∈ l, b ∈ held) :
    Balanced (l.foldl Refs.get r) (held + l) := by
  induction l generalizing r held with
  | nil => simpa using h
  | cons b l ih =>
    have hb := h.get (hl b List.mem_cons_self)
    have hmem : ∀ c ∈ l, c ∈ b ::ₘ held := fun c hc =>
      Multiset.mem_cons_of_mem (hl c (List.mem_cons_of_mem b hc))
    have := ih hb hmem
    rwa [Multiset.cons_add, ← Multiset.add_cons, Multiset.cons_coe] at this

theorem Balanced.putAll {l : List α} (h : Balanced r (held + l)) :
    Balanced (l.foldl Refs.put r) held := by
  induction l generalizing r with
  | nil => simpa using h
  | cons b l ih =>
    apply ih
    apply Balanced.put
    rwa [← Multiset.add_cons, Multiset.cons_coe]

theorem Balanced.eq_zero (h : Balanced r held) (howner : r.owner = 0) : held = 0 := by
  rw [h.owner, Finset.card_eq_zero, Multiset.toFinset_eq_empty] at howner
  exact howner

theorem Balanced.mem_iff (h : Balanced r held) : a ∈ held ↔ 0 < r.object a := by
  rw [h.object, Multiset.count_pos]

end Refs

end LinuxDriverLab
