import Mathlib.Data.Finset.Basic
import Mathlib.Data.List.Perm.Basic

/-!
# Resources acquired and released

A ledger holds the resources a program has acquired, those still held and those given back. It
takes no resource twice and lets go of none that is not held, so that a list of actions that
settles releases each resource at most once, and only after it was acquired.
-/

namespace LinuxDriverLab

inductive Action (ρ : Type) where
  | acquire (r : ρ)
  | release (r : ρ)
deriving DecidableEq

/-- The resources acquired so far. -/
@[ext] structure Ledger (ρ : Type) where
  held : Finset ρ
  released : Finset ρ
  disjoint : Disjoint held released

namespace Ledger

variable {ρ : Type} [DecidableEq ρ]

def empty : Ledger ρ := ⟨∅, ∅, Finset.disjoint_empty_left _⟩

def add (L : Ledger ρ) (r : ρ) (h : r ∉ L.released) : Ledger ρ :=
  ⟨insert r L.held, L.released, Finset.disjoint_insert_left.mpr ⟨h, L.disjoint⟩⟩

def drop (L : Ledger ρ) (r : ρ) : Ledger ρ where
  held := L.held.erase r
  released := insert r L.released
  disjoint := by
    rw [Finset.disjoint_insert_right]
    exact ⟨Finset.notMem_erase r L.held, L.disjoint.mono_left (Finset.erase_subset r L.held)⟩

/-- One action, refused where it takes a resource again or lets go of one that is not held. -/
def act (L : Ledger ρ) : Action ρ → Option (Ledger ρ)
  | .acquire r =>
    if h : r ∉ L.held ∧ r ∉ L.released then some (L.add r h.2) else none
  | .release r => if r ∈ L.held then some (L.drop r) else none

def settle (L : Ledger ρ) : List (Action ρ) → Option (Ledger ρ)
  | [] => some L
  | a :: as =>
    match L.act a with
    | none => none
    | some L' => L'.settle as

@[simp] theorem add_held (L : Ledger ρ) (r : ρ) (h : r ∉ L.released) :
    (L.add r h).held = insert r L.held := rfl

@[simp] theorem add_released (L : Ledger ρ) (r : ρ) (h : r ∉ L.released) :
    (L.add r h).released = L.released := rfl

@[simp] theorem drop_held (L : Ledger ρ) (r : ρ) : (L.drop r).held = L.held.erase r := rfl

@[simp] theorem drop_released (L : Ledger ρ) (r : ρ) :
    (L.drop r).released = insert r L.released := rfl

theorem settle_acquire {L : Ledger ρ} {r : ρ} (hh : r ∉ L.held) (hr : r ∉ L.released)
    (as : List (Action ρ)) : L.settle (.acquire r :: as) = (L.add r hr).settle as := by
  simp only [settle, act, dif_pos (And.intro hh hr)]

theorem settle_release {L : Ledger ρ} {r : ρ} (hh : r ∈ L.held) (as : List (Action ρ)) :
    L.settle (.release r :: as) = (L.drop r).settle as := by
  simp only [settle, act, if_pos hh]

theorem settle_append {L M : Ledger ρ} {as : List (Action ρ)} (h : L.settle as = some M)
    (bs : List (Action ρ)) : L.settle (as ++ bs) = M.settle bs := by
  induction as generalizing L with
  | nil =>
    cases h
    rfl
  | cons a as ih =>
    simp only [settle] at h
    cases hact : L.act a with
    | none => simp [hact] at h
    | some L' =>
      rw [hact] at h
      simp only [List.cons_append, settle, hact]
      exact ih h

theorem settle_count {L M : Ledger ρ} {as : List (Action ρ)} (h : L.settle as = some M) (r : ρ) :
    as.count (.acquire r) + (if r ∈ L.held ∨ r ∈ L.released then 1 else 0) =
        (if r ∈ M.held ∨ r ∈ M.released then 1 else 0) ∧
      as.count (.release r) + (if r ∈ L.released then 1 else 0) =
        (if r ∈ M.released then 1 else 0) := by
  induction as generalizing L with
  | nil =>
    cases h
    simp
  | cons a as ih =>
    cases a with
    | acquire q =>
      by_cases hq : q ∉ L.held ∧ q ∉ L.released
      · rw [settle_acquire hq.1 hq.2] at h
        obtain ⟨hacq, hrel⟩ := ih h
        rw [← hacq, ← hrel, add_held, add_released]
        by_cases hrq : r = q
        · subst hrq
          simp [hq.1, hq.2]
        · have hne : Action.acquire q ≠ Action.acquire r := fun heq => hrq (by injection heq with h; exact h.symm)
          simp [hrq, hne]
      · simp only [settle, act, dif_neg hq] at h
        cases h
    | release q =>
      by_cases hq : q ∈ L.held
      · rw [settle_release hq] at h
        obtain ⟨hacq, hrel⟩ := ih h
        rw [← hacq, ← hrel, drop_held, drop_released]
        by_cases hrq : r = q
        · subst hrq
          have hnot := Finset.disjoint_left.mp L.disjoint hq
          simp [hq, hnot]
        · have hne : Action.release q ≠ Action.release r := fun heq => hrq (by injection heq with h; exact h.symm)
          simp [hrq, hne]
      · simp only [settle, act, if_neg hq] at h
        cases h

theorem settle_known {L M : Ledger ρ} {as : List (Action ρ)} (h : L.settle as = some M) (r : ρ) :
    (r ∈ M.held ∨ r ∈ M.released) ↔ (r ∈ L.held ∨ r ∈ L.released) ∨ .acquire r ∈ as := by
  have hcount := (settle_count h r).1
  rw [← List.count_pos_iff (a := Action.acquire r)]
  by_cases hM : r ∈ M.held ∨ r ∈ M.released <;> by_cases hL : r ∈ L.held ∨ r ∈ L.released <;>
    simp only [hM, hL, if_true, if_false, true_or, false_or, true_iff, false_iff] at hcount ⊢ <;> omega

/-- Actions that settle with nothing held release exactly what they acquired, each once. -/
theorem settle_once {M : Ledger ρ} {as : List (Action ρ)} (h : empty.settle as = some M)
    (hheld : M.held = ∅) (r : ρ) :
    as.count (.release r) = as.count (.acquire r) ∧ as.count (.acquire r) ≤ 1 := by
  obtain ⟨hacq, hrel⟩ := settle_count h r
  simp only [empty, Finset.notMem_empty, or_self, if_false, Nat.add_zero, hheld, false_or] at hacq hrel
  refine ⟨hrel.trans hacq.symm, ?_⟩
  rw [hacq]
  split <;> omega

theorem settle_acquires {L : Ledger ρ} {rs : List ρ} (hnd : rs.Nodup)
    (hfresh : ∀ r ∈ rs, r ∉ L.held ∧ r ∉ L.released) :
    ∃ M, L.settle (rs.map .acquire) = some M ∧ (∀ r, r ∈ M.held ↔ r ∈ L.held ∨ r ∈ rs) ∧
      M.released = L.released := by
  induction rs generalizing L with
  | nil => exact ⟨L, rfl, by simp, rfl⟩
  | cons q rs ih =>
    obtain ⟨hq, hnd⟩ := List.nodup_cons.mp hnd
    obtain ⟨hqh, hqr⟩ := hfresh q List.mem_cons_self
    obtain ⟨M, hM, hheld, hrel⟩ := ih (L := L.add q hqr) hnd (by
      intro r hr
      have hne : r ≠ q := fun heq => hq (heq ▸ hr)
      have := hfresh r (List.mem_cons_of_mem q hr)
      simp [hne, this.1, this.2])
    refine ⟨M, ?_, ?_, hrel⟩
    · rw [List.map_cons, settle_acquire hqh hqr, hM]
    · intro r
      rw [hheld, add_held, Finset.mem_insert, List.mem_cons]
      tauto

theorem settle_releases {L : Ledger ρ} {rs : List ρ} (hnd : rs.Nodup)
    (hheld : ∀ r ∈ rs, r ∈ L.held) :
    ∃ M, L.settle (rs.map .release) = some M ∧ ∀ r, r ∈ M.held ↔ r ∈ L.held ∧ r ∉ rs := by
  induction rs generalizing L with
  | nil => exact ⟨L, rfl, by simp⟩
  | cons q rs ih =>
    obtain ⟨hq, hnd⟩ := List.nodup_cons.mp hnd
    obtain ⟨M, hM, hmem⟩ := ih (L := L.drop q) hnd (by
      intro r hr
      have hne : r ≠ q := fun heq => hq (heq ▸ hr)
      simp [hne, hheld r (List.mem_cons_of_mem q hr)])
    refine ⟨M, ?_, ?_⟩
    · rw [List.map_cons, settle_release (hheld q List.mem_cons_self), hM]
    · intro r
      rw [hmem, drop_held, Finset.mem_erase, List.mem_cons]
      tauto

/-- Acquiring distinct resources and then releasing them all, in whatever order, leaves nothing
held. -/
theorem settle_acquires_releases {rs bs : List ρ} (hnd : rs.Nodup) (hperm : bs.Perm rs) :
    ∃ M, empty.settle (rs.map .acquire ++ bs.map .release) = some M ∧ M.held = ∅ := by
  obtain ⟨L, hL, hheld, -⟩ := settle_acquires (L := empty) hnd (by simp [empty])
  have hmem : ∀ r, r ∈ L.held ↔ r ∈ rs := by
    intro r
    rw [hheld]
    simp [empty]
  obtain ⟨M, hM, hrest⟩ := settle_releases (L := L) (hperm.nodup_iff.mpr hnd)
    (fun r hr => (hmem r).mpr (hperm.mem_iff.mp hr))
  refine ⟨M, by rw [settle_append hL, hM], ?_⟩
  ext r
  simp [hrest, hmem, hperm.mem_iff]

end Ledger

end LinuxDriverLab
