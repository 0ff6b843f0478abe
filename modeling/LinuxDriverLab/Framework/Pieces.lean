import Mathlib.Data.List.Forall2

/-!
# A text that changes under its reader

A text is made of pieces. A reader takes it in parts, each from the position where the last one
ended, and between two parts the pieces may change.
-/

namespace LinuxDriverLab.Pieces

variable {α τ : Type}

/-- The pieces `xs` and `ys` have the same lengths and the same symbols from position `p` on. -/
inductive Agree : Nat → List (List α) → List (List α) → Prop
  | nil {p : Nat} : Agree p [] []
  | cons {p : Nat} {x y : List α} {xs ys : List (List α)} : x.length = y.length →
      x.drop p = y.drop p → Agree (p - y.length) xs ys → Agree p (x :: xs) (y :: ys)

/-- The pieces change from `xs` to `ys` under a reader who has read the `p` symbols `got`: each piece
that it has begun keeps its length, and either what is left of it or what has been read of it. -/
def Keeps : Nat → List α → List (List α) → List (List α) → Prop
  | p, got, x :: xs, y :: ys =>
    (p ≠ 0 → x.length = y.length ∧ (x.drop p = y.drop p ∨ got.take y.length = y.take p)) ∧
      Keeps (p - y.length) (got.drop y.length) xs ys
  | _, _, [], [] => True
  | _, _, _, _ => False

instance decidableKeeps [DecidableEq α] :
    ∀ p got (xs ys : List (List α)), Decidable (Keeps p got xs ys)
  | p, got, x :: xs, y :: ys =>
    have := decidableKeeps (p - y.length) (got.drop y.length) xs ys
    inferInstanceAs (Decidable
      ((p ≠ 0 → x.length = y.length ∧ (x.drop p = y.drop p ∨ got.take y.length = y.take p)) ∧
        Keeps (p - y.length) (got.drop y.length) xs ys))
  | _, _, [], [] => .isTrue trivial
  | _, _, [], _ :: _ => .isFalse id
  | _, _, _ :: _, [] => .isFalse id

theorem Agree.refl (p : Nat) (xs : List (List α)) : Agree p xs xs := by
  induction xs generalizing p with
  | nil => exact .nil
  | cons x xs ih => exact .cons rfl rfl (ih _)

theorem Agree.mono {p q : Nat} {xs ys : List (List α)} (h : Agree p xs ys) (hpq : p ≤ q) :
    Agree q xs ys := by
  induction h generalizing q with
  | nil => exact .nil
  | @cons p x y xs ys hlen hdrop _ ih =>
    apply Agree.cons hlen
    · have := congrArg (List.drop (q - p)) hdrop
      rwa [List.drop_drop, List.drop_drop, Nat.add_sub_cancel' hpq] at this
    · exact ih (Nat.sub_le_sub_right hpq _)

theorem Agree.length_flatten {p : Nat} {xs ys : List (List α)} (h : Agree p xs ys) :
    xs.flatten.length = ys.flatten.length := by
  induction h with
  | nil => rfl
  | cons hlen _ _ ih =>
    rw [List.flatten_cons, List.flatten_cons, List.length_append, List.length_append, hlen, ih]

theorem Agree.drop_flatten {p : Nat} {xs ys : List (List α)} (h : Agree p xs ys) :
    xs.flatten.drop p = ys.flatten.drop p := by
  induction h with
  | nil => rfl
  | cons hlen hdrop _ ih =>
    rw [List.flatten_cons, List.flatten_cons, List.drop_append, List.drop_append, hdrop, hlen, ih]

/-- A reader within the first piece has read a part of it, and of the other pieces the rest. -/
theorem take_cons_flatten (p : Nat) {x y : List α} (xs : List (List α)) (h : x.length = y.length) :
    ((x :: xs).flatten.take p).take y.length = x.take p ∧
      ((x :: xs).flatten.take p).drop y.length = xs.flatten.take (p - y.length) := by
  rw [List.flatten_cons, ← h]
  constructor
  · rw [List.take_take, Nat.min_comm, ← List.take_take, List.take_left]
  · rw [List.drop_take, List.drop_left]

/-- What a reader has read is the beginning of a text whose pieces are old ones and new ones. -/
theorem Agree.change {P : τ → List α → Prop} {ts : List τ} {p : Nat} {ms xs ys : List (List α)}
    (hms : List.Forall₂ P ts ms) (hys : List.Forall₂ P ts ys) (h : Agree p ms xs)
    (hk : Keeps p (ms.flatten.take p) xs ys) :
    ∃ zs, List.Forall₂ P ts zs ∧ Agree p zs ys ∧ zs.flatten.take p = ms.flatten.take p := by
  induction h generalizing ts ys with
  | nil =>
    cases hms
    cases hys
    exact ⟨[], .nil, .nil, rfl⟩
  | @cons p m x ms xs hlen hdrop hrest ih =>
    cases hms with
    | cons hm hms =>
      cases hys with
      | @cons _ y _ ys hy hys =>
        obtain ⟨hbegun, hkeep⟩ := hk
        by_cases hp : p = 0
        · subst hp
          exact ⟨y :: ys, .cons hy hys, .refl _ _, by rw [List.take_zero, List.take_zero]⟩
        · obtain ⟨hsame, hpart⟩ := hbegun hp
          obtain ⟨hhead, htail⟩ := take_cons_flatten p ms (hlen.trans hsame)
          rw [htail, ← hsame] at hkeep
          obtain ⟨zs, hzs, hagree, htake⟩ := ih hms hys hkeep
          rw [hsame] at hagree htake
          rcases hpart with hdrop' | htake'
          · refine ⟨m :: zs, .cons hm hzs, .cons (hlen.trans hsame) (hdrop.trans hdrop') hagree, ?_⟩
            rw [List.flatten_cons, List.flatten_cons, List.take_append, List.take_append, hlen, hsame,
              htake]
          · refine ⟨y :: zs, .cons hy hzs, .cons rfl rfl hagree, ?_⟩
            rw [hhead] at htake'
            rw [List.flatten_cons, List.flatten_cons, List.take_append, List.take_append, hlen, hsame,
              htake, htake']

/-- A reader at `p` has read the `p` first symbols of a text of pieces that its slots allow, and the
rest of that text is the rest of `ys`. -/
def Carried (P : τ → List α → Prop) (ts : List τ) (p : Nat) (got : List α) (ys : List (List α)) :
    Prop :=
  ∃ ms, List.Forall₂ P ts ms ∧ Agree p ms ys ∧ got = ms.flatten.take p

section

variable {P Q : τ → List α → Prop} {ts : List τ} {p : Nat} {got : List α} {xs ys : List (List α)}

theorem Carried.start (h : List.Forall₂ P ts ys) : Carried P ts 0 [] ys :=
  ⟨ys, h, .refl _ _, rfl⟩

theorem Carried.mono (h : Carried P ts p got ys) (hPQ : ∀ t x, P t x → Q t x) :
    Carried Q ts p got ys := by
  obtain ⟨ms, hms, hrest⟩ := h
  exact ⟨ms, hms.imp hPQ, hrest⟩

theorem Carried.change (h : Carried P ts p got xs) (hk : Keeps p got xs ys)
    (hys : List.Forall₂ P ts ys) : Carried P ts p got ys := by
  obtain ⟨ms, hms, hagree, rfl⟩ := h
  obtain ⟨zs, hzs, hagree', htake⟩ := hagree.change hms hys hk
  exact ⟨zs, hzs, hagree', htake.symm⟩

theorem Carried.take (h : Carried P ts p got ys) (n : Nat) :
    Carried P ts (p + n) (got ++ (ys.flatten.drop p).take n) ys := by
  obtain ⟨ms, hms, hagree, hgot⟩ := h
  refine ⟨ms, hms, hagree.mono (Nat.le_add_right p n), ?_⟩
  rw [hgot, ← hagree.drop_flatten, ← List.take_add]

theorem Carried.whole (h : Carried P ts p got ys) (hp : ys.flatten.length ≤ p) :
    ∃ ms, List.Forall₂ P ts ms ∧ got = ms.flatten := by
  obtain ⟨ms, hms, hagree, hgot⟩ := h
  refine ⟨ms, hms, ?_⟩
  rwa [List.take_of_length_le (Nat.le_trans (Nat.le_of_eq hagree.length_flatten) hp)] at hgot

end

end LinuxDriverLab.Pieces
