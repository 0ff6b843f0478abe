import Mathlib.Data.List.Infix
import Mathlib.Logic.Function.Basic

/-!
# A tree of files

A tree gives what is at each path, and what is at a path is in a directory. Making the directories
of a path one after the other adds those that are missing, and nothing else.
-/

namespace LinuxDriverLab

variable {α β : Type} [DecidableEq α]

inductive Node (β : Type)
  | dir
  | file (content : β)
deriving DecidableEq

abbrev Tree (α β : Type) := List α → Option (Node β)

namespace Tree

def isDir (t : Tree α β) (p : List α) : Bool :=
  match t p with
  | some .dir => true
  | _ => false

structure Valid (t : Tree α β) : Prop where
  root : t.isDir []
  parent : ∀ p a, (t (p ++ [a])).isSome → t.isDir p

/-- A new directory -/
def mkdir (t : Tree α β) (p : List α) : Option (Tree α β) :=
  if (t p).isNone ∧ t.isDir p.dropLast then some (Function.update t p (some .dir)) else none

/-- A new file, or new content for a file. -/
def put (t : Tree α β) (p : List α) (content : β) : Option (Tree α β) :=
  if p ≠ [] ∧ t.isDir p = false ∧ t.isDir p.dropLast then
    some (Function.update t p (some (.file content)))
  else none

/-- The tree with all directories of the path `q`. -/
def withDirs (t : Tree α β) (q : List α) : Tree α β := fun p =>
  if p <+: q ∧ (t p).isNone then some .dir else t p

/-- The directories below `q` that the path to the names `ns` lacks, the upper ones first. -/
def missing (t : Tree α β) (q : List α) : List α → List (List α)
  | [] => []
  | n :: ns => (if (t (q ++ [n])).isNone then [q ++ [n]] else []) ++ missing t (q ++ [n]) ns

/-- No file stands in the way of a path. -/
def Clear (t : Tree α β) (q : List α) : Prop := ∀ p, p <+: q → p ≠ q → (t p).isSome → t.isDir p

variable {t : Tree α β} {p q : List α}

omit [DecidableEq α] in
theorem isDir_iff : t.isDir p ↔ t p = some .dir := by
  unfold isDir
  split
  · next h => simp [h]
  · next h => simpa using h

omit [DecidableEq α] in
theorem not_concat_prefix (q : List α) (a : α) : ¬ q ++ [a] <+: q := by
  intro h
  have := h.length_le
  rw [List.length_append, List.length_singleton] at this
  omega

theorem withDirs_nil (h : Valid t) : t.withDirs [] = t := by
  funext p
  rw [withDirs, if_neg]
  rintro ⟨hp, hnone⟩
  rw [List.prefix_nil.mp hp, isDir_iff.mp h.root] at hnone
  cases hnone

theorem withDirs_isDir_iff : (t.withDirs q).isDir q ↔ ((t q).isSome → t.isDir q) := by
  rw [isDir_iff, isDir_iff, withDirs]
  cases hq : t q with
  | none => simp
  | some n => simp

theorem withDirs_concat_of_isSome {a : α} (h : (t (q ++ [a])).isSome) :
    t.withDirs (q ++ [a]) = t.withDirs q := by
  funext p
  by_cases hp : p = q ++ [a]
  · subst hp
    rw [withDirs, withDirs, if_neg (fun hn => by simp [Option.isNone_iff_eq_none.mp hn.2] at h),
      if_neg fun hn => not_concat_prefix q a hn.1]
  · simp only [withDirs, List.prefix_concat_iff, hp, false_or]

theorem withDirs_concat_of_isNone {a : α} (h : t (q ++ [a]) = none) :
    t.withDirs (q ++ [a]) = Function.update (t.withDirs q) (q ++ [a]) (some .dir) := by
  funext p
  by_cases hp : p = q ++ [a]
  · subst hp
    rw [Function.update_self, withDirs, if_pos ⟨List.prefix_refl _, by rw [h]; rfl⟩]
  · rw [Function.update_of_ne hp]
    simp only [withDirs, List.prefix_concat_iff, hp, false_or]

theorem withDirs_self_eq {a : α} : t.withDirs q (q ++ [a]) = t (q ++ [a]) := by
  rw [withDirs, if_neg]
  exact fun hn => not_concat_prefix q a hn.1

theorem mkdir_withDirs {a : α} (h : t (q ++ [a]) = none) :
    (t.withDirs q).mkdir (q ++ [a]) =
      if (t.withDirs q).isDir q then some (t.withDirs (q ++ [a])) else none := by
  rw [mkdir, withDirs_self_eq, h, List.dropLast_concat, withDirs_concat_of_isNone h]
  simp

theorem isSome_withDirs : (t.withDirs q q).isSome := by
  rw [withDirs]
  split
  · rfl
  · next h =>
    cases hq : t q with
    | none => exact absurd ⟨List.prefix_refl q, by rw [hq]; rfl⟩ h
    | some n => rfl

theorem isDir_withDirs (h : t.isDir p) : (t.withDirs q).isDir p := by
  have hp := isDir_iff.mp h
  rw [isDir_iff, withDirs, if_neg (by simp [hp]), hp]

omit [DecidableEq α] in
theorem clear_concat {a : α} : Clear t (q ++ [a]) ↔ Clear t q ∧ ((t q).isSome → t.isDir q) := by
  constructor
  · intro h
    constructor
    · intro p hp hne
      refine h p (hp.trans (List.prefix_append q [a])) ?_
      rintro rfl
      exact not_concat_prefix q a hp
    · exact h q (List.prefix_append q [a]) fun heq => not_concat_prefix q a (heq ▸ List.prefix_refl q)
  · intro ⟨h, hq⟩ p hp hne
    rcases List.prefix_concat_iff.mp hp with rfl | hp
    · exact absurd rfl hne
    · by_cases heq : p = q
      · exact heq ▸ hq
      · exact h p hp heq

theorem Valid.withDirs (h : Valid t) (hq : Clear t q) : Valid (t.withDirs q) := by
  refine ⟨isDir_withDirs h.root, fun p a hsome => ?_⟩
  rw [Tree.withDirs] at hsome
  split at hsome
  · next hpre =>
    have hp : p <+: q := (List.prefix_append p [a]).trans hpre.1
    have hne : p ≠ q := by
      rintro rfl
      exact not_concat_prefix p a hpre.1
    by_cases hnone : (t p).isNone
    · rw [isDir_iff, Tree.withDirs, if_pos ⟨hp, hnone⟩]
    · exact isDir_withDirs (hq p hp hne (by simpa [Option.isSome_iff_ne_none] using hnone))
  · exact isDir_withDirs (h.parent p a hsome)

theorem put_eq_some {t' : Tree α β} {a : α} {content : β} (h : t.put (p ++ [a]) content = some t') :
    t' = Function.update t (p ++ [a]) (some (.file content)) ∧ t.isDir p ∧
      t.isDir (p ++ [a]) = false := by
  obtain ⟨⟨-, hnot, hdir⟩, ht⟩ := Option.ite_none_right_eq_some.mp h
  rw [List.dropLast_concat] at hdir
  exact ⟨(Option.some.inj ht).symm, hdir, hnot⟩

theorem Valid.put (h : Valid t) {t' : Tree α β} {content : β} (hput : t.put p content = some t') :
    Valid t' := by
  obtain ⟨⟨hne, hnot, hdir⟩, ht⟩ := Option.ite_none_right_eq_some.mp hput
  obtain rfl := Option.some.inj ht
  -- the file takes the place of no directory
  have hkeep : ∀ q, t.isDir q → isDir (Function.update t p (some (.file content))) q := by
    intro q hq
    have hqp : q ≠ p := by
      rintro rfl
      rw [hnot] at hq
      cases hq
    rwa [isDir, Function.update_of_ne hqp]
  refine ⟨hkeep [] h.root, fun q a hsome => hkeep q ?_⟩
  by_cases hq : q ++ [a] = p
  · rw [← hq, List.dropLast_concat] at hdir
    exact hdir
  · rw [Function.update_of_ne hq] at hsome
    exact h.parent q a hsome

end Tree

end LinuxDriverLab
