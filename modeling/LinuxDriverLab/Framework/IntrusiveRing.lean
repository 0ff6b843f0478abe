import Mathlib.Data.Finset.Card
import Mathlib.Logic.Function.Basic

/-!
# Intrusive rings on a heap

Objects with an embedded `list_head`, on a heap with one function for each field. An access to an
object that is not allocated faults, which is `none`. The ring of a list is closed through a static
head. `container_of` is the identity on addresses, the `list_head` being the first field.
-/

namespace LinuxDriverLab

abbrev Addr := Nat

/-- What a link points at. -/
inductive Link
  | head
  | node (a : Addr)
  | poison1
  | poison2
deriving DecidableEq

/-- The fields of the head and of the objects, the objects that are allocated, and those freed so
far. Where nothing is allocated the fields hold anything. -/
structure Heap (α : Type) where
  next : Link → Link
  prev : Link → Link
  val : Addr → α
  live : Finset Addr
  freed : List Addr

namespace Heap

variable {α : Type}

def mapped (h : Heap α) : Link → Bool
  | .head => true
  | .node a => a ∈ h.live
  | _ => false

def getNext (h : Heap α) (l : Link) : Option Link := if h.mapped l then some (h.next l) else none

def getPrev (h : Heap α) (l : Link) : Option Link := if h.mapped l then some (h.prev l) else none

def withNext (h : Heap α) (l v : Link) : Heap α := { h with next := Function.update h.next l v }

def withPrev (h : Heap α) (l v : Link) : Heap α := { h with prev := Function.update h.prev l v }

def setNext (h : Heap α) (l v : Link) : Option (Heap α) :=
  if h.mapped l then some (h.withNext l v) else none

def setPrev (h : Heap α) (l v : Link) : Option (Heap α) :=
  if h.mapped l then some (h.withPrev l v) else none

def getVal (h : Heap α) (a : Addr) : Option α := if a ∈ h.live then some (h.val a) else none

def setVal (h : Heap α) (a : Addr) (v : α) : Option (Heap α) :=
  if a ∈ h.live then some { h with val := Function.update h.val a v } else none

/-- `kmalloc` returning `a` -/
def kmalloc (h : Heap α) (a : Addr) : Option (Heap α) :=
  if a ∈ h.live then none else some { h with live := insert a h.live }

def kfree (h : Heap α) (a : Addr) : Option (Heap α) :=
  if a ∈ h.live then some { h with live := h.live.erase a, freed := h.freed ++ [a] } else none

/-- `container_of` of a link to an object -/
def entry : Link → Option Addr
  | .node a => some a
  | _ => none

/-- `list_add_tail` to the list of the head -/
def listAddTail (h : Heap α) (new : Addr) : Option (Heap α) := do
  let prev ← h.getPrev .head
  let h ← h.setPrev .head (.node new)
  let h ← h.setNext (.node new) .head
  let h ← h.setPrev (.node new) prev
  h.setNext prev (.node new)

/-- `list_del` -/
def listDel (h : Heap α) (a : Addr) : Option (Heap α) := do
  let prev ← h.getPrev (.node a)
  let next ← h.getNext (.node a)
  let h ← h.setPrev next prev
  let h ← h.setNext prev next
  let h ← h.setNext (.node a) .poison1
  h.setPrev (.node a) .poison2

/-- `list_first_entry_or_null` -/
def listFirstEntryOrNull (h : Heap α) : Option (Option Addr) := do
  let next ← h.getNext .head
  if next = .head then some none else (entry next).map some

/-- `list_is_last` -/
def listIsLast (h : Heap α) (a : Addr) : Option Bool := do
  let next ← h.getNext (.node a)
  some (next = .head)

/-- `list_next_entry` of an object that is not the last -/
def listNextEntry (h : Heap α) (a : Addr) : Option Addr := do
  let next ← h.getNext (.node a)
  entry next

/-- The loop of `list_for_each_entry_safe`, with the next object looked up before the body runs -/
def forEachSafeLoop (body : Heap α → Addr → Option (Heap α)) :
    Nat → Heap α → Link → Link → Option (Heap α)
  | 0, _, _, _ => none
  | fuel + 1, h, pos, n =>
    match pos with
    | .head => some h
    | .node a => do
      let h ← body h a
      let n' ← h.getNext n
      forEachSafeLoop body fuel h n n'
    | _ => none

/-- `list_for_each_entry_safe`; no walk around a ring visits more objects than are allocated. -/
def listForEachEntrySafe (body : Heap α → Addr → Option (Heap α)) (h : Heap α) :
    Option (Heap α) := do
  let pos ← h.getNext .head
  let n ← h.getNext pos
  forEachSafeLoop body (h.live.card + 1) h pos n

end Heap

/-- From `p` the links lead through `xs` to `q`, and back. -/
def Seg (next prev : Link → Link) : Link → List Addr → Link → Prop
  | p, [], q => next p = q ∧ prev q = p
  | p, a :: xs, q => next p = .node a ∧ prev (.node a) = p ∧ Seg next prev (.node a) xs q

def lastLink : Link → List Addr → Link
  | p, [] => p
  | _, a :: xs => lastLink (.node a) xs

def firstLink : List Addr → Link → Link
  | [], q => q
  | a :: _, _ => .node a

@[simp] theorem firstLink_nil (q : Link) : firstLink [] q = q := rfl

@[simp] theorem firstLink_cons (a : Addr) (xs : List Addr) (q : Link) :
    firstLink (a :: xs) q = .node a := rfl

theorem lastLink_cases (p : Link) (xs : List Addr) :
    lastLink p xs = p ∨ ∃ a ∈ xs, lastLink p xs = .node a := by
  induction xs generalizing p with
  | nil => exact .inl rfl
  | cons a xs ih =>
    rcases ih (.node a) with h | ⟨b, hb, h⟩
    · exact .inr ⟨a, List.mem_cons_self, h⟩
    · exact .inr ⟨b, List.mem_cons_of_mem a hb, h⟩

namespace Seg

variable {next prev next' prev' : Link → Link} {p q r : Link} {xs ys : List Addr}

theorem next_start (h : Seg next prev p xs q) : next p = firstLink xs q := by
  cases xs with
  | nil => exact h.1
  | cons a xs => exact h.1

theorem prev_end (h : Seg next prev p xs q) : prev q = lastLink p xs := by
  induction xs generalizing p with
  | nil => exact h.2
  | cons a xs ih => exact ih h.2.2

theorem append_cons {a : Addr} :
    Seg next prev p (xs ++ a :: ys) q ↔
      Seg next prev p xs (.node a) ∧ Seg next prev (.node a) ys q := by
  induction xs generalizing p with
  | nil => simp [Seg, and_assoc]
  | cons b xs ih => simp [Seg, ih, and_assoc]

theorem congr (h : Seg next prev p xs q) (hp : next' p = next p)
    (hnext : ∀ a ∈ xs, next' (.node a) = next (.node a))
    (hprev : ∀ a ∈ xs, prev' (.node a) = prev (.node a)) (hq : prev' q = prev q) :
    Seg next' prev' p xs q := by
  induction xs generalizing p with
  | nil => exact ⟨hp.trans h.1, hq.trans h.2⟩
  | cons a xs ih =>
    obtain ⟨h1, h2, h3⟩ := h
    refine ⟨hp.trans h1, (hprev a List.mem_cons_self).trans h2, ?_⟩
    exact ih h3 (hnext a List.mem_cons_self) (fun b hb => hnext b (List.mem_cons_of_mem a hb))
      fun b hb => hprev b (List.mem_cons_of_mem a hb)

theorem retarget (h : Seg next prev p xs q) (hnd : xs.Nodup) (hp : ∀ a ∈ xs, p ≠ .node a)
    (hnext : ∀ l, (l = p ∨ ∃ a ∈ xs, l = .node a) → l ≠ lastLink p xs → next' l = next l)
    (hlast : next' (lastLink p xs) = r)
    (hprev : ∀ a ∈ xs, prev' (.node a) = prev (.node a)) (hr : prev' r = lastLink p xs) :
    Seg next' prev' p xs r := by
  induction xs generalizing p with
  | nil => exact ⟨hlast, hr⟩
  | cons a xs ih =>
    obtain ⟨h1, h2, h3⟩ := h
    obtain ⟨ha, hnd⟩ := List.nodup_cons.mp hnd
    have hne : p ≠ lastLink p (a :: xs) := by
      rcases lastLink_cases (.node a) xs with hl | ⟨b, hb, hl⟩
      · simp only [lastLink, hl]
        exact hp a List.mem_cons_self
      · simp only [lastLink, hl]
        exact hp b (List.mem_cons_of_mem a hb)
    refine ⟨(hnext p (.inl rfl) hne).trans h1, (hprev a List.mem_cons_self).trans h2, ?_⟩
    refine ih h3 hnd ?_ ?_ hlast (fun b hb => hprev b (List.mem_cons_of_mem a hb)) hr
    · intro b hb heq
      injection heq with hab
      exact ha (hab ▸ hb)
    · rintro l (rfl | ⟨b, hb, rfl⟩) hl
      · exact hnext _ (.inr ⟨a, List.mem_cons_self, rfl⟩) hl
      · exact hnext _ (.inr ⟨b, List.mem_cons_of_mem a hb, rfl⟩) hl

end Seg

namespace Heap

variable {α : Type} {h : Heap α} {xs ys : List Addr}

/-- The list of the head is the ring through `xs`. -/
structure IsRing (h : Heap α) (xs : List Addr) : Prop where
  nodup : xs.Nodup
  live : ∀ a ∈ xs, a ∈ h.live
  seg : Seg h.next h.prev .head xs .head

/-- `LIST_HEAD`: nothing is allocated, and the head leads to itself. -/
def empty (junk : Heap α) : Heap α where
  next := Function.update junk.next .head .head
  prev := Function.update junk.prev .head .head
  val := junk.val
  live := ∅
  freed := []

theorem empty_ring (junk : Heap α) : (empty junk).IsRing [] :=
  ⟨List.nodup_nil, nofun, by simp [empty, Seg]⟩

theorem mapped_congr {h' : Heap α} (hlive : h'.live = h.live) (l : Link) : h'.mapped l = h.mapped l := by
  cases l <;> simp [mapped, hlive]

theorem IsRing.eq_nil (hr : h.IsRing xs) (hhead : h.next .head = .head) : xs = [] := by
  cases xs with
  | nil => rfl
  | cons a rest =>
    obtain ⟨hnext, -⟩ := hr.seg
    rw [hhead] at hnext
    cases hnext

theorem IsRing.mapped_last (hr : h.IsRing xs) : h.mapped (h.prev .head) = true := by
  rw [hr.seg.prev_end]
  rcases lastLink_cases .head xs with hl | ⟨a, ha, hl⟩
  · rw [hl]
    rfl
  · rw [hl]
    exact decide_eq_true (hr.live a ha)

theorem IsRing.mapped_first (hr : h.IsRing xs) : h.mapped (h.next .head) = true := by
  rw [hr.seg.next_start]
  cases xs with
  | nil => rfl
  | cons a xs => exact decide_eq_true (hr.live a List.mem_cons_self)

theorem IsRing.congr {h' : Heap α} (hr : h.IsRing xs) (hlive : ∀ a ∈ xs, a ∈ h'.live)
    (hnext : h'.next = h.next) (hprev : h'.prev = h.prev) : h'.IsRing xs := by
  refine ⟨hr.nodup, hlive, ?_⟩
  rw [hnext, hprev]
  exact hr.seg

theorem IsRing.length_le (hr : h.IsRing xs) : xs.length ≤ h.live.card := by
  rw [← List.toFinset_card_of_nodup hr.nodup]
  apply Finset.card_le_card
  intro a ha
  exact hr.live a (List.mem_toFinset.mp ha)

@[simp] theorem withNext_mapped (l v l' : Link) : (h.withNext l v).mapped l' = h.mapped l' :=
  mapped_congr rfl l'

@[simp] theorem withPrev_mapped (l v l' : Link) : (h.withPrev l v).mapped l' = h.mapped l' :=
  mapped_congr rfl l'

@[simp] theorem withNext_next (l v : Link) : (h.withNext l v).next = Function.update h.next l v := rfl

@[simp] theorem withNext_prev (l v : Link) : (h.withNext l v).prev = h.prev := rfl

@[simp] theorem withPrev_next (l v : Link) : (h.withPrev l v).next = h.next := rfl

@[simp] theorem withPrev_prev (l v : Link) : (h.withPrev l v).prev = Function.update h.prev l v := rfl

theorem listAddTail_eq {new : Addr} (hnew : new ∈ h.live) (hlast : h.mapped (h.prev .head) = true) :
    h.listAddTail new = some ((((h.withPrev .head (.node new)).withNext (.node new) .head).withPrev
      (.node new) (h.prev .head)).withNext (h.prev .head) (.node new)) := by
  have hnode : h.mapped (.node new) = true := decide_eq_true hnew
  have hhead : h.mapped .head = true := rfl
  simp only [listAddTail, getPrev, setPrev, setNext, withPrev_mapped, withNext_mapped, hhead, hnode,
    hlast, if_true, Option.bind_eq_bind, Option.bind_some]

theorem listAddTail_ring {new : Addr} (hr : h.IsRing xs) (hnew : new ∈ h.live) (hout : new ∉ xs) :
    ∃ h', h.listAddTail new = some h' ∧ h'.IsRing (xs ++ [new]) ∧ h'.val = h.val ∧
      h'.live = h.live ∧ h'.freed = h.freed := by
  refine ⟨_, listAddTail_eq hnew hr.mapped_last, ⟨?_, ?_, ?_⟩, rfl, rfl, rfl⟩
  · exact List.nodup_append.mpr ⟨hr.nodup, List.nodup_singleton new, by
      intro a ha b hb heq
      subst heq
      exact hout (List.mem_singleton.mp hb ▸ ha)⟩
  · intro a ha
    rcases List.mem_append.mp ha with ha | ha
    · exact hr.live a ha
    · rw [List.mem_singleton.mp ha]
      exact hnew
  · have hne : lastLink .head xs ≠ .node new := by
      rcases lastLink_cases .head xs with hl | ⟨a, ha, hl⟩
      · rw [hl]
        exact Link.noConfusion
      · rw [hl]
        intro heq
        injection heq with heq
        exact hout (heq ▸ ha)
    have hnode : ∀ a ∈ xs, Link.node a ≠ .node new := by
      intro a ha heq
      injection heq with heq
      exact hout (heq ▸ ha)
    simp only [withNext_next, withPrev_next, withNext_prev, withPrev_prev, hr.seg.prev_end]
    rw [Seg.append_cons]
    constructor
    · refine hr.seg.retarget hr.nodup (fun a _ => Link.noConfusion) ?_ (Function.update_self _ _ _) ?_
        (Function.update_self _ _ _)
      · rintro l (rfl | ⟨a, ha, rfl⟩) hl
        · rw [Function.update_of_ne hl, Function.update_of_ne Link.noConfusion]
        · rw [Function.update_of_ne hl, Function.update_of_ne (hnode a ha)]
      · intro a ha
        rw [Function.update_of_ne (hnode a ha), Function.update_of_ne Link.noConfusion]
    · refine ⟨?_, ?_⟩
      · rw [Function.update_of_ne (Ne.symm hne), Function.update_self]
      · rw [Function.update_of_ne Link.noConfusion, Function.update_self]

theorem listDel_eq {a : Addr} (ha : a ∈ h.live) (hprev : h.mapped (h.prev (.node a)) = true)
    (hnext : h.mapped (h.next (.node a)) = true) :
    h.listDel a = some ((((h.withPrev (h.next (.node a)) (h.prev (.node a))).withNext
      (h.prev (.node a)) (h.next (.node a))).withNext (.node a) .poison1).withPrev
      (.node a) .poison2) := by
  have hnode : h.mapped (.node a) = true := decide_eq_true ha
  simp only [listDel, getPrev, getNext, setPrev, setNext, withPrev_mapped, withNext_mapped, hnode,
    hprev, hnext, if_true, Option.bind_eq_bind, Option.bind_some]

theorem node_ne_node {a b : Addr} (hab : a ≠ b) : Link.node a ≠ Link.node b := by
  intro heq
  injection heq with heq
  exact hab heq

theorem listDel_ring {a : Addr} (hr : h.IsRing (xs ++ a :: ys)) :
    ∃ h', h.listDel a = some h' ∧ h'.IsRing (xs ++ ys) ∧ h'.val = h.val ∧
      h'.live = h.live ∧ h'.freed = h.freed := by
  obtain ⟨hbefore, hafter⟩ := Seg.append_cons.mp hr.seg
  have hperm : (a :: (xs ++ ys)).Nodup := (List.perm_middle.nodup_iff).mp hr.nodup
  obtain ⟨haout, hnd⟩ := List.nodup_cons.mp hperm
  obtain ⟨hndx, -, hdisj⟩ := List.nodup_append.mp hnd
  have hax : ∀ b ∈ xs, b ≠ a := fun b hb hab => haout (hab ▸ List.mem_append_left ys hb)
  have hay : ∀ b ∈ ys, b ≠ a := fun b hb hab => haout (hab ▸ List.mem_append_right xs hb)
  have hlive : ∀ b ∈ xs ++ ys, b ∈ h.live := fun b hb =>
    hr.live b (List.perm_middle.mem_iff.mpr (List.mem_cons_of_mem a hb))
  have hlast : lastLink .head xs ≠ .node a ∧ (∀ b ∈ ys, .node b ≠ lastLink .head xs) ∧
      h.mapped (lastLink .head xs) = true := by
    rcases lastLink_cases .head xs with hl | ⟨b, hb, hl⟩
    · rw [hl]
      exact ⟨Link.noConfusion, fun _ _ => Link.noConfusion, rfl⟩
    · rw [hl]
      exact ⟨node_ne_node (hax b hb), fun c hc => node_ne_node (Ne.symm (hdisj b hb c hc)),
        decide_eq_true (hlive b (List.mem_append_left ys hb))⟩
  obtain ⟨hlasta, hlasty, hlastm⟩ := hlast
  have hfirst : h.mapped (firstLink ys .head) = true := by
    cases ys with
    | nil => rfl
    | cons c ys => exact decide_eq_true (hlive c (List.mem_append_right xs List.mem_cons_self))
  have hdel := listDel_eq (hr.live a (List.mem_append_right xs List.mem_cons_self))
    (hbefore.prev_end ▸ hlastm) (hafter.next_start ▸ hfirst)
  rw [hbefore.prev_end, hafter.next_start] at hdel
  refine ⟨_, hdel, ⟨hnd, hlive, ?_⟩, rfl, rfl, rfl⟩
  simp only [withNext_next, withPrev_next, withNext_prev, withPrev_prev]
  -- the links before the object lead to the first one after it
  have hjoin : ∀ r, r ≠ .node a → firstLink ys .head = r → (∀ b ∈ xs, .node b ≠ r) →
      Seg (Function.update (Function.update h.next (lastLink .head xs) (firstLink ys .head))
          (.node a) .poison1)
        (Function.update (Function.update h.prev (firstLink ys .head) (lastLink .head xs))
          (.node a) .poison2) .head xs r := by
    intro r hra heq hrx
    subst heq
    refine hbefore.retarget hndx (fun _ _ => Link.noConfusion) ?_ ?_ ?_ ?_
    · rintro l (rfl | ⟨b, hb, rfl⟩) hl
      · rw [Function.update_of_ne Link.noConfusion, Function.update_of_ne hl]
      · rw [Function.update_of_ne (node_ne_node (hax b hb)), Function.update_of_ne hl]
    · rw [Function.update_of_ne hlasta, Function.update_self]
    · intro b hb
      rw [Function.update_of_ne (node_ne_node (hax b hb)), Function.update_of_ne (hrx b hb)]
    · rw [Function.update_of_ne hra, Function.update_self]
  cases ys with
  | nil =>
    rw [List.append_nil]
    exact hjoin .head Link.noConfusion rfl fun _ _ => Link.noConfusion
  | cons c ys =>
    rw [Seg.append_cons]
    rw [firstLink_cons] at hjoin ⊢
    have hca := node_ne_node (hay c List.mem_cons_self)
    obtain ⟨-, -, hrest⟩ := hafter
    obtain ⟨hcy, -⟩ := List.nodup_cons.mp (List.nodup_append.mp hnd).2.1
    refine ⟨hjoin (.node c) hca rfl fun b hb => node_ne_node (hdisj b hb c List.mem_cons_self), ?_⟩
    apply hrest.congr
    · rw [Function.update_of_ne hca, Function.update_of_ne (hlasty c List.mem_cons_self)]
    · intro b hb
      have hb' := List.mem_cons_of_mem c hb
      rw [Function.update_of_ne (node_ne_node (hay b hb')), Function.update_of_ne (hlasty b hb')]
    · intro b hb
      have hbc : b ≠ c := fun hbc => hcy (hbc ▸ hb)
      rw [Function.update_of_ne (node_ne_node (hay b (List.mem_cons_of_mem c hb))),
        Function.update_of_ne (node_ne_node hbc)]
    · rw [Function.update_of_ne Link.noConfusion, Function.update_of_ne Link.noConfusion]

/-- The rule of `list_for_each_entry_safe` for a body that takes each object out of the ring. -/
theorem listForEachEntrySafe_removes {body : Heap α → Addr → Option (Heap α)}
    {P : List Addr → Heap α → Prop} (hring : ∀ xs h, P xs h → h.IsRing xs)
    (hbody : ∀ a xs h, P (a :: xs) h → ∃ h', body h a = some h' ∧ P xs h') (h0 : P xs h) :
    ∃ h', h.listForEachEntrySafe body = some h' ∧ P [] h' := by
  have hloop : ∀ (xs : List Addr) (fuel : Nat) (h : Heap α) (n : Link), P xs h → xs.length < fuel →
      (∀ a ys, xs = a :: ys → n = firstLink ys .head) →
      ∃ h', forEachSafeLoop body fuel h (firstLink xs .head) n = some h' ∧ P [] h' := by
    intro xs
    induction xs with
    | nil =>
      intro fuel h n hP hfuel _
      obtain ⟨fuel, rfl⟩ : ∃ k, fuel = k + 1 := ⟨fuel - 1, by simp at hfuel; omega⟩
      exact ⟨h, rfl, hP⟩
    | cons a xs ih =>
      intro fuel h n hP hfuel hn
      obtain ⟨fuel, rfl⟩ : ∃ k, fuel = k + 1 := ⟨fuel - 1, by simp at hfuel; omega⟩
      obtain ⟨h', hb, hP'⟩ := hbody a xs h hP
      obtain rfl := hn a xs rfl
      have hr' := hring xs h' hP'
      have hnext : ∃ n', h'.getNext (firstLink xs .head) = some n' ∧
          ∀ b ys, xs = b :: ys → n' = firstLink ys .head := by
        cases xs with
        | nil => exact ⟨h'.next .head, rfl, nofun⟩
        | cons b ys =>
          have hm : h'.mapped (.node b) = true := decide_eq_true (hr'.live b List.mem_cons_self)
          refine ⟨h'.next (.node b), by simp only [firstLink, getNext, hm, if_true], ?_⟩
          rintro _ _ ⟨⟩
          exact hr'.seg.2.2.next_start
      obtain ⟨n', hget, hn'⟩ := hnext
      simp only [firstLink_cons, forEachSafeLoop, hb, hget, Option.bind_eq_bind, Option.bind_some]
      exact ih fuel h' n' hP' (by simpa using hfuel) hn'
  have hr := hring xs h h0
  have hfirst := hr.mapped_first
  have hstart := hloop xs (h.live.card + 1) h (h.next (h.next .head)) h0
    (Nat.lt_succ_of_le hr.length_le) (by
      intro a ys heq
      subst heq
      rw [hr.seg.1]
      exact hr.seg.2.2.next_start)
  rw [← hr.seg.next_start] at hstart
  have hhead : h.mapped .head = true := rfl
  simpa only [listForEachEntrySafe, getNext, hhead, hfirst, if_true, Option.bind_eq_bind,
    Option.bind_some] using hstart

theorem getNext_node {a : Addr} (ha : a ∈ h.live) : h.getNext (.node a) = some (h.next (.node a)) :=
  if_pos (decide_eq_true ha)

theorem getVal_live {a : Addr} (ha : a ∈ h.live) : h.getVal a = some (h.val a) := if_pos ha

theorem listFirstEntryOrNull_ring (hr : h.IsRing xs) : h.listFirstEntryOrNull = some xs.head? := by
  have hhead : h.mapped .head = true := rfl
  simp only [listFirstEntryOrNull, getNext, hhead, if_true, Option.bind_eq_bind, Option.bind_some,
    hr.seg.next_start]
  cases xs with
  | nil => rfl
  | cons a xs => rfl

theorem IsRing.next_node {a : Addr} {i : Nat} (hr : h.IsRing xs) (hi : xs[i]? = some a) :
    h.next (.node a) = match xs[i + 1]? with
      | some b => .node b
      | none => .head := by
  obtain ⟨hlt, ha⟩ := List.getElem?_eq_some_iff.mp hi
  have hsplit : xs = xs.take i ++ a :: xs.drop (i + 1) := by
    rw [← ha, List.getElem_cons_drop, List.take_append_drop]
  have hseg := hr.seg
  rw [hsplit, Seg.append_cons] at hseg
  rw [hseg.2.next_start]
  cases hrest : xs.drop (i + 1) with
  | nil =>
    have hle : xs.length ≤ i + 1 := List.drop_eq_nil_iff.mp hrest
    rw [List.getElem?_eq_none hle]
    rfl
  | cons b ys =>
    have hget : xs[i + 1]? = some b := by
      rw [← List.head?_drop, hrest]
      rfl
    rw [hget]
    rfl

theorem listIsLast_ring {a : Addr} {i : Nat} (hr : h.IsRing xs) (hi : xs[i]? = some a) :
    h.listIsLast a = some (xs[i + 1]?.isNone) := by
  have ha := hr.live a (List.mem_of_getElem? hi)
  simp only [listIsLast, getNext_node ha, Option.bind_eq_bind, Option.bind_some, hr.next_node hi]
  cases xs[i + 1]? <;> rfl

theorem listNextEntry_ring {a : Addr} {i : Nat} (hr : h.IsRing xs) (hi : xs[i]? = some a) :
    h.listNextEntry a = xs[i + 1]? := by
  have ha := hr.live a (List.mem_of_getElem? hi)
  simp only [listNextEntry, getNext_node ha, Option.bind_eq_bind, Option.bind_some, hr.next_node hi]
  cases xs[i + 1]? <;> rfl

end Heap

end LinuxDriverLab
