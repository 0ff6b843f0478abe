import LinuxDriverLab.Framework.Intent
import LinuxDriverLab.ListMsg.Driver

/-!
# The message list of listmsg

The ring of `msg_list` holds exactly the messages written since the last `LISTMSG_CLEAR`, in the
order of the locked sections. What else is allocated belongs to writes that are about to take the
lock.
-/

namespace LinuxDriverLab.ListMsg

/-- An operation on the list of messages. -/
inductive ListOp
  | append (payload : Bytes)
  | clear

def ListOp.apply (msgs : List Bytes) : ListOp → List Bytes
  | .append payload => msgs ++ [payload]
  | .clear => []

/-- A write commits the first bytes that the user passed. -/
def listOp (r : Record State Event Shown) : Option ListOp :=
  match r.out with
  | .written _ _ u count => some (.append (u.take (min count msgMax)))
  | .cleared _ => some .clear
  | _ => none

/-- The messages written since the last `LISTMSG_CLEAR`. -/
def stored (tr : List (Record State Event Shown)) : List Bytes := replay ListOp.apply listOp [] tr

/-- The messages after a step that shows `o`. -/
def Shown.after (msgs : List Bytes) : Shown → List Bytes
  | .written _ _ u count => msgs ++ [u.take (min count msgMax)]
  | .cleared _ => []
  | _ => msgs

theorem stored_concat (tr : List (Record State Event Shown)) (r : Record State Event Shown) :
    stored (tr ++ [r]) = r.out.after (stored tr) := by
  unfold stored
  rw [replay_concat]
  unfold listOp
  cases r.out <;> rfl

def Msg.of (payload : Bytes) : Msg := ⟨payload.length, payload⟩

theorem lmWriteClamp_eq (cnt : Nat) : lmWriteClamp cnt = min cnt msgMax :=
  clamp_eq_min cnt msgMax

/-- All that `lm_write` can do before it takes the lock. -/
inductive PrepareEnd (h : Heap Msg) (u : Bytes) (count : Nat) :
    Option Addr → Heap Msg → Prepared → Prop
  | empty {mem} (hcnt : lmWriteClamp count = 0) : PrepareEnd h u count mem h (.returned (.ok 0))
  | noMemory (hcnt : lmWriteClamp count ≠ 0) :
      PrepareEnd h u count none h (.returned (.error .enomem))
  | fault {m h'} (hcnt : lmWriteClamp count ≠ 0) (hleft : u.length < lmWriteClamp count) (hnext : h'.next = h.next)
      (hprev : h'.prev = h.prev) (hlive : h'.live = h.live)
      (hval : ∀ a, a ≠ m → h'.val a = h.val a) :
      PrepareEnd h u count (some m) h' (.returned (.error .efault))
  | ready {m h'} (hcnt : lmWriteClamp count ≠ 0) (hlen : lmWriteClamp count ≤ u.length)
      (hnext : h'.next = h.next) (hprev : h'.prev = h.prev)
      (hlive : h'.live = insert m h.live) (hfreed : h'.freed = h.freed)
      (hval : ∀ a, a ≠ m → h'.val a = h.val a) (hm : h'.val m = Msg.of (u.take (min count msgMax))) :
      PrepareEnd h u count (some m) h' (.ready m)

theorem kmalloc_fresh {h : Heap Msg} {m : Addr} (hm : m ∉ h.live) :
    h.kmalloc m = some { h with live := insert m h.live } := if_neg hm

theorem kfree_live {h : Heap Msg} {m : Addr} (hm : m ∈ h.live) :
    h.kfree m = some { h with live := h.live.erase m, freed := h.freed ++ [m] } := if_pos hm

theorem lmWritePrepare_end {h : Heap Msg} (u : Bytes) (count : Nat) {mem : Option Addr}
    (hfresh : Fresh h mem) :
    ∃ h' res, lmWritePrepare h u count mem = some (h', res) ∧ PrepareEnd h u count mem h' res := by
  unfold lmWritePrepare
  by_cases hcnt : lmWriteClamp count = 0
  · exact ⟨h, _, if_pos hcnt, .empty hcnt⟩
  · simp only [if_neg hcnt]
    cases mem with
    | none => exact ⟨h, _, rfl, .noMemory hcnt⟩
    | some m =>
      have hm : m ∉ h.live := hfresh m rfl
      have hin : m ∈ insert m h.live := Finset.mem_insert_self m h.live
      simp only [kmalloc_fresh hm, Heap.setVal, Heap.kfree, hin, if_true, Option.bind_eq_bind,
        Option.bind_some]
      by_cases hleft : (copyFromUser u (lmWriteClamp count)).left ≠ 0
      · rw [if_pos hleft]
        have hlen : u.length < lmWriteClamp count := by
          rw [copyFromUser_left] at hleft
          omega
        refine ⟨_, _, rfl, .fault hcnt hlen rfl rfl (Finset.erase_insert hm) fun a ha => ?_⟩
        exact Function.update_of_ne ha _ _
      · rw [if_neg hleft]
        have hlen : lmWriteClamp count ≤ u.length := by
          rw [copyFromUser_left] at hleft
          omega
        refine ⟨_, _, rfl, .ready hcnt hlen rfl rfl rfl rfl (fun a ha => ?_) ?_⟩
        · dsimp only
          rw [Function.update_of_ne ha, Function.update_of_ne ha]
        · dsimp only
          rw [Function.update_self, Function.update_self, copyFromUser_of_le hlen, Msg.of,
            ← lmWriteClamp_eq, List.length_take, Nat.min_eq_left hlen]

/-- `LISTMSG_CLEAR` frees the objects of the ring, each once, and nothing else. -/
theorem lmClearLocked_ring {h : Heap Msg} {xs : List Addr} (hr : h.IsRing xs) :
    ∃ h', lmClearLocked h = some h' ∧ h'.IsRing [] ∧ h'.freed = h.freed ++ xs ∧
      (∀ a, a ∈ h'.live ↔ a ∈ h.live ∧ a ∉ xs) ∧ h'.val = h.val := by
  -- what is left to visit, and what has been freed so far
  let P : List Addr → Heap Msg → Prop := fun rest k =>
    k.IsRing rest ∧ ∃ before, xs = before ++ rest ∧ k.freed = h.freed ++ before ∧
      (∀ a, a ∈ k.live ↔ a ∈ h.live ∧ a ∉ before) ∧ k.val = h.val
  have hbody : ∀ a rest k, P (a :: rest) k →
      ∃ k', (do let k ← k.listDel a; k.kfree a) = some k' ∧ P rest k' := by
    rintro a rest k ⟨hk, before, hxs, hfreed, hlive, hval⟩
    obtain ⟨k₁, hdel, hring, hval₁, hlive₁, hfreed₁⟩ := Heap.listDel_ring
      (show k.IsRing ([] ++ a :: rest) from hk)
    have ha : a ∈ k₁.live := hlive₁ ▸ hk.live a List.mem_cons_self
    have haout : a ∉ rest := (List.nodup_cons.mp hk.nodup).1
    refine ⟨{ k₁ with live := k₁.live.erase a, freed := k₁.freed ++ [a] }, ?_, ?_, before ++ [a],
      ?_, ?_, ?_, ?_⟩
    · rw [hdel, Option.bind_eq_bind, Option.bind_some, kfree_live ha]
    · refine hring.congr (fun b hb => ?_) rfl rfl
      have hne : b ≠ a := fun hba => haout (hba ▸ hb)
      exact Finset.mem_erase.mpr ⟨hne, hring.live b hb⟩
    · rw [hxs, List.append_assoc]
      rfl
    · dsimp only
      rw [hfreed₁, hfreed, List.append_assoc]
    · intro b
      dsimp only
      rw [Finset.mem_erase, hlive₁, hlive, List.mem_append, List.mem_singleton]
      tauto
    · exact hval₁.trans hval
  obtain ⟨h', hclear, hring, before, hxs, hfreed, hlive, hval⟩ :=
    Heap.listForEachEntrySafe_removes (P := P) (fun _ _ hP => hP.1) hbody
      ⟨hr, [], rfl, by simp, by simp, rfl⟩
  rw [List.append_nil] at hxs
  subst hxs
  exact ⟨h', hclear, hring, hfreed, hlive, hval⟩

/-- The heap of a state reached, against the messages stored: the ring goes through `xs`. -/
structure Holds (xs : List Addr) (msgs : List Bytes) (s : State) : Prop where
  ring : s.heap.IsRing xs
  vals : xs.map s.heap.val = msgs.map Msg.of
  live : ∀ a, a ∈ s.heap.live ↔ a ∈ xs ∨ ∃ t f u count, s.pc t = .writeReady f a u count
  outside : ∀ t f a u count, s.pc t = .writeReady f a u count → a ∉ xs
  ready : ∀ t f a u count, s.pc t = .writeReady f a u count →
    s.heap.val a = Msg.of (u.take (min count msgMax))
  apart : ∀ t t' f f' a u u' count count', s.pc t = .writeReady f a u count →
    s.pc t' = .writeReady f' a u' count' → t = t'
  count : s.msgCount = int32 msgs.length

theorem holds_init (junk : Heap Msg) : Holds [] [] (State.init junk) where
  ring := Heap.empty_ring junk
  vals := rfl
  live := fun a => by simp [State.init, Heap.empty]
  outside := nofun
  ready := nofun
  apart := nofun
  count := rfl

variable {xs : List Addr} {msgs : List Bytes} {s u : State}

theorem Holds.frame (h : Holds xs msgs s) (hheap : u.heap = s.heap) (hcount : u.msgCount = s.msgCount)
    (hpc : ∀ t f a b c, u.pc t = .writeReady f a b c ↔ s.pc t = .writeReady f a b c) :
    Holds xs msgs u where
  ring := hheap ▸ h.ring
  vals := hheap ▸ h.vals
  live := by
    intro a
    simp only [hheap, hpc]
    exact h.live a
  outside := fun t f a b c ht => h.outside t f a b c ((hpc t f a b c).mp ht)
  ready := fun t f a b c ht => by
    rw [hheap]
    exact h.ready t f a b c ((hpc t f a b c).mp ht)
  apart := fun t t' f f' a b b' c c' ht ht' =>
    h.apart t t' f f' a b b' c c' ((hpc t f a b c).mp ht) ((hpc t' f' a b' c').mp ht')
  count := hcount ▸ h.count

/-- A write that is about to take the lock. -/
def Pc.Writes : Pc → Prop
  | .writeReady .. => True
  | _ => False

theorem writeReady_goto {t : Task} {p pc : Pc} (ht : s.pc t = p) (hp : ¬ p.Writes) (hpc : ¬ pc.Writes)
    (t' : Task) (f : File) (a : Addr) (b : Bytes) (c : Nat) :
    (s.goto t pc).pc t' = .writeReady f a b c ↔ s.pc t' = .writeReady f a b c := by
  by_cases heq : t' = t
  · subst heq
    rw [goto_pc_self, ht]
    constructor
    · intro h
      rw [h] at hpc
      exact absurd trivial hpc
    · intro h
      rw [h] at hp
      exact absurd trivial hp
  · rw [goto_pc_other s pc heq]

theorem Holds.goto {t : Task} {p pc : Pc} (h : Holds xs msgs s) (ht : s.pc t = p) (hp : ¬ p.Writes)
    (hpc : ¬ pc.Writes) : Holds xs msgs (s.goto t pc) :=
  h.frame rfl rfl (writeReady_goto ht hp hpc)

theorem inFlight_goto {t : Task} {f : File} {m a : Addr} {b : Bytes} {count : Nat} (hidle : s.pc t = .idle) :
    (∃ t' f' b' c', (s.goto t (.writeReady f m b count)).pc t' = .writeReady f' a b' c') ↔
      a = m ∨ ∃ t' f' b' c', s.pc t' = .writeReady f' a b' c' := by
  constructor
  · intro h
    obtain ⟨t', f', b', c', ht'⟩ := h
    by_cases heq : t' = t
    · subst heq
      rw [goto_pc_self] at ht'
      cases ht'
      exact .inl rfl
    · rw [goto_pc_other _ _ heq] at ht'
      exact .inr ⟨t', f', b', c', ht'⟩
  · intro h
    rcases h with rfl | ⟨t', f', b', c', ht'⟩
    · exact ⟨t, f, b, count, goto_pc_self _ _ _⟩
    · have hne : t' ≠ t := by
        intro heq
        rw [heq, hidle] at ht'
        cases ht'
      exact ⟨t', f', b', c', by rwa [goto_pc_other _ _ hne]⟩

theorem inFlight_leave {t : Task} {f : File} {m a : Addr} {b : Bytes} {count : Nat}
    (ht : s.pc t = .writeReady f m b count) :
    (∃ t' f' b' c', s.pc t' = .writeReady f' a b' c') ↔
      a = m ∨ ∃ t' f' b' c', (s.goto t .idle).pc t' = .writeReady f' a b' c' := by
  constructor
  · intro h
    obtain ⟨t', f', b', c', ht'⟩ := h
    by_cases heq : t' = t
    · rw [heq, ht] at ht'
      cases ht'
      exact .inl rfl
    · exact .inr ⟨t', f', b', c', by rwa [goto_pc_other _ _ heq]⟩
  · intro h
    rcases h with rfl | ⟨t', f', b', c', ht'⟩
    · exact ⟨t, f, b, count, ht⟩
    · exact ⟨t', f', b', c', (goto_pc_ne Pc.noConfusion ht').2⟩

theorem Holds.setFile (f : File) (o : Opened) (h : Holds xs msgs s) :
    Holds xs msgs (s.setFile f o) :=
  h.frame rfl rfl fun _ _ _ _ _ => Iff.rfl

theorem Holds.prepared {heap : Heap Msg} {m : Addr} (h : Holds xs msgs s) (hm : m ∉ s.heap.live)
    (hnext : heap.next = s.heap.next) (hprev : heap.prev = s.heap.prev)
    (hlive : ∀ a ∈ s.heap.live, a ∈ heap.live) (hval : ∀ a, a ≠ m → heap.val a = s.heap.val a) :
    heap.IsRing xs ∧ xs.map heap.val = msgs.map Msg.of ∧
      ∀ t f a b c, s.pc t = .writeReady f a b c → heap.val a = Msg.of (b.take (min c msgMax)) := by
  have hne : ∀ a ∈ s.heap.live, heap.val a = s.heap.val a := fun a ha =>
    hval a fun ham => hm (ham ▸ ha)
  refine ⟨h.ring.congr (fun a ha => hlive a (h.ring.live a ha)) hnext hprev, ?_, ?_⟩
  · rw [← h.vals]
    exact List.map_congr_left fun a ha => hne a (h.ring.live a ha)
  · intro t f a b c ht
    rw [hne a ((h.live a).mpr (.inr ⟨t, f, b, c, ht⟩))]
    exact h.ready t f a b c ht

theorem Holds.writeReturn {b : Bytes} {count : Nat} {mem : Option Addr} {heap : Heap Msg}
    {ret : Except Errno Nat} (h : Holds xs msgs s) (hmem : Fresh s.heap mem)
    (hprep : lmWritePrepare s.heap b count mem = some (heap, .returned ret)) :
    Holds xs msgs { s with heap } ∧ heap.next = s.heap.next ∧ heap.prev = s.heap.prev ∧
      heap.live = s.heap.live := by
  obtain ⟨h', res, hend, hcases⟩ := lmWritePrepare_end b count hmem
  rw [hprep] at hend
  cases hend
  cases hcases with
  | empty => exact ⟨h, rfl, rfl, rfl⟩
  | noMemory => exact ⟨h, rfl, rfl, rfl⟩
  | @fault m h' _ _ hnext hprev hlive hval =>
    obtain ⟨hring, hvals, hready⟩ := h.prepared (hmem m rfl) hnext hprev (fun a ha => hlive ▸ ha) hval
    refine ⟨⟨hring, hvals, fun a => ?_, h.outside, hready, h.apart, h.count⟩, hnext, hprev, hlive⟩
    dsimp only
    rw [hlive]
    exact h.live a

theorem Holds.writeReady {t : Task} {f : File} {b : Bytes} {count : Nat} {mem : Option Addr}
    {heap : Heap Msg} {m : Addr} (h : Holds xs msgs s) (ht : s.pc t = .idle)
    (hmem : Fresh s.heap mem) (hprep : lmWritePrepare s.heap b count mem = some (heap, .ready m)) :
    Holds xs msgs ({ s with heap }.goto t (.writeReady f m b count)) := by
  obtain ⟨h', res, hend, hcases⟩ := lmWritePrepare_end b count hmem
  rw [hprep] at hend
  cases hend
  cases hcases with
  | ready _ _ hnext hprev hlive hfreed hval hm =>
    have hfresh : m ∉ s.heap.live := hmem m rfl
    obtain ⟨hring, hvals, hready⟩ := h.prepared hfresh hnext hprev
      (fun a ha => hlive ▸ Finset.mem_insert_of_mem ha) hval
    -- a write in flight is the new one or an old one
    have hpc : ∀ t' f' a b' c', ({ s with heap }.goto t (.writeReady f m b count)).pc t' =
        .writeReady f' a b' c' → (t' = t ∧ m = a ∧ b = b' ∧ count = c') ∨
          s.pc t' = .writeReady f' a b' c' := by
      intro t' f' a b' c' ht'
      rcases goto_pc_cases ht' with ⟨heq, hnew⟩ | ⟨-, hold⟩
      · injection hnew with _ hm hb hc
        exact .inl ⟨heq, hm, hb, hc⟩
      · exact .inr hold
    refine ⟨hring, hvals, fun a => ?_, ?_, ?_, ?_, h.count⟩
    · rw [inFlight_goto (show ({ s with heap } : State).pc t = .idle from ht), goto_heap, hlive,
        Finset.mem_insert, h.live]
      exact or_left_comm
    · intro t' f' a b' c' ht'
      rcases hpc t' f' a b' c' ht' with ⟨-, rfl, -, -⟩ | hold
      · exact fun hin => hfresh (h.ring.live _ hin)
      · exact h.outside t' f' a b' c' hold
    · intro t' f' a b' c' ht'
      rcases hpc t' f' a b' c' ht' with ⟨-, rfl, rfl, rfl⟩ | hold
      · exact hm
      · exact hready t' f' a b' c' hold
    · intro t₁ t₂ f₁ f₂ a b₁ b₂ c₁ c₂ h₁ h₂
      rcases hpc _ _ _ _ _ h₁ with ⟨ht₁, ha, -, -⟩ | k₁
      · rcases hpc _ _ _ _ _ h₂ with ⟨ht₂, -, -, -⟩ | k₂
        · rw [ht₁, ht₂]
        · exact absurd (ha ▸ (h.live _).mpr (.inr ⟨_, _, _, _, k₂⟩)) hfresh
      · rcases hpc _ _ _ _ _ h₂ with ⟨-, ha, -, -⟩ | k₂
        · exact absurd (ha ▸ (h.live _).mpr (.inr ⟨_, _, _, _, k₁⟩)) hfresh
        · exact h.apart _ _ _ _ _ _ _ _ _ k₁ k₂

theorem Holds.writeLocked {t : Task} {f : File} {m : Addr} {b : Bytes} {count : Nat}
    (h : Holds xs msgs s) (ht : s.pc t = .writeReady f m b count) :
    ∃ heap, lmWriteLocked s.heap s.msgCount m = some (heap, int32 (s.msgCount + 1)) ∧
      Holds (xs ++ [m]) (msgs ++ [b.take (min count msgMax)])
        ({ s with heap, msgCount := int32 (s.msgCount + 1) }.goto t .idle) := by
  have hout := h.outside t f m b count ht
  obtain ⟨heap, hadd, hring, hval, hlive, -⟩ := Heap.listAddTail_ring h.ring
    ((h.live m).mpr (.inr ⟨t, f, b, count, ht⟩)) hout
  -- the writes still in flight
  have hpc : ∀ {t' f' a b' c'}, ({ s with heap, msgCount := int32 (s.msgCount + 1) }.goto t .idle).pc t' =
      .writeReady f' a b' c' → t' ≠ t ∧ s.pc t' = .writeReady f' a b' c' := goto_pc_ne Pc.noConfusion
  refine ⟨heap, by rw [lmWriteLocked, hadd]; rfl, hring, ?_, fun a => ?_, ?_, ?_, ?_, ?_⟩
  · rw [goto_heap, hval, List.map_append, List.map_append, h.vals, List.map_singleton,
      List.map_singleton, h.ready t f m b count ht]
  · rw [goto_heap, hlive, h.live, inFlight_leave ht, List.mem_append, List.mem_singleton, or_assoc]
    rfl
  · intro t' f' a b' c' ht'
    obtain ⟨hne, ht'⟩ := hpc ht'
    rw [List.mem_append, List.mem_singleton]
    intro hin
    rcases hin with ha | rfl
    · exact h.outside t' f' a b' c' ht' ha
    · exact hne (h.apart t' t _ _ _ _ _ _ _ ht' ht)
  · intro t' f' a b' c' ht'
    rw [goto_heap, hval]
    exact h.ready t' f' a b' c' (hpc ht').2
  · intro t₁ t₂ f₁ f₂ a b₁ b₂ c₁ c₂ h₁ h₂
    exact h.apart _ _ _ _ _ _ _ _ _ (hpc h₁).2 (hpc h₂).2
  · rw [goto_msgCount, h.count, int32_add_int32, List.length_append, List.length_singleton,
      Nat.cast_add, Nat.cast_one]

theorem Holds.clear {t : Task} (f : File) (h : Holds xs msgs s) (ht : s.pc t = .idle) :
    ∃ heap, lmClearLocked s.heap = some heap ∧
      Holds [] [] ({ s with heap, msgCount := 0 }.goto t (.clearDone f)) ∧
      heap.freed = s.heap.freed ++ xs ∧ ∀ a, a ∈ heap.live ↔ a ∈ s.heap.live ∧ a ∉ xs := by
  obtain ⟨heap, hclear, hring, hfreed, hlive, hval⟩ := lmClearLocked_ring h.ring
  have hbase : Holds [] [] { s with heap, msgCount := 0 } := by
    refine ⟨hring, rfl, fun a => ?_, fun _ _ _ _ _ _ => List.not_mem_nil, ?_, h.apart, rfl⟩
    · dsimp only
      rw [hlive, h.live]
      constructor
      · rintro ⟨ha | hready, hout⟩
        · exact absurd ha hout
        · exact .inr hready
      · rintro (ha | ⟨t', f', b', c', ht'⟩)
        · cases ha
        · exact ⟨.inr ⟨t', f', b', c', ht'⟩, h.outside t' f' a b' c' ht'⟩
    · intro t' f' a b' c' ht'
      dsimp only
      rw [hval]
      exact h.ready t' f' a b' c' ht'
  exact ⟨heap, hclear, hbase.goto ht id id, hfreed, hlive⟩

/-- Every step keeps the list in step with the messages stored, and only `LISTMSG_CLEAR` takes
objects out of the ring. -/
theorem holds_step {e : Event} {o : Shown} (h : Holds xs msgs s) (hstep : step s e = some (u, o)) :
    ∃ ys, Holds ys (o.after msgs) u ∧ ((∀ f, o ≠ .cleared f) → xs <+: ys) := by
  have hsame : ∀ {k : List Bytes}, Holds xs k u → k = o.after msgs →
      ∃ ys, Holds ys (o.after msgs) u ∧ ((∀ f, o ≠ .cleared f) → xs <+: ys) := by
    intro k hk heq
    subst heq
    exact ⟨xs, hk, fun _ => List.prefix_rfl⟩
  cases step_move hstep with
  | openFile => exact hsame (h.setFile _ _) rfl
  | openOops ht => exact hsame (h.goto ht id id) rfl
  | openFails => exact hsame h rfl
  | release => exact hsame (h.setFile _ _) rfl
  | readEnd => exact hsame h rfl
  | readTest ht =>
    exact hsame (h.goto ht id id) rfl
  | readLocked ht =>
    exact hsame ((h.setFile _ _).goto ht id id) rfl
  | readOops ht => exact hsame (h.goto ht id id) rfl
  | writeReturn _ _ hmem hprep => exact hsame (h.writeReturn hmem hprep).1 rfl
  | writeReady ht _ hmem hprep => exact hsame (h.writeReady ht hmem hprep) rfl
  | writeOops ht => exact hsame (h.goto ht id id) rfl
  | writeLocked ht hadd =>
    obtain ⟨heap, hadd', hnew⟩ := h.writeLocked ht
    rw [hadd] at hadd'
    cases hadd'
    exact ⟨_, hnew, fun _ => List.prefix_append _ _⟩
  | writeLockedOops ht hadd =>
    obtain ⟨heap, hadd', -⟩ := h.writeLocked ht
    rw [hadd] at hadd'
    cases hadd'
  | count => exact hsame h rfl
  | @clear t f arg cur heap ht _ hclear =>
    obtain ⟨heap', hclear', hnew, -⟩ := h.clear f ht
    rw [hclear] at hclear'
    cases hclear'
    exact ⟨[], hnew, fun hno => absurd rfl (hno f)⟩
  | clearOops ht => exact hsame (h.goto ht id id) rfl
  | ioctlOther => exact hsame h rfl
  | clearReset ht => exact hsame ((h.setFile _ _).goto ht id id) rfl

theorem holds_run {junk : Heap Msg} {tr : List (Record State Event Shown)}
    (h : Run step (State.init junk) tr s) : ∃ xs, Holds xs (stored tr) s := by
  refine h.history (I := fun tr s => ∃ xs, Holds xs (stored tr) s) ⟨[], holds_init junk⟩ ?_
  rintro tr t e u o - ⟨xs, hI⟩ hs
  rw [stored_concat]
  obtain ⟨ys, hys, -⟩ := holds_step hI hs
  exact ⟨ys, hys⟩

/-- The part of an event in the calls that change the list, read off its arguments. -/
def Event.intent : Event → Intent Task ListOp
  | .write t _ u count _ => .prepare t (.append (u.take (min count msgMax)))
  | .writeLocked t => .commit t
  | .ioctl _ _ cmd _ => if cmd = listmsgClear then .whole .clear else .other
  | _ => .other

/-- The messages that the events ask for: the payloads of the writes in the order of their locked
sections, since the last `LISTMSG_CLEAR`. -/
def expected (es : List Event) : List Bytes := (asked ListOp.apply Event.intent [] es).value

/-- The task is about to take the lock with a message. -/
def Ready (s : State) (t : Task) (op : ListOp) : Prop :=
  ∃ f m u count, s.pc t = .writeReady f m u count ∧ op = .append (u.take (min count msgMax))

theorem ready_goto {s : State} {t t' : Task} {pc : Pc} {op : ListOp} (hpc : ¬ pc.Writes)
    (h : Ready (s.goto t pc) t' op) : t' ≠ t ∧ Ready s t' op := by
  obtain ⟨f, m, u, count, ht, hop⟩ := h
  have hdiff : pc ≠ .writeReady f m u count := by
    intro heq
    rw [heq] at hpc
    exact hpc trivial
  obtain ⟨hne, ht'⟩ := goto_pc_ne hdiff ht
  exact ⟨hne, f, m, u, count, ht', hop⟩

theorem intent_ioctl {t : Task} {f : File} {cmd : Nat} {arg : UserInt} (h : cmd ≠ listmsgClear) :
    (Event.ioctl t f cmd arg).intent = .other := if_neg h

theorem intent_step {e : Event} {o : Shown} (h : Holds xs msgs s) (hstep : step s e = some (u, o)) :
    Intent.Fits Ready s u e.intent (listOp ⟨s, e, o⟩) := by
  have hgoto : ∀ {t pc}, ¬ Pc.Writes pc → ∀ t' op, Ready (s.goto t pc) t' op → Ready s t' op :=
    fun hpc t' op ht => (ready_goto hpc ht).2
  have hsame : ∀ t op, Ready s t op → Ready s t op := fun _ _ ht => ht
  cases step_move hstep with
  | openFile => exact .other hsame
  | openOops => exact .other (hgoto id)
  | openFails => exact .other hsame
  | release => exact .other hsame
  | readEnd => exact .other hsame
  | readTest => exact .other (hgoto id)
  | readLocked => exact .other fun t op ht => (ready_goto (s := s.setFile _ _) id ht).2
  | readOops => exact .other (hgoto id)
  | @writeReturn t f b count mem cur heap ret ht =>
    refine .prepare fun t' op hready => .inr ⟨?_, hready⟩
    rintro rfl
    obtain ⟨f', m, b', c', ht', -⟩ := hready
    simp [ht] at ht'
  | @writeReady t f b count mem cur heap m ht =>
    refine .prepare fun t' op hready => ?_
    obtain ⟨f', m', b', c', ht', rfl⟩ := hready
    rcases goto_pc_cases ht' with ⟨rfl, hnew⟩ | ⟨hne, hold⟩
    · injection hnew with _ _ hb hc
      exact .inl ⟨rfl, by rw [hb, hc]⟩
    · exact .inr ⟨hne, f', m', b', c', hold, rfl⟩
  | @writeOops t f b count mem cur ht _ hmem hprep =>
    obtain ⟨h', res, hend, -⟩ := lmWritePrepare_end b count hmem
    rw [hprep] at hend
    cases hend
  | @writeLocked t f m b count heap msgCount ht =>
    exact .commit ⟨f, m, b, count, ht, rfl⟩ fun t' op hready =>
      ready_goto (s := { s with heap, msgCount }) id hready
  | writeLockedOops ht hadd =>
    obtain ⟨heap, hadd', -⟩ := h.writeLocked ht
    rw [hadd] at hadd'
    cases hadd'
  | count => exact intent_ioctl (by decide : listmsgCount ≠ listmsgClear) ▸ .other hsame
  | clear => exact .whole fun t op ht => (ready_goto (s := { s with heap := _, msgCount := 0 }) id ht).2
  | @clearOops t f arg cur ht _ hclear =>
    obtain ⟨heap', hclear', -⟩ := h.clear f ht
    rw [hclear] at hclear'
    cases hclear'
  | ioctlOther _ _ hcmd => exact intent_ioctl hcmd.2 ▸ .other hsame
  | clearReset => exact .other fun t op ht => (ready_goto (s := s.setFile _ _) id ht).2

theorem expected_eq {junk : Heap Msg} {tr : List (Record State Event Shown)}
    (h : Run step (State.init junk) tr s) : expected (tr.map Record.event) = stored tr := by
  refine (h.asked_eq Ready listOp Event.intent ?_ ?_).1
  · rintro t op ⟨f, m, u, count, ht, -⟩
    cases ht
  · intro past t e u o hrun hs
    obtain ⟨xs, hholds⟩ := holds_run hrun
    exact intent_step hholds hs

/-- What the calls answer in a state that holds `msgs`, as long as the file is open and the task not
in another call. -/
structure Answers (msgs : List Bytes) (s : State) : Prop where
  writeEmpty : ∀ t f cur b mem, s.pc t = .idle → s.files f = .yes cur → Fresh s.heap mem →
    step s (.write t f b 0 mem) = some (s, .writeReturned f (.ok 0))
  writeNoMemory : ∀ t f cur b count, s.pc t = .idle → s.files f = .yes cur → 0 < count →
    step s (.write t f b count none) = some (s, .writeReturned f (.error .enomem))
  writeFaults : ∀ t f cur b count m, s.pc t = .idle → s.files f = .yes cur → 0 < count →
    m ∉ s.heap.live → b.length < min count msgMax →
    ∃ u, step s (.write t f b count (some m)) = some (u, .writeReturned f (.error .efault)) ∧
      u.heap.next = s.heap.next ∧ u.heap.prev = s.heap.prev ∧ u.heap.live = s.heap.live ∧
      u.msgCount = s.msgCount
  writeReady : ∀ t f cur b count m, s.pc t = .idle → s.files f = .yes cur → 0 < count →
    m ∉ s.heap.live → min count msgMax ≤ b.length →
    ∃ u, step s (.write t f b count (some m)) = some (u, .quiet) ∧
      u.pc t = .writeReady f m b count ∧ u.heap.next = s.heap.next ∧ u.heap.prev = s.heap.prev ∧
      u.msgCount = s.msgCount
  writeLocked : ∀ t f m b count, s.pc t = .writeReady f m b count →
    ∃ u, step s (.writeLocked t) = some (u, .written f (min count msgMax) b count)
  count : ∀ t f cur arg, s.pc t = .idle → s.files f = .yes cur → msgs.length < 2 ^ 31 →
    step s (.ioctl t f listmsgCount arg) = some (s, .counted f
      (if arg.writable then ⟨.ok (), some msgs.length⟩ else ⟨.error .efault, none⟩))
  clear : ∀ t f cur arg, s.pc t = .idle → s.files f = .yes cur →
    ∃ u xs, step s (.ioctl t f listmsgClear arg) = some (u, .cleared f) ∧ s.heap.IsRing xs ∧
      u.heap.freed = s.heap.freed ++ xs ∧ (∀ a, a ∈ u.heap.live ↔ a ∈ s.heap.live ∧ a ∉ xs) ∧
      u.heap.next .head = .head ∧ u.heap.prev .head = .head ∧ u.msgCount = 0

theorem lmWriteClamp_pos {count : Nat} (h : 0 < count) : lmWriteClamp count ≠ 0 := by
  rw [lmWriteClamp_eq, msgMax]
  omega

theorem holds_answers (h : Holds xs msgs s) : Answers msgs s := by
  constructor
  · intro t f cur b mem ht hf hmem
    have hprep : lmWritePrepare s.heap b 0 mem = some (s.heap, .returned (.ok 0)) := rfl
    simp only [step, ht, hf, if_pos hmem, hprep]
  · intro t f cur b count ht hf hcount
    have hmem : Fresh s.heap none := by simp [Fresh]
    have hprep : lmWritePrepare s.heap b count none = some (s.heap, .returned (.error .enomem)) :=
      if_neg (lmWriteClamp_pos hcount)
    simp only [step, ht, hf, if_pos hmem, hprep]
  · intro t f cur b count m ht hf hcount hm hshort
    have hmem : Fresh s.heap (some m) := by simpa [Fresh] using hm
    obtain ⟨heap, res, hprep, hend⟩ := lmWritePrepare_end b count hmem
    cases hend with
    | empty hcnt => exact absurd hcnt (lmWriteClamp_pos hcount)
    | fault _ _ hnext hprev hlive =>
      exact ⟨{ s with heap }, by simp only [step, ht, hf, if_pos hmem, hprep], hnext, hprev, hlive, rfl⟩
    | ready _ hlen =>
      rw [lmWriteClamp_eq] at hlen
      omega
  · intro t f cur b count m ht hf hcount hm hlong
    have hmem : Fresh s.heap (some m) := by simpa [Fresh] using hm
    obtain ⟨heap, res, hprep, hend⟩ := lmWritePrepare_end b count hmem
    cases hend with
    | empty hcnt => exact absurd hcnt (lmWriteClamp_pos hcount)
    | fault _ hleft =>
      rw [lmWriteClamp_eq] at hleft
      omega
    | ready _ _ hnext hprev =>
      exact ⟨{ s with heap }.goto t (.writeReady f m b count),
        by simp only [step, ht, hf, if_pos hmem, hprep], goto_pc_self _ _ _, hnext, hprev, rfl⟩
  · intro t f m b count ht
    obtain ⟨heap, hadd, -⟩ := h.writeLocked ht
    refine ⟨{ s with heap, msgCount := int32 (s.msgCount + 1) }.goto t .idle, ?_⟩
    simp only [step, ht, hadd, lmWriteClamp_eq]
  · intro t f cur arg ht hf hfew
    have hval : s.msgCount = msgs.length := by
      rw [h.count, int32_of_range (by omega) (by omega)]
    simp only [step, ht, hf, if_true, putInt, hval]
  · intro t f cur arg ht hf
    obtain ⟨heap, hclear, hnew, hfreed, hlive⟩ := h.clear f ht
    have hne : listmsgClear ≠ listmsgCount := by decide
    refine ⟨{ s with heap, msgCount := 0 }.goto t (.clearDone f), xs, ?_, h.ring, hfreed, hlive,
      hnew.ring.seg.1, hnew.ring.seg.2, rfl⟩
    simp only [step, ht, hf, if_neg hne, if_true, hclear]

/-- Only a `lm_read` can access memory that it may not. -/
def NoFault (_ : List (Record State Event Shown)) (r : Record State Event Shown) : Prop :=
  r.out = .oops → ∃ t, r.event = .readLocked t

theorem noFault_step {e : Event} {o : Shown} (past : List (Record State Event Shown))
    (h : Holds xs msgs s) (hstep : step s e = some (u, o)) : NoFault past ⟨s, e, o⟩ := by
  intro heq
  subst heq
  cases step_move hstep with
  | openOops _ _ hcur =>
    rw [lmOpenLocked, Heap.listFirstEntryOrNull_ring h.ring] at hcur
    cases hcur
  | readOops => exact ⟨_, rfl⟩
  | @writeOops t f u count mem cur _ _ hmem hprep =>
    obtain ⟨h', res, hend, -⟩ := lmWritePrepare_end u count hmem
    rw [hprep] at hend
    cases hend
  | writeLockedOops ht hadd =>
    obtain ⟨heap, hadd', -⟩ := h.writeLocked ht
    rw [hadd] at hadd'
    cases hadd'
  | @clearOops t f arg cur ht _ hclear =>
    obtain ⟨heap', hclear', -⟩ := h.clear f ht
    rw [hclear] at hclear'
    cases hclear'

/-- In every run from loading, the ring of `msg_list` holds the messages that the calls ask for, nothing
else stays allocated but for writes in flight, every write, count and clear is answered as it should
be, and none of them faults. -/
theorem lmCalls_refine_list (junk : Heap Msg) (tr : List (Record State Event Shown)) (s : State)
    (h : Run step (State.init junk) tr s) :
    (∃ xs, s.heap.IsRing xs ∧ xs.map s.heap.val = (expected (tr.map Record.event)).map Msg.of ∧
        ∀ a, a ∈ s.heap.live ↔ a ∈ xs ∨ ∃ t f u count, s.pc t = .writeReady f a u count) ∧
      Answers (expected (tr.map Record.event)) s ∧ Each NoFault tr := by
  obtain ⟨xs, hs⟩ := holds_run h
  rw [expected_eq h]
  refine ⟨⟨xs, hs.ring, hs.vals, hs.live⟩, holds_answers hs, ?_⟩
  rintro past ⟨t, e, o⟩ rest rfl
  obtain ⟨hpast, u, hu, -⟩ := h.split
  obtain ⟨ys, ht⟩ := holds_run hpast
  exact noFault_step past ht hu

/-- A heap in which nothing has been written. -/
def blank : Heap Msg := ⟨fun _ => .poison1, fun _ => .poison2, fun _ => ⟨0, []⟩, ∅, []⟩

/-- Two writes that take the lock in the other order, three that fail, and counts before and after a
`LISTMSG_CLEAR`. -/
def writesAndClear : List Event :=
  [.openFile 0 0 true, .write 0 0 [104, 105] 2 (some 7), .write 1 0 [33] 1 (some 9),
    .write 2 0 [33] 5 (some 11), .write 2 0 [33] 1 none, .write 2 0 [33] 0 (some 11), .writeLocked 1,
    .writeLocked 0, .ioctl 2 0 listmsgCount ⟨none, true⟩, .ioctl 2 0 listmsgClear ⟨none, false⟩,
    .ioctl 3 0 listmsgCount ⟨none, true⟩, .ioctl 3 0 listmsgCount ⟨none, false⟩]

theorem lmCalls_refine_list_write_clear : ∃ tr s,
    (Run step (State.init blank) tr s ∧ tr.map Record.event = writesAndClear ∧
      tr.map Record.out = [.opened 0 (.ok ()), .quiet, .quiet, .writeReturned 0 (.error .efault),
        .writeReturned 0 (.error .enomem), .writeReturned 0 (.ok 0), .written 0 1 [33] 1,
        .written 0 2 [104, 105] 2, .counted 0 ⟨.ok (), some 2⟩, .cleared 0,
        .counted 0 ⟨.ok (), some 0⟩, .counted 0 ⟨.error .efault, none⟩] ∧
      expected (writesAndClear.take 9) = [[33], [104, 105]] ∧ s.heap.freed = [11, 9, 7]) ∧
    (∃ xs, s.heap.IsRing xs ∧ xs.map s.heap.val = (expected (tr.map Record.event)).map Msg.of ∧
        ∀ a, a ∈ s.heap.live ↔ a ∈ xs ∨ ∃ t f u count, s.pc t = .writeReady f a u count) ∧
      Answers (expected (tr.map Record.event)) s ∧ Each NoFault tr := by
  obtain ⟨tr, s, hrun, hev, hq⟩ := exists_exec step (State.init blank) writesAndClear
    (fun x => x.1.map Record.out = [.opened 0 (.ok ()), .quiet, .quiet,
      .writeReturned 0 (.error .efault), .writeReturned 0 (.error .enomem), .writeReturned 0 (.ok 0),
      .written 0 1 [33] 1, .written 0 2 [104, 105] 2, .counted 0 ⟨.ok (), some 2⟩, .cleared 0,
      .counted 0 ⟨.ok (), some 0⟩, .counted 0 ⟨.error .efault, none⟩] ∧
      x.2.heap.freed = [11, 9, 7]) (by decide +kernel)
  obtain ⟨houts, hfreed⟩ := of_decide_eq_true hq
  exact ⟨tr, s, ⟨hrun, hev, houts, by decide +kernel, hfreed⟩, lmCalls_refine_list blank tr s hrun⟩

end LinuxDriverLab.ListMsg
