import LinuxDriverLab.MemDemo.Driver

/-!
# What memdemo leaves allocated

`md_init` frees nothing when `misc_register` fails. The areas of such a load stay allocated, and
they are all that does.
-/

namespace LinuxDriverLab.MemDemo

/-- The actions of a step. -/
def actions (r : Record State Event Shown) : List (Action (Nat × Area)) :=
  match r.out with
  | .loaded _ log => log
  | .unloaded log => log
  | _ => []

def log (tr : List (Record State Event Shown)) : List (Action (Nat × Area)) := tr.flatMap actions

/-- The load fails in `misc_register`, all areas being allocated. -/
def Answers.registerFails (a : Answers) : Bool :=
  a.kmalloc.isSome && a.kzalloc.isSome && a.vmalloc.isSome && a.miscRegister.isSome

/-- The number of the load that a step fails so. -/
def failedLoad (r : Record State Event Shown) : Option Nat :=
  match r.event with
  | .load a => if a.registerFails then some r.pre.loads else none
  | _ => none

/-- The loads that failed in `misc_register`. -/
def failedLoads (tr : List (Record State Event Shown)) : List Nat := tr.filterMap failedLoad

theorem log_concat (tr : List (Record State Event Shown)) (r : Record State Event Shown) :
    log (tr ++ [r]) = log tr ++ actions r := by
  simp [log]

theorem failedLoads_concat (tr : List (Record State Event Shown)) (r : Record State Event Shown) :
    failedLoads (tr ++ [r]) = failedLoads tr ++ (failedLoad r).toList := by
  rw [failedLoads, List.filterMap_append, failedLoads]
  congr 1

theorem failedLoads_load (tr : List (Record State Event Shown)) (s : State) (a : Answers) (o : Shown) :
    failedLoads (tr ++ [⟨s, .load a, o⟩]) =
      if a.registerFails then failedLoads tr ++ [s.loads] else failedLoads tr := by
  rw [failedLoads_concat]
  change failedLoads tr ++ (if a.registerFails then some s.loads else none).toList = _
  split <;> simp

theorem failedLoads_unload (tr : List (Record State Event Shown)) (s : State) (o : Shown) :
    failedLoads (tr ++ [⟨s, .unload, o⟩]) = failedLoads tr := by
  rw [failedLoads_concat, failedLoad, Option.toList_none, List.append_nil]

theorem ofLoad_append (n : Nat) (a b : List (Action Area)) :
    ofLoad n (a ++ b) = ofLoad n a ++ ofLoad n b := List.map_append

theorem ofLoad_acquires (n : Nat) (xs : List Area) :
    ofLoad n (xs.map .acquire) = (xs.map (Prod.mk n)).map .acquire := by
  simp only [ofLoad, List.map_map]
  rfl

theorem ofLoad_releases (n : Nat) (xs : List Area) :
    ofLoad n (xs.map .release) = (xs.map (Prod.mk n)).map .release := by
  simp only [ofLoad, List.map_map]
  rfl

theorem allocated_nodup (a : Answers) (n : Nat) : (a.allocated.map (Prod.mk n)).Nodup := by
  refine List.Nodup.map (fun _ _ h => (Prod.mk.inj h).2) ?_
  unfold Answers.allocated
  cases a.kmalloc.isSome <;> cases a.kzalloc.isSome <;> cases a.vmalloc.isSome <;> decide

theorem mdInit_cases (a : Answers) :
    (∃ p, (mdInit a).live = some p ∧ a.registerFails = false ∧
      (mdInit a).log = [Area.small, .zero, .big].map .acquire) ∨
    ((mdInit a).live = none ∧ a.registerFails = true ∧
      (mdInit a).log = [Area.small, .zero, .big].map .acquire) ∨
    ((mdInit a).live = none ∧ a.registerFails = false ∧
      (mdInit a).log = a.allocated.map .acquire ++ a.allocated.map .release) := by
  obtain ⟨k, z, v, phys, m⟩ := a
  cases k <;> cases z <;> cases v <;> cases m <;> simp [mdInit, Answers.registerFails, Answers.allocated]

/-- The ledger after a run: what is held are the areas of the loads that failed in `misc_register`,
and of the one that made the module live. -/
structure Accounts (tr : List (Record State Event Shown)) (s : State)
    (M : Ledger (Nat × Area)) : Prop where
  settles : Ledger.empty.settle (log tr) = some M
  held : ∀ n x, (n, x) ∈ M.held ↔ n ∈ failedLoads tr ∨ ∃ p, s.live = some (n, p)
  past : ∀ n x, (n, x) ∈ M.held ∨ (n, x) ∈ M.released → n < s.loads
  failed : ∀ n ∈ failedLoads tr, n < s.loads
  live : ∀ n p, s.live = some (n, p) → n < s.loads ∧ n ∉ failedLoads tr

theorem Accounts.quiet {tr : List (Record State Event Shown)} {s u : State} {e : Event} {o : Shown}
    {M : Ledger (Nat × Area)} (h : Accounts tr s M) (hact : actions ⟨s, e, o⟩ = [])
    (hfail : failedLoad ⟨s, e, o⟩ = none) (hloads : u.loads = s.loads) (hlive : u.live = s.live) :
    Accounts (tr ++ [⟨s, e, o⟩]) u M := by
  obtain ⟨hsettles, hheld, hpast, hfailed, hl⟩ := h
  refine ⟨?_, ?_, ?_, ?_, ?_⟩
  · rwa [log_concat, hact, List.append_nil]
  · simpa only [failedLoads_concat, hfail, Option.toList_none, List.append_nil, hlive] using hheld
  · rwa [hloads]
  · simpa only [failedLoads_concat, hfail, Option.toList_none, List.append_nil, hloads] using hfailed
  · simpa only [failedLoads_concat, hfail, Option.toList_none, List.append_nil, hloads, hlive] using hl

theorem Accounts.fresh {tr : List (Record State Event Shown)} {s : State} {M : Ledger (Nat × Area)}
    (h : Accounts tr s M) (xs : List Area) :
    ∀ r ∈ xs.map (Prod.mk s.loads), r ∉ M.held ∧ r ∉ M.released := by
  intro r hr
  obtain ⟨x, -, rfl⟩ := List.mem_map.mp hr
  exact ⟨fun hh => Nat.lt_irrefl _ (h.past _ _ (.inl hh)),
    fun hh => Nat.lt_irrefl _ (h.past _ _ (.inr hh))⟩

theorem Accounts.acquires {tr : List (Record State Event Shown)} {s : State} {M : Ledger (Nat × Area)}
    (h : Accounts tr s M) {xs : List Area} (hnd : (xs.map (Prod.mk s.loads)).Nodup) :
    ∃ M', Ledger.empty.settle (log tr ++ ofLoad s.loads (xs.map .acquire)) = some M' ∧
      (∀ n x, (n, x) ∈ M'.held ↔ (n, x) ∈ M.held ∨ n = s.loads ∧ x ∈ xs) ∧
      ∀ n x, (n, x) ∈ M'.held ∨ (n, x) ∈ M'.released → n < s.loads + 1 := by
  obtain ⟨M', hM', hheld, hrel⟩ := Ledger.settle_acquires hnd (h.fresh xs)
  refine ⟨M', ?_, ?_, ?_⟩
  · rw [Ledger.settle_append h.settles, ofLoad_acquires, hM']
  · intro n x
    rw [hheld, List.mem_map]
    constructor
    · rintro (hm | ⟨y, hy, heq⟩)
      · exact .inl hm
      · cases heq
        exact .inr ⟨rfl, hy⟩
    · rintro (hm | ⟨rfl, hx⟩)
      · exact .inl hm
      · exact .inr ⟨x, hx, rfl⟩
  · intro n x hknown
    rw [hrel, hheld] at hknown
    rcases hknown with (hm | hm) | hm
    · exact Nat.lt_succ_of_lt (h.past n x (.inl hm))
    · obtain ⟨y, -, heq⟩ := List.mem_map.mp hm
      cases heq
      exact Nat.lt_succ_self _
    · exact Nat.lt_succ_of_lt (h.past n x (.inr hm))

theorem mem_areas (x : Area) : x ∈ [Area.small, .zero, .big] := by
  cases x <;> decide

theorem areas_nodup (n : Nat) : ([Area.small, .zero, .big].map (Prod.mk n)).Nodup :=
  List.Nodup.map (fun _ _ h => (Prod.mk.inj h).2) (by decide)

theorem accounts_load {tr : List (Record State Event Shown)} {s : State} {M : Ledger (Nat × Area)}
    (h : Accounts tr s M) (a : Answers) (hnone : s.live = none) :
    ∃ M', Accounts (tr ++ [⟨s, .load a, .loaded (mdInit a).ret (ofLoad s.loads (mdInit a).log)⟩])
      { s with loads := s.loads + 1, live := (mdInit a).live.map fun p => (s.loads, p) } M' := by
  have hnotFailed : s.loads ∉ failedLoads tr := fun hm => Nat.lt_irrefl _ (h.failed _ hm)
  have hheldBefore : ∀ n x, (n, x) ∈ M.held ↔ n ∈ failedLoads tr := by
    intro n x
    rw [h.held, hnone]
    simp
  rcases mdInit_cases a with ⟨p, hlive, hreg, hlog⟩ | ⟨hlive, hreg, hlog⟩ | ⟨hlive, hreg, hlog⟩
  · -- the module is loaded, its areas are held
    obtain ⟨M', hM', hheld, hknown⟩ := h.acquires (areas_nodup s.loads)
    refine ⟨M', ?_, ?_, hknown, ?_, ?_⟩
    · rwa [log_concat, actions, hlog]
    · intro n x
      rw [failedLoads_load, if_neg (by simp [hreg]), hheld, hheldBefore, hlive]
      simp only [mem_areas, and_true]
      simp [eq_comm]
    · rw [failedLoads_load, if_neg (by simp [hreg])]
      exact fun n hn => Nat.lt_succ_of_lt (h.failed n hn)
    · intro n q hq
      rw [failedLoads_load, if_neg (by simp [hreg])]
      rw [hlive] at hq
      cases hq
      exact ⟨Nat.lt_succ_self _, hnotFailed⟩
  · -- `misc_register` fails, the areas are held all the same
    obtain ⟨M', hM', hheld, hknown⟩ := h.acquires (areas_nodup s.loads)
    refine ⟨M', ?_, ?_, hknown, ?_, by simp [hlive]⟩
    · rwa [log_concat, actions, hlog]
    · intro n x
      rw [failedLoads_load, if_pos hreg, hheld, hheldBefore, hlive]
      simp only [mem_areas, and_true]
      simp
    · rw [failedLoads_load, if_pos hreg]
      intro n hn
      rcases List.mem_append.mp hn with hn | hn
      · exact Nat.lt_succ_of_lt (h.failed n hn)
      · rw [List.mem_singleton.mp hn]
        exact Nat.lt_succ_self _
  · -- an allocation fails, what was allocated is freed
    obtain ⟨M₁, hM₁, hheld₁, hknown₁⟩ := h.acquires (allocated_nodup a s.loads)
    obtain ⟨M', hM', hheld⟩ := Ledger.settle_releases (L := M₁) (allocated_nodup a s.loads) (by
      intro r hr
      obtain ⟨x, hx, rfl⟩ := List.mem_map.mp hr
      exact (hheld₁ _ _).mpr (.inr ⟨rfl, hx⟩))
    rw [← ofLoad_releases] at hM'
    refine ⟨M', ?_, ?_, ?_, ?_, by simp [hlive]⟩
    · rw [log_concat, actions, hlog, ofLoad_append, ← List.append_assoc,
        Ledger.settle_append hM₁, hM']
    · intro n x
      rw [failedLoads_load, if_neg (by simp [hreg]), hheld, hheld₁, hheldBefore, List.mem_map, hlive]
      constructor
      · rintro ⟨hm | ⟨rfl, hx⟩, hnot⟩
        · exact .inl hm
        · exact absurd ⟨x, hx, rfl⟩ hnot
      · rintro (hm | ⟨_, hp⟩)
        · refine ⟨.inl hm, ?_⟩
          rintro ⟨y, -, heq⟩
          cases heq
          exact hnotFailed hm
        · cases hp
    · intro n x hm
      rw [Ledger.settle_known hM'] at hm
      rcases hm with hm | hm
      · exact hknown₁ n x hm
      · simp [ofLoad_releases] at hm
    · rw [failedLoads_load, if_neg (by simp [hreg])]
      exact fun n hn => Nat.lt_succ_of_lt (h.failed n hn)

theorem accounts_unload {tr : List (Record State Event Shown)} {s : State} {M : Ledger (Nat × Area)}
    (h : Accounts tr s M) {n : Nat} {p : Pointers} (hlive : s.live = some (n, p)) :
    ∃ M', Accounts (tr ++ [⟨s, .unload, .unloaded (ofLoad n mdExit)⟩]) { s with live := none } M' := by
  obtain ⟨hn, hnot⟩ := h.live n p hlive
  have hexit : ofLoad n mdExit = ([Area.small, .zero, .big].map (Prod.mk n)).map .release :=
    ofLoad_releases n [.small, .zero, .big]
  obtain ⟨M', hM', hheld⟩ := Ledger.settle_releases (L := M) (areas_nodup n) (by
    intro r hr
    obtain ⟨x, -, rfl⟩ := List.mem_map.mp hr
    exact (h.held n x).mpr (.inr ⟨p, hlive⟩))
  rw [← hexit] at hM'
  refine ⟨M', ?_, ?_, ?_, by rw [failedLoads_unload]; exact h.failed, by simp⟩
  · rw [log_concat, actions, Ledger.settle_append h.settles, hM']
  · intro m x
    rw [failedLoads_unload, hheld, h.held, List.mem_map, hlive]
    constructor
    · rintro ⟨hm | ⟨q, hq⟩, hnot'⟩
      · exact .inl hm
      · cases hq
        exact absurd ⟨x, mem_areas x, rfl⟩ hnot'
    · rintro (hm | ⟨_, hq⟩)
      · refine ⟨.inl hm, ?_⟩
        rintro ⟨y, -, heq⟩
        cases heq
        exact hnot hm
      · cases hq
  · intro m x hm
    rw [Ledger.settle_known hM'] at hm
    rcases hm with hm | hm
    · exact h.past m x hm
    · simp [hexit] at hm

theorem accounts_run {pos : File → Nat} {tr : List (Record State Event Shown)} {s : State}
    (h : Run step (State.init pos) tr s) : ∃ M, Accounts tr s M := by
  refine h.history (I := fun tr s => ∃ M, Accounts tr s M) ?_ ?_
  · exact ⟨.empty, rfl, by simp [Ledger.empty, failedLoads, State.init],
      by simp [Ledger.empty], by simp [failedLoads], by simp [State.init]⟩
  · rintro tr t e u o - ⟨M, hM⟩ hs
    cases step_move hs with
    | load hnone => exact accounts_load hM _ hnone
    | unload hlive _ => exact accounts_unload hM hlive
    | openFile _ _ => exact ⟨M, hM.quiet rfl rfl rfl rfl⟩
    | read _ _ => exact ⟨M, hM.quiet rfl rfl rfl rfl⟩
    | release _ => exact ⟨M, hM.quiet rfl rfl rfl rfl⟩

/-- Over any loads and unloads: every area is freed at most once and only after it was allocated,
and what is allocated at the end are the three areas of the loaded module and of each load that
failed in `misc_register`. An unloaded module leaves nothing exactly if there was no such load. -/
theorem mdInit_leaks_iff (pos : File → Nat) (tr : List (Record State Event Shown)) (s : State)
    (h : Run step (State.init pos) tr s) :
    ∃ M, Ledger.empty.settle (log tr) = some M ∧
      (∀ n x, (n, x) ∈ M.held ↔ n ∈ failedLoads tr ∨ ∃ p, s.live = some (n, p)) ∧
      (s.live = none → (M.held = ∅ ↔ failedLoads tr = [])) := by
  obtain ⟨M, hM⟩ := accounts_run h
  refine ⟨M, hM.settles, hM.held, ?_⟩
  intro hnone
  constructor
  · intro hempty
    refine List.eq_nil_iff_forall_not_mem.mpr fun n hn => ?_
    have hheld := (hM.held n .small).mpr (.inl hn)
    rw [hempty] at hheld
    simp at hheld
  · intro hnil
    refine Finset.eq_empty_iff_forall_notMem.mpr ?_
    rintro ⟨n, x⟩ hx
    rw [hM.held, hnil, hnone] at hx
    simp at hx

/-- Three allocations that succeed. -/
def allocatesAll (m : Option Errno) : Answers := ⟨some 4096, some 8192, some 65536, 4096, m⟩

/-- Loads that fail in `misc_register`, are undone, and succeed. -/
def threeLoads : List Event :=
  [.load (allocatesAll (some .enomem)), .load ⟨some 4096, none, some 65536, 4096, none⟩,
    .load (allocatesAll none), .unload]

theorem mdInit_leaks_iff_threeLoads : ∃ tr s,
    (Run step (State.init fun _ => 0) tr s ∧ tr.map Record.event = threeLoads ∧
      failedLoads tr = [0] ∧ s.live = none) ∧
    ∃ M, Ledger.empty.settle (log tr) = some M ∧
      (∀ n x, (n, x) ∈ M.held ↔ n ∈ failedLoads tr ∨ ∃ p, s.live = some (n, p)) ∧
      (s.live = none → (M.held = ∅ ↔ failedLoads tr = [])) := by
  obtain ⟨tr, s, hrun, hev, hq⟩ := exists_exec step (State.init fun _ => 0) threeLoads
    (fun x => failedLoads x.1 = [0] && x.2.live.isNone) (by decide)
  simp only [Bool.and_eq_true, decide_eq_true_eq, Option.isNone_iff_eq_none] at hq
  exact ⟨tr, s, ⟨hrun, hev, hq⟩, mdInit_leaks_iff (fun _ => 0) tr s hrun⟩

end LinuxDriverLab.MemDemo
