import Mathlib.Data.Finset.Card
import LinuxDriverLab.Framework.Ledger
import LinuxDriverLab.TwoDev.Driver

/-!
# Loading and unloading twodev

`td_init` acquires a device-number region, a class, and a cdev and a device node for each instance,
and undoes what it did when a step fails. The number of instances is a parameter.
-/

namespace LinuxDriverLab.TwoDev

inductive Resource
  | region
  | cls
  | cdev (i : Nat)
  | node (i : Nat)
deriving DecidableEq

/-- What the kernel answers to each call, `none` being success. `device_create` refuses a class that
is an error pointer. -/
structure Kernel where
  allocChrdevRegion : Option Errno
  classCreate : Option Errno
  cdevAdd : Nat → Option Errno
  deviceCreate : Option Errno → Nat → Option Errno
  deviceCreate_error : ∀ e i, deviceCreate (some e) i ≠ none

/-- `-PTR_ERR(p)` as an `int` -/
def negPtrErr (p : Nat) : Int := int32 (int64 (-int64 p))

/-- What the loop of `td_init` did, and where and with which `ret` it jumped to `err_undo`. -/
structure LoopResult where
  devs : Nat → Twodev
  log : List (Action Resource)
  failed : Option (Nat × Int)

/-- The next `m` turns of the loop, from index `i`. The region holds no more than `2 ^ 20` numbers,
so that `i` stays an `int`. -/
def tdInitLoop (k : Kernel) (addr : Nat → Nat) (devs : Nat → Twodev) : Nat → Nat → LoopResult
  | 0, _ => ⟨devs, [], none⟩
  | m + 1, i =>
    let devs' := Function.update devs i Twodev.init
    match k.cdevAdd i with
    | some e => ⟨devs', [], some (i, e.ret)⟩
    | none =>
      match k.deviceCreate k.classCreate i with
      | some _ =>
        ⟨devs', [.acquire (.cdev i), .release (.cdev i)], some (i, negPtrErr (addr i))⟩
      | none =>
        let rest := tdInitLoop k addr devs' m (i + 1)
        { rest with log := .acquire (.cdev i) :: .acquire (.node i) :: rest.log }

/-- `while (--i >= 0)` at `err_undo` -/
def errUndo : Nat → List (Action Resource)
  | 0 => []
  | i + 1 => .release (.node i) :: .release (.cdev i) :: errUndo i

def classCreate (k : Kernel) : List (Action Resource) :=
  match k.classCreate with
  | none => [.acquire .cls]
  | some _ => []

/-- `class_destroy` does nothing to an error pointer. -/
def classDestroy (k : Kernel) : List (Action Resource) :=
  match k.classCreate with
  | none => [.release .cls]
  | some _ => []

structure InitResult where
  ret : Int
  devs : Nat → Twodev
  log : List (Action Resource)

/-- `td_init` with `n` instances, `addr i` being the address of `devs[i]` -/
def tdInit (k : Kernel) (addr : Nat → Nat) (devs : Nat → Twodev) (n : Nat) : InitResult :=
  match k.allocChrdevRegion with
  | some e => ⟨e.ret, devs, []⟩
  | none =>
    let loop := tdInitLoop k addr devs n 0
    let acquired := .acquire .region :: classCreate k ++ loop.log
    match loop.failed with
    | none => ⟨0, loop.devs, acquired⟩
    | some (i, ret) =>
      ⟨ret, loop.devs, acquired ++ (errUndo i ++ classDestroy k ++ [.release .region])⟩

def tdExitLoop : Nat → Nat → List (Action Resource)
  | 0, _ => []
  | m + 1, i => .release (.node i) :: .release (.cdev i) :: tdExitLoop m (i + 1)

def tdExit (k : Kernel) (n : Nat) : List (Action Resource) :=
  tdExitLoop n 0 ++ classDestroy k ++ [.release .region]

/-- The cdevs and nodes of `m` instances from `i` on, in the order the loop acquires them. -/
def instances : Nat → Nat → List Resource
  | 0, _ => []
  | m + 1, i => .cdev i :: .node i :: instances m (i + 1)

theorem mem_instances {m i : Nat} {r : Resource} :
    r ∈ instances m i ↔ ∃ j, i ≤ j ∧ j < i + m ∧ (r = .cdev j ∨ r = .node j) := by
  induction m generalizing i with
  | zero =>
    simp only [instances, List.not_mem_nil, false_iff, not_exists]
    omega
  | succ m ih =>
    simp only [instances, List.mem_cons, ih]
    constructor
    · rintro (h | h | ⟨j, hlo, hhi, h⟩)
      · exact ⟨i, by omega, by omega, .inl h⟩
      · exact ⟨i, by omega, by omega, .inr h⟩
      · exact ⟨j, by omega, by omega, h⟩
    · rintro ⟨j, hlo, hhi, h⟩
      by_cases hj : j = i
      · subst hj
        tauto
      · exact .inr (.inr ⟨j, by omega, by omega, h⟩)

theorem instances_nodup (m i : Nat) : (instances m i).Nodup := by
  induction m generalizing i with
  | zero => exact List.nodup_nil
  | succ m ih =>
    simp only [instances, List.nodup_cons, List.mem_cons, mem_instances, not_or, not_exists]
    refine ⟨⟨nofun, ?_⟩, ?_, ih _⟩
    · rintro j ⟨hlo, -, h | h⟩
      · injection h
        omega
      · cases h
    · rintro j ⟨hlo, -, h | h⟩
      · cases h
      · injection h
        omega

@[simp] theorem instances_length (m i : Nat) : (instances m i).length = 2 * m := by
  induction m generalizing i with
  | zero => rfl
  | succ m ih =>
    simp only [instances, List.length_cons, ih]
    omega

theorem instances_concat (m i : Nat) :
    instances (m + 1) i = instances m i ++ [.cdev (i + m), .node (i + m)] := by
  induction m generalizing i with
  | zero => rfl
  | succ m ih =>
    rw [instances, ih]
    simp only [instances, List.cons_append, show i + 1 + m = i + (m + 1) by omega]

theorem errUndo_eq (i : Nat) : errUndo i = (instances i 0).reverse.map .release := by
  induction i with
  | zero => rfl
  | succ i ih =>
    rw [instances_concat]
    simp [errUndo, ih]

theorem tdExitLoop_perm (m i : Nat) :
    ∃ bs : List Resource, tdExitLoop m i = bs.map .release ∧ bs.Perm (instances m i) := by
  induction m generalizing i with
  | zero => exact ⟨[], rfl, .refl _⟩
  | succ m ih =>
    obtain ⟨bs, hbs, hperm⟩ := ih (i + 1)
    refine ⟨.node i :: .cdev i :: bs, by simp [tdExitLoop, hbs], ?_⟩
    exact (List.Perm.swap _ _ _).trans ((hperm.cons _).cons _)

/-- Both calls that the loop makes for an instance succeed. -/
def Kernel.Passes (k : Kernel) (i : Nat) : Prop :=
  k.cdevAdd i = none ∧ k.deviceCreate k.classCreate i = none

/-- How the loop ends: past the last instance, at a `cdev_add` or at a `device_create`. -/
inductive LoopEnd (k : Kernel) (addr : Nat → Nat) (m i : Nat) :
    List (Action Resource) → Option (Nat × Int) → Prop
  | done (hpass : ∀ j, i ≤ j → j < i + m → k.Passes j) :
      LoopEnd k addr m i ((instances m i).map .acquire) none
  | cdevAdd {d : Nat} {e : Errno} (hd : d < m) (hpass : ∀ j, i ≤ j → j < i + d → k.Passes j)
      (hcdev : k.cdevAdd (i + d) = some e) :
      LoopEnd k addr m i ((instances d i).map .acquire) (some (i + d, e.ret))
  | deviceCreate {d : Nat} (hd : d < m) (hpass : ∀ j, i ≤ j → j < i + d → k.Passes j)
      (hcdev : k.cdevAdd (i + d) = none) (hnode : k.deviceCreate k.classCreate (i + d) ≠ none) :
      LoopEnd k addr m i
        ((instances d i).map .acquire ++ [.acquire (.cdev (i + d)), .release (.cdev (i + d))])
        (some (i + d, negPtrErr (addr (i + d))))

theorem tdInitLoop_end (k : Kernel) (addr : Nat → Nat) (devs : Nat → Twodev) (m i : Nat) :
    LoopEnd k addr m i (tdInitLoop k addr devs m i).log (tdInitLoop k addr devs m i).failed := by
  induction m generalizing i devs with
  | zero => exact .done fun j hlo hhi => by omega
  | succ m ih =>
    simp only [tdInitLoop]
    split
    · next e he =>
      exact .cdevAdd (d := 0) (by omega) (fun j hlo hhi => by omega) he
    · next hcdev =>
      split
      · next e he =>
        exact .deviceCreate (d := 0) (by omega) (fun j hlo hhi => by omega) hcdev (by simp [he])
      · next hnode =>
        -- the turn at `i` passes, and the end of the later turns is that of the loop
        have hpasses : ∀ d, (∀ j, i + 1 ≤ j → j < i + 1 + d → k.Passes j) →
            ∀ j, i ≤ j → j < i + (d + 1) → k.Passes j := by
          intro d h j hlo hhi
          by_cases hj : j = i
          · subst hj
            exact ⟨hcdev, hnode⟩
          · exact h j (by omega) (by omega)
        have hend := ih (Function.update devs i Twodev.init) (i + 1)
        generalize (tdInitLoop k addr (Function.update devs i Twodev.init) m (i + 1)) = rest at hend
        obtain ⟨rdevs, rlog, rfailed⟩ := rest
        have hidx : ∀ d, i + 1 + d = i + (d + 1) := fun d => by omega
        cases hend with
        | done hpass => exact .done (hpasses m hpass)
        | @cdevAdd d e hd hpass he =>
          rw [hidx] at he ⊢
          exact .cdevAdd (by omega) (hpasses d hpass) he
        | @deviceCreate d hd hpass hc hn =>
          rw [hidx] at hc hn ⊢
          exact .deviceCreate (by omega) (hpasses d hpass) hc hn

/-- No step of `td_init` fails. -/
def Kernel.NoFailure (k : Kernel) (n : Nat) : Prop :=
  k.allocChrdevRegion = none ∧ k.classCreate = none ∧ ∀ i, i < n → k.Passes i

/-- `td_init` reaches the assignment to `ret` after the `device_create` of instance `i` failed. -/
def Kernel.FailsAtNode (k : Kernel) (n i : Nat) : Prop :=
  i < n ∧ k.allocChrdevRegion = none ∧ (∀ j, j < i → k.Passes j) ∧ k.cdevAdd i = none ∧
    k.deviceCreate k.classCreate i ≠ none

/-- The value is an error number. -/
def IsErrno (ret : Int) : Prop := -4095 ≤ ret ∧ ret ≤ -1

/-- What a failed `td_init` owes: an error number, and each resource it acquired, and no other,
released once. -/
def CleanFailure (res : InitResult) : Prop :=
  IsErrno res.ret ∧
    (∃ L, Ledger.empty.settle res.log = some L ∧ L.held = ∅) ∧
    ∀ r, res.log.count (.release r) = res.log.count (.acquire r) ∧ res.log.count (.acquire r) ≤ 1

/-- What a successful `td_init` and the `td_exit` after it owe. -/
def CleanLoad (res : InitResult) (exitLog : List (Action Resource)) (n : Nat) : Prop :=
  res.ret = 0 ∧ (∀ i, i < n → res.devs i = Twodev.init) ∧
    ∃ L, Ledger.empty.settle res.log = some L ∧ L.held.card = 2 * n + 2 ∧
      (∀ r, r ∈ L.held ↔ r = .region ∨ r = .cls ∨ ∃ i, i < n ∧ (r = .cdev i ∨ r = .node i)) ∧
      (∃ M, L.settle exitLog = some M ∧ M.held = ∅) ∧
      ∀ r, exitLog.count (.release r) = if r ∈ L.held then 1 else 0

def Kernel.clsHeld (k : Kernel) : List Resource :=
  match k.classCreate with
  | none => [.cls]
  | some _ => []

theorem classCreate_eq (k : Kernel) : classCreate k = k.clsHeld.map .acquire := by
  unfold classCreate Kernel.clsHeld
  split <;> rfl

theorem classDestroy_eq (k : Kernel) : classDestroy k = k.clsHeld.map .release := by
  unfold classDestroy Kernel.clsHeld
  split <;> rfl

/-- What `td_init` holds after `d` turns of its loop, oldest first. -/
def Kernel.acquired (k : Kernel) (d : Nat) : List Resource :=
  .region :: (k.clsHeld ++ instances d 0)

@[simp] theorem clsHeld_reverse (k : Kernel) : k.clsHeld.reverse = k.clsHeld := by
  unfold Kernel.clsHeld
  split <;> rfl

theorem mem_clsHeld {k : Kernel} {r : Resource} (h : r ∈ k.clsHeld) : r = .cls := by
  unfold Kernel.clsHeld at h
  split at h <;> simp at h
  exact h

theorem acquired_nodup (k : Kernel) (d : Nat) : (k.acquired d).Nodup := by
  have hcls : k.clsHeld.Nodup := by
    unfold Kernel.clsHeld
    split <;> simp
  refine List.nodup_cons.mpr ⟨?_, List.nodup_append.mpr ⟨hcls, instances_nodup d 0, ?_⟩⟩
  · intro h
    rcases List.mem_append.mp h with h | h
    · cases mem_clsHeld h
    · obtain ⟨j, -, -, h | h⟩ := mem_instances.mp h <;> cases h
  · intro a ha b hb heq
    subst heq
    obtain rfl := mem_clsHeld ha
    obtain ⟨j, -, -, h | h⟩ := mem_instances.mp hb <;> cases h

theorem cdev_notMem_acquired (k : Kernel) (d : Nat) : Resource.cdev d ∉ k.acquired d := by
  intro h
  rcases List.mem_cons.mp h with h | h
  · cases h
  · rcases List.mem_append.mp h with h | h
    · cases mem_clsHeld h
    · obtain ⟨j, -, hlt, h | h⟩ := mem_instances.mp h
      · injection h
        omega
      · cases h

/-- How `td_init` ends. After a failure it has released, in the opposite order, what it had
acquired. -/
inductive InitEnd (k : Kernel) (addr : Nat → Nat) (n : Nat) : Int → List (Action Resource) → Prop
  | region {e : Errno} (h : k.allocChrdevRegion = some e) : InitEnd k addr n e.ret []
  | loaded (halloc : k.allocChrdevRegion = none) (hpass : ∀ j, j < n → k.Passes j) :
      InitEnd k addr n 0 ((k.acquired n).map .acquire)
  | cdevAdd {d : Nat} {e : Errno} (hd : d < n) (hpass : ∀ j, j < d → k.Passes j)
      (hcdev : k.cdevAdd d = some e) :
      InitEnd k addr n e.ret
        ((k.acquired d).map .acquire ++ (k.acquired d).reverse.map .release)
  | deviceCreate {d : Nat} (h : k.FailsAtNode n d) :
      InitEnd k addr n (negPtrErr (addr d))
        ((k.acquired d ++ [Resource.cdev d]).map .acquire ++
          (k.acquired d ++ [Resource.cdev d]).reverse.map .release)

theorem tdInit_end (k : Kernel) (addr : Nat → Nat) (devs : Nat → Twodev) (n : Nat) :
    InitEnd k addr n (tdInit k addr devs n).ret (tdInit k addr devs n).log := by
  unfold tdInit
  split
  · next e he => exact .region he
  · next halloc =>
    have hend := tdInitLoop_end k addr devs n 0
    generalize tdInitLoop k addr devs n 0 = loop at hend
    obtain ⟨ldevs, llog, lfailed⟩ := loop
    cases hend with
    | done hpass =>
      have := @InitEnd.loaded k addr n halloc fun j hj => hpass j (by omega) (by omega)
      simpa [classCreate_eq, Kernel.acquired] using this
    | cdevAdd hd hpass hcdev =>
      rw [Nat.zero_add] at hcdev
      have := @InitEnd.cdevAdd k addr n _ _ hd
        (fun j hj => hpass j (by omega) (by omega)) hcdev
      simpa [classCreate_eq, classDestroy_eq, errUndo_eq, Kernel.acquired, -List.map_reverse]
        using this
    | deviceCreate hd hpass hcdev hnode =>
      rw [Nat.zero_add] at hcdev hnode
      have := @InitEnd.deviceCreate k addr n _
        (⟨hd, halloc, fun j hj => hpass j (by omega) (by omega), hcdev, hnode⟩ : k.FailsAtNode n _)
      simpa [classCreate_eq, classDestroy_eq, errUndo_eq, Kernel.acquired, -List.map_reverse]
        using this

theorem reverse_settles {rs : List Resource} (hnd : rs.Nodup) :
    ∃ L, Ledger.empty.settle (rs.map .acquire ++ rs.reverse.map .release) = some L ∧ L.held = ∅ :=
  Ledger.settle_acquires_releases hnd rs.reverse_perm

/-- Whichever step fails, what was acquired is released; only the value returned can go wrong. -/
theorem tdInit_failure {k : Kernel} (addr : Nat → Nat) (devs : Nat → Twodev) {n : Nat}
    (hn : 1 ≤ n) (hfail : ¬ k.NoFailure n) :
    (∃ L, Ledger.empty.settle (tdInit k addr devs n).log = some L ∧ L.held = ∅) ∧
      (IsErrno (tdInit k addr devs n).ret ∨
        ∃ i, k.FailsAtNode n i ∧ (tdInit k addr devs n).ret = negPtrErr (addr i)) := by
  have hend := tdInit_end k addr devs n
  generalize (tdInit k addr devs n).ret = ret, (tdInit k addr devs n).log = log at hend ⊢
  cases hend with
  | region => exact ⟨⟨_, rfl, rfl⟩, .inl (Errno.ret_range _)⟩
  | loaded halloc hpass =>
    refine absurd ⟨halloc, ?_, hpass⟩ hfail
    -- the first `device_create` would have refused an error pointer
    cases hcls : k.classCreate with
    | none => rfl
    | some e =>
      have hnode := (hpass 0 hn).2
      rw [hcls] at hnode
      exact absurd hnode (k.deviceCreate_error e 0)
  | cdevAdd => exact ⟨reverse_settles (acquired_nodup k _), .inl (Errno.ret_range _)⟩
  | @deviceCreate d h =>
    have hnd : (k.acquired d ++ [Resource.cdev d]).Nodup := by
      refine List.nodup_append.mpr ⟨acquired_nodup k d, List.nodup_singleton _, ?_⟩
      intro a ha b hb heq
      subst heq
      rw [List.mem_singleton.mp hb] at ha
      exact cdev_notMem_acquired k d ha
    exact ⟨reverse_settles hnd, .inr ⟨d, h, rfl⟩⟩

theorem negPtrErr_eq (p : Nat) : negPtrErr p = int32 (-p) := by
  unfold negPtrErr int32 int64
  rw [Int.bmod_neg_bmod, Int.bmod_bmod_of_dvd (by decide)]

/-- The value returned depends on the low half of the address only. -/
theorem negPtrErr_isErrno_iff (p : Nat) :
    IsErrno (negPtrErr p) ↔ 1 ≤ p % 2 ^ 32 ∧ p % 2 ^ 32 ≤ 4095 := by
  rw [negPtrErr_eq]
  unfold IsErrno int32
  rw [Int.bmod_def]
  omega

theorem tdInitLoop_devs_before (k : Kernel) (addr : Nat → Nat) (devs : Nat → Twodev) (m : Nat)
    {i j : Nat} (hj : j < i) : (tdInitLoop k addr devs m i).devs j = devs j := by
  have hupd : Function.update devs i Twodev.init j = devs j :=
    Function.update_of_ne (Nat.ne_of_lt hj) _ _
  induction m generalizing i devs with
  | zero => rfl
  | succ m ih =>
    simp only [tdInitLoop]
    split
    · exact hupd
    · split
      · exact hupd
      · have hj' : j < i + 1 := by omega
        exact (ih _ hj' (Function.update_of_ne (Nat.ne_of_lt hj') _ _)).trans hupd

theorem tdInitLoop_devs {k : Kernel} {addr : Nat → Nat} {devs : Nat → Twodev} {m i j : Nat}
    (hpass : ∀ j, i ≤ j → j < i + m → k.Passes j) (hlo : i ≤ j) (hhi : j < i + m) :
    (tdInitLoop k addr devs m i).devs j = Twodev.init := by
  induction m generalizing i devs with
  | zero => omega
  | succ m ih =>
    obtain ⟨hcdev, hnode⟩ := hpass i (by omega) (by omega)
    simp only [tdInitLoop, hcdev, hnode]
    by_cases hj : j = i
    · subst hj
      rw [tdInitLoop_devs_before _ _ _ _ (by omega), Function.update_self]
    · exact ih (fun j h1 h2 => hpass j (by omega) (by omega)) (by omega) (by omega)

theorem tdInit_devs {k : Kernel} (addr : Nat → Nat) (devs : Nat → Twodev) (n : Nat)
    (h : k.allocChrdevRegion = none) :
    (tdInit k addr devs n).devs = (tdInitLoop k addr devs n 0).devs := by
  unfold tdInit
  simp only [h]
  split <;> rfl

theorem tdExit_perm (k : Kernel) (n : Nat) :
    ∃ bs : List Resource, tdExit k n = bs.map .release ∧ bs.Perm (k.acquired n) := by
  obtain ⟨bs, hbs, hperm⟩ := tdExitLoop_perm n 0
  refine ⟨bs ++ k.clsHeld ++ [.region], by simp [tdExit, hbs, classDestroy_eq], ?_⟩
  refine (List.perm_append_singleton _ _).trans (List.Perm.cons _ ?_)
  exact List.perm_append_comm.trans (hperm.append_left _)

theorem noFailure_log {k : Kernel} (addr : Nat → Nat) (devs : Nat → Twodev) {n : Nat}
    (h : k.NoFailure n) :
    (tdInit k addr devs n).ret = 0 ∧ (tdInit k addr devs n).log = (k.acquired n).map .acquire := by
  obtain ⟨halloc, hcls, hpass⟩ := h
  have hend := tdInit_end k addr devs n
  generalize (tdInit k addr devs n).ret = ret, (tdInit k addr devs n).log = log at hend ⊢
  cases hend with
  | region h => simp [halloc] at h
  | loaded => exact ⟨rfl, rfl⟩
  | cdevAdd hd _ hcdev => simp [(hpass _ hd).1] at hcdev
  | deviceCreate h => exact absurd (hpass _ h.1).2 h.2.2.2.2

theorem tdInit_load {k : Kernel} {addr : Nat → Nat} {devs : Nat → Twodev} {n : Nat}
    (h : k.NoFailure n) : CleanLoad (tdInit k addr devs n) (tdExit k n) n := by
  obtain ⟨hret, hlog⟩ := noFailure_log addr devs h
  obtain ⟨halloc, hcls, hpass⟩ := h
  obtain ⟨L, hL, hheld, -⟩ := Ledger.settle_acquires (L := Ledger.empty) (acquired_nodup k n)
    (by simp [Ledger.empty])
  have hmem : ∀ r, r ∈ L.held ↔ r ∈ k.acquired n := by
    intro r
    rw [hheld]
    simp [Ledger.empty]
  have hlen : (k.acquired n).length = 2 * n + 2 := by
    simp only [Kernel.acquired, Kernel.clsHeld, hcls, List.length_cons, List.length_append,
      instances_length, List.length_nil]
    omega
  have hcard : L.held.card = 2 * n + 2 := by
    rw [← hlen, ← List.toFinset_card_of_nodup (acquired_nodup k n)]
    congr 1
    ext r
    rw [hmem, List.mem_toFinset]
  obtain ⟨bs, hbs, hperm⟩ := tdExit_perm k n
  have hnd : bs.Nodup := hperm.nodup_iff.mpr (acquired_nodup k n)
  obtain ⟨M, hM, hrest⟩ := Ledger.settle_releases hnd
    (fun r hr => (hmem r).mpr (hperm.mem_iff.mp hr))
  refine ⟨hret, fun i hi => ?_, L, by rw [hlog, hL], hcard, fun r => ?_, ⟨M, ?_, ?_⟩, fun r => ?_⟩
  · rw [tdInit_devs addr devs n halloc]
    exact tdInitLoop_devs (fun j _ hj => hpass j (by omega)) (by omega) (by omega)
  · rw [hmem]
    simp [Kernel.acquired, Kernel.clsHeld, hcls, mem_instances]
  · rw [hbs, hM]
  · ext r
    simp [hrest, hmem, hperm.mem_iff]
  · rw [hbs, List.count_map_of_injective _ _ (fun a b hab => by injection hab)]
    by_cases hr : r ∈ L.held
    · have hr' : r ∈ bs := hperm.mem_iff.mpr ((hmem r).mp hr)
      rw [if_pos hr, List.count_eq_one_of_mem hnd hr']
    · have hr' : r ∉ bs := fun hin => hr ((hmem r).mpr (hperm.mem_iff.mp hin))
      rw [if_neg hr, List.count_eq_zero_of_not_mem hr']

theorem failsAtNode_failure {k : Kernel} {n i : Nat} (h : k.FailsAtNode n i) : ¬ k.NoFailure n :=
  fun hno => h.2.2.2.2 (hno.2.2 i h.1).2

theorem failsAtNode_ret {k : Kernel} (addr : Nat → Nat) (devs : Nat → Twodev) {n i : Nat}
    (h : k.FailsAtNode n i) : (tdInit k addr devs n).ret = negPtrErr (addr i) := by
  obtain ⟨hi, halloc, hpass, hcdev, hnode⟩ := h
  have hend := tdInit_end k addr devs n
  generalize (tdInit k addr devs n).ret = ret, (tdInit k addr devs n).log = log at hend ⊢
  cases hend with
  | region h => simp [halloc] at h
  | loaded _ hall => exact absurd (hall i hi).2 hnode
  | @cdevAdd d e _ hbefore he =>
    rcases Nat.lt_trichotomy d i with hlt | rfl | hgt
    · simp [(hpass d hlt).1] at he
    · simp [hcdev] at he
    · exact absurd (hbefore i hgt).2 hnode
  | @deviceCreate d h =>
    rcases Nat.lt_trichotomy d i with hlt | rfl | hgt
    · exact absurd (hpass d hlt).2 h.2.2.2.2
    · rfl
    · exact absurd (h.2.2.1 i hgt).2 hnode

/-- For every number of instances and every failure, `td_init` and `td_exit` do as they should
exactly when the low half of the address of an instance whose `device_create` fails happens to be
an error number. -/
theorem tdInit_clean_iff (k : Kernel) (addr : Nat → Nat) (devs : Nat → Twodev) (n : Nat)
    (hn : 1 ≤ n) :
    (k.NoFailure n → CleanLoad (tdInit k addr devs n) (tdExit k n) n) ∧
        (¬ k.NoFailure n → CleanFailure (tdInit k addr devs n)) ↔
      ∀ i, k.FailsAtNode n i → 1 ≤ addr i % 2 ^ 32 ∧ addr i % 2 ^ 32 ≤ 4095 := by
  constructor
  · rintro ⟨-, hfail⟩ i hi
    rw [← negPtrErr_isErrno_iff, ← failsAtNode_ret addr devs hi]
    exact (hfail (failsAtNode_failure hi)).1
  · intro haddr
    refine ⟨tdInit_load, fun hfail => ?_⟩
    obtain ⟨⟨L, hL, hheld⟩, hret⟩ := tdInit_failure addr devs hn hfail
    refine ⟨?_, ⟨L, hL, hheld⟩, Ledger.settle_once hL hheld⟩
    rcases hret with hret | ⟨i, hi, hret⟩
    · exact hret
    · rw [hret]
      exact (negPtrErr_isErrno_iff _).mpr (haddr i hi)

/-- A kernel in which only `device_create` can fail, for instance 1 and for a class that is an error
pointer. -/
def nodeRefused : Kernel where
  allocChrdevRegion := none
  classCreate := none
  cdevAdd := fun _ => none
  deviceCreate := fun cls i => if cls ≠ none then some .enodev else if i = 1 then some .enomem else none
  deviceCreate_error := by simp

theorem nodeRefused_failsAtNode : nodeRefused.FailsAtNode 2 1 := by
  refine ⟨by omega, rfl, fun j hj => ?_, rfl, by decide⟩
  obtain rfl : j = 0 := by omega
  exact ⟨rfl, rfl⟩

theorem tdInit_clean_iff_nodeRefused : 1 ≤ 2 ∧
    ((nodeRefused.NoFailure 2 → CleanLoad (tdInit nodeRefused (336 * ·) (fun _ => Twodev.init) 2)
          (tdExit nodeRefused 2) 2) ∧
        (¬ nodeRefused.NoFailure 2 →
          CleanFailure (tdInit nodeRefused (336 * ·) (fun _ => Twodev.init) 2)) ↔
      ∀ i, nodeRefused.FailsAtNode 2 i → 1 ≤ 336 * i % 2 ^ 32 ∧ 336 * i % 2 ^ 32 ≤ 4095) :=
  ⟨by decide, tdInit_clean_iff nodeRefused (336 * ·) (fun _ => Twodev.init) 2 (by decide)⟩

/-- With the instances at `0xffffffc081000000` and the second `device_create` failing, `td_init`
undoes everything and returns a positive number. -/
theorem tdInit_returns_no_errno : ¬ ∀ k addr devs n, 1 ≤ n →
    (k.NoFailure n → CleanLoad (tdInit k addr devs n) (tdExit k n) n) ∧
      (¬ k.NoFailure n → CleanFailure (tdInit k addr devs n)) := by
  intro hall
  obtain ⟨-, hfail⟩ := hall nodeRefused (0xffffffc081000000 + 336 * ·) (fun _ => Twodev.init) 2
    (by decide)
  have hclean := (hfail (failsAtNode_failure nodeRefused_failsAtNode)).1
  rw [failsAtNode_ret _ _ nodeRefused_failsAtNode, negPtrErr_isErrno_iff] at hclean
  exact absurd hclean.2 (by decide)

end LinuxDriverLab.TwoDev
