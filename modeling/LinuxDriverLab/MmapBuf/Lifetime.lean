import Mathlib.Algebra.Order.Group.Multiset
import Mathlib.Data.List.Perm.Basic
import LinuxDriverLab.MmapBuf.Driver

/-!
# When the buffer may be freed

A mapping refers to its file and an open file to the module. The counts are right in every state, so
`rmmod` gets past its check only when no process has a descriptor or a mapping left, and from there on
nothing can be opened.
-/

namespace LinuxDriverLab.MmapBuf

def heldBy : Option Process → List File
  | none => []
  | some x => x.held

/-- All references to files -/
def State.held (s : State) : Multiset File := ↑(s.procs.flatMap heldBy)

structure Counted (s : State) : Prop where
  balanced : s.refs.Balanced s.held
  idle : s.stage ≠ .live → s.held = 0
  kbuf : s.kbuf = none ↔ s.stage = .unloaded

variable {P : PageSize} {s u : State} {p : Nat} {x : Process}

theorem held_split (a b : List (Option Process)) (y : Option Process) :
    (↑((a ++ y :: b).flatMap heldBy) : Multiset File) =
      ↑(heldBy y) + ↑(a.flatMap heldBy ++ b.flatMap heldBy) := by
  rw [List.flatMap_append, List.flatMap_cons, Multiset.coe_add, Multiset.coe_eq_coe]
  exact List.perm_append_comm_assoc _ _ _

theorem exists_others (hp : s.proc p = some x) : ∃ others : Multiset File,
    s.held = ↑x.held + others ∧ ∀ y, (s.setProc p y).held = ↑(heldBy y) + others := by
  obtain ⟨hlt, hx⟩ := List.getElem?_eq_some_iff.mp (proc_eq_some.mp hp)
  refine ⟨↑((s.procs.take p).flatMap heldBy ++ (s.procs.drop (p + 1)).flatMap heldBy), ?_, ?_⟩
  · have hsplit : s.procs = s.procs.take p ++ some x :: s.procs.drop (p + 1) := by
      rw [← hx, List.getElem_cons_drop, List.take_append_drop]
    have hheld := held_split (s.procs.take p) (s.procs.drop (p + 1)) (some x)
    rwa [← hsplit] at hheld
  · intro y
    rw [State.held, setProc_procs, List.set_eq_take_append_cons_drop, if_pos hlt]
    exact held_split _ _ _

theorem held_le (hp : s.proc p = some x) : (x.held : Multiset File) ≤ s.held := by
  obtain ⟨others, hheld, -⟩ := exists_others hp
  rw [hheld]
  exact Multiset.le_add_right _ _

theorem mem_held_of_fd {f : File} (hp : s.proc p = some x) (hf : f ∈ x.fds) : f ∈ s.held :=
  Multiset.mem_of_le (held_le hp) (List.mem_append_left _ hf)

theorem mem_held_of_vma {v : Vma} (hp : s.proc p = some x) (hv : v ∈ x.vmas) : v.file ∈ s.held :=
  Multiset.mem_of_le (held_le hp) (List.mem_append_right _ (List.mem_map_of_mem hv))

theorem Counted.live (h : Counted s) {f : File} (hf : f ∈ s.held) : s.stage = .live := by
  by_contra hne
  rw [h.idle hne] at hf
  exact Multiset.notMem_zero f hf

theorem counted_init (mem : Memory) : Counted (State.init mem) :=
  ⟨Refs.balanced_empty, fun _ => rfl, fun _ => rfl, fun _ => rfl⟩

theorem Counted.same (h : Counted s) (hrefs : u.refs = s.refs) (hprocs : u.procs = s.procs)
    (hstage : u.stage = s.stage) (hkbuf : u.kbuf = s.kbuf) : Counted u := by
  have hheld : u.held = s.held := by
    rw [State.held, hprocs]
    rfl
  refine ⟨?_, ?_, ?_⟩
  · rw [hrefs, hheld]
    exact h.balanced
  · rw [hstage, hheld]
    exact h.idle
  · rw [hstage, hkbuf]
    exact h.kbuf

theorem Counted.leave (h : Counted s) (hold : s.stage ≠ .unloaded) (hnew : u.stage ≠ .unloaded)
    (hrefs : u.refs = s.refs) (hprocs : u.procs = s.procs) (hkbuf : u.kbuf = s.kbuf)
    (hnone : s.held = 0) : Counted u := by
  have hheld : u.held = s.held := by
    rw [State.held, hprocs]
    rfl
  refine ⟨?_, fun _ => hheld.trans hnone, iff_of_false (fun hk => hold (h.kbuf.mp ?_)) hnew⟩
  · rw [hrefs, hheld]
    exact h.balanced
  · rw [← hkbuf]
    exact hk

theorem Counted.change (h : Counted s) (hlive : s.stage = .live) (hstage : u.stage = s.stage)
    (hkbuf : u.kbuf = s.kbuf) (hbalanced : u.refs.Balanced u.held) : Counted u := by
  refine ⟨hbalanced, fun hne => absurd (hstage.trans hlive) hne, ?_⟩
  rw [hkbuf, hstage]
  exact h.kbuf

theorem Counted.openFile {f : File} (h : Counted s) (hp : s.proc p = some x)
    (hlive : s.stage = .live) (hf : s.refs.object f = 0) :
    Counted ({ s with refs := s.refs.acquire f, pos := Function.update s.pos f 0 }.setProc p
      (some { x with fds := f :: x.fds })) := by
  obtain ⟨others, hheld, hset⟩ := exists_others hp
  refine h.change hlive rfl rfl ?_
  have hbalanced := h.balanced.acquire hf
  rw [hheld, ← Multiset.cons_add, Multiset.cons_coe] at hbalanced
  exact (hset (some { x with fds := f :: x.fds })) ▸ hbalanced

theorem Counted.close {f : File} (h : Counted s) (hp : s.proc p = some x) (hf : f ∈ x.fds) :
    Counted ({ s with refs := s.refs.put f }.setProc p (some { x with fds := x.fds.erase f })) := by
  obtain ⟨others, hheld, hset⟩ := exists_others hp
  refine h.change (h.live (mem_held_of_fd hp hf)) rfl rfl ?_
  have hperm : x.held.Perm (f :: (x.fds.erase f ++ x.vmas.map Vma.file)) :=
    (List.perm_cons_erase hf).append_right _
  have hbalanced := h.balanced
  rw [hheld, Multiset.coe_eq_coe.mpr hperm, ← Multiset.cons_coe, Multiset.cons_add] at hbalanced
  exact (hset (some { x with fds := x.fds.erase f })) ▸ hbalanced.put

theorem Counted.mmap {f : File} {v : Vma} (h : Counted s) (hp : s.proc p = some x) (hf : f ∈ x.fds)
    (hv : v.file = f) :
    Counted ({ s with refs := s.refs.get f }.setProc p
      (some { x with vmas := x.vmas ++ [v] })) := by
  obtain ⟨others, hheld, hset⟩ := exists_others hp
  have hmem := mem_held_of_fd hp hf
  refine h.change (h.live hmem) rfl rfl ?_
  have hperm : (f :: x.held).Perm (x.fds ++ (x.vmas ++ [v]).map Vma.file) := by
    rw [List.map_append, List.map_singleton, hv, ← List.append_assoc]
    exact (List.perm_append_singleton f _).symm
  have hbalanced := h.balanced.get hmem
  rw [hheld, ← Multiset.cons_add, Multiset.cons_coe, Multiset.coe_eq_coe.mpr hperm] at hbalanced
  exact (hset (some { x with vmas := x.vmas ++ [v] })) ▸ hbalanced

/-- What a cut leaves of a mapping: the pages in front of the hole, and those behind it. -/
theorem mem_cut {v w : Vma} {first pages : Nat} (h : w ∈ v.cut first pages) :
    w = { v with frames := v.frames.take first } ∨ first + pages < v.frames.length ∧
      w = { v with pgoff := v.pgoff + (first + pages), frames := v.frames.drop (first + pages) } := by
  unfold Vma.cut at h
  rcases List.mem_append.mp h with hfront | hback
  · split at hfront
    · exact .inl (List.mem_singleton.mp hfront)
    · cases hfront
  · split at hback
    · next hlt => exact .inr ⟨hlt, List.mem_singleton.mp hback⟩
    · cases hback

theorem mem_cut_file {v w : Vma} {first pages : Nat} (h : w ∈ v.cut first pages) :
    w.file = v.file := by
  rcases mem_cut h with rfl | ⟨-, rfl⟩ <;> rfl

/-- The mappings that are left take over the reference of the old one. -/
theorem Counted.munmap {i : Nat} {v : Vma} {rest : List Vma} (h : Counted s)
    (hp : s.proc p = some x) (hv : x.vmas[i]? = some v) (hrest : ∀ w ∈ rest, w.file = v.file) :
    Counted ({ s with refs := ((rest.map Vma.file).foldl Refs.get s.refs).put v.file }.setProc p
      (some { x with vmas := x.vmas.eraseIdx i ++ rest })) := by
  obtain ⟨others, hheld, hset⟩ := exists_others hp
  obtain ⟨hlt, hvi⟩ := List.getElem?_eq_some_iff.mp hv
  have hmem := mem_held_of_vma hp (List.mem_of_getElem? hv)
  refine h.change (h.live hmem) rfl rfl ?_
  have hperm : (x.held ++ rest.map Vma.file).Perm
      (v.file :: (x.fds ++ (x.vmas.eraseIdx i ++ rest).map Vma.file)) := by
    have herase : (v :: x.vmas.eraseIdx i).Perm x.vmas := hvi ▸ List.getElem_cons_eraseIdx_perm hlt
    have hfiles : (x.vmas.map Vma.file ++ rest.map Vma.file).Perm
        (v.file :: (x.vmas.eraseIdx i ++ rest).map Vma.file) := by
      rw [← List.map_append, ← List.map_cons, ← List.cons_append]
      exact (herase.symm.append_right rest).map Vma.file
    rw [Process.held, List.append_assoc]
    exact (hfiles.append_left x.fds).trans List.perm_middle
  have hget : ∀ f ∈ rest.map Vma.file, f ∈ s.held := by
    intro f hf
    obtain ⟨w, hw, hwf⟩ := List.mem_map.mp hf
    rw [← hwf, hrest w hw]
    exact hmem
  have hbalanced := h.balanced.getAll hget
  rw [hheld, add_right_comm, Multiset.coe_add, Multiset.coe_eq_coe.mpr hperm, ← Multiset.cons_coe,
    Multiset.cons_add] at hbalanced
  exact (hset (some { x with vmas := x.vmas.eraseIdx i ++ rest })) ▸ hbalanced.put

theorem Counted.rebalance (h : Counted s) (hstage : u.stage = s.stage) (hkbuf : u.kbuf = s.kbuf)
    (hbalanced : u.refs.Balanced u.held) (hnone : s.held = 0 → u.held = 0) : Counted u := by
  refine ⟨hbalanced, fun hne => hnone (h.idle (hstage ▸ hne)), ?_⟩
  rw [hkbuf, hstage]
  exact h.kbuf

theorem Counted.fork (h : Counted s) (hp : s.proc p = some x) :
    Counted { s with refs := x.held.foldl Refs.get s.refs, procs := s.procs ++ [some x] } := by
  have hheld : ({ s with refs := x.held.foldl Refs.get s.refs,
                         procs := s.procs ++ [some x] } : State).held = s.held + ↑x.held := by
    rw [State.held, List.flatMap_append, ← Multiset.coe_add, List.flatMap_singleton]
    rfl
  refine h.rebalance rfl rfl ?_ ?_
  · rw [hheld]
    exact h.balanced.getAll fun f hf => Multiset.mem_of_le (held_le hp) hf
  · intro hzero
    have hle := held_le hp
    rw [hzero, Multiset.le_zero] at hle
    rw [hheld, hzero, hle, add_zero]

theorem Counted.exit (h : Counted s) (hp : s.proc p = some x) :
    Counted ({ s with refs := x.held.foldl Refs.put s.refs }.setProc p none) := by
  obtain ⟨others, hheld, hset⟩ := exists_others hp
  have hnew : ({ s with refs := x.held.foldl Refs.put s.refs }.setProc p none).held = others := by
    rw [← zero_add others]
    exact hset none
  refine h.rebalance rfl rfl ?_ ?_
  · rw [hnew]
    apply Refs.Balanced.putAll
    rw [add_comm, ← hheld]
    exact h.balanced
  · intro hzero
    have hle : others ≤ s.held := hheld ▸ Multiset.le_add_left _ _
    rwa [hnew, ← Multiset.le_zero, ← hzero]

theorem counted_step {e : Event} {o : Shown} (h : Counted s) (hs : step P s e = some (u, o)) :
    Counted u := by
  cases step_move hs with
  | insmodNoMemory => exact h
  | insmodFails => exact h.same rfl rfl rfl rfl
  | insmod hstage => exact ⟨h.balanced, fun hne => absurd rfl hne, nofun, nofun⟩
  | openFile hp hlive hf => exact h.openFile hp hlive hf
  | openGoing => exact h
  | close hp hf => exact h.close hp hf
  | read => exact h.same rfl rfl rfl rfl
  | pread => exact h
  | mmapFails => exact h
  | mmap hp _ hf => exact h.mmap hp hf rfl
  | munmap hp hv => exact h.munmap hp hv fun w hw => mem_cut_file hw
  | load => exact h
  | store => exact h.same rfl rfl rfl rfl
  | fork hp => exact h.fork hp
  | exit hp => exact h.exit hp
  | rmmod hstage howner =>
    exact h.leave (hstage ▸ Stage.noConfusion) Stage.noConfusion rfl rfl rfl
      (h.balanced.eq_zero howner)
  | rmmodBusy => exact h
  | miscDeregister hstage =>
    exact h.leave (hstage ▸ Stage.noConfusion) Stage.noConfusion rfl rfl rfl
      (h.idle (hstage ▸ Stage.noConfusion))
  | kfree hstage =>
    exact ⟨h.balanced, fun _ => h.idle (hstage ▸ Stage.noConfusion), fun _ => rfl, fun _ => rfl⟩

theorem counted_run {mem : Memory} {tr : List (Record State Event Shown)}
    (h : Run (step P) (State.init mem) tr s) : Counted s :=
  h.invariant (counted_init mem) fun _ _ _ _ hI hs => counted_step hI hs

theorem Counted.unmapped (h : Counted s) (hstage : s.stage ≠ .live) (hp : s.proc p = some x) :
    x.vmas = [] := by
  apply List.eq_nil_iff_forall_not_mem.mpr
  intro v hv
  exact hstage (h.live (mem_held_of_vma hp hv))

/-- The step frees the buffer only when no process has a mapping of it. -/
def FreesUnmapped (_ : List (Record State Event Shown)) (r : Record State Event Shown) : Prop :=
  r.out = .freed → ∀ p x, r.pre.proc p = some x → x.vmas = []

theorem freesUnmapped_step {past : List (Record State Event Shown)} {e : Event} {o : Shown}
    (h : Counted s) (hs : step P s e = some (u, o)) : FreesUnmapped past ⟨s, e, o⟩ := by
  intro ho p x hp
  dsimp only at ho hp
  subst ho
  cases step_move hs with
  | kfree hstage => exact h.unmapped (hstage ▸ Stage.noConfusion) hp

/-- In every run of opens, closes, maps, partial and whole unmaps, forks, exits and attempts to
unload, in any order and for every page size, the buffer is freed only when no mapping of it is
left. -/
theorem mbufExit_frees_unmapped (P : PageSize) (mem : Memory)
    (tr : List (Record State Event Shown)) (s : State) (h : Run (step P) (State.init mem) tr s) :
    Each FreesUnmapped tr := by
  intro past r rest htr
  subst htr
  obtain ⟨hpast, u, hstep, -⟩ := h.split
  exact freesUnmapped_step (counted_run hpast) hstep

/-- A child keeps the mapping of a parent that has closed its descriptor and exited, and `rmmod` is
refused until the last piece of it is unmapped. -/
theorem mbufExit_frees_unmapped_forked : ∃ tr s,
    Run (step ⟨4096, by decide⟩) (State.init fun _ => 0) tr s ∧
    tr.map Record.event = [.insmod (some 9) none, .openFile 0 3, .mmap 0 3 4 0 false, .close 0 3,
      .fork 0, .exit 0, .rmmod, .munmap 1 0 1 2, .munmap 1 0 0 1, .rmmod, .munmap 1 0 0 1, .rmmod,
      .miscDeregister, .kfree] ∧
    s.stage = .unloaded ∧ Each FreesUnmapped tr := by
  obtain ⟨tr, s, hrun, hev, hq⟩ := exists_exec (step ⟨4096, by decide⟩) (State.init fun _ => 0)
    [.insmod (some 9) none, .openFile 0 3, .mmap 0 3 4 0 false, .close 0 3, .fork 0, .exit 0,
      .rmmod, .munmap 1 0 1 2, .munmap 1 0 0 1, .rmmod, .munmap 1 0 0 1, .rmmod, .miscDeregister,
      .kfree] (fun x => x.2.stage == .unloaded) (by decide +kernel)
  exact ⟨tr, s, hrun, hev, beq_iff_eq.mp hq, mbufExit_frees_unmapped _ _ tr s hrun⟩

end LinuxDriverLab.MmapBuf
