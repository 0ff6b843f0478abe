import Mathlib.Data.Finset.Basic
import LinuxDriverLab.Kernel.UserCopy
import LinuxDriverLab.Ramdisk.Image

/-!
# The ramdisk from load to unload

`rb_init` makes its calls one by one, each of which may fail, and undoes what it did from the label
it jumps to; `rb_exit` undoes all of it. Requests reach the driver while `device_add_disk` or
`del_gendisk` is under way and in between, and the copies of a request that has reached it are made
whatever the module does meanwhile.
-/

namespace LinuxDriverLab.Ramdisk

/-- What `rb_init` acquires: `rb_data`, the tag set, the gendisk, the major number, and the disk's
place in the system. -/
inductive Resource
  | data
  | tagSet
  | disk
  | major
  | added
deriving DecidableEq

/-- The call that the module makes next, or that it is in. An error path keeps the `ret` it was
entered with. -/
inductive Stage
  | unloaded
  | allocTagSet
  | allocDisk
  | registerBlkdev
  | addDisk
  | live
  | errUnreg (ret : Int)
  | errDisk (ret : Int)
  | errTags (ret : Int)
  | errFree (ret : Int)
  | delGendisk
  | putDisk
  | freeTagSet
  | unregisterBlkdev
  | vfree
deriving DecidableEq

structure Module where
  stage : Stage
  held : Finset Resource
  io : State

def Module.init : Module := ⟨.unloaded, ∅, State.init⟩

/-- What the kernel answers to the calls of `rb_init`, a turn of its error path, the call of `rb_exit`
and the return of each call it makes, and a step of the request path -/
inductive ModuleEvent
  | vzalloc (ok : Bool)
  | allocTagSet (err : Option Errno)
  | allocDisk (err : Option Errno)
  | registerBlkdev (ret : Int)
  | addDisk (err : Option Errno)
  | undo
  | unload
  | exit
  | request (e : Event)

/-- What a step shows; `ended` is the last release of a failing `rb_init`, with what it returns. -/
inductive ModuleShown
  | quiet
  | acquired (r : Resource)
  | released (r : Resource)
  | failed (ret : Int)
  | ended (r : Resource) (ret : Int)
  | request (o : Shown)

def Module.acquire (s : Module) (r : Resource) (stage : Stage) : Module :=
  { s with stage, held := insert r s.held }

def Module.release (s : Module) (r : Resource) (stage : Stage) : Module :=
  { s with stage, held := s.held.erase r }

/-- The block layer sends requests from within `device_add_disk` to within `del_gendisk`. -/
def Stage.serves : Stage → Bool
  | .addDisk | .live | .delGendisk => true
  | _ => false

/-- `queue_depth`, the number of tags -/
def queueDepth : Nat := 32

/-- None of the tags is in use. -/
def State.Drained (s : State) : Prop := ∀ tag, tag < queueDepth → s.flight tag = none

instance (s : State) : Decidable s.Drained :=
  inferInstanceAs (Decidable (∀ tag, tag < queueDepth → s.flight tag = none))

/-- A failing `device_add_disk` and `del_gendisk` return when no request is in flight. -/
def moduleStep (s : Module) : ModuleEvent → Option (Module × ModuleShown)
  | .vzalloc ok =>
    if s.stage = .unloaded then
      if ok then
        some ({ s with io := { s.io with disk := Image.zero } }.acquire .data .allocTagSet,
          .acquired .data)
      else some (s, .failed Errno.enomem.ret)
    else none
  | .allocTagSet err =>
    if s.stage = .allocTagSet then
      match err with
      | some e => some ({ s with stage := .errFree e.ret }, .quiet)
      | none => some (s.acquire .tagSet .allocDisk, .acquired .tagSet)
    else none
  | .allocDisk err =>
    if s.stage = .allocDisk then
      match err with
      | some e => some ({ s with stage := .errTags e.ret }, .quiet)
      | none => some (s.acquire .disk .registerBlkdev, .acquired .disk)
    else none
  | .registerBlkdev ret =>
    if s.stage = .registerBlkdev then
      if ret ≤ 0 then some ({ s with stage := .errDisk Errno.ebusy.ret }, .quiet)
      else some (s.acquire .major .addDisk, .acquired .major)
    else none
  | .addDisk err =>
    if s.stage = .addDisk then
      match err with
      | some e =>
        if s.io.Drained then some ({ s with stage := .errUnreg e.ret }, .quiet)
        else none
      | none => some (s.acquire .added .live, .acquired .added)
    else none
  | .undo =>
    match s.stage with
    | .errUnreg ret => some (s.release .major (.errDisk ret), .released .major)
    | .errDisk ret => some (s.release .disk (.errTags ret), .released .disk)
    | .errTags ret => some (s.release .tagSet (.errFree ret), .released .tagSet)
    | .errFree ret => some (s.release .data .unloaded, .ended .data ret)
    | _ => none
  | .unload => if s.stage = .live then some ({ s with stage := .delGendisk }, .quiet) else none
  | .exit =>
    match s.stage with
    | .delGendisk =>
      if s.io.Drained then some (s.release .added .putDisk, .released .added) else none
    | .putDisk => some (s.release .disk .freeTagSet, .released .disk)
    | .freeTagSet => some (s.release .tagSet .unregisterBlkdev, .released .tagSet)
    | .unregisterBlkdev => some (s.release .major .vfree, .released .major)
    | .vfree => some (s.release .data .unloaded, .released .data)
    | _ => none
  | .request e =>
    match e with
    | .queue tag _ =>
      if s.stage.serves ∧ tag < queueDepth then
        match step s.io e with
        | none => none
        | some (io, o) => some ({ s with io }, .request o)
      else none
    | _ =>
      match step s.io e with
      | none => none
      | some (io, o) => some ({ s with io }, .request o)

/-- The event neither allocates `rb_data` nor is a step of the request path. -/
def ModuleEvent.aside : ModuleEvent → Bool
  | .vzalloc _ | .request _ => false
  | _ => true

/-- The cases of `moduleStep`, by what they do with the resources. -/
inductive ModuleMove (s : Module) : ModuleEvent → Module → ModuleShown → Prop
  | load (hs : s.stage = .unloaded) :
      ModuleMove s (.vzalloc true)
        ({ s with io := { s.io with disk := Image.zero } }.acquire .data .allocTagSet)
        (.acquired .data)
  | loadFails (hs : s.stage = .unloaded) :
      ModuleMove s (.vzalloc false) s (.failed Errno.enomem.ret)
  | acquire {e r stage} (he : e.aside = true) (h : (s.stage, r, stage) ∈
        [(.allocTagSet, .tagSet, .allocDisk), (.allocDisk, .disk, .registerBlkdev),
          (.registerBlkdev, .major, .addDisk), (.addDisk, .added, .live)]) :
      ModuleMove s e (s.acquire r stage) (.acquired r)
  | jump {e stage} (err : Errno) (he : e.aside = true) (h : (s.stage, stage) ∈
        [(.allocTagSet, Stage.errFree err.ret), (.allocDisk, .errTags err.ret),
          (.registerBlkdev, .errDisk err.ret)]) :
      ModuleMove s e { s with stage } .quiet
  | addDiskFails {err} (hs : s.stage = .addDisk) (hd : s.io.Drained) :
      ModuleMove s (.addDisk (some err)) { s with stage := .errUnreg err.ret } .quiet
  | undo {r stage} (ret : Int) (h : (s.stage, r, stage) ∈
        [(.errUnreg ret, .major, .errDisk ret), (.errDisk ret, .disk, .errTags ret),
          (.errTags ret, .tagSet, .errFree ret)]) :
      ModuleMove s .undo (s.release r stage) (.released r)
  | ended {ret} (hs : s.stage = .errFree ret) :
      ModuleMove s .undo (s.release .data .unloaded) (.ended .data ret)
  | unload (hs : s.stage = .live) : ModuleMove s .unload { s with stage := .delGendisk } .quiet
  | delGendisk (hs : s.stage = .delGendisk) (hd : s.io.Drained) :
      ModuleMove s .exit (s.release .added .putDisk) (.released .added)
  | exit {r stage} (h : (s.stage, r, stage) ∈
        [(.putDisk, .disk, .freeTagSet), (.freeTagSet, .tagSet, .unregisterBlkdev),
          (.unregisterBlkdev, .major, .vfree), (.vfree, .data, .unloaded)]) :
      ModuleMove s .exit (s.release r stage) (.released r)
  | request {e io o} (h : step s.io e = some (io, o))
      (hq : ∀ tag rq, e = .queue tag rq → s.stage.serves = true ∧ tag < queueDepth) :
      ModuleMove s (.request e) { s with io } (.request o)

theorem moduleStep_move {s u : Module} {e : ModuleEvent} {o : ModuleShown}
    (h : moduleStep s e = some (u, o)) : ModuleMove s e u o := by
  cases e with
  | vzalloc ok =>
    simp only [moduleStep] at h
    split_ifs at h with hs hok
    · cases h
      subst hok
      exact .load hs
    · cases h
      obtain rfl : ok = false := by simpa using hok
      exact .loadFails hs
  | allocTagSet err =>
    simp only [moduleStep] at h
    split_ifs at h with hs
    cases err <;> cases h
    · exact .acquire rfl (by simp [hs])
    · next err => exact .jump err rfl (by simp [hs])
  | allocDisk err =>
    simp only [moduleStep] at h
    split_ifs at h with hs
    cases err <;> cases h
    · exact .acquire rfl (by simp [hs])
    · next err => exact .jump err rfl (by simp [hs])
  | registerBlkdev ret =>
    simp only [moduleStep] at h
    split_ifs at h with hs hret
    · cases h
      exact .jump .ebusy rfl (by simp [hs])
    · cases h
      exact .acquire rfl (by simp [hs])
  | addDisk err =>
    simp only [moduleStep] at h
    split at h
    · next hs =>
      cases err with
      | none =>
        cases h
        exact .acquire rfl (by simp [hs])
      | some err =>
        by_cases hd : s.io.Drained
        · simp only [if_pos hd] at h
          cases h
          exact .addDiskFails hs hd
        · simp only [if_neg hd] at h
          cases h
    · cases h
  | undo =>
    simp only [moduleStep] at h
    split at h <;> cases h
    · next ret hs => exact .undo ret (by simp [hs])
    · next ret hs => exact .undo ret (by simp [hs])
    · next ret hs => exact .undo ret (by simp [hs])
    · next ret hs => exact .ended hs
  | unload =>
    simp only [moduleStep] at h
    split_ifs at h with hs
    cases h
    exact .unload hs
  | exit =>
    simp only [moduleStep] at h
    split at h
    · next hs =>
      split_ifs at h with hd
      cases h
      exact .delGendisk hs hd
    · next hs =>
      cases h
      exact .exit (by simp [hs])
    · next hs =>
      cases h
      exact .exit (by simp [hs])
    · next hs =>
      cases h
      exact .exit (by simp [hs])
    · next hs =>
      cases h
      exact .exit (by simp [hs])
    · cases h
  | request e =>
    cases e with
    | queue tag rq =>
      simp only [moduleStep] at h
      split_ifs at h with hq
      split at h
      · cases h
      · next hs =>
        cases h
        refine .request hs ?_
        intro tag' rq' he
        cases he
        exact hq
    | segment tag =>
      simp only [moduleStep] at h
      split at h
      · cases h
      · next hs =>
        cases h
        exact .request hs (by simp)
    | complete tag =>
      simp only [moduleStep] at h
      split at h
      · cases h
      · next hs =>
        cases h
        exact .request hs (by simp)

/-- What the module holds at each stage. -/
def Stage.held : Stage → Finset Resource
  | .unloaded => ∅
  | .allocTagSet | .errFree _ | .vfree => {.data}
  | .allocDisk | .errTags _ => {.data, .tagSet}
  | .registerBlkdev | .errDisk _ => {.data, .tagSet, .disk}
  | .addDisk | .errUnreg _ | .putDisk => {.data, .tagSet, .disk, .major}
  | .live | .delGendisk => {.data, .tagSet, .disk, .major, .added}
  | .freeTagSet => {.data, .tagSet, .major}
  | .unregisterBlkdev => {.data, .major}

/-- The value an error path returns is the negative of an error number. -/
def Stage.RetOk : Stage → Prop
  | .errUnreg ret | .errDisk ret | .errTags ret | .errFree ret => -4095 ≤ ret ∧ ret ≤ -1
  | _ => True

/-- What the stage says about the rest of the module. -/
structure Life (s : Module) : Prop where
  held : s.held = s.stage.held
  ret : s.stage.RetOk
  tags : ∀ tag, queueDepth ≤ tag → s.io.flight tag = none
  idle : s.stage.serves = false → s.io.Idle

theorem life_init : Life Module.init :=
  ⟨rfl, trivial, fun _ _ => rfl, fun _ _ => rfl⟩

theorem Life.idle_of_drained {s : Module} (h : Life s) (hd : s.io.Drained) : s.io.Idle := by
  intro tag
  by_cases htag : tag < queueDepth
  · exact hd tag htag
  · exact h.tags tag (Nat.le_of_not_lt htag)

/-- `rb_data` is held wherever a request can be in flight. -/
theorem Life.data_held {s : Module} (h : Life s) {tag : Nat} {x : Transfer}
    (hx : s.io.flight tag = some x) : .data ∈ s.held := by
  have hserves : s.stage.serves = true := by
    by_contra hno
    have := h.idle (by simpa using hno) tag
    rw [hx] at this
    cases this
  rw [h.held]
  cases hs : s.stage <;> rw [hs] at hserves <;> first | decide | cases hserves

theorem Life.acquired {s : Module} (h : Life s) {r : Resource} {stage : Stage}
    (hfree : r ∉ s.stage.held) (hheld : insert r s.stage.held = stage.held) (hret : stage.RetOk)
    (hidle : stage.serves = false → s.io.Idle) : r ∉ s.held ∧ Life (s.acquire r stage) :=
  ⟨by rwa [h.held], by simpa only [Module.acquire, h.held] using hheld, hret, h.tags, hidle⟩

theorem Life.released {s : Module} (h : Life s) (r : Resource) (stage : Stage)
    (hr : r ∈ s.stage.held) (hheld : s.stage.held.erase r = stage.held) (hret : stage.RetOk)
    (hidle : s.io.Idle) : r ∈ s.held ∧ Life (s.release r stage) :=
  ⟨by rwa [h.held], by simpa only [Module.release, h.held] using hheld, hret, h.tags,
    fun _ => hidle⟩

theorem Life.jumped {s : Module} (h : Life s) {stage : Stage} (hheld : s.stage.held = stage.held)
    (hret : stage.RetOk) (hidle : stage.serves = false → s.io.Idle) : Life { s with stage } :=
  ⟨h.held.trans hheld, hret, h.tags, hidle⟩

theorem life_acquire {s : Module} (h : Life s) {r : Resource} {stage : Stage}
    (hm : (s.stage, r, stage) ∈
      [(.allocTagSet, .tagSet, .allocDisk), (.allocDisk, .disk, .registerBlkdev),
        (.registerBlkdev, .major, .addDisk), (.addDisk, .added, .live)]) :
    r ∉ s.held ∧ Life (s.acquire r stage) := by
  simp only [List.mem_cons, Prod.mk.injEq, List.not_mem_nil, or_false] at hm
  rcases hm with ⟨hs, rfl, rfl⟩ | ⟨hs, rfl, rfl⟩ | ⟨hs, rfl, rfl⟩ | ⟨hs, rfl, rfl⟩
  · exact h.acquired (by rw [hs]; decide) (by rw [hs]; decide) trivial
      fun _ => h.idle (by rw [hs]; rfl)
  · exact h.acquired (by rw [hs]; decide) (by rw [hs]; decide) trivial
      fun _ => h.idle (by rw [hs]; rfl)
  · exact h.acquired (by rw [hs]; decide) (by rw [hs]; decide) trivial
      fun _ => h.idle (by rw [hs]; rfl)
  · exact h.acquired (by rw [hs]; decide) (by rw [hs]; decide) trivial (by simp [Stage.serves])

theorem life_exit {s : Module} (h : Life s) {r : Resource} {stage : Stage}
    (hm : (s.stage, r, stage) ∈
      [(.putDisk, .disk, .freeTagSet), (.freeTagSet, .tagSet, .unregisterBlkdev),
        (.unregisterBlkdev, .major, .vfree), (.vfree, .data, .unloaded)]) :
    r ∈ s.held ∧ Life (s.release r stage) := by
  simp only [List.mem_cons, Prod.mk.injEq, List.not_mem_nil, or_false] at hm
  rcases hm with ⟨hs, rfl, rfl⟩ | ⟨hs, rfl, rfl⟩ | ⟨hs, rfl, rfl⟩ | ⟨hs, rfl, rfl⟩
  all_goals
    exact h.released _ _ (by rw [hs]; decide) (by rw [hs]; decide) trivial (h.idle (by rw [hs]; rfl))

theorem life_undo {s : Module} (h : Life s) {ret : Int} {r : Resource} {stage : Stage}
    (hm : (s.stage, r, stage) ∈
      [(.errUnreg ret, .major, .errDisk ret), (.errDisk ret, .disk, .errTags ret),
        (.errTags ret, .tagSet, .errFree ret)]) :
    r ∈ s.held ∧ Life (s.release r stage) := by
  have hret := h.ret
  simp only [List.mem_cons, Prod.mk.injEq, List.not_mem_nil, or_false] at hm
  rcases hm with ⟨hs, rfl, rfl⟩ | ⟨hs, rfl, rfl⟩ | ⟨hs, rfl, rfl⟩ <;> rw [hs] at hret
  all_goals
    exact h.released _ _ (by rw [hs, Stage.held]; decide) (by rw [hs, Stage.held, Stage.held]; decide)
      hret (h.idle (by rw [hs]; rfl))

theorem life_jump {s : Module} (h : Life s) {err : Errno} {stage : Stage}
    (hm : (s.stage, stage) ∈
      [(.allocTagSet, Stage.errFree err.ret), (.allocDisk, .errTags err.ret),
        (.registerBlkdev, .errDisk err.ret)]) : Life { s with stage } := by
  simp only [List.mem_cons, Prod.mk.injEq, List.not_mem_nil, or_false] at hm
  rcases hm with ⟨hs, rfl⟩ | ⟨hs, rfl⟩ | ⟨hs, rfl⟩
  all_goals
    exact h.jumped (by rw [hs]; rfl) err.ret_range fun _ => h.idle (by rw [hs]; rfl)

theorem life_request {s : Module} {e : Event} {io : State} {o : Shown} (h : Life s)
    (hs : step s.io e = some (io, o))
    (hq : ∀ tag rq, e = .queue tag rq → s.stage.serves = true ∧ tag < queueDepth) :
    Life { s with io } where
  held := h.held
  ret := h.ret
  tags := by
    intro tag htag
    by_contra hne
    rcases flight_of_step hs hne with hbefore | ⟨rq, he⟩
    · exact hbefore (h.tags tag htag)
    · exact absurd (hq tag rq he).2 (Nat.not_lt_of_le htag)
  idle := by
    intro hserves tag
    by_contra hne
    rcases flight_of_step hs hne with hbefore | ⟨rq, he⟩
    · exact hbefore (h.idle hserves tag)
    · have := (hq tag rq he).1
      rw [show s.stage.serves = false from hserves] at this
      cases this

theorem life_step {s u : Module} {e : ModuleEvent} {o : ModuleShown} (h : Life s)
    (hs : moduleStep s e = some (u, o)) : Life u := by
  cases moduleStep_move hs with
  | load hst =>
    refine ⟨?_, trivial, h.tags, fun _ => h.idle (by rw [hst]; rfl)⟩
    simp only [Module.acquire, h.held, hst, Stage.held]
    decide
  | loadFails => exact h
  | acquire he hm => exact (life_acquire h hm).2
  | jump err he hm => exact life_jump h hm
  | addDiskFails hst hd =>
    exact h.jumped (by rw [hst]; rfl) (Errno.ret_range _) fun _ => h.idle_of_drained hd
  | undo ret hm => exact (life_undo h hm).2
  | @ended ret hst =>
    exact (h.released .data .unloaded (by rw [hst, Stage.held]; decide)
      (by rw [hst, Stage.held, Stage.held]; decide) trivial (h.idle (by rw [hst]; rfl))).2
  | unload hst => exact h.jumped (by rw [hst]; rfl) trivial (by simp [Stage.serves])
  | delGendisk hst hd =>
    exact (h.released .added .putDisk (by rw [hst]; decide) (by rw [hst]; decide) trivial
      (h.idle_of_drained hd)).2
  | exit hm => exact (life_exit h hm).2
  | request hstep hq => exact life_request h hstep hq

theorem life_run {tr : List (Record Module ModuleEvent ModuleShown)} {s : Module}
    (h : Run moduleStep Module.init tr s) : Life s :=
  h.invariant life_init fun _ _ _ _ hI hs => life_step hI hs

/-- What a step does with the resources of the module, and with `rb_data`: nothing is acquired that is
held, nothing is released that is not, and no byte of the disk is copied while `rb_data` is not
held; what a failing `rb_init` returns is the negative of an error number. -/
structure Careful (r : Record Module ModuleEvent ModuleShown) : Prop where
  acquires : ∀ x, r.out = .acquired x → x ∉ r.pre.held
  releases : ∀ x, r.out = .released x → x ∈ r.pre.held
  ends : ∀ x ret, r.out = .ended x ret → x ∈ r.pre.held ∧ -4095 ≤ ret ∧ ret ≤ -1
  fails : ∀ ret, r.out = .failed ret → -4095 ≤ ret ∧ ret ≤ -1
  copies : ∀ pos len, r.out = .request (.touched pos len) → .data ∈ r.pre.held

theorem careful_step {s u : Module} {e : ModuleEvent} {o : ModuleShown} (h : Life s)
    (hs : moduleStep s e = some (u, o)) : Careful ⟨s, e, o⟩ := by
  cases moduleStep_move hs with
  | load hst =>
    refine ⟨?_, by simp, by simp, by simp, by simp⟩
    rintro x hx
    cases hx
    rw [h.held, hst]
    decide
  | loadFails hst =>
    refine ⟨by simp, by simp, by simp, ?_, by simp⟩
    rintro ret hret
    cases hret
    exact Errno.ret_range _
  | acquire he hm =>
    refine ⟨?_, by simp, by simp, by simp, by simp⟩
    rintro x hx
    cases hx
    exact (life_acquire h hm).1
  | jump err he hm => exact ⟨by simp, by simp, by simp, by simp, by simp⟩
  | addDiskFails hst hd => exact ⟨by simp, by simp, by simp, by simp, by simp⟩
  | undo ret hm =>
    refine ⟨by simp, ?_, by simp, by simp, by simp⟩
    rintro x hx
    cases hx
    exact (life_undo h hm).1
  | @ended ret hst =>
    refine ⟨by simp, by simp, ?_, by simp, by simp⟩
    rintro x ret' hx
    cases hx
    have hret := h.ret
    rw [hst] at hret
    exact ⟨by rw [h.held, hst, Stage.held]; decide, hret⟩
  | unload hst => exact ⟨by simp, by simp, by simp, by simp, by simp⟩
  | delGendisk hst hd =>
    refine ⟨by simp, ?_, by simp, by simp, by simp⟩
    rintro x hx
    cases hx
    rw [h.held, hst]
    decide
  | exit hm =>
    refine ⟨by simp, ?_, by simp, by simp, by simp⟩
    rintro x hx
    cases hx
    exact (life_exit h hm).1
  | request hstep hq =>
    refine ⟨by simp, by simp, by simp, by simp, ?_⟩
    rintro pos len hx
    cases hx
    cases step_move hstep with
    | segment hx hrest => exact h.data_held hx

/-- Over any loads, failing loads and unloads, with requests on their way in between: each resource
is acquired and released in turn, a byte is copied to or from `rb_data` only while it is allocated,
and an unloaded module holds nothing and has no request in flight. -/
theorem rbModule_life (tr : List (Record Module ModuleEvent ModuleShown)) (s : Module)
    (h : Run moduleStep Module.init tr s) :
    Each (fun _ r => Careful r) tr ∧ (s.stage = .unloaded → s.held = ∅ ∧ s.io.Idle) := by
  constructor
  · rintro past ⟨t, e, o⟩ rest rfl
    obtain ⟨hpast, u, hu, -⟩ := h.split
    exact careful_step (life_run hpast) hu
  · intro hs
    have hlife := life_run h
    exact ⟨by rw [hlife.held, hs]; rfl, hlife.idle (by rw [hs]; rfl)⟩

/-- The events of a load that fails for want of a major number, and of one that is used for a WRITE
before it is unloaded. -/
def loadTwice : List ModuleEvent :=
  [.vzalloc true, .allocTagSet none, .allocDisk none, .registerBlkdev 0, .undo, .undo, .undo,
    .vzalloc true, .allocTagSet none, .allocDisk none, .registerBlkdev 259, .addDisk none,
    .request (.queue 0 twoSegments), .unload, .request (.segment 0), .request (.segment 0),
    .request (.complete 0), .exit, .exit, .exit, .exit, .exit]

theorem rbModule_life_loadTwice : ∃ tr s,
    (Run moduleStep Module.init tr s ∧ tr.map Record.event = loadTwice ∧ s.stage = .unloaded) ∧
    Each (fun _ r => Careful r) tr ∧ (s.stage = .unloaded → s.held = ∅ ∧ s.io.Idle) := by
  obtain ⟨tr, s, hrun, hev, hs⟩ := exists_exec moduleStep Module.init loadTwice
    (fun x => x.2.stage = .unloaded) (by decide +kernel)
  exact ⟨tr, s, ⟨hrun, hev, by simpa using hs⟩, rbModule_life tr s hrun⟩

/-- The step of the request path in a step of the module. -/
def ioRecord (r : Record Module ModuleEvent ModuleShown) : Option (Record State Event Shown) :=
  match r.event, r.out with
  | .request e, .request o => some ⟨r.pre.io, e, o⟩
  | _, _ => none

/-- The steps of the request path since `rb_data` was last allocated. -/
def session (tr : List (Record Module ModuleEvent ModuleShown)) : List (Record State Event Shown) :=
  tr.foldl (fun acc r => match r.out with
    | .acquired .data => []
    | _ => acc ++ (ioRecord r).toList) []

theorem session_concat (tr : List (Record Module ModuleEvent ModuleShown))
    (r : Record Module ModuleEvent ModuleShown) :
    session (tr ++ [r]) = match r.out with
      | .acquired .data => []
      | _ => session tr ++ (ioRecord r).toList := by
  simp only [session, List.foldl_append, List.foldl_cons, List.foldl_nil]

theorem session_quiet (tr : List (Record Module ModuleEvent ModuleShown))
    {r : Record Module ModuleEvent ModuleShown} (hdata : r.out ≠ .acquired .data)
    (hio : ioRecord r = none) : session (tr ++ [r]) = session tr := by
  rw [session_concat, hio]
  split
  · next h => exact absurd h hdata
  · exact List.append_nil _

/-- The requests since `rb_data` was last allocated. -/
def requests (es : List ModuleEvent) : List Event :=
  es.foldl (fun acc e => match e with
    | .vzalloc true => []
    | .request e => acc ++ [e]
    | _ => acc) []

theorem requests_concat (es : List ModuleEvent) (e : ModuleEvent) :
    requests (es ++ [e]) = match e with
      | .vzalloc true => []
      | .request e => requests es ++ [e]
      | _ => requests es := by
  simp only [requests, List.foldl_append, List.foldl_cons, List.foldl_nil]

theorem requests_aside (es : List ModuleEvent) {e : ModuleEvent} (he : e.aside = true) :
    requests (es ++ [e]) = requests es := by
  rw [requests_concat]
  cases e <;> first | rfl | cases he

/-- What the block layer promises of a request that it queues. -/
def ModuleBlockLayer (_ : List (Record Module ModuleEvent ModuleShown))
    (r : Record Module ModuleEvent ModuleShown) : Prop :=
  ∀ tag rq, r.event = .request (.queue tag rq) → rq.pos + rq.nrSectors ≤ rbSectors ∧
    ∀ tag' x, r.pre.io.flight tag' = some x → rq.Apart x.rq

theorem ioRecord_of_move {s u : Module} {e : ModuleEvent} {o : ModuleShown}
    (h : moduleStep s e = some (u, o)) (hload : o ≠ .acquired .data) :
    (ioRecord ⟨s, e, o⟩ = none ∧ u.io = s.io ∧ ∀ es, requests (es ++ [e]) = requests es) ∨
      ∃ e' o', e = .request e' ∧ o = .request o' ∧ step s.io e' = some (u.io, o') := by
  cases moduleStep_move h with
  | load => exact absurd rfl hload
  | loadFails => exact .inl ⟨rfl, rfl, fun es => requests_concat es _⟩
  | acquire he => exact .inl ⟨by cases e <;> rfl, rfl, fun es => requests_aside es he⟩
  | jump _ he => exact .inl ⟨by cases e <;> rfl, rfl, fun es => requests_aside es he⟩
  | addDiskFails => exact .inl ⟨rfl, rfl, fun es => requests_aside es rfl⟩
  | undo => exact .inl ⟨rfl, rfl, fun es => requests_aside es rfl⟩
  | ended => exact .inl ⟨rfl, rfl, fun es => requests_aside es rfl⟩
  | unload => exact .inl ⟨rfl, rfl, fun es => requests_aside es rfl⟩
  | delGendisk => exact .inl ⟨rfl, rfl, fun es => requests_aside es rfl⟩
  | exit => exact .inl ⟨rfl, rfl, fun es => requests_aside es rfl⟩
  | request hstep _ => exact .inr ⟨_, _, rfl, rfl, hstep⟩

/-- Since `rb_data` was allocated, the request path has made a run of its own from a zeroed disk. -/
theorem session_run {tr : List (Record Module ModuleEvent ModuleShown)} {s : Module}
    (h : Run moduleStep Module.init tr s) (hbl : Each ModuleBlockLayer tr) :
    Run step State.init (session tr) s.io ∧ Each BlockLayer (session tr) ∧
      (session tr).map Record.event = requests (tr.map Record.event) := by
  refine h.guarded (I := fun tr s => Run step State.init (session tr) s.io ∧
    Each BlockLayer (session tr) ∧
      (session tr).map Record.event = requests (tr.map Record.event)) hbl ⟨.refl, each_nil, rfl⟩ ?_
  intro tr t e u o hrun hI hP hs
  obtain ⟨hio, hlayer, hevents⟩ := hI
  rw [List.map_append, List.map_singleton]
  by_cases hload : o = .acquired .data
  · subst hload
    rw [session_concat]
    cases moduleStep_move hs with
    | load hst =>
      have hidle := (life_run hrun).idle (by rw [hst]; rfl)
      have hinit : (⟨Image.zero, t.io.flight⟩ : State) = State.init := by
        rw [State.init, funext hidle]
      exact ⟨by simpa only [Module.acquire, hinit] using .refl, each_nil,
        (requests_concat (tr.map Record.event) (.vzalloc true)).symm⟩
    | acquire _ hm => simp at hm
  · rcases ioRecord_of_move hs hload with ⟨hnone, hsame, hquiet⟩ | ⟨e', o', rfl, rfl, hstep⟩
    · rw [session_quiet tr hload hnone, hsame, hquiet]
      exact ⟨hio, hlayer, hevents⟩
    · rw [session_concat, requests_concat]
      refine ⟨hio.tail hstep, (each_concat _ _).mpr ⟨hlayer, ?_⟩, by simp [ioRecord, hevents]⟩
      intro tag rq he
      exact hP tag rq (congrArg ModuleEvent.request he)

theorem moduleStep_request {s : Module} {e : Event} {io : State} {o : Shown}
    (h : step s.io e = some (io, o))
    (hq : ∀ tag rq, e = .queue tag rq → s.stage.serves = true ∧ tag < queueDepth) :
    moduleStep s (.request e) = some ({ s with io }, .request o) := by
  cases e with
  | queue tag rq => simp only [moduleStep, if_pos (hq tag rq rfl), h]
  | segment tag => simp only [moduleStep, h]
  | complete tag => simp only [moduleStep, h]

/-- `Answers`, of a module in use. -/
structure ModuleAnswers (L : Log) (s : Module) : Prop where
  takes : ∀ e u o, moduleStep s (.request e) = some (u, o) → L.Takes e
  queue : s.stage.serves = true → ∀ tag rq, tag < queueDepth → L.flying tag = none →
    ∃ u, moduleStep s (.request (.queue tag rq)) = some (u, .request (.queued rq)) ∧
      u.io.disk = s.io.disk
  segment : ∀ tag f bv, L.flying tag = some f → f.rq.segs[f.turns]? = some bv →
    (∃ u, moduleStep s (.request (.segment tag)) = some (u, .request (.touched f.pos bv.len))) ∧
      f.pos + bv.len ≤ rbBytes
  complete : ∀ tag f, L.flying tag = some f → f.turns = f.rq.segs.length →
    ∃ u segs, moduleStep s (.request (.complete tag)) = some (u, .request (.completed f.rq segs)) ∧
      u.io.disk = s.io.disk ∧
      (f.rq.op = .read → payload segs = (List.range (f.rq.nrSectors <<< sectorShift)).map fun k =>
        Patch.latest Image.zero L.completed (f.rq.start + k))

theorem moduleAnswers_of_answers {L : Log} {s : Module} (h : Answers L s.io) : ModuleAnswers L s where
  takes := by
    intro e u o hs
    cases moduleStep_move hs with
    | acquire he => cases he
    | jump _ he => cases he
    | request hstep _ => exact h.takes _ _ _ hstep
  queue := by
    intro hserves tag rq htag hfree
    obtain ⟨io, hstep, hdisk⟩ := h.queue tag rq hfree
    refine ⟨_, moduleStep_request hstep ?_, hdisk⟩
    intro tag' rq' he
    cases he
    exact ⟨hserves, htag⟩
  segment := by
    intro tag f bv hf hbv
    obtain ⟨⟨io, hstep⟩, hle⟩ := h.segment tag f bv hf hbv
    exact ⟨⟨_, moduleStep_request hstep (by simp)⟩, hle⟩
  complete := by
    intro tag f hf hturns
    obtain ⟨io, segs, hstep, hdisk, hread⟩ := h.complete tag f hf hturns
    exact ⟨_, segs, moduleStep_request hstep (by simp), hdisk, hread⟩

/-- The step queues no request, or one that fits on the disk while no other is in flight. -/
def queuesAlone (r : Record Module ModuleEvent ModuleShown) : Bool :=
  match r.event with
  | .request (.queue _ rq) => decide (rq.pos + rq.nrSectors ≤ rbSectors) && decide r.pre.io.Drained
  | _ => true

theorem moduleBlockLayer_of_alone {tr : List (Record Module ModuleEvent ModuleShown)} {s : Module}
    (h : Run moduleStep Module.init tr s) (hall : tr.all queuesAlone = true) :
    Each ModuleBlockLayer tr := by
  rintro past r rest rfl tag rq he
  obtain ⟨hpast, -⟩ := h.split
  have hr := List.all_eq_true.mp hall r (by simp)
  simp only [queuesAlone, he, Bool.and_eq_true, decide_eq_true_eq] at hr
  refine ⟨hr.1, ?_⟩
  intro tag' x hx
  rw [(life_run hpast).idle_of_drained hr.2 tag'] at hx
  cases hx

/-- Over any loads and unloads, with the requests since the module was last loaded: the steps are those
that the requests ask for, every copy stays inside the disk, every READ delivers what the last WRITEs
completed since then put there, and zeros where there is none; and `rb_data` holds, while it is
allocated, what these requests make it. -/
theorem rbModule_data (tr : List (Record Module ModuleEvent ModuleShown)) (s : Module)
    (h : Run moduleStep Module.init tr s) (hbl : Each ModuleBlockLayer tr) :
    ModuleAnswers (log (requests (tr.map Record.event))) s ∧
      (.data ∈ s.held → (log (requests (tr.map Record.event))).Disk s.io.disk) := by
  obtain ⟨hrun, hlayer, hevents⟩ := session_run h hbl
  have hI := inv_run hrun hlayer
  have hL := logged_run hrun
  rw [hevents] at hL
  exact ⟨moduleAnswers_of_answers (inv_answers hI hL), fun _ => inv_disk hI hL⟩

def loads : List ModuleEvent :=
  [.vzalloc true, .allocTagSet none, .allocDisk none, .registerBlkdev 259, .addDisk none]

/-- A load with a WRITE, and one that reads the sectors 3 and 4 before and after a WRITE to the second
of them. -/
def reloads : List ModuleEvent :=
  loads ++
    [.request (.queue 0 twoSegments), .request (.segment 0), .request (.segment 0),
      .request (.complete 0), .unload, .exit, .exit, .exit, .exit, .exit] ++
    loads ++
    [.request (.queue 0 (readTwo 3)), .request (.segment 0), .request (.segment 0),
      .request (.complete 0),
      .request (.queue 1 oneSegment), .request (.segment 1), .request (.complete 1),
      .request (.queue 2 (readTwo 3)), .request (.segment 2), .request (.segment 2),
      .request (.complete 2)]

/-- The bytes that a completed READ shows. -/
def deliveredBytes (r : Record Module ModuleEvent ModuleShown) : Option Bytes :=
  match r.out with
  | .request (.completed rq segs) =>
    match rq.op with
    | .read => some (payload segs)
    | .write => none
  | _ => none

theorem rbModule_data_reloads : ∃ tr s,
    (Run moduleStep Module.init tr s ∧ Each ModuleBlockLayer tr ∧ tr.map Record.event = reloads ∧
      .data ∈ s.held ∧ tr.filterMap deliveredBytes =
        [List.replicate 1024 0, List.replicate 512 0 ++ List.replicate 512 67]) ∧
    ModuleAnswers (log (requests (tr.map Record.event))) s ∧
      (.data ∈ s.held → (log (requests (tr.map Record.event))).Disk s.io.disk) := by
  obtain ⟨tr, s, hrun, hev, hq⟩ := exists_exec moduleStep Module.init reloads
    (fun x => x.1.all queuesAlone && decide (.data ∈ x.2.held) && x.1.filterMap deliveredBytes ==
      [List.replicate 1024 0, List.replicate 512 0 ++ List.replicate 512 67]) (by decide +kernel)
  simp only [Bool.and_eq_true, decide_eq_true_eq, beq_iff_eq] at hq
  obtain ⟨⟨hall, hheld⟩, hbytes⟩ := hq
  have hbl := moduleBlockLayer_of_alone hrun hall
  exact ⟨tr, s, ⟨hrun, hbl, hev, hheld, hbytes⟩, rbModule_data tr s hrun hbl⟩

end LinuxDriverLab.Ramdisk
