import LinuxDriverLab.Framework.Journal
import LinuxDriverLab.Framework.Run
import LinuxDriverLab.ParamDemo.PrintArr

/-!
# What param_demo logs

The module is loaded with arguments, its files in sysfs are read and written, and it is unloaded.
It logs all values at both ends, and every change of `cb_int` on the way.
-/

namespace LinuxDriverLab.ParamDemo

open Journal

/-! ## The module -/

/-- The two loops of `print_arr` in one function, each with its buffer. -/
structure Buffers where
  arr : Buf 160
  roArr : Buf 160

/-- `param_init`: what it logs. -/
def paramInit (b : Buffers) (vals : (p : Param) → p.kind.Val) : List Bytes :=
  let line (text : Bytes) := literal "param_demo: " ++ text ++ literal "\n"
  [line (utf8 "=== 加载：打印所有参数初值 ==="),
    line (literal "  my_int    = " ++ formatInt (vals .myInt).toInt ++ utf8 "   (0644, root 可写)"),
    line (literal "  my_ro_int = " ++ formatInt (vals .myRoInt).toInt ++ utf8 "   (0444, Quiz 主角)"),
    line (literal "  my_hidden = " ++ formatInt (vals .myHidden).toInt ++ utf8 "   (perm=0, sysfs 里看不到)"),
    line (literal "  my_wo_int = " ++ formatInt (vals .myWoInt).toInt ++ utf8 "   (perm=0200, sysfs 里只能写)"),
    line (literal "  my_bool   = " ++ formatInt (if vals .myBool then 1 else 0)),
    line (literal "  my_str    = \"" ++ (vals .myStr).bytes ++ literal "\""),
    printArr b.arr myArrName (vals .myArr).vals,
    printArr b.roArr myRoArrName (vals .myRoArr).vals,
    line (literal "  cb_int    = " ++ formatInt (vals .cbInt).toInt ++ utf8 "   (带 set 回调)"),
    line (utf8 "=== 提示：现在去 /sys/module/param_demo/parameters/ 改几个值，再 rmmod 看最终值 ===")]

/-- `param_exit`: what it logs. -/
def paramExit (b : Buffers) (vals : (p : Param) → p.kind.Val) : List Bytes :=
  let line (text : Bytes) := literal "param_demo: " ++ text ++ literal "\n"
  [line (utf8 "=== 卸载：打印所有参数最终值（与加载时对比）==="),
    line (literal "  my_int    = " ++ formatInt (vals .myInt).toInt),
    line (literal "  my_ro_int = " ++ formatInt (vals .myRoInt).toInt),
    line (literal "  my_hidden = " ++ formatInt (vals .myHidden).toInt),
    line (literal "  my_wo_int = " ++ formatInt (vals .myWoInt).toInt),
    line (literal "  my_bool   = " ++ formatInt (if vals .myBool then 1 else 0)),
    line (literal "  my_str    = \"" ++ (vals .myStr).bytes ++ literal "\""),
    printArr b.arr myArrName (vals .myArr).vals,
    printArr b.roArr myRoArrName (vals .myRoArr).vals,
    line (literal "  cb_int    = " ++ formatInt (vals .cbInt).toInt)]

/-- An argument of `insmod` goes to the `set` of its parameter; an error ends the loading. -/
def setArg (set : SetOps) (s : State) (a : Param × Bytes) : Option State :=
  match paramSet set a.1 (s.vals a.1) a.2 with
  | (v, lines, .ok ()) => some ⟨Function.update s.vals a.1 v, s.log ++ lines⟩
  | (_, _, .error _) => none

def setArgs (set : SetOps) : State → List (Param × Bytes) → Option State
  | s, [] => some s
  | s, a :: args => match setArg set s a with
    | some t => setArgs set t args
    | none => none

/-- `insmod` with its arguments -/
def insmod (set : SetOps) (b : Buffers) (args : List (Param × Bytes)) : Option State :=
  (setArgs set ⟨defaults, []⟩ args).map fun s => { s with log := s.log ++ paramInit b s.vals }

inductive Access
  | read (p : Param)
  | write (p : Param) (val : Bytes)

/-- `refused` is what there is for a file that does not exist or has not the mode. -/
inductive Answer
  | data (text : Bytes)
  | written
  | error (e : Errno)
  | refused

/-- One access of root to a file in sysfs. -/
def step (set : SetOps) (s : State) : Access → Option (State × Answer)
  | .read p => some (s, if p.readable then .data (s.show p) else .refused)
  | .write p val =>
    some (if p.writable then
      match s.write set p val with
      | (t, .ok ()) => (t, .written)
      | (t, .error e) => (t, .error e)
    else (s, .refused))

/-! ## The changes of cb_int -/

/-- `"cb_int changed: %d -> %d (module was notified)\n"` -/
def changeLine (old new : Int32) : Bytes :=
  literal "param_demo: cb_int changed: " ++ formatInt old.toInt ++ literal " -> " ++
    formatInt new.toInt ++ literal " (module was notified)\n"

/-- What is relied on of `param_set_int`: with an error the variable stays. -/
def KeepsOnError (set : SetOps) : Prop := ∀ old val x e, set .int old val = (x, .error e) → x = old

/-- The value that a `set` of `cb_int` leaves, if it is taken. -/
def cbValue (set : SetOps) (old : Int32) (val : Bytes) : Option Int32 :=
  match set .int old val with
  | (x, .ok ()) => some x
  | (_, .error _) => none

/-- The value that a step gives `cb_int`, if it does. -/
def cbChange (set : SetOps) (r : Record State Access Answer) : Option Int32 :=
  match r.event with
  | .write .cbInt val => if val = [] then none else cbValue set (r.pre.vals .cbInt) val
  | _ => none

/-- The values that the arguments give `cb_int`. -/
def cbArgs (set : SetOps) : Int32 → List (Param × Bytes) → List Int32
  | _, [] => []
  | old, (.cbInt, val) :: args =>
    (cbValue set old val).toList ++ cbArgs set (lastOf old (cbValue set old val).toList) args
  | old, _ :: args => cbArgs set old args

theorem cbIntSet_spec {set : SetOps} (hset : KeepsOnError set) (old : Int32) (val : Bytes) :
    (cbIntSet set old val).1 = lastOf old (cbValue set old val).toList ∧
      (cbIntSet set old val).2.1 = lines changeLine old (cbValue set old val).toList := by
  cases h : set .int old val with
  | mk x res =>
    cases res with
    | ok u => simp [cbIntSet, cbValue, h, lastOf, lines, changeLine]
    | error e => simp [cbIntSet, cbValue, h, lastOf, lines, hset old val x e h]

theorem paramSet_quiet (set : SetOps) {p : Param} (hp : p ≠ .cbInt) (old : p.kind.Val) (val : Bytes) :
    (paramSet set p old val).2.1 = [] := by
  cases p <;> first | rfl | exact absurd rfl hp

/-- The module is at the end of the changes `xs` that began in `s`. -/
structure Changed (s : State) (xs : List Int32) (t : State) : Prop where
  value : t.vals .cbInt = lastOf (s.vals .cbInt) xs
  log : t.log = s.log ++ lines changeLine (s.vals .cbInt) xs

theorem Changed.refl (s : State) : Changed s [] s := ⟨rfl, (List.append_nil _).symm⟩

theorem Changed.trans {s t u : State} {xs ys : List Int32} (h : Changed s xs t) (h' : Changed t ys u) :
    Changed s (xs ++ ys) u := by
  constructor
  · rw [h'.value, h.value, lastOf_append]
  · rw [h'.log, h.log, h.value, lines_append, List.append_assoc]

theorem changed_set {set : SetOps} (hset : KeepsOnError set) (s : State) (p : Param) (val : Bytes) :
    Changed s (if p = .cbInt then (cbValue set (s.vals .cbInt) val).toList else [])
      ⟨Function.update s.vals p (paramSet set p (s.vals p) val).1,
        s.log ++ (paramSet set p (s.vals p) val).2.1⟩ := by
  by_cases hp : p = .cbInt
  · subst hp
    obtain ⟨hvalue, hlog⟩ := cbIntSet_spec hset (s.vals .cbInt) val
    rw [if_pos rfl]
    constructor
    · simp only [Function.update_self]
      exact hvalue
    · exact congrArg (s.log ++ ·) hlog
  · rw [if_neg hp]
    refine ⟨Function.update_of_ne (Ne.symm hp) _ _, ?_⟩
    simp only [paramSet_quiet set hp, lines]

/-! ## Loading -/

theorem changed_args {set : SetOps} (hset : KeepsOnError set) {args : List (Param × Bytes)} {s t : State}
    (h : setArgs set s args = some t) : Changed s (cbArgs set (s.vals .cbInt) args) t := by
  induction args generalizing s with
  | nil =>
    obtain rfl := Option.some.inj h
    exact .refl _
  | cons a args ih =>
    obtain ⟨p, val⟩ := a
    have hone := changed_set hset s p val
    simp only [setArgs, setArg] at h
    split at h
    · next u hu =>
      split at hu
      · next v ls hps =>
        cases hu
        rw [hps] at hone
        have hrest := hone.trans (ih h)
        by_cases hp : p = .cbInt
        · subst hp
          rw [if_pos rfl, hone.value, if_pos rfl] at hrest
          exact hrest
        · rw [if_neg hp, hone.value, if_neg hp] at hrest
          cases p <;> first | exact hrest | exact absurd rfl hp
      · cases hu
    · cases h

/-! ## Use -/

theorem changed_write {set : SetOps} (hset : KeepsOnError set) (s : State) (p : Param) (val : Bytes)
    (o : Answer) : Changed s (cbChange set ⟨s, .write p val, o⟩).toList (s.write set p val).1 := by
  have hone := changed_set hset s p val
  by_cases hval : val = []
  · subst hval
    have hnone : cbChange set ⟨s, .write p [], o⟩ = none := by cases p <;> rfl
    rw [hnone]
    exact .refl s
  · have hsome : (cbChange set ⟨s, .write p val, o⟩).toList =
        if p = .cbInt then (cbValue set (s.vals .cbInt) val).toList else [] := by
      cases p <;> simp [cbChange, hval]
    rw [hsome, State.write, if_neg hval]
    exact hone

theorem step_cases {set : SetOps} {s t : State} {e : Access} {o : Answer}
    (h : step set s e = some (t, o)) : t = s ∧ cbChange set ⟨s, e, o⟩ = none ∨
      ∃ p val, e = .write p val ∧ p.writable = true ∧ t = (s.write set p val).1 := by
  cases e with
  | read p =>
    cases h
    exact .inl ⟨rfl, rfl⟩
  | write p val =>
    simp only [step, Option.some.injEq] at h
    split at h
    · next hw =>
      refine .inr ⟨p, val, rfl, hw, ?_⟩
      split at h
      · next hres =>
        cases h
        rw [hres]
      · next hres =>
        cases h
        rw [hres]
    · next hw =>
      cases h
      refine .inl ⟨rfl, ?_⟩
      cases p <;> first | rfl | exact absurd rfl hw

theorem changed_step {set : SetOps} (hset : KeepsOnError set) {s t : State} {e : Access} {o : Answer}
    (h : step set s e = some (t, o)) :
    Changed s (cbChange set ⟨s, e, o⟩).toList t ∧ ∀ p, p.writable = false → t.vals p = s.vals p := by
  rcases step_cases h with ⟨rfl, hnone⟩ | ⟨p, val, rfl, hw, rfl⟩
  · rw [hnone]
    exact ⟨.refl t, fun _ _ => rfl⟩
  · refine ⟨changed_write hset s p val o, fun q hq => write_other set s ?_ val⟩
    rintro rfl
    rw [hw] at hq
    cases hq

theorem changed_run {set : SetOps} (hset : KeepsOnError set) {s t : State}
    {tr : List (Record State Access Answer)} (h : Run (step set) s tr t) :
    Changed s (tr.filterMap (cbChange set)) t ∧ ∀ p, p.writable = false → t.vals p = s.vals p := by
  induction h with
  | refl => exact ⟨.refl s, fun _ _ => rfl⟩
  | @tail t u tr e o _ hs ih =>
    obtain ⟨hchanged, hsame⟩ := changed_step hset hs
    refine ⟨?_, fun p hp => (hsame p hp).trans (ih.2 p hp)⟩
    have hlast : [(⟨t, e, o⟩ : Record State Access Answer)].filterMap (cbChange set) =
        (cbChange set ⟨t, e, o⟩).toList := by
      cases hc : cbChange set ⟨t, e, o⟩ <;> simp [hc]
    rw [List.filterMap_append, hlast]
    exact ih.1.trans hchanged

/-! ## The whole log -/

/-- The log when the module has been unloaded. -/
def State.unloaded (b : Buffers) (t : State) : List Bytes := t.log ++ paramExit b t.vals

/-- A module that has been loaded, used and unloaded. -/
structure Life (set : SetOps) where
  args : List (Param × Bytes)
  loadBuffers : Buffers
  exitBuffers : Buffers
  loaded : State
  trace : List (Record State Access Answer)
  last : State
  load : insmod set loadBuffers args = some loaded
  run : Run (step set) loaded trace last

namespace Life

variable {set : SetOps} (l : Life set)

/-- The values that `cb_int` was given while the module was loaded, and while it was in use. -/
def loadChanges : List Int32 := cbArgs set 0 l.args

def useChanges : List Int32 := l.trace.filterMap (cbChange set)

def log : List Bytes := l.last.unloaded l.exitBuffers

end Life

section

variable {set : SetOps} (hset : KeepsOnError set) (l : Life set)

include hset

theorem loaded_eq : l.loaded.vals .cbInt = lastOf (0 : Int32) l.loadChanges ∧
    l.loaded.log = lines changeLine 0 l.loadChanges ++ paramInit l.loadBuffers l.loaded.vals := by
  obtain ⟨u, hu, hloaded⟩ := Option.map_eq_some_iff.mp l.load
  have hload := changed_args hset hu
  have hvals : l.loaded.vals = u.vals := by rw [← hloaded]
  rw [hvals]
  constructor
  · exact hload.value
  · rw [← hloaded]
    exact congrArg (· ++ paramInit l.loadBuffers u.vals) hload.log

theorem log_eq : l.log = lines changeLine 0 l.loadChanges ++ paramInit l.loadBuffers l.loaded.vals ++
    lines changeLine (lastOf 0 l.loadChanges) l.useChanges ++ paramExit l.exitBuffers l.last.vals := by
  obtain ⟨hfirst, hlog⟩ := loaded_eq hset l
  rw [Life.log, State.unloaded, (changed_run hset l.run).1.log, hlog, hfirst]
  rfl

/-- The log of a module, from loading to unloading: every change of `cb_int` with the value before and
the value after, between them all values as they were at first, and at last all values as they
are. The parameters that cannot be written are the same at both ends. -/
theorem log_life :
    l.log = lines changeLine 0 l.loadChanges ++ paramInit l.loadBuffers l.loaded.vals ++
      lines changeLine (lastOf 0 l.loadChanges) l.useChanges ++ paramExit l.exitBuffers l.last.vals ∧
    l.loaded.vals .cbInt = lastOf (0 : Int32) l.loadChanges ∧
    l.last.vals .cbInt = lastOf (lastOf (0 : Int32) l.loadChanges) l.useChanges ∧
    ∀ p, p.writable = false → l.last.vals p = l.loaded.vals p := by
  obtain ⟨hfirst, -⟩ := loaded_eq hset l
  obtain ⟨huse, hsame⟩ := changed_run hset l.run
  refine ⟨log_eq hset l, hfirst, ?_, hsame⟩
  rw [huse.value, hfirst]
  rfl

end

theorem plainSet_keepsOnError : KeepsOnError plainSet := by
  intro old val x e h
  simp only [plainSet] at h
  split at h
  · cases h
  · cases h
    rfl

/-- A module that is loaded with `my_int=3 cb_int=5`. -/
def sampleLoaded : State :=
  (insmod plainSet ⟨.zero 160, .zero 160⟩ [(.myInt, literal "3"), (.cbInt, literal "5")]).get (by decide)

theorem sampleLife (es : List Access) (q : List (Record State Access Answer) × State → Bool)
    (h : (exec (step plainSet) sampleLoaded es).any q = true) :
    ∃ l : Life plainSet, l.loadChanges = [5] ∧ l.trace.map Record.event = es ∧
      q (l.trace, l.last) = true ∧ l.exitBuffers = ⟨.zero 160, .zero 160⟩ := by
  obtain ⟨tr, t, hrun, hev, hq⟩ := exists_exec (step plainSet) sampleLoaded es q h
  have hload : cbArgs plainSet 0 [(.myInt, literal "3"), (.cbInt, literal "5")] = [5] := by decide
  exact ⟨⟨_, _, ⟨.zero 160, .zero 160⟩, sampleLoaded, tr, t, (Option.some_get _).symm, hrun⟩, hload, hev,
    hq, rfl⟩

/-- A write to a file that cannot be written, one of no number, and two of numbers -/
theorem log_life_sample : ∃ l : Life plainSet, l.loadChanges = [5] ∧ l.useChanges = [7, -1] ∧
    l.log = lines changeLine 0 [5] ++ paramInit l.loadBuffers l.loaded.vals ++
      lines changeLine 5 [7, -1] ++ paramExit l.exitBuffers l.last.vals := by
  obtain ⟨l, hload, -, hq, -⟩ := sampleLife [.write .myRoInt (literal "1"),
    .write .cbInt (literal "7"), .write .cbInt (literal "x"), .write .cbInt (literal "-1")]
    (fun x => decide (x.1.filterMap (cbChange plainSet) = [7, -1])) (by decide +kernel)
  have huse : l.useChanges = [7, -1] := of_decide_eq_true hq
  refine ⟨l, hload, huse, ?_⟩
  rw [(log_life plainSet_keepsOnError l).1, hload, huse]
  rfl

/-! ## Reading the log back -/

theorem formatInt_append_inj {x y : Int} {u v : Bytes} (hu : ∀ b ∈ u.head?, ¬ isDigit b)
    (hv : ∀ b ∈ v.head?, ¬ isDigit b) (h : formatInt x ++ u = formatInt y ++ v) : x = y := by
  rcases Int.lt_or_le x 0 with hx | hx
  · rcases Int.lt_or_le y 0 with hy | hy
    · rw [formatInt, if_pos hx, formatInt, if_pos hy] at h
      have habs := (decimal_append_inj hu hv (List.cons.inj h).2).1
      omega
    · exact absurd h (formatInt_append_ne hx hy u v)
  · rcases Int.lt_or_le y 0 with hy | hy
    · exact absurd h.symm (formatInt_append_ne hy hx v u)
    · rw [formatInt, if_neg (by omega), formatInt, if_neg (by omega)] at h
      have habs := (decimal_append_inj hu hv h).1
      omega

theorem changeLine_inj (old x y : Int32) (h : changeLine old x = changeLine old y) : x = y := by
  have hnew : formatInt x.toInt ++ literal " (module was notified)\n" =
      formatInt y.toInt ++ literal " (module was notified)\n" := by
    simpa only [changeLine, List.append_assoc, List.append_cancel_left_eq] using h
  have hblank : ∀ b ∈ (literal " (module was notified)\n").head?, ¬ isDigit b := by
    rintro b ⟨⟩
    decide
  exact Int32.toInt_inj.mp (formatInt_append_inj hblank hblank hnew)

/-- The 13th character of a line tells a change from the first line of a list. -/
theorem changeLine_mark (x y : Int32) : (changeLine x y)[12]? = some 99 := by
  rw [changeLine, List.append_assoc, List.append_assoc, List.append_assoc,
    List.getElem?_append_left (by decide)]
  rfl

theorem changeLine_ne (x y : Int32) {l : Bytes} (h : l[12]? = some 61) : changeLine x y ≠ l := by
  rintro rfl
  rw [changeLine_mark] at h
  cases h

/-- The first lines that `param_init` and `param_exit` log. -/
def initHead : Bytes :=
  literal "param_demo: " ++ utf8 "=== 加载：打印所有参数初值 ===" ++ literal "\n"

def exitHead : Bytes :=
  literal "param_demo: " ++ utf8 "=== 卸载：打印所有参数最终值（与加载时对比）===" ++ literal "\n"

theorem paramInit_shape (b : Buffers) (vals : (p : Param) → p.kind.Val) :
    ∃ rest, paramInit b vals = initHead :: rest ∧ rest.length = 10 := ⟨_, rfl, rfl⟩

theorem paramExit_shape (b : Buffers) (vals : (p : Param) → p.kind.Val) :
    ∃ rest, paramExit b vals = exitHead :: rest := ⟨_, rfl⟩

/-- Two modules that have logged the same were given the same values for `cb_int` in the same order, as
they were loaded and in use. -/
theorem log_determines {set : SetOps} (hset : KeepsOnError set) (l m : Life set) (h : l.log = m.log) :
    l.loadChanges = m.loadChanges ∧ l.useChanges = m.useChanges := by
  rw [log_eq hset l, log_eq hset m] at h
  obtain ⟨ls, hls, hllen⟩ := paramInit_shape l.loadBuffers l.loaded.vals
  obtain ⟨ms, hms, hmlen⟩ := paramInit_shape m.loadBuffers m.loaded.vals
  obtain ⟨le, hle⟩ := paramExit_shape l.exitBuffers l.last.vals
  obtain ⟨me, hme⟩ := paramExit_shape m.exitBuffers m.last.vals
  have hinit : ∀ x y, changeLine x y ≠ initHead := fun x y => changeLine_ne x y (by decide)
  have hexit : ∀ x y, changeLine x y ≠ exitHead := fun x y => changeLine_ne x y (by decide)
  simp only [hls, hms, hle, hme, List.append_assoc, List.cons_append] at h
  obtain ⟨hload, -, hrest⟩ := lines_append_inj changeLine_inj hinit hinit h
  obtain ⟨-, huse⟩ := List.append_inj hrest (hllen.trans hmlen.symm)
  rw [hload] at huse
  exact ⟨hload, (lines_append_inj changeLine_inj hexit hexit huse).1⟩

/-- Two writes of numbers, and the same with a read and a write of no number in between. -/
def plainUse : List Access := [.write .cbInt (literal "7"), .write .cbInt (literal "-1")]

def busyUse : List Access :=
  [.write .cbInt (literal "7"), .read .cbInt, .write .cbInt (literal "x"), .write .cbInt (literal "-1")]

theorem log_determines_sample : ∃ l m : Life plainSet,
    (l.trace.map Record.event = plainUse ∧ m.trace.map Record.event = busyUse ∧ l.log = m.log ∧
      l.loadChanges = [5] ∧ l.useChanges = [7, -1]) ∧
    l.loadChanges = m.loadChanges ∧ l.useChanges = m.useChanges := by
  let logged := sampleLoaded.log ++ lines changeLine 5 [7, -1] ++
    paramExit ⟨.zero 160, .zero 160⟩ (Function.update sampleLoaded.vals .cbInt (-1))
  let q (x : List (Record State Access Answer) × State) : Bool :=
    decide (x.1.filterMap (cbChange plainSet) = [7, -1]) &&
      decide (x.2.unloaded ⟨.zero 160, .zero 160⟩ = logged)
  obtain ⟨l, hload, hlev, hl, hlbuf⟩ := sampleLife plainUse q (by decide +kernel)
  obtain ⟨m, -, hmev, hm, hmbuf⟩ := sampleLife busyUse q (by decide +kernel)
  simp only [q, Bool.and_eq_true, decide_eq_true_eq] at hl hm
  have hlog : l.log = m.log := by
    rw [Life.log, Life.log, hlbuf, hmbuf, hl.2, hm.2]
  exact ⟨l, m, ⟨hlev, hmev, hlog, hload, hl.1⟩, log_determines plainSet_keepsOnError l m hlog⟩

end LinuxDriverLab.ParamDemo
