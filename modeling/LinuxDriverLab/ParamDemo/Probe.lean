import Mathlib.Data.List.DropRight
import LinuxDriverLab.ParamDemo.Params

/-!
# Probing the parameters

`param_probe`, run by root, reads the file of every parameter, writes a test value and writes back
what it has read, less the newlines and blanks at its end.
-/

namespace LinuxDriverLab.ParamDemo

/-- An entry of `PROBES`. -/
structure Probe where
  param : Param
  wval : Bytes
deriving DecidableEq

def probes : List Probe :=
  [⟨.myInt, literal "1234"⟩, ⟨.myRoInt, literal "5678"⟩, ⟨.myHidden, literal "9"⟩,
    ⟨.myWoInt, literal "88"⟩, ⟨.myBool, literal "1"⟩, ⟨.myStr, literal "probe"⟩,
    ⟨.myArr, literal "7,8"⟩, ⟨.myRoArr, literal "5,6"⟩, ⟨.cbInt, literal "4321"⟩]

/-- A newline or a blank. -/
def trailing (b : UInt8) : Bool := b = 10 || b = 32

/-- `read_file` into an array of `n` bytes: the string that it leaves there. -/
def readFile (content : Bytes) (n : Nat) : Bytes :=
  cString ((content.take (n - 1)).rdropWhile trailing)

/-- One turn of the loop of `main`: what becomes of the module. -/
def probeStep (set : SetOps) (s : State) (p : Probe) : State :=
  -- a parameter of mode 0 has no file
  if p.param.perm = 0 then s
  else
    let old := if p.param.readable then some (readFile (s.show p.param) 512) else none
    if p.param.writable then
      match s.write set p.param p.wval, old with
      | (s, .error _), _ => s
      | (s, .ok ()), none => s
      | (s, .ok ()), some old => (s.write set p.param old).1
    else s

/-- The probing loop. -/
def probeAll (set : SetOps) (s : State) : State := probes.foldl (probeStep set) s

/-! ## One parameter -/

section

variable {set : SetOps} {s t : State} {p : Param} {q : Probe}

theorem probeStep_other (h : p ≠ q.param) : (probeStep set s q).vals p = s.vals p := by
  have hwrite := write_other set s h q.wval
  simp only [probeStep]
  split
  · rfl
  · split
    · split
      · next hw =>
        rw [hw] at hwrite
        exact hwrite
      · next hw _ =>
        rw [hw] at hwrite
        exact hwrite
      · next hw _ =>
        rw [hw] at hwrite
        rw [write_other set _ h, hwrite]
    · rfl

theorem probeStep_self {w : q.param.kind.Val} (hread : q.param.readable = true)
    (hwrite : q.param.writable = true) (hval : q.wval ≠ [])
    (hw : set q.param.kind (s.vals q.param) q.wval = (w, .ok ())) :
    ∃ u : State, u.vals q.param = w ∧
      (probeStep set s q).vals q.param = (u.write set q.param (readFile (s.show q.param) 512)).1.vals q.param := by
  have hperm := Param.perm_ne_zero_of_readable hread
  obtain ⟨hvals, hres⟩ := write_of_set hval hw
  cases hpair : s.write set q.param q.wval with
  | mk u res =>
    rw [hpair] at hvals hres
    simp only at hvals hres
    subst hres
    exact ⟨u, hvals, by simp only [probeStep, if_neg hperm, hread, hwrite, if_true, hpair]⟩

theorem probeStep_congr (h : s.vals q.param = t.vals q.param) :
    (probeStep set s q).vals q.param = (probeStep set t q).vals q.param := by
  obtain ⟨hvals, hres⟩ := write_congr set h q.wval
  have hshow : s.show q.param = t.show q.param := by rw [State.show, h, State.show]
  simp only [probeStep, hshow]
  split
  · exact h
  · split
    · cases hs : s.write set q.param q.wval with
      | mk s' res =>
        cases ht : t.write set q.param q.wval with
        | mk t' res' =>
          rw [hs, ht] at hvals hres
          simp only at hvals hres
          subst hres
          cases res with
          | error e => exact hvals
          | ok _ =>
            cases q.param.readable with
            | false => exact hvals
            | true => exact (write_congr set hvals _).1
    · exact h

end

/-! ## The loop -/

theorem foldl_probe_other {set : SetOps} {s : State} {p : Param} (qs : List Probe)
    (h : p ∉ qs.map Probe.param) : (qs.foldl (probeStep set) s).vals p = s.vals p := by
  induction qs generalizing s with
  | nil => rfl
  | cons q qs ih =>
    rw [List.map_cons, List.mem_cons, not_or] at h
    rw [List.foldl_cons, ih h.2, probeStep_other h.1]

/-- Every parameter is probed once, from the value that it had at the start. -/
theorem foldl_probe {set : SetOps} {s : State} {q : Probe} (qs : List Probe)
    (hnodup : (qs.map Probe.param).Nodup) (hq : q ∈ qs) :
    (qs.foldl (probeStep set) s).vals q.param = (probeStep set s q).vals q.param := by
  induction qs generalizing s with
  | nil => cases hq
  | cons r qs ih =>
    obtain ⟨hr, hrest⟩ := List.nodup_cons.mp hnodup
    rw [List.foldl_cons]
    rcases List.mem_cons.mp hq with rfl | hq
    · exact foldl_probe_other qs hr
    · have hne : q.param ≠ r.param := fun h => hr (h ▸ List.mem_map_of_mem hq)
      rw [ih hrest hq]
      exact probeStep_congr (probeStep_other hne)

/-! ## The texts -/

theorem intercalate_imp {P : UInt8 → Prop} {sep : Bytes} {ls : List Bytes} (hsep : ∀ b ∈ sep, P b)
    (hls : ∀ l ∈ ls, ∀ b ∈ l, P b) : ∀ b ∈ sep.intercalate ls, P b := by
  induction ls with
  | nil => simp
  | cons l ls ih =>
    obtain ⟨hl, hrest⟩ := List.forall_mem_cons.mp hls
    cases ls with
    | nil => simpa using hl
    | cons l' ls =>
      intro b hb
      rw [List.intercalate_cons_cons, List.mem_append, List.mem_append] at hb
      rcases hb with (hb | hb) | hb
      · exact hl b hb
      · exact hsep b hb
      · exact ih hrest b hb

theorem intercalate_length_le {sep : Bytes} {n : Nat} {ls : List Bytes} (hls : ∀ l ∈ ls, l.length ≤ n) :
    (sep.intercalate ls).length ≤ (n + sep.length) * ls.length := by
  induction ls with
  | nil => simp
  | cons l ls ih =>
    obtain ⟨hl, hrest⟩ := List.forall_mem_cons.mp hls
    have hrest' := ih hrest
    cases ls with
    | nil =>
      rw [List.intercalate_singleton, List.length_singleton]
      omega
    | cons l' ls =>
      rw [List.intercalate_cons_cons, List.length_append, List.length_append, List.length_cons, Nat.mul_succ]
      omega

theorem formatInt_visible (x : Int) : ∀ b ∈ formatInt x, 33 ≤ b.toNat := by
  have hdecimal : ∀ b ∈ decimal x.natAbs, 33 ≤ b.toNat := by
    intro b hb
    have hdigit := decimal_isDigit hb
    simp only [isDigit, Bool.and_eq_true, decide_eq_true_eq] at hdigit
    omega
  unfold formatInt
  split
  · exact List.forall_mem_cons.mpr ⟨by decide, hdecimal⟩
  · exact hdecimal

theorem formatInt_ne_nil (x : Int) : formatInt x ≠ [] := by
  unfold formatInt
  split
  · simp
  · exact decimal_ne_nil _

theorem text_visible {k : Kind} (hk : k ≠ .charp) (v : k.Val) : ∀ b ∈ k.text v, 33 ≤ b.toNat := by
  cases k with
  | int => exact formatInt_visible _
  | bool => cases v <;> simp [Kind.text]
  | charp => exact absurd rfl hk
  | array =>
    have hcomma : ∀ b ∈ ([44] : Bytes), 33 ≤ b.toNat := by simp
    refine intercalate_imp hcomma ?_
    intro l hl
    obtain ⟨x, -, rfl⟩ := List.mem_map.mp hl
    exact formatInt_visible _

theorem text_length_le {k : Kind} (hk : k ≠ .charp) (v : k.Val) : (k.text v).length ≤ 96 := by
  cases k with
  | int => exact (formatInt_length_le v.le_toInt v.toInt_lt).trans (by decide)
  | bool => cases v <;> decide
  | charp => exact absurd rfl hk
  | array =>
    have hcount := v.length_le
    have hlen : (Kind.text .array v).length ≤ (11 + 1) * (v.vals.map fun x => formatInt x.toInt).length := by
      apply intercalate_length_le
      intro l hl
      obtain ⟨x, -, rfl⟩ := List.mem_map.mp hl
      exact formatInt_length_le x.le_toInt x.toInt_lt
    rw [List.length_map] at hlen
    omega

theorem array_text_ne_nil {a : IntArray} (h : a.vals ≠ []) : Kind.text .array a ≠ [] := by
  obtain ⟨x, xs, hx⟩ := List.exists_cons_of_ne_nil h
  obtain ⟨c, cs, hc⟩ := List.exists_cons_of_ne_nil (formatInt_ne_nil x.toInt)
  simp [Kind.text, hx, hc]

theorem readFile_text {text : Bytes} (hnul : (0 : UInt8) ∉ text) (hlen : text.length ≤ 510) :
    readFile (text ++ [10]) 512 = text.rdropWhile trailing := by
  have hmem : (0 : UInt8) ∉ text.rdropWhile trailing := fun h => hnul ((List.rdropWhile_prefix _ _).subset h)
  rw [readFile, List.take_of_length_le (by simp; omega), List.rdropWhile_concat_pos _ _ _ rfl,
    cString_of_nulFree hmem]

theorem rdropWhile_visible {text : Bytes} (h : ∀ b ∈ text, 33 ≤ b.toNat) :
    text.rdropWhile trailing = text := by
  rw [List.rdropWhile_eq_self_iff]
  intro hne htrailing
  have hlast := h _ (List.getLast_mem hne)
  simp only [trailing, Bool.or_eq_true, decide_eq_true_eq] at htrailing
  rcases htrailing with h10 | h32
  · rw [h10] at hlast
    exact absurd hlast (by decide)
  · rw [h32] at hlast
    exact absurd hlast (by decide)

/-- A text of at least one byte, the last of which `read_file` leaves. -/
def EndsVisibly (text : Bytes) : Prop := text ≠ [] ∧ ∀ b ∈ text.getLast?, b ≠ 10 ∧ b ≠ 32

theorem endsVisibly_iff (text : Bytes) :
    EndsVisibly text ↔ text ≠ [] ∧ text.rdropWhile trailing = text := by
  refine and_congr_right fun hne => ?_
  rw [List.rdropWhile_eq_self_iff, List.getLast?_eq_some_getLast hne]
  simp [trailing, hne]

/-! ## What is restored -/

section

variable {set : SetOps} {s : State}

theorem probeAll_eq {q : Probe} (hq : q ∈ probes) :
    (probeAll set s).vals q.param = (probeStep set s q).vals q.param :=
  foldl_probe probes (by decide) hq

/-- A value comes back if its text is left as it is by `read_file`, and sets it. -/
theorem probeAll_restores {q : Probe} {w : q.param.kind.Val} (hq : q ∈ probes)
    (hread : q.param.readable = true) (hwrite : q.param.writable = true) (hval : q.wval ≠ [])
    (hw : set q.param.kind (s.vals q.param) q.wval = (w, .ok ()))
    (hfile : readFile (s.show q.param) 512 = q.param.kind.text (s.vals q.param))
    (hne : q.param.kind.text (s.vals q.param) ≠ [])
    (hset : ∀ old, set q.param.kind old (q.param.kind.text (s.vals q.param)) = (s.vals q.param, .ok ())) :
    (probeAll set s).vals q.param = s.vals q.param := by
  obtain ⟨u, -, hfinal⟩ := probeStep_self hread hwrite hval hw
  rw [probeAll_eq hq, hfinal, hfile]
  exact (write_of_set hne (hset _)).1

theorem readFile_visible {p : Param} (hp : p.kind ≠ .charp) :
    readFile (s.show p) 512 = p.kind.text (s.vals p) := by
  have hvisible := text_visible hp (s.vals p)
  have hnul : (0 : UInt8) ∉ p.kind.text (s.vals p) := fun h => absurd (hvisible 0 h) (by decide)
  rw [State.show, readFile_text hnul ((text_length_le hp _).trans (by decide)), rdropWhile_visible hvisible]

theorem myInt_restored (h : Documented set) : (probeAll set s).vals .myInt = s.vals .myInt :=
  @probeAll_restores set s ⟨.myInt, literal "1234"⟩ 1234 (by decide) rfl rfl (by decide)
    (h.int _ (1234 : Int32))
    (readFile_visible (by decide)) (formatInt_ne_nil _) fun old => h.int old _

theorem cbInt_restored (h : Documented set) : (probeAll set s).vals .cbInt = s.vals .cbInt :=
  @probeAll_restores set s ⟨.cbInt, literal "4321"⟩ 4321 (by decide) rfl rfl (by decide)
    (h.int _ (4321 : Int32))
    (readFile_visible (by decide)) (formatInt_ne_nil _) fun old => h.int old _

theorem myBool_restored (h : Documented set) : (probeAll set s).vals .myBool = s.vals .myBool :=
  @probeAll_restores set s ⟨.myBool, literal "1"⟩ true (by decide) rfl rfl (by decide) (h.digit _ true)
    (readFile_visible (by decide)) (by cases s.vals .myBool <;> decide) fun old => h.bool old _

/-- The array of the test value. -/
def sevenEight : IntArray := ⟨[7, 8], by decide⟩

/-- An array of no elements shows as no text, and a write of no text does not empty it again. -/
theorem myArr_restored_iff (h : Documented set) :
    (probeAll set s).vals .myArr = s.vals .myArr ↔ (s.vals .myArr).vals ≠ [] := by
  have hw : set .array (s.vals .myArr) (literal "7,8") = (sevenEight, .ok ()) :=
    h.array _ sevenEight (by decide)
  constructor
  · intro hkept hnil
    obtain ⟨u, hu, hfinal⟩ := @probeStep_self set s ⟨.myArr, literal "7,8"⟩ sevenEight rfl rfl (by decide) hw
    have hfile : readFile (s.show .myArr) 512 = [] := by
      have hvisible := @readFile_visible s .myArr (by decide)
      rw [hvisible]
      simp [Kind.text, hnil]
    have hall : (probeAll set s).vals .myArr = sevenEight := by
      rw [← hu]
      have heq := @probeAll_eq set s ⟨.myArr, literal "7,8"⟩ (by decide)
      rw [heq, hfinal, hfile, State.write, if_pos rfl]
    rw [← hkept, hall] at hnil
    exact absurd hnil (by decide)
  · intro hne
    exact @probeAll_restores set s ⟨.myArr, literal "7,8"⟩ sevenEight (by decide) rfl rfl (by decide) hw
      (readFile_visible (by decide)) (array_text_ne_nil hne) fun old => h.array old _ hne

def probeStr : CStr := ⟨literal "probe", by decide⟩

theorem myStr_restored_iff (h : Documented set) (hlen : (s.vals .myStr).bytes.length ≤ 500) :
    (probeAll set s).vals .myStr = s.vals .myStr ↔ EndsVisibly (s.vals .myStr).bytes := by
  have hw : set .charp (s.vals .myStr) (literal "probe") = (probeStr, .ok ()) :=
    h.charp _ probeStr (by decide)
  have hfile : readFile (s.show .myStr) 512 = (s.vals .myStr).bytes.rdropWhile trailing :=
    readFile_text (s.vals .myStr).nulFree (hlen.trans (by decide))
  rw [endsVisibly_iff]
  constructor
  · intro hkept
    obtain ⟨u, hu, hfinal⟩ := @probeStep_self set s ⟨.myStr, literal "probe"⟩ probeStr rfl rfl (by decide) hw
    have heq := @probeAll_eq set s ⟨.myStr, literal "probe"⟩ (by decide)
    rw [hfinal, hfile] at heq
    by_cases hnil : (s.vals .myStr).bytes.rdropWhile trailing = []
    · -- nothing is written back, and the test value is not of the kind that shows as nothing
      rw [hnil, State.write, if_pos rfl, hu, hkept] at heq
      rw [heq] at hnil
      exact absurd hnil (by decide)
    · have hstart := List.rdropWhile_prefix trailing (s.vals .myStr).bytes
      have hset := h.charp (u.vals .myStr) ⟨_, fun h0 => (s.vals .myStr).nulFree (hstart.subset h0)⟩
        (hstart.length_le.trans (hlen.trans (by decide)))
      rw [(@write_of_set set u .myStr _ _ hnil hset).1, hkept] at heq
      have hbytes := congrArg CStr.bytes heq
      exact ⟨fun hempty => hnil (by rw [hempty]; rfl), hbytes.symm⟩
  · rintro ⟨hne, hend⟩
    exact @probeAll_restores set s ⟨.myStr, literal "probe"⟩ probeStr (by decide) rfl rfl (by decide) hw
      (hfile.trans hend) hne fun old => h.charp old _ (hlen.trans (by decide))

end

/-- The probing leaves all parameters that can be read and written as they were exactly when the array
has an element and the string is not empty and does not end in a blank or a newline. -/
theorem probeAll_restores_iff {set : SetOps} (h : Documented set) (s : State)
    (hlen : (s.vals .myStr).bytes.length ≤ 500) :
    (∀ p : Param, p.readable = true → p.writable = true → (probeAll set s).vals p = s.vals p) ↔
      (s.vals .myArr).vals ≠ [] ∧ EndsVisibly (s.vals .myStr).bytes := by
  rw [← myArr_restored_iff h, ← myStr_restored_iff h hlen]
  constructor
  · intro hall
    exact ⟨hall .myArr rfl rfl, hall .myStr rfl rfl⟩
  · rintro ⟨harr, hstr⟩ p hread hwrite
    cases p with
    | myInt => exact myInt_restored h
    | myBool => exact myBool_restored h
    | myStr => exact hstr
    | myArr => exact harr
    | cbInt => exact cbInt_restored h
    | myRoInt | myRoArr | myHidden => cases hwrite
    | myWoInt => cases hread

/-- `insmod param_demo.ko my_int=10 my_bool=1 my_str="hello" my_arr=10,20,30` -/
def helloVals : (p : Param) → p.kind.Val
  | .myInt => (10 : Int32)
  | .myBool => true
  | .myStr => (⟨literal "hello", by decide⟩ : CStr)
  | .myArr => (⟨[10, 20, 30], by decide⟩ : IntArray)
  | p => defaults p

theorem probeAll_restores_iff_hello :
    (helloVals .myStr).bytes.length ≤ 500 ∧
      ∀ p : Param, p.readable = true → p.writable = true →
        (probeAll plainSet ⟨helloVals, []⟩).vals p = helloVals p := by
  have hstr : EndsVisibly (literal "hello") := by
    refine ⟨by decide, ?_⟩
    have hlast : (literal "hello").getLast? = some 111 := by decide
    simp [hlast]
  have hlen : (helloVals .myStr).bytes.length ≤ 500 := by decide
  exact ⟨hlen, (probeAll_restores_iff plainSet_documented ⟨helloVals, []⟩ hlen).mpr ⟨by decide, hstr⟩⟩

/-- `echo xyz > my_str`, on a module loaded without arguments -/
def echoedVals : (p : Param) → p.kind.Val
  | .myStr => (⟨literal "xyz\n", by decide⟩ : CStr)
  | p => defaults p

/-- On a module loaded without arguments the array is not empty afterwards, and a string that `echo` has
written comes back without its newline. -/
theorem probeAll_leaves_test_array :
    ¬ (∀ set, Documented set → ∀ s : State, (s.vals .myStr).bytes.length ≤ 500 →
      ∀ p : Param, p.readable = true → p.writable = true → (probeAll set s).vals p = s.vals p) ∧
    (probeAll plainSet ⟨defaults, []⟩).vals .myArr = sevenEight ∧
    ((probeAll plainSet ⟨echoedVals, []⟩).vals .myStr).bytes = literal "xyz" := by
  refine ⟨?_, by decide +kernel, by decide +kernel⟩
  intro h
  have harr := h plainSet plainSet_documented ⟨defaults, []⟩ (by decide) .myArr rfl rfl
  exact (myArr_restored_iff plainSet_documented).mp harr rfl

end LinuxDriverLab.ParamDemo
