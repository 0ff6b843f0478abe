import LinuxDriverLab.ParamDemo.Log
import LinuxDriverLab.ParamDemo.Probe

/-!
# All of param_probe

`main` prints a row for each parameter of what the user that runs it may do with it, and then tries
values that must be refused. Run by root, it writes to the module in both parts.
-/

namespace LinuxDriverLab.ParamDemo

inductive User
  | ordinary
  | root
deriving DecidableEq

namespace Param

/-- The files belong to root, and sysfs checks their mode against root too. -/
def mayRead (p : Param) : User → Bool
  | .root => p.readable
  | .ordinary => p.perm &&& 0o004 ≠ 0

def mayWrite (p : Param) : User → Bool
  | .root => p.writable
  | .ordinary => p.perm &&& 0o002 ≠ 0

end Param

/-- `fmt_mode` of a file that is no directory -/
def fmtMode (m : Nat) : Bytes :=
  45 :: [(0o400, 114), (0o200, 119), (0o100, 120), (0o040, 114), (0o020, 119), (0o010, 120),
    (0o004, 114), (0o002, 119), (0o001, 120)].map fun x => if m &&& x.1 ≠ 0 then x.2 else 45

/-- A column of the table: `-`, `OK`, or the name of an error. -/
inductive Told
  | none
  | ok
  | error (e : Errno)
deriving DecidableEq

/-- The second line of a row: the texts before, written, and read back (none where the file cannot be
read), and the error of writing the first one back. -/
structure Change where
  old : Option Bytes
  wval : Bytes
  new : Option Bytes
  restoring : Option Errno
deriving DecidableEq

structure Row where
  param : Param
  mode : Option Bytes
  read : Told
  write : Told
  change : Option Change
deriving DecidableEq

/-- The error number of a call that failed -/
def failed : Except Errno Unit → Option Errno
  | .error e => some e
  | .ok _ => none

/-- One turn of the loop over `PROBES`. -/
def probeTurn (set : SetOps) (u : User) (s : State) (q : Probe) : State × Row :=
  if q.param.perm = 0 then (s, ⟨q.param, none, .none, .error .enoent, none⟩)
  else
    let mode := some (fmtMode q.param.perm)
    let old := if q.param.mayRead u then some (readFile (s.show q.param) 512) else none
    let read := if old.isSome then Told.ok else .error .eacces
    if q.param.mayWrite u then
      match s.write set q.param q.wval with
      -- here the row says OK of the read, whether it was or not
      | (t, .error e) => (t, ⟨q.param, mode, .ok, .error e, none⟩)
      | (t, .ok ()) =>
        match old with
        | none => (t, ⟨q.param, mode, read, .ok, some ⟨none, q.wval, none, none⟩⟩)
        | some old =>
          let back := t.write set q.param old
          (back.1, ⟨q.param, mode, read, .ok,
            some ⟨some old, q.wval, some (readFile (t.show q.param) 512), failed back.2⟩⟩)
    else (s, ⟨q.param, mode, read, .error .eacces, none⟩)

/-- What the second table says of a value: the file could not be opened, the value was refused, or it
was taken. -/
inductive Tried
  | closed (e : Errno)
  | refused (e : Errno)
  | taken
deriving DecidableEq

/-- One turn of the loop over `bad`. -/
def badTurn (set : SetOps) (u : User) (s : State) (q : Probe) : State × Tried :=
  if q.param.mayWrite u then
    match s.write set q.param q.wval with
    | (t, .error e) => (t, .refused e)
    | (t, .ok ()) => (t, .taken)
  else (s, .closed .eacces)

def bad : List Probe :=
  [⟨.myInt, literal "abc"⟩, ⟨.myInt, literal "99999999999999"⟩, ⟨.myBool, literal "2"⟩,
    ⟨.myArr, literal "1,2,3,4,5,6,7,8,9"⟩]

/-- The turns of a loop, with what each of them prints. -/
def turns {α : Type} (turn : State → Probe → State × α) : State → List Probe → State × List α
  | s, [] => (s, [])
  | s, q :: qs =>
    let x := turn s q
    let y := turns turn x.1 qs
    (y.1, x.2 :: y.2)

/-- `main`: the module afterwards, and the two tables. -/
def probeMain (set : SetOps) (u : User) (s : State) : State × List Row × List Tried :=
  let x := turns (probeTurn set u) s probes
  let y := turns (badTurn set u) x.1 bad
  (y.1, x.2, y.2)

theorem probeTurn_root (set : SetOps) (s : State) (q : Probe) :
    (probeTurn set .root s q).1 = probeStep set s q := by
  by_cases hperm : q.param.perm = 0
  · simp [probeTurn, probeStep, hperm]
  · cases hwrite : q.param.writable with
    | false => simp [probeTurn, probeStep, hperm, Param.mayWrite, hwrite]
    | true =>
      cases hw : s.write set q.param q.wval with
      | mk t res =>
        cases res with
        | error e => simp [probeTurn, probeStep, hperm, Param.mayWrite, hwrite, hw]
        | ok _ =>
          cases hread : q.param.readable <;>
            simp [probeTurn, probeStep, hperm, Param.mayRead, Param.mayWrite, hwrite, hread, hw]

/-- The loop of root does to the module what `probeAll` does. -/
theorem turns_probeAll (set : SetOps) (s : State) :
    (turns (probeTurn set .root) s probes).1 = probeAll set s := by
  have hfold : ∀ (qs : List Probe) (s : State),
      (turns (probeTurn set .root) s qs).1 = qs.foldl (probeStep set) s := by
    intro qs
    induction qs with
    | nil => exact fun _ => rfl
    | cons q qs ih =>
      intro s
      rw [turns, List.foldl_cons, ← probeTurn_root]
      exact ih _
  exact hfold probes s

/-! ## Writes, with the log -/

/-- What a taken value logs. -/
def notice : (p : Param) → p.kind.Val → p.kind.Val → List Bytes
  | .cbInt, old, new => [changeLine old new]
  | _, _, _ => []

section

variable {set : SetOps} {s : State} {p : Param} {val : Bytes} {v : p.kind.Val}

theorem write_taken (hval : val ≠ []) (h : set p.kind (s.vals p) val = (v, .ok ())) :
    s.write set p val = (⟨Function.update s.vals p v, s.log ++ notice p (s.vals p) v⟩, .ok ()) := by
  rw [State.write, if_neg hval]
  cases p with
  | cbInt => simp [paramSet, cbIntSet, h, notice, changeLine]
  | _ => simp [paramSet, h, notice]

theorem write_refused {e : Errno} (hval : val ≠ []) (h : set p.kind (s.vals p) val = (v, .error e)) :
    s.write set p val = (⟨Function.update s.vals p v, s.log⟩, .error e) := by
  rw [State.write, if_neg hval]
  cases p with
  | cbInt => simp [paramSet, cbIntSet, h]
  | _ => simp [paramSet, h]

end

/-! ## One parameter -/

/-- The values of the texts in `PROBES`, for the parameters that can be written. -/
def testVals : (p : Param) → p.kind.Val
  | .myInt => (1234 : Int32)
  | .myWoInt => (88 : Int32)
  | .myBool => true
  | .myStr => probeStr
  | .myArr => sevenEight
  | .cbInt => (4321 : Int32)
  | p => defaults p

/-- The string without the newlines and blanks at its end -/
def CStr.stripped (s : CStr) : CStr :=
  ⟨s.bytes.rdropWhile trailing, fun h => s.nulFree ((List.rdropWhile_prefix trailing s.bytes).subset h)⟩

/-- What the first loop makes of a value. -/
def leftBehind (vals : (p : Param) → p.kind.Val) : (p : Param) → p.kind.Val
  | .myWoInt => testVals .myWoInt
  | .myStr => if (CStr.stripped (vals .myStr)).bytes = [] then probeStr else CStr.stripped (vals .myStr)
  | .myArr => if (vals .myArr).vals = [] then sevenEight else vals .myArr
  | p => vals p

/-- What the first loop logs. -/
def notices (vals : (p : Param) → p.kind.Val) : Param → List Bytes
  | .cbInt => [changeLine (vals .cbInt) 4321, changeLine 4321 (vals .cbInt)]
  | _ => []

/-- The row of a parameter in the table of root. -/
def rootRow (vals : (p : Param) → p.kind.Val) (q : Probe) : Row :=
  let p := q.param
  let read := if p.readable then Told.ok else .error .eacces
  if p.perm = 0 then ⟨p, none, .none, .error .enoent, none⟩
  else if p.writable then
    let texts := if p.readable then
        some ((p.kind.text (vals p)).rdropWhile trailing, p.kind.text (testVals p))
      else none
    ⟨p, some (fmtMode p.perm), read, .ok, some ⟨texts.map Prod.fst, q.wval, texts.map Prod.snd, none⟩⟩
  else ⟨p, some (fmtMode p.perm), read, .error .eacces, none⟩

section

variable {set : SetOps} {s : State} {q : Probe}

theorem readFile_show (hlen : (s.vals .myStr).bytes.length ≤ 510) (p : Param) :
    readFile (s.show p) 512 = (p.kind.text (s.vals p)).rdropWhile trailing := by
  by_cases hp : p.kind = .charp
  · cases p with
    | myStr => exact readFile_text (s.vals .myStr).nulFree hlen
    | _ => cases hp
  · rw [readFile_visible hp, rdropWhile_visible (text_visible hp _)]

/-- The module when the test value `w` of a parameter has been taken -/
def tested (s : State) (p : Param) (w : p.kind.Val) : State :=
  ⟨Function.update s.vals p w, s.log ++ notice p (s.vals p) w⟩

theorem turn_written {w : q.param.kind.Val} {old : Bytes} (hread : q.param.readable = true)
    (hwrite : q.param.writable = true) (hval : q.wval ≠ [])
    (hw : set q.param.kind (s.vals q.param) q.wval = (w, .ok ()))
    (hold : readFile (s.show q.param) 512 = old) :
    probeTurn set .root s q =
      (((tested s q.param w).write set q.param old).1,
        ⟨q.param, some (fmtMode q.param.perm), .ok, .ok,
          some ⟨some old, q.wval, some (readFile (q.param.kind.text w ++ [10]) 512),
            failed ((tested s q.param w).write set q.param old).2⟩⟩) := by
  have hperm := Param.perm_ne_zero_of_readable hread
  have htested : s.write set q.param q.wval = (tested s q.param w, .ok ()) := write_taken hval hw
  have hshow : (tested s q.param w).show q.param = q.param.kind.text w ++ [10] := by
    simp only [State.show, tested, Function.update_self]
  simp only [probeTurn, if_neg hperm, Param.mayRead, Param.mayWrite, hread, hwrite, if_true, htested, hold,
    hshow, Option.isSome_some]

/-- A parameter that may be read and written gets back the value of what was read, if that is not
empty. -/
theorem turn_restores {w v : q.param.kind.Val} {old : Bytes} (hread : q.param.readable = true)
    (hwrite : q.param.writable = true) (hval : q.wval ≠ [])
    (hw : set q.param.kind (s.vals q.param) q.wval = (w, .ok ()))
    (hold : readFile (s.show q.param) 512 = old) (hne : old ≠ [])
    (hv : set q.param.kind w old = (v, .ok ())) :
    probeTurn set .root s q =
      (⟨Function.update s.vals q.param v,
          s.log ++ (notice q.param (s.vals q.param) w ++ notice q.param w v)⟩,
        ⟨q.param, some (fmtMode q.param.perm), .ok, .ok,
          some ⟨some old, q.wval, some (readFile (q.param.kind.text w ++ [10]) 512), none⟩⟩) := by
  have hcurrent : (tested s q.param w).vals q.param = w := Function.update_self _ _ _
  have hback := write_taken hne (hcurrent.symm ▸ hv)
  rw [turn_written hread hwrite hval hw hold, hback, hcurrent]
  simp only [tested, Function.update_idem, List.append_assoc, failed]

theorem turn_keeps {w : q.param.kind.Val} (hread : q.param.readable = true)
    (hwrite : q.param.writable = true) (hval : q.wval ≠ [])
    (hw : set q.param.kind (s.vals q.param) q.wval = (w, .ok ()))
    (hold : readFile (s.show q.param) 512 = []) :
    probeTurn set .root s q =
      (tested s q.param w,
        ⟨q.param, some (fmtMode q.param.perm), .ok, .ok,
          some ⟨some [], q.wval, some (readFile (q.param.kind.text w ++ [10]) 512), none⟩⟩) := by
  rw [turn_written hread hwrite hval hw hold, State.write, if_pos rfl, failed]

theorem turn_unreadable {w : q.param.kind.Val} (hread : q.param.readable = false)
    (hwrite : q.param.writable = true) (hval : q.wval ≠ [])
    (hw : set q.param.kind (s.vals q.param) q.wval = (w, .ok ())) :
    probeTurn set .root s q =
      (tested s q.param w,
        ⟨q.param, some (fmtMode q.param.perm), .error .eacces, .ok,
          some ⟨none, q.wval, none, none⟩⟩) := by
  have hperm := Param.perm_ne_zero_of_writable hwrite
  simp [probeTurn, hperm, Param.mayRead, Param.mayWrite, hread, hwrite, write_taken hval hw, tested]

theorem turn_unwritable (hwrite : q.param.writable = false) :
    probeTurn set .root s q = (s, rootRow s.vals q) := by
  by_cases hperm : q.param.perm = 0
  · simp [probeTurn, rootRow, hperm]
  · cases hread : q.param.readable <;>
      simp [probeTurn, rootRow, hperm, Param.mayRead, Param.mayWrite, hread, hwrite]

theorem readFile_value {k : Kind} (hk : k ≠ .charp) (v : k.Val) :
    readFile (k.text v ++ [10]) 512 = k.text v := by
  have hvisible := text_visible hk v
  have hnul : (0 : UInt8) ∉ k.text v := fun h => absurd (hvisible 0 h) (by decide)
  rw [readFile_text hnul ((text_length_le hk v).trans (by decide)), rdropWhile_visible hvisible]

theorem turn_numbers {w : q.param.kind.Val} (hread : q.param.readable = true)
    (hwrite : q.param.writable = true) (hval : q.wval ≠ []) (hk : q.param.kind ≠ .charp)
    (hw : set q.param.kind (s.vals q.param) q.wval = (w, .ok ()))
    (hne : q.param.kind.text (s.vals q.param) ≠ [])
    (hset : set q.param.kind w (q.param.kind.text (s.vals q.param)) = (s.vals q.param, .ok ())) :
    probeTurn set .root s q =
      (⟨s.vals, s.log ++ (notice q.param (s.vals q.param) w ++ notice q.param w (s.vals q.param))⟩,
        ⟨q.param, some (fmtMode q.param.perm), .ok, .ok, some ⟨some (q.param.kind.text (s.vals q.param)),
          q.wval, some (q.param.kind.text w), none⟩⟩) := by
  rw [turn_restores hread hwrite hval hw (readFile_visible hk) hne hset, Function.update_eq_self,
    readFile_value hk]

theorem rootRow_both (vals : (p : Param) → p.kind.Val) (hread : q.param.readable = true)
    (hwrite : q.param.writable = true) :
    rootRow vals q = ⟨q.param, some (fmtMode q.param.perm), .ok, .ok,
      some ⟨some ((q.param.kind.text (vals q.param)).rdropWhile trailing), q.wval,
        some (q.param.kind.text (testVals q.param)), none⟩⟩ := by
  have hperm := Param.perm_ne_zero_of_readable hread
  simp [rootRow, hperm, hread, hwrite]

theorem rootRow_numbers (vals : (p : Param) → p.kind.Val) (hread : q.param.readable = true)
    (hwrite : q.param.writable = true) (hk : q.param.kind ≠ .charp) :
    rootRow vals q = ⟨q.param, some (fmtMode q.param.perm), .ok, .ok,
      some ⟨some (q.param.kind.text (vals q.param)), q.wval,
        some (q.param.kind.text (testVals q.param)), none⟩⟩ := by
  rw [rootRow_both vals hread hwrite, rdropWhile_visible (text_visible hk _)]

theorem turn_myStr (h : Documented set) (hlen : (s.vals .myStr).bytes.length ≤ 500) :
    probeTurn set .root s ⟨.myStr, literal "probe"⟩ =
      (⟨Function.update s.vals .myStr (leftBehind s.vals .myStr), s.log⟩,
        rootRow s.vals ⟨.myStr, literal "probe"⟩) := by
  have hw : set .charp (s.vals .myStr) (literal "probe") = (probeStr, .ok ()) :=
    h.charp _ probeStr (by decide)
  have hold : readFile (s.show .myStr) 512 = (CStr.stripped (s.vals .myStr)).bytes :=
    readFile_show (hlen.trans (by decide)) .myStr
  have hnew : readFile (Kind.text .charp probeStr ++ [10]) 512 = Kind.text .charp probeStr := by decide
  rw [rootRow_both _ rfl rfl]
  by_cases hnil : (CStr.stripped (s.vals .myStr)).bytes = []
  · rw [turn_keeps (q := ⟨.myStr, literal "probe"⟩) rfl rfl (by decide) hw (hold.trans hnil), hnew,
      ← hnil]
    simp only [leftBehind, if_pos hnil, tested, notice, List.append_nil]
    rfl
  · have hstart := (List.rdropWhile_prefix trailing (s.vals .myStr).bytes).length_le
    have hset := h.charp probeStr (CStr.stripped (s.vals .myStr)) (hstart.trans (hlen.trans (by decide)))
    rw [turn_restores (q := ⟨.myStr, literal "probe"⟩) rfl rfl (by decide) hw hold hnil hset, hnew]
    simp only [leftBehind, if_neg hnil, notice, List.append_nil]
    rfl

/-- An array of no elements is read as nothing, too. -/
theorem turn_myArr (h : Documented set) :
    probeTurn set .root s ⟨.myArr, literal "7,8"⟩ =
      (⟨Function.update s.vals .myArr (leftBehind s.vals .myArr), s.log⟩,
        rootRow s.vals ⟨.myArr, literal "7,8"⟩) := by
  have hw : set .array (s.vals .myArr) (literal "7,8") = (sevenEight, .ok ()) :=
    h.array _ sevenEight (by decide)
  rw [rootRow_numbers _ rfl rfl (by decide)]
  by_cases hnil : (s.vals .myArr).vals = []
  · have htext : Kind.text .array (s.vals .myArr) = [] := by simp [Kind.text, hnil]
    have hold : readFile (s.show .myArr) 512 = [] := (readFile_visible (by decide)).trans htext
    rw [turn_keeps (q := ⟨.myArr, literal "7,8"⟩) rfl rfl (by decide) hw hold, readFile_value (by decide),
      htext]
    simp only [leftBehind, if_pos hnil, tested, notice, List.append_nil]
    rfl
  · rw [turn_numbers (q := ⟨.myArr, literal "7,8"⟩) rfl rfl (by decide) (by decide) hw
      (array_text_ne_nil hnil) (h.array _ _ hnil)]
    simp only [leftBehind, if_neg hnil, notice, List.append_nil, Function.update_eq_self]
    rfl

theorem turn_eq (h : Documented set) (hlen : (s.vals .myStr).bytes.length ≤ 500) (hq : q ∈ probes) :
    probeTurn set .root s q =
      (⟨Function.update s.vals q.param (leftBehind s.vals q.param), s.log ++ notices s.vals q.param⟩,
        rootRow s.vals q) := by
  have hsame : ∀ {p : Param}, leftBehind s.vals p = s.vals p → notices s.vals p = [] →
      (⟨Function.update s.vals p (leftBehind s.vals p), s.log ++ notices s.vals p⟩ : State) = s := by
    intro p hp hn
    rw [hp, hn, Function.update_eq_self, List.append_nil]
  simp only [probes, List.mem_cons, List.not_mem_nil, or_false] at hq
  rcases hq with rfl | rfl | rfl | rfl | rfl | rfl | rfl | rfl | rfl
  · -- my_int
    rw [turn_numbers (q := ⟨.myInt, literal "1234"⟩) rfl rfl (by decide) (by decide)
      (h.int _ (1234 : Int32)) (formatInt_ne_nil _) (h.int _ _), rootRow_numbers _ rfl rfl (by decide),
      hsame rfl rfl]
    simp only [notice, List.append_nil]
    rfl
  · rw [turn_unwritable rfl, hsame rfl rfl]
  · rw [turn_unwritable rfl, hsame rfl rfl]
  · -- my_wo_int
    rw [turn_unreadable (q := ⟨.myWoInt, literal "88"⟩) rfl rfl (by decide) (h.int _ (88 : Int32))]
    rfl
  · -- my_bool
    rw [turn_numbers (q := ⟨.myBool, literal "1"⟩) rfl rfl (by decide) (by decide) (h.digit _ true)
      (by cases s.vals .myBool <;> decide) (h.bool _ _), rootRow_numbers _ rfl rfl (by decide), hsame rfl rfl]
    simp only [notice, List.append_nil]
    rfl
  · rw [turn_myStr h hlen, show notices s.vals .myStr = [] from rfl, List.append_nil]
  · rw [turn_myArr h, show notices s.vals .myArr = [] from rfl, List.append_nil]
  · rw [turn_unwritable rfl, hsame rfl rfl]
  · -- cb_int
    rw [turn_numbers (q := ⟨.cbInt, literal "4321"⟩) rfl rfl (by decide) (by decide)
      (h.int _ (4321 : Int32)) (formatInt_ne_nil _) (h.int _ _), rootRow_numbers _ rfl rfl (by decide)]
    simp only [leftBehind, Function.update_eq_self]
    rfl

end

/-! ## The loops -/

theorem leftBehind_congr {vals vals' : (p : Param) → p.kind.Val} {p : Param} (h : vals p = vals' p) :
    leftBehind vals p = leftBehind vals' p := by
  cases p <;> simp only [leftBehind, h]

theorem notices_congr {vals vals' : (p : Param) → p.kind.Val} {p : Param} (h : vals p = vals' p) :
    notices vals p = notices vals' p := by
  cases p <;> simp only [notices, h]

theorem rootRow_congr {vals vals' : (p : Param) → p.kind.Val} {q : Probe}
    (h : vals q.param = vals' q.param) : rootRow vals q = rootRow vals' q := by
  simp only [rootRow, h]

theorem leftBehind_length {vals : (p : Param) → p.kind.Val} (hlen : (vals .myStr).bytes.length ≤ 500)
    (p : Param) : (Function.update vals p (leftBehind vals p) .myStr).bytes.length ≤ 500 := by
  by_cases hp : p = .myStr
  · subst hp
    rw [Function.update_self]
    simp only [leftBehind]
    split
    · decide
    · exact (List.rdropWhile_prefix trailing (vals .myStr).bytes).length_le.trans hlen
  · rw [Function.update_of_ne (Ne.symm hp)]
    exact hlen

/-- Each turn sees its parameter as it was at the start. -/
theorem turns_eq {set : SetOps} (h : Documented set) {qs : List Probe} (hnodup : (qs.map Probe.param).Nodup)
    (hqs : ∀ q ∈ qs, q ∈ probes) (s : State) (hlen : (s.vals .myStr).bytes.length ≤ 500) :
    turns (probeTurn set .root) s qs =
      (⟨fun p => if p ∈ qs.map Probe.param then leftBehind s.vals p else s.vals p,
          s.log ++ (qs.map Probe.param).flatMap (notices s.vals)⟩, qs.map (rootRow s.vals)) := by
  induction qs generalizing s with
  | nil => simp [turns]
  | cons q qs ih =>
    obtain ⟨hfirst, hrest⟩ := List.forall_mem_cons.mp hqs
    rw [List.map_cons, List.nodup_cons] at hnodup
    obtain ⟨hq, hnodup⟩ := hnodup
    have hother : ∀ p ∈ qs.map Probe.param,
        Function.update s.vals q.param (leftBehind s.vals q.param) p = s.vals p := by
      intro p hp
      have hne : p ≠ q.param := fun heq => hq (by rwa [← heq])
      exact Function.update_of_ne hne _ _
    have hvals : (fun p => if p ∈ qs.map Probe.param then
          leftBehind (Function.update s.vals q.param (leftBehind s.vals q.param)) p
        else Function.update s.vals q.param (leftBehind s.vals q.param) p) =
        fun p => if p ∈ q.param :: qs.map Probe.param then leftBehind s.vals p else s.vals p := by
      funext p
      by_cases hp : p ∈ qs.map Probe.param
      · rw [if_pos hp, if_pos (List.mem_cons_of_mem _ hp), leftBehind_congr (hother p hp)]
      · rw [if_neg hp]
        by_cases heq : p = q.param
        · subst heq
          rw [if_pos List.mem_cons_self, Function.update_self]
        · rw [if_neg (by simp [heq, hp]), Function.update_of_ne heq]
    have hlog : (qs.map Probe.param).flatMap
          (notices (Function.update s.vals q.param (leftBehind s.vals q.param))) =
        (qs.map Probe.param).flatMap (notices s.vals) := by
      apply List.flatMap_congr
      intro p hp
      exact notices_congr (hother p hp)
    have hrows : qs.map (rootRow (Function.update s.vals q.param (leftBehind s.vals q.param))) =
        qs.map (rootRow s.vals) := by
      apply List.map_congr_left
      intro r hr
      exact rootRow_congr (hother r.param (List.mem_map_of_mem hr))
    rw [turns, turn_eq h hlen hfirst, ih hnodup hrest _ (leftBehind_length hlen q.param), hvals, hlog, hrows]
    simp

/-- What is relied on of texts that are refused: an `int` or `bool` keeps its value, and of an array the
elements in front of the one that is too many are stored. -/
structure Refuses (set : SetOps) : Prop where
  text : ∀ old c t, isDigit c = false → c ≠ 43 → c ≠ 45 →
    set .int old (c :: t) = (old, .error .einval)
  large : ∀ old n, 2 ^ 31 ≤ n → set .int old (decimal n) = (old, .error .erange)
  letter : ∀ old c t, c ∉ literal "eEyYtT1dDnNfF0oO" → set .bool old (c :: t) = (old, .error .einval)
  many : ∀ old (a : IntArray) x xs, a.vals.length = 8 →
    set .array old ([44].intercalate ((a.vals ++ x :: xs).map fun y : Int32 => formatInt y.toInt)) =
      (a, .error .einval)

def firstEight : IntArray := ⟨[1, 2, 3, 4, 5, 6, 7, 8], by decide⟩

theorem badTurn_refused {set : SetOps} {s : State} {q : Probe} {v : q.param.kind.Val} {e : Errno}
    (hwrite : q.param.writable = true) (hval : q.wval ≠ [])
    (h : set q.param.kind (s.vals q.param) q.wval = (v, .error e)) :
    badTurn set .root s q = (⟨Function.update s.vals q.param v, s.log⟩, .refused e) := by
  simp only [badTurn, Param.mayWrite, hwrite, if_true, write_refused hval h]

/-- The last of the bad values is stored as far as it fits. -/
theorem bad_eq {set : SetOps} (h : Refuses set) (s : State) :
    turns (badTurn set .root) s bad = (⟨Function.update s.vals .myArr firstEight, s.log⟩,
      [.refused .einval, .refused .erange, .refused .einval, .refused .einval]) := by
  have htext : badTurn set .root s ⟨.myInt, literal "abc"⟩ = (s, .refused .einval) := by
    rw [badTurn_refused (q := ⟨.myInt, literal "abc"⟩) rfl (by decide)
      (h.text _ 97 (literal "bc") (by decide) (by decide) (by decide)), Function.update_eq_self]
  have hlarge : badTurn set .root s ⟨.myInt, literal "99999999999999"⟩ = (s, .refused .erange) := by
    have hdecimal : literal "99999999999999" = decimal 99999999999999 := by decide
    rw [badTurn_refused (q := ⟨.myInt, literal "99999999999999"⟩) rfl (by decide)
      (hdecimal ▸ h.large _ 99999999999999 (by decide)), Function.update_eq_self]
  have hletter : badTurn set .root s ⟨.myBool, literal "2"⟩ = (s, .refused .einval) := by
    rw [badTurn_refused (q := ⟨.myBool, literal "2"⟩) rfl (by decide) (h.letter _ 50 [] (by decide)),
      Function.update_eq_self]
  have hmany : badTurn set .root s ⟨.myArr, literal "1,2,3,4,5,6,7,8,9"⟩ =
      (⟨Function.update s.vals .myArr firstEight, s.log⟩, .refused .einval) := by
    have hnine : literal "1,2,3,4,5,6,7,8,9" =
        [44].intercalate ((firstEight.vals ++ [9]).map fun y : Int32 => formatInt y.toInt) := by decide
    exact badTurn_refused (q := ⟨.myArr, literal "1,2,3,4,5,6,7,8,9"⟩) rfl (by decide)
      (hnine ▸ h.many _ firstEight 9 [] rfl)
  simp only [bad, turns, htext, hlarge, hletter, hmany]

/-- What all of `main` makes of a value, run by root. -/
def probedVals (vals : (p : Param) → p.kind.Val) : (p : Param) → p.kind.Val
  | .myArr => firstEight
  | p => leftBehind vals p

def ordinaryRow (q : Probe) : Row :=
  let p := q.param
  if p.perm = 0 then ⟨p, none, .none, .error .enoent, none⟩
  else
    ⟨p, some (fmtMode p.perm), if p.perm &&& 0o004 = 0 then .error .eacces else .ok, .error .eacces, none⟩

theorem mayWrite_ordinary (p : Param) : p.mayWrite .ordinary = false := by
  cases p <;> rfl

theorem turns_still {α : Type} {turn : State → Probe → State × α} (s : State) (qs : List Probe)
    (h : ∀ q, (turn s q).1 = s) : turns turn s qs = (s, qs.map fun q => (turn s q).2) := by
  induction qs with
  | nil => rfl
  | cons q qs ih => rw [turns, h q, ih, List.map_cons]

theorem probeTurn_ordinary (set : SetOps) (s : State) (q : Probe) :
    probeTurn set .ordinary s q = (s, ordinaryRow q) := by
  have hwrite := mayWrite_ordinary q.param
  by_cases hperm : q.param.perm = 0
  · simp [probeTurn, ordinaryRow, hperm]
  · by_cases hread : q.param.perm &&& 0o004 = 0 <;>
      simp [probeTurn, ordinaryRow, hperm, hwrite, Param.mayRead, hread]

/-- Run by root, on a module in any state, the program changes three of the parameters for good: the one
that can only be written has the test value, the string has lost the newlines and blanks at its end (or
is the test value, if it is made of them), and the array has the eight elements in front of the bad
one. An ordinary user changes nothing. The tables say what each of them may do, the values at the
start, and what was read back. -/
theorem probeMain_eq {set : SetOps} (h : Documented set) (hr : Refuses set) (s : State)
    (hlen : (s.vals .myStr).bytes.length ≤ 500) :
    probeMain set .root s = (⟨probedVals s.vals,
        s.log ++ [changeLine (s.vals .cbInt) 4321, changeLine 4321 (s.vals .cbInt)]⟩,
      probes.map (rootRow s.vals),
      [.refused .einval, .refused .erange, .refused .einval, .refused .einval]) ∧
    probeMain set .ordinary s = (s, probes.map ordinaryRow, bad.map fun _ => .closed .eacces) := by
  constructor
  · have hloop := @turns_eq set h probes (by decide) (fun _ hq => hq) s hlen
    have hvals : Function.update (fun p => if p ∈ probes.map Probe.param then leftBehind s.vals p
        else s.vals p) .myArr firstEight = probedVals s.vals := by
      funext p
      cases p <;> rfl
    have hlog : (probes.map Probe.param).flatMap (notices s.vals) =
        [changeLine (s.vals .cbInt) 4321, changeLine 4321 (s.vals .cbInt)] := rfl
    simp only [probeMain, hloop, bad_eq hr, hvals, hlog]
  · have hbad : ∀ q, badTurn set .ordinary s q = (s, .closed .eacces) := by
      intro q
      simp [badTurn, mayWrite_ordinary]
    simp only [probeMain, turns_still s probes fun q => congrArg Prod.fst (probeTurn_ordinary set s q),
      turns_still s bad fun q => congrArg Prod.fst (hbad q), probeTurn_ordinary, hbad]

/-! ## Functions that refuse -/

/-- As `plainSet`, with an error of its own for numbers out of range. -/
def strictSet : SetOps
  | .int, old, t => match parseInt t with
    | some x => (x, .ok ())
    | none =>
      let digits := if t.head? = some 45 then t.tail else t
      (old, .error (if digits ≠ [] ∧ digits.all isDigit then .erange else .einval))
  | k, old, t => plainSet k old t

theorem strictSet_documented : Documented strictSet where
  int := by
    intro old x
    simp [strictSet, Kind.text, parseInt_formatInt]
  bool := plainSet_documented.bool
  digit := plainSet_documented.digit
  charp := plainSet_documented.charp
  array := plainSet_documented.array

theorem setArray_many (xs : List Int32) (x : Int32) (ys : List Int32) (a : IntArray)
    (h : (a.vals ++ xs).length = 8) :
    setArray ((xs ++ x :: ys).map fun y => formatInt y.toInt) a =
      (⟨a.vals ++ xs, Nat.le_of_eq h⟩, .error .einval) := by
  induction xs generalizing a with
  | nil =>
    simp only [List.append_nil] at h
    simp [setArray, h]
  | cons z xs ih =>
    have hlt : a.vals.length < 8 := by
      rw [List.length_append, List.length_cons] at h
      omega
    rw [List.cons_append, List.map_cons, setArray, dif_pos hlt, parseInt_formatInt]
    simp only
    rw [ih _ (by simpa using h)]
    simp

theorem comma_notMem_formatInt (x : Int) : (44 : UInt8) ∉ formatInt x := by
  have hdecimal : (44 : UInt8) ∉ decimal x.natAbs := fun h => absurd (decimal_isDigit h) (by decide)
  unfold formatInt
  split
  · simp [hdecimal]
  · exact hdecimal

theorem strictSet_refuses : Refuses strictSet where
  text := by
    intro old c t hc _ hminus
    have hhead : (c :: t).head? ≠ some 45 := by simpa using hminus
    have hdigits : (c :: t).all isDigit = false := by simp [hc]
    have hparse : parseInt (c :: t) = none := by
      simp only [parseInt, if_neg hhead]
      exact if_neg fun hin => Bool.false_ne_true (hdigits.symm.trans hin.2.1)
    simp only [strictSet, hparse, if_neg hhead, hdigits]
    rfl
  large := by
    intro old n hn
    have hhead : (decimal n).head? ≠ some 45 := by
      intro h
      exact absurd (decimal_isDigit (List.mem_of_mem_head? h)) (by decide)
    have hdigits : (decimal n).all isDigit = true := List.all_eq_true.mpr fun _ => decimal_isDigit
    have hparse : parseInt (decimal n) = none := by
      simp only [parseInt, if_neg hhead, digitsNat_decimal]
      exact if_neg fun hin => absurd hin.2.2.2 (by omega)
    simp [strictSet, hparse, hhead, hdigits, decimal_ne_nil]
  letter := by
    intro old c t hc
    have hparse : parseBool (c :: t) = none := by
      have hbytes : literal "eEyYtT1dDnNfF0oO" =
          [101, 69, 121, 89, 116, 84, 49, 100, 68, 110, 78, 102, 70, 48, 111, 79] := rfl
      rw [hbytes] at hc
      simp only [List.mem_cons, List.not_mem_nil, or_false, not_or] at hc
      simp [parseBool, hc]
    simp [strictSet, plainSet, hparse]
  many := by
    intro old a x xs ha
    have hcomma : ∀ l ∈ (a.vals ++ x :: xs).map (fun y : Int32 => formatInt y.toInt),
        (44 : UInt8) ∉ l := by
      intro l hl h44
      obtain ⟨y, -, rfl⟩ := List.mem_map.mp hl
      exact comma_notMem_formatInt y.toInt h44
    have hsplit := List.splitOn_intercalate 44 hcomma (by simp)
    have hset := setArray_many a.vals x xs ⟨[], Nat.zero_le 8⟩ (by simpa using ha)
    simp only [strictSet, plainSet, hsplit, hset]
    rfl

/-- On the module of the example, `my_arr=10,20,30` is lost to the bad values. -/
theorem probeMain_eq_hello :
    (probeMain strictSet .root ⟨helloVals, []⟩).1 =
      ⟨probedVals helloVals, [changeLine 0 4321, changeLine 4321 0]⟩ ∧
    (helloVals .myArr).vals = [10, 20, 30] ∧
    (probedVals helloVals .myArr).vals = [1, 2, 3, 4, 5, 6, 7, 8] ∧
    probeMain strictSet .ordinary ⟨helloVals, []⟩ =
      (⟨helloVals, []⟩, probes.map ordinaryRow, bad.map fun _ => .closed .eacces) := by
  obtain ⟨hroot, hordinary⟩ :=
    probeMain_eq strictSet_documented strictSet_refuses ⟨helloVals, []⟩ (by decide)
  exact ⟨congrArg Prod.fst hroot, rfl, rfl, hordinary⟩

end LinuxDriverLab.ParamDemo
