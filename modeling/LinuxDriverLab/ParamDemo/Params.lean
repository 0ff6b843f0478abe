import LinuxDriverLab.Kernel.CString
import LinuxDriverLab.Kernel.UserCopy

/-!
# The parameters of param_demo

Each parameter of the module is a file in sysfs, if its permissions are not 0. The kernel turns
values into text and text into values, type by type; that code is a parameter here.
-/

namespace LinuxDriverLab.ParamDemo

/-- An array parameter: the elements in use, of the eight that there are. -/
structure IntArray where
  vals : List Int32
  length_le : vals.length ≤ 8
deriving DecidableEq

inductive Kind
  | int
  | bool
  | charp
  | array
deriving DecidableEq

abbrev Kind.Val : Kind → Type
  | .int => Int32
  | .bool => Bool
  | .charp => CStr
  | .array => IntArray

/-- What the file of a parameter shows in front of its newline. -/
def Kind.text : (k : Kind) → k.Val → Bytes
  | .int, x => formatInt x.toInt
  | .bool, b => if b then [89] else [78]
  | .charp, s => s.bytes
  | .array, a => [44].intercalate (a.vals.map fun x => formatInt x.toInt)

/-- The kernel's functions `param_set_int`, `param_set_bool`, `param_set_charp` and `param_array_set`:
the value that a text leaves in the variable, and the result. -/
abbrev SetOps := (k : Kind) → k.Val → Bytes → k.Val × Except Errno Unit

/-- What is relied on of them: a value is set by the text that it is shown as, a `bool` also by a
digit, and a `charp` takes every string of up to 1024 bytes as it is. -/
structure Documented (set : SetOps) : Prop where
  int : ∀ old x, set .int old (Kind.text .int x) = (x, .ok ())
  bool : ∀ old b, set .bool old (Kind.text .bool b) = (b, .ok ())
  digit : ∀ old b, set .bool old (if b then [49] else [48]) = (b, .ok ())
  charp : ∀ old (s : CStr), s.bytes.length ≤ 1024 → set .charp old s.bytes = (s, .ok ())
  array : ∀ old (a : IntArray), a.vals ≠ [] → set .array old (Kind.text .array a) = (a, .ok ())

inductive Param
  | myInt
  | myRoInt
  | myHidden
  | myWoInt
  | myBool
  | myStr
  | myArr
  | myRoArr
  | cbInt
deriving DecidableEq

namespace Param

abbrev kind : Param → Kind
  | myInt | myRoInt | myHidden | myWoInt | cbInt => .int
  | myBool => .bool
  | myStr => .charp
  | myArr | myRoArr => .array

/-- The last argument of `module_param` -/
def perm : Param → Nat
  | myInt | myBool | myStr | myArr | cbInt => 0o644
  | myRoInt | myRoArr => 0o444
  | myHidden => 0
  | myWoInt => 0o200

/-- sysfs checks the mode of a file against root too. -/
def readable (p : Param) : Bool := p.perm &&& 0o444 ≠ 0

def writable (p : Param) : Bool := p.perm &&& 0o222 ≠ 0

theorem perm_ne_zero_of_readable {p : Param} (h : p.readable = true) : p.perm ≠ 0 := by
  intro hperm
  rw [readable, hperm] at h
  cases h

theorem perm_ne_zero_of_writable {p : Param} (h : p.writable = true) : p.perm ≠ 0 := by
  intro hperm
  rw [writable, hperm] at h
  cases h

end Param

/-- The variables of the module, and the lines that it has logged. -/
structure State where
  vals : (p : Param) → p.kind.Val
  log : List Bytes

/-- The values that the declarations give. -/
def defaults : (p : Param) → p.kind.Val
  | .myInt => (0 : Int32)
  | .myRoInt => (7 : Int32)
  | .myHidden => (0 : Int32)
  | .myWoInt => (3 : Int32)
  | .myBool => false
  | .myStr => (⟨literal "default", by decide⟩ : CStr)
  | .myArr => (⟨[], Nat.zero_le 8⟩ : IntArray)
  | .myRoArr => (⟨[], Nat.zero_le 8⟩ : IntArray)
  | .cbInt => (0 : Int32)

/-- `cb_int_set`, with what it logs. -/
def cbIntSet (set : SetOps) (old : Int32) (val : Bytes) : Int32 × List Bytes × Except Errno Unit :=
  match set .int old val with
  | (x, .error e) => (x, [], .error e)
  | (x, .ok ()) =>
    (x, [literal "param_demo: cb_int changed: " ++ formatInt old.toInt ++ literal " -> " ++
      formatInt x.toInt ++ literal " (module was notified)\n"], .ok ())

/-- The `set` of a parameter: `cb_int` has one of its own. -/
def paramSet (set : SetOps) : (p : Param) → p.kind.Val → Bytes → p.kind.Val × List Bytes × Except Errno Unit
  | .cbInt, old, val => cbIntSet set old val
  | p, old, val => ((set p.kind old val).1, [], (set p.kind old val).2)

/-- A `write` to the file of a parameter. One of no bytes does not get to the `set`. -/
def State.write (set : SetOps) (s : State) (p : Param) (val : Bytes) : State × Except Errno Unit :=
  if val = [] then (s, .ok ())
  else
    let res := paramSet set p (s.vals p) val
    (⟨Function.update s.vals p res.1, s.log ++ res.2.1⟩, res.2.2)

/-- The contents of the file of a parameter. -/
def State.show (s : State) (p : Param) : Bytes := p.kind.text (s.vals p) ++ [10]

/-! ## Writes -/

theorem write_other (set : SetOps) (s : State) {p q : Param} (h : q ≠ p) (val : Bytes) :
    (s.write set p val).1.vals q = s.vals q := by
  unfold State.write
  split
  · rfl
  · exact Function.update_of_ne h _ _

theorem write_congr (set : SetOps) {s t : State} {p : Param} (h : s.vals p = t.vals p) (val : Bytes) :
    (s.write set p val).1.vals p = (t.write set p val).1.vals p ∧
      (s.write set p val).2 = (t.write set p val).2 := by
  unfold State.write
  split
  · exact ⟨h, rfl⟩
  · simp only [Function.update_self, h, and_self]

theorem write_of_set {set : SetOps} {s : State} {p : Param} {val : Bytes} {v : p.kind.Val}
    (hval : val ≠ []) (h : set p.kind (s.vals p) val = (v, .ok ())) :
    (s.write set p val).1.vals p = v ∧ (s.write set p val).2 = .ok () := by
  rw [State.write, if_neg hval]
  cases p with
  | cbInt => simp [paramSet, cbIntSet, h]
  | _ => simp [paramSet, h]

/-! ## Functions of this kind -/

/-- A decimal number in the range of `int`. -/
def parseInt (t : Bytes) : Option Int32 :=
  let digits := if t.head? = some 45 then t.tail else t
  let n : Int := if t.head? = some 45 then -(digitsNat digits : Int) else digitsNat digits
  if digits ≠ [] ∧ digits.all isDigit ∧ -2 ^ 31 ≤ n ∧ n < 2 ^ 31 then some (Int32.ofInt n) else none

def parseBool : Bytes → Option Bool
  | c :: _ => if c ∈ [49, 89, 121] then some true else if c ∈ [48, 78, 110] then some false else none
  | [] => none

/-- The elements are stored one after the other, up to the first that is refused. -/
def setArray : List Bytes → IntArray → IntArray × Except Errno Unit
  | [], a => (a, .ok ())
  | t :: ts, a =>
    if h : a.vals.length < 8 then
      match parseInt t with
      | some x => setArray ts ⟨a.vals ++ [x], by rw [List.length_append]; exact h⟩
      | none => (a, .error .einval)
    else (a, .error .einval)

/-- The kernel's functions on plain texts: numbers in decimal, no more than one string. -/
def plainSet : SetOps
  | .int, old, t => match parseInt t with
    | some x => (x, .ok ())
    | none => (old, .error .einval)
  | .bool, old, t => match parseBool t with
    | some b => (b, .ok ())
    | none => (old, .error .einval)
  | .charp, old, t =>
    if t.length ≤ 1024 then (⟨cString t, cString_nulFree t⟩, .ok ()) else (old, .error .enospc)
  | .array, _, t => setArray (t.splitOn 44) ⟨[], Nat.zero_le 8⟩

theorem parseInt_formatInt (x : Int32) : parseInt (formatInt x.toInt) = some x := by
  have hlo := x.le_toInt
  have hhi := x.toInt_lt
  have hdigits : (decimal x.toInt.natAbs).all isDigit = true := List.all_eq_true.mpr fun _ => decimal_isDigit
  have hne := decimal_ne_nil x.toInt.natAbs
  by_cases hneg : x.toInt < 0
  · have hvalue : -(x.toInt.natAbs : Int) = x.toInt := by omega
    simp only [parseInt, formatInt, if_pos hneg, List.head?_cons, if_true, List.tail_cons,
      digitsNat_decimal, hvalue]
    rw [if_pos ⟨hne, hdigits, hlo, hhi⟩, Int32.ofInt_toInt]
  · have hvalue : (x.toInt.natAbs : Int) = x.toInt := by omega
    have hhead : (decimal x.toInt.natAbs).head? ≠ some 45 := by
      intro h
      exact absurd (decimal_isDigit (List.mem_of_mem_head? h)) (by decide)
    simp only [parseInt, formatInt, if_neg hneg, if_neg hhead, digitsNat_decimal, hvalue]
    rw [if_pos ⟨hne, hdigits, hlo, hhi⟩, Int32.ofInt_toInt]

theorem setArray_texts (xs : List Int32) (a : IntArray) (h : (a.vals ++ xs).length ≤ 8) :
    setArray (xs.map fun x => formatInt x.toInt) a = (⟨a.vals ++ xs, h⟩, .ok ()) := by
  induction xs generalizing a with
  | nil => simp [setArray]
  | cons x xs ih =>
    have hlt : a.vals.length < 8 := by
      rw [List.length_append, List.length_cons] at h
      omega
    rw [List.map_cons, setArray, dif_pos hlt, parseInt_formatInt]
    simp only
    rw [ih _ (by simpa using h)]
    simp

theorem plainSet_documented : Documented plainSet := by
  constructor
  · intro old x
    simp [plainSet, Kind.text, parseInt_formatInt]
  · intro old b
    cases b <;> rfl
  · intro old b
    cases b <;> rfl
  · intro old s hlen
    have hstring : (⟨cString s.bytes, cString_nulFree _⟩ : CStr) = s := CStr.ext (cString_of_nulFree s.nulFree)
    rw [plainSet, if_pos hlen, hstring]
  · intro old a hne
    have hcomma : ∀ l ∈ a.vals.map (fun x => formatInt x.toInt), (44 : UInt8) ∉ l := by
      intro l hl h44
      obtain ⟨x, -, rfl⟩ := List.mem_map.mp hl
      unfold formatInt at h44
      split at h44
      · rcases List.mem_cons.mp h44 with h | h
        · exact absurd h (by decide)
        · exact absurd (decimal_isDigit h) (by decide)
      · exact absurd (decimal_isDigit h44) (by decide)
    rw [plainSet, Kind.text, List.splitOn_intercalate 44 hcomma (by simpa using hne),
      setArray_texts a.vals _ (by simpa using a.length_le)]
    rfl

end LinuxDriverLab.ParamDemo
