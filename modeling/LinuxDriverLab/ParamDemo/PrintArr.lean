import LinuxDriverLab.Kernel.Scnprintf
import LinuxDriverLab.ParamDemo.Params

/-!
# The array line of param_demo

`print_arr` puts a line together in a buffer of 160 bytes and logs it, when the module is loaded and
when it is unloaded.
-/

namespace LinuxDriverLab.ParamDemo

/-- `"%s[%d] = {"` -/
def arrHead (name : CStr) (n : Nat) : Bytes :=
  name.bytes ++ literal "[" ++ formatInt n ++ literal "] = \x7b"

/-- `" %d"` -/
def arrElem (x : Int32) : Bytes := literal " " ++ formatInt x.toInt

/-- `" }"` -/
def arrTail : Bytes := literal " \x7d"

/-- The loop of `print_arr`. -/
def printArrLoop (o : Filling 160) : List Int32 → Filling 160
  | [] => o
  | x :: xs => printArrLoop (o.emit (arrElem x)) xs

/-- What `print_arr` leaves in `buf`, which begins with any contents. -/
def printArrBuf (buf : Buf 160) (name : CStr) (a : List Int32) : Buf 160 :=
  ((printArrLoop (Filling.emit ⟨buf, 0⟩ (arrHead name a.length)) a).emit arrTail).buf

/-- `pr_info("%s\n", buf)` -/
def printArr (buf : Buf 160) (name : CStr) (a : List Int32) : Bytes :=
  literal "param_demo: " ++ cString (printArrBuf buf name a).bytes ++ literal "\n"

/-- The line without a limit. -/
def rendering (name : CStr) (a : List Int32) : Bytes :=
  arrHead name a.length ++ (a.map arrElem).flatten ++ arrTail

/-- The names that `param_init` and `param_exit` pass. -/
def myArrName : CStr := ⟨literal "  my_arr", by decide⟩

def myRoArrName : CStr := ⟨literal "  my_ro_arr", by decide⟩

/-! ## The loop -/

theorem printArrLoop_eq (o : Filling 160) (xs : List Int32) :
    printArrLoop o xs = (xs.map arrElem).foldl Filling.emit o := by
  induction xs generalizing o with
  | nil => rfl
  | cons x xs ih => exact ih (o.emit (arrElem x))

theorem printArrLoop_begins (buf : Buf 160) (name : CStr) (n : Nat) (xs : List Int32) :
    (printArrLoop (Filling.emit ⟨buf, 0⟩ (arrHead name n)) xs).Begins
      (arrHead name n ++ (xs.map arrElem).flatten) := by
  rw [printArrLoop_eq]
  exact ((Filling.begins_nil buf).emit (by decide) (by decide) (arrHead name n)).toBegins.emits
    (by decide) (by decide)

/-! ## The line -/

theorem formatInt_nulFree (x : Int) : (0 : UInt8) ∉ formatInt x := by
  have hdigit : (0 : UInt8) ∉ decimal x.natAbs := fun h => absurd (decimal_isDigit h) (by decide)
  unfold formatInt
  split
  · simp [hdigit]
  · exact hdigit

theorem rendering_nulFree (name : CStr) (a : List Int32) : (0 : UInt8) ∉ rendering name a := by
  have helem : ∀ x : Int32, (0 : UInt8) ∉ arrElem x := by
    intro x
    rw [arrElem, List.mem_append, not_or]
    exact ⟨by decide, formatInt_nulFree _⟩
  simp only [rendering, arrHead, List.mem_append, List.mem_flatten, List.mem_map, not_or, not_exists,
    not_and]
  refine ⟨⟨⟨⟨⟨name.nulFree, by decide⟩, formatInt_nulFree _⟩, by decide⟩, ?_⟩, by decide⟩
  rintro _ ⟨x, -, rfl⟩
  exact helem x

theorem arrElem_length_le (x : Int32) : (arrElem x).length ≤ 12 := by
  have hint := formatInt_length_le x.le_toInt x.toInt_lt
  have hblank : (literal " ").length = 1 := rfl
  rw [arrElem, List.length_append, hblank]
  omega

theorem elems_length_le (xs : List Int32) : (xs.map arrElem).flatten.length ≤ 12 * xs.length := by
  induction xs with
  | nil => rfl
  | cons x xs ih =>
    have := arrElem_length_le x
    rw [List.map_cons, List.flatten_cons, List.length_append, List.length_cons]
    omega

/-- The widest line of an array of the module has 116 characters. -/
theorem rendering_length_le {name : CStr} (hname : name.bytes.length ≤ 11) (a : IntArray) :
    (rendering name a.vals).length ≤ 116 := by
  have hcount := a.length_le
  have helems := elems_length_le a.vals
  have hdigits : (formatInt (a.vals.length : Int)).length ≤ 1 := by
    rw [formatInt, if_neg (by omega)]
    exact decimal_length_le (by decide) (by omega)
  have hopen : (literal "[").length = 1 := rfl
  have hclose : (literal "] = \x7b").length = 5 := rfl
  have htail : arrTail.length = 2 := rfl
  simp only [rendering, arrHead, List.length_append, hopen, hclose, htail]
  omega

theorem printArrBuf_string (buf : Buf 160) (name : CStr) (a : List Int32) :
    cString (printArrBuf buf name a).bytes = (rendering name a).take 159 :=
  ((printArrLoop_begins buf name a.length a).emit (by decide) (by decide) arrTail).cString
    (rendering_nulFree name a)

theorem printArr_line (buf : Buf 160) (name : CStr) (a : List Int32) :
    printArr buf name a = literal "param_demo: " ++ (rendering name a).take 159 ++ literal "\n" := by
  rw [printArr, printArrBuf_string]

/-- No write of `print_arr` leaves the buffer, and what it logs is the line cut to 159 characters;
the lines of the module's own arrays are not cut. -/
theorem printArr_prefix (buf : Buf 160) (name : CStr) (a : List Int32) :
    (∀ k, (printArrLoop (Filling.emit ⟨buf, 0⟩ (arrHead name a.length)) (a.take k)).off ≤ 159 ∧
      ∀ text, (printArrLoop (Filling.emit ⟨buf, 0⟩ (arrHead name a.length)) (a.take k)).Fits text) ∧
    (⟨buf, 0⟩ : Filling 160).Fits (arrHead name a.length) ∧
    cString (printArrBuf buf name a).bytes = (rendering name a).take 159 ∧
    ∀ own : IntArray,
      cString (printArrBuf buf myArrName own.vals).bytes = rendering myArrName own.vals ∧
        cString (printArrBuf buf myRoArrName own.vals).bytes = rendering myRoArrName own.vals := by
  refine ⟨?_, Filling.fits_of_lt (by decide) (by simp) _, printArrBuf_string buf name a, ?_⟩
  · intro k
    have hlt := (printArrLoop_begins buf name a.length (a.take k)).lt (by decide)
    exact ⟨Nat.le_of_lt_succ hlt, Filling.fits_of_lt (by decide) hlt⟩
  · have hwhole : ∀ (name : CStr) (own : IntArray), name.bytes.length ≤ 11 →
        cString (printArrBuf buf name own.vals).bytes = rendering name own.vals := by
      intro name own hname
      rw [printArrBuf_string, List.take_of_length_le]
      exact (rendering_length_le hname own).trans (by decide)
    intro own
    exact ⟨hwhole myArrName own (by decide), hwhole myRoArrName own (by decide)⟩

end LinuxDriverLab.ParamDemo
