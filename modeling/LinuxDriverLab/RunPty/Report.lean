import Mathlib.Data.List.DropRight
import Mathlib.Data.List.Infix
import LinuxDriverLab.Framework.Lines
import LinuxDriverLab.Kernel.CString
import LinuxDriverLab.RunPty.Drain

/-!
# What run_pty reports of a child

What `drain_until` has collected goes to `print_block`, which puts the lines together in an array
of 4096 bytes, and to the search for the module's messages.
-/

namespace LinuxDriverLab.RunPty

/-- `sizeof(line)` -/
def lineSize : Nat := 4096

/-- The locals of `print_block`, and the lines that it has printed. -/
structure Locals where
  line : Buf lineSize
  li : Nat
  li_lt : li < lineSize
  printed : List Bytes

/-- The loop that puts a NUL over every `blank` byte at the end of the line. -/
def trimEnd (blank : UInt8 → Bool) (line : Buf lineSize) : Nat → Buf lineSize
  | 0 => line
  | li + 1 => if blank (line.byte li) then trimEnd blank (line.store li [0]) li else line

/-- From `line[li] = '\0'` to the `printf`. -/
def Locals.endLine (blank : UInt8 → Bool) (s : Locals) : Locals where
  line := trimEnd blank (s.line.store s.li [0]) s.li
  li := 0
  li_lt := by decide
  printed :=
    let line := trimEnd blank (s.line.store s.li [0]) s.li
    if line.byte 0 = 0 then s.printed else s.printed ++ [cString line.bytes]

/-- A carriage return. -/
def isCr (b : UInt8) : Bool := b = 13

/-- A carriage return or a blank. -/
def isCrOrBlank (b : UInt8) : Bool := b = 13 || b = 32

/-- One turn of the loop over the text. -/
def Locals.next (s : Locals) (c : UInt8) : Locals :=
  if c = 10 then s.endLine isCrOrBlank
  else if h : s.li < lineSize - 1 then
    { s with line := s.line.store s.li [c], li := s.li + 1, li_lt := by omega }
  else s

/-- The lines between the two marks; `line` is what was in the array before. -/
def printBody (line : Buf lineSize) (text : Bytes) : List Bytes :=
  if text = [] then [utf8 "(空 —— 什么都没收到)"]
  else
    let s := text.foldl Locals.next ⟨line, 0, by decide, []⟩
    if s.li = 0 then s.printed else (s.endLine isCr).printed

/-- `print_block`; the text is the string at the start of `out`. -/
def printBlock (line : Buf lineSize) (title out : Bytes) : List Bytes :=
  [title, literal "---8<----------"] ++ printBody line (cString out) ++ [literal "--->8----------", []]

/-- What differs between the two experiments of `main`. -/
structure Part where
  cap : Nat
  title : Bytes
  mark : Bytes
  no : Bytes

/-- The child writes into a pipe. -/
def pipePart : Part where
  cap := 8192
  title := utf8 "  pipe 里收到的内容:"
  mark := literal "log_levels"
  no := utf8 "否 —— pipe 里只有子进程自己 printf 的东西"

/-- The child has a terminal. -/
def ptyPart : Part where
  cap := 16384
  title := utf8 "  伪终端里收到的内容:"
  mark := literal "log_levels:"
  no := utf8 "否 —— 即使是真的控制终端也收不到"

/-- The lines that `main` prints of a child after `drain_until`. -/
def Part.report (p : Part) (line : Buf lineSize) (out : Bytes) : List Bytes :=
  printBlock line p.title out ++
    [utf8 "  包含内核消息吗: " ++ if (strstr (cString out) p.mark).isSome then utf8 "是" else p.no, []]

/-! ## One line -/

/-- What is printed of a line: not more than fit the array, without the blanks at the end, and
nothing if there is nothing else. -/
def shownLine (blank : UInt8 → Bool) (l : Bytes) : Option Bytes :=
  let t := (l.take (lineSize - 1)).rdropWhile blank
  if t = [] then none else some t

/-- The array holds the string `l`. -/
def Holds (line : Buf lineSize) (l : Bytes) : Prop := line.bytes.take (l.length + 1) = l ++ [0]

theorem Holds.byte {line : Buf lineSize} {l : Bytes} {b : UInt8} (h : Holds line (l ++ [b])) :
    line.byte l.length = b := by
  have hget := congrArg (fun m => m[l.length]?) h
  simp only [List.length_append, List.length_singleton, List.append_assoc, List.getElem?_take] at hget
  rw [if_pos (by omega), List.getElem?_append_right (Nat.le_refl _), Nat.sub_self] at hget
  rw [Buf.byte, List.getD_eq_getElem?_getD, hget]
  rfl

theorem Holds.init {line : Buf lineSize} {b : UInt8} {l : Bytes} (h : Holds line (l ++ [b])) :
    line.bytes.take l.length = l := by
  have htake := congrArg (List.take l.length) h
  rwa [List.take_take, List.append_assoc, List.take_left, Nat.min_eq_left (by simp; omega)] at htake

theorem holds_store {line : Buf lineSize} {l : Bytes} (hl : l.length < lineSize)
    (h : line.bytes.take l.length = l) : Holds (line.store l.length [0]) l := by
  have hfit : l.length + ([0] : Bytes).length ≤ lineSize := hl
  have hstore := line.take_store hfit
  rwa [h] at hstore

theorem Holds.cString {line : Buf lineSize} {l : Bytes} (h : Holds line l) (hl : (0 : UInt8) ∉ l) :
    cString line.bytes = l := by
  have hbytes : line.bytes = l ++ 0 :: line.bytes.drop (l.length + 1) := by
    conv_lhs => rw [← List.take_append_drop (l.length + 1) line.bytes, h]
    rw [List.append_assoc, List.singleton_append]
  rw [hbytes, cString_append_nul hl]

theorem Holds.byte_zero_iff {line : Buf lineSize} {l : Bytes} (h : Holds line l) (hl : (0 : UInt8) ∉ l) :
    line.byte 0 = 0 ↔ l = [] := by
  have hget := congrArg (fun m => m[0]?) h
  simp only [List.getElem?_take, Nat.zero_lt_succ, if_true] at hget
  rw [Buf.byte, List.getD_eq_getElem?_getD, hget]
  cases l with
  | nil => simp
  | cons b l =>
    constructor
    · intro hb
      exact absurd (List.mem_cons.mpr (.inl hb.symm)) hl
    · intro hnil
      cases hnil

/-- The loop at the end of a line leaves the line without its last blanks. -/
theorem trimEnd_holds (blank : UInt8 → Bool) {line : Buf lineSize} {l : Bytes}
    (hl : l.length < lineSize) (h : Holds line l) :
    Holds (trimEnd blank line l.length) (l.rdropWhile blank) := by
  induction l using List.reverseRecOn generalizing line with
  | nil => exact h
  | append_singleton l b ih =>
    have hlen : l.length < lineSize := by
      rw [List.length_append] at hl
      omega
    rw [List.length_append, List.length_singleton, trimEnd, h.byte, List.rdropWhile_concat]
    split
    · exact ih hlen (holds_store hlen h.init)
    · exact h

theorem rdropWhile_nulFree (blank : UInt8 → Bool) {l : Bytes} (h : (0 : UInt8) ∉ l) :
    (0 : UInt8) ∉ l.rdropWhile blank :=
  fun h0 => h ((List.rdropWhile_prefix blank l).subset h0)

/-! ## The loop -/

/-- The loop has printed the lines that have ended, and holds the start of the current one. -/
structure Assembles (r : Lines.Reader UInt8) (s : Locals) : Prop where
  printed : s.printed = r.ended.filterMap (shownLine isCrOrBlank)
  li_eq : s.li = (r.current.take (lineSize - 1)).length
  line : s.line.bytes.take s.li = r.current.take (lineSize - 1)
  nulFree : (0 : UInt8) ∉ r.current

theorem Assembles.endLine {r : Lines.Reader UInt8} {s : Locals} (h : Assembles r s)
    (blank : UInt8 → Bool) :
    (s.endLine blank).printed = s.printed ++ (shownLine blank r.current).toList := by
  have hcut : (0 : UInt8) ∉ r.current.take (lineSize - 1) := fun h0 => h.nulFree (List.mem_of_mem_take h0)
  have hlen : (r.current.take (lineSize - 1)).length < lineSize := h.li_eq ▸ s.li_lt
  have hline := h.line
  rw [h.li_eq] at hline
  have hholds := trimEnd_holds blank hlen (holds_store hlen hline)
  have hfree := rdropWhile_nulFree blank hcut
  simp only [Locals.endLine, h.li_eq, hholds.byte_zero_iff hfree, hholds.cString hfree, shownLine]
  split <;> simp

theorem Assembles.next {r : Lines.Reader UInt8} {s : Locals} (h : Assembles r s) {c : UInt8}
    (hc : c ≠ 0) : Assembles (r.feed 10 c) (s.next c) := by
  by_cases hnl : c = 10
  · subst hnl
    constructor
    · cases hs : shownLine isCrOrBlank r.current <;>
        simp [Locals.next, Lines.Reader.feed, h.endLine, h.printed, hs]
    · rfl
    · rfl
    · simp [Lines.Reader.feed]
  · have hfree : (0 : UInt8) ∉ r.current ++ [c] := by
      simp only [List.mem_append, List.mem_singleton, not_or]
      exact ⟨h.nulFree, fun h0 => hc h0.symm⟩
    simp only [Lines.Reader.feed, if_neg hnl, Locals.next]
    have hli := h.li_eq
    rw [List.length_take] at hli
    split
    · next hroom =>
      have hcur : r.current.length < lineSize - 1 := by omega
      have htake : (r.current ++ [c]).take (lineSize - 1) = r.current ++ [c] :=
        List.take_of_length_le (by rw [List.length_append, List.length_singleton]; omega)
      have hline := h.line
      rw [List.take_of_length_le hcur.le] at hline
      refine ⟨h.printed, ?_, ?_, hfree⟩
      · change s.li + 1 = _
        rw [htake, List.length_append, List.length_singleton]
        omega
      · have hfit : s.li + [c].length ≤ lineSize := s.li_lt
        have hstore := s.line.take_store hfit
        rw [htake, ← hline]
        exact hstore
    · next hfull =>
      have htake : (r.current ++ [c]).take (lineSize - 1) = r.current.take (lineSize - 1) :=
        List.take_append_of_le_length (by omega)
      exact ⟨h.printed, by rw [htake]; exact h.li_eq, by rw [htake]; exact h.line, hfree⟩

theorem assembles_text (line : Buf lineSize) {text : Bytes} (h : (0 : UInt8) ∉ text) :
    Assembles (Lines.read 10 text) (text.foldl Locals.next ⟨line, 0, by decide, []⟩) := by
  apply List.foldl_rel
  · exact ⟨rfl, rfl, rfl, List.not_mem_nil⟩
  · intro c hc r s hrs
    exact hrs.next fun h0 => h (h0 ▸ hc)

/-- What is printed of a text: its lines, and what follows the last of them. -/
def shownText (text : Bytes) : List Bytes :=
  (text.splitOn 10).dropLast.filterMap (shownLine isCrOrBlank) ++
    ((text.splitOn 10).getLast?.bind (shownLine isCr)).toList

theorem shownText_eq (text : Bytes) :
    shownText text = (Lines.read 10 text).ended.filterMap (shownLine isCrOrBlank) ++
      (shownLine isCr (Lines.read 10 text).current).toList := by
  rw [shownText, ← Lines.read_lines]
  simp

theorem printBody_eq (line : Buf lineSize) {text : Bytes} (hne : text ≠ []) (h : (0 : UInt8) ∉ text) :
    printBody line text = shownText text := by
  have hassembles := assembles_text line h
  rw [printBody, if_neg hne, shownText_eq, ← hassembles.printed]
  simp only
  split
  · next hli =>
    have hcur : (Lines.read 10 text).current.take (lineSize - 1) = [] :=
      List.length_eq_zero_iff.mp (hassembles.li_eq ▸ hli)
    simp [shownLine, hcur]
  · exact hassembles.endLine isCr

/-! ## The report -/

theorem cString_before_nul (s rest : Bytes) : cString (s ++ 0 :: rest) = cString s := by
  induction s with
  | nil => rfl
  | cons b s ih =>
    simp only [cString, List.cons_append, List.takeWhile_cons] at ih ⊢
    rw [ih]

/-- What `main` prints of a child that has sent `received`. -/
def Part.expected (p : Part) (received : Bytes) : List Bytes :=
  let text := cString received
  [p.title, literal "---8<----------"] ++
    (if text = [] then [utf8 "(空 —— 什么都没收到)"] else shownText text) ++
    [literal "--->8----------", []] ++
    [utf8 "  包含内核消息吗: " ++ if p.mark <:+: text then utf8 "是" else p.no, []]

theorem report_eq (p : Part) (line : Buf lineSize) {out received : Bytes}
    (h : cString out = cString received) : p.report line out = p.expected received := by
  have hbody : printBody line (cString received) =
      if cString received = [] then [utf8 "(空 —— 什么都没收到)"] else shownText (cString received) := by
    split
    · next hnil => rw [printBody, if_pos hnil]
    · next hne => exact printBody_eq line hne (cString_nulFree received)
  simp only [Part.report, Part.expected, printBlock, h, hbody, strstr_isSome_iff]

theorem cString_of_run {cap : Nat} (hcap : 1 ≤ cap) (hmax : cap < 2 ^ 64) {hasChild : Bool}
    {out : Buf cap} {tr : Trace cap} {t : State cap} (h : Run (step hasChild) (State.init out) tr t)
    (hret : t.stage = .returned) : cString t.out.bytes = cString (chunks tr) := by
  have hnul := (collects_run hcap hmax h).nul hret
  have hbytes : t.out.bytes = chunks tr ++ 0 :: t.out.bytes.drop (t.used + 1) := by
    conv_lhs => rw [← List.take_append_drop (t.used + 1) t.out.bytes, hnul]
    rw [List.append_assoc, List.singleton_append]
  rw [hbytes, cString_before_nul]

/-- Whatever the polls and the reads gave, and whatever the array of `print_block` held before: what
is reported of a child is a function of the bytes that have been read; these are all that it has
sent, or as many as there is room for, when the last read gave nothing. -/
theorem report_of_run (p : Part) (hcap : 1 ≤ p.cap) (hmax : p.cap < 2 ^ 64) {hasChild : Bool}
    {out : Buf p.cap} {tr : Trace p.cap} {t : State p.cap}
    (h : Run (step hasChild) (State.init out) tr t) (hret : t.stage = .returned)
    (line : Buf lineSize) :
    p.report line t.out.bytes = p.expected (chunks tr) ∧
    ∀ past r n S, tr = past ++ [r] → r.event = .read (.data []) → r.out = .asked n →
      chunks tr <+: S → (n ≠ 0 → chunks tr = S) →
      p.report line t.out.bytes = p.expected (S.take (p.cap - 1)) := by
  have hreport := report_eq p line (cString_of_run hcap hmax h hret)
  refine ⟨hreport, ?_⟩
  rintro past r n S rfl hevent hask hS heof
  rw [hreport, chunks_of_empty_read hcap hmax h hevent hask hS heof]

/-- Two pieces that part within the mark: a line with a blank and a carriage return at its end, an empty
one, and one without a newline. -/
def firstPiece : Bytes := literal "hi \r\n\r\n log_le"

def secondPiece : Bytes := literal "vels: 3\r"

theorem report_of_run_two : ∃ tr t, Run (step true) (State.init (Buf.zero pipePart.cap)) tr t ∧
    t.stage = .returned ∧ chunks tr = firstPiece ++ secondPiece ∧
    pipePart.report (.zero lineSize) t.out.bytes =
      [pipePart.title, literal "---8<----------", literal "hi", literal " log_levels: 3",
        literal "--->8----------", [], utf8 "  包含内核消息吗: 是", []] := by
  obtain ⟨tr, t, hrun, -, hq⟩ := exists_exec (step true) (State.init (Buf.zero pipePart.cap))
    [.clock false, .poll .ready, .read (.data firstPiece), .clock false, .poll .ready,
      .read (.data secondPiece), .clock false, .poll .ready, .read (.data [])]
    (fun x => x.2.stage = .returned ∧ chunks x.1 = firstPiece ++ secondPiece) (by decide +kernel)
  obtain ⟨hstage, hchunks⟩ := of_decide_eq_true hq
  refine ⟨tr, t, hrun, hstage, hchunks, ?_⟩
  rw [(report_of_run pipePart (by decide) (by decide) hrun hstage (.zero lineSize)).1, hchunks]
  decide +kernel

example : shownText (literal "a \r\n \r\nb\r") = [literal "a", literal "b"] := by decide

end LinuxDriverLab.RunPty
