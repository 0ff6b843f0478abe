import Mathlib.Data.List.Infix
import LinuxDriverLab.Framework.Words
import LinuxDriverLab.Kernel.Kmsg

/-!
# Sampling the kernel log

`sample_ring` of `rbfill` reads `/dev/kmsg` from its oldest record to the end and keeps statistics
of what it reads, while the kernel appends and evicts between any two of its calls.
-/

namespace LinuxDriverLab.RbFill

/-- `struct ring_stat`; the three arrays are kept as the strings they hold. -/
structure RingStat where
  total : Int
  tagged : Int
  firstSeq : Int
  oldestSeq : Int
  lastSeq : Int
  textbytes : Nat
  oldest : Bytes
  oldestTag : Bytes
  newest : Bytes
  overrun : Int
deriving DecidableEq

/-- The statistics after `memset` and the three stores behind it. -/
def RingStat.start : RingStat := ⟨0, 0, -1, -1, -1, 0, [], [], [], 0⟩

/-- `g_line` after the newline has been replaced by a NUL. -/
def gLine (buf : Bytes) : Bytes := cutAt (cString buf) (strchr (cString buf) 10)

def msgOf (line : Bytes) : Bytes :=
  match strchr line 59 with
  | some semi => line.drop (semi + 1)
  | none => line

def seqOf (line : Bytes) : Int :=
  match strchr line 59 with
  | some semi =>
    match strchr line 44 with
    | some c₁ => if c₁ < semi then atol (line.drop (c₁ + 1)) else -1
    | none => -1
  | none => -1

/-- The statistics after a record with text `msg` and number `seq`. -/
def note (tag msg : Bytes) (seq : Int) (st : RingStat) : RingStat :=
  let st := { st with
    total := int64 (st.total + 1)
    textbytes := (st.textbytes + (msg.length + 1)) % 2 ^ 64
    lastSeq := seq }
  let st :=
    if st.total = 1 then { st with oldestSeq := seq, oldest := printedString 128 msg } else st
  let st := { st with newest := printedString 128 msg }
  if (strstr msg tag).isSome then
    let st := { st with tagged := int64 (st.tagged + 1) }
    if st.firstSeq < 0 ∨ seq < st.firstSeq then
      { st with firstSeq := seq, oldestTag := printedString 128 msg }
    else st
  else st

/-- The body of the loop for the bytes that a `read` brought. -/
def countRecord (tag buf : Bytes) (st : RingStat) : RingStat :=
  note tag (msgOf (gLine buf)) (seqOf (gLine buf)) st

/-- Where `sample_ring` stands: before `open`, in the loop, after it has returned 0, or -1. -/
inductive Stage
  | closed
  | sampling
  | done
  | failed
deriving DecidableEq

structure State where
  ring : Ring LogRecord
  stage : Stage
  next : Nat
  st : RingStat

/-- Before the call the statistics hold whatever the caller's variable does. -/
def State.init (ring : Ring LogRecord) (st : RingStat) : State := ⟨ring, .closed, 0, st⟩

inductive Event
  | kernel (e : LogEvent LogRecord)
  | sampleOpen
  | sampleOpenFails
  | sampleRead
  | sampleInterrupted

/-- What a step shows: the record it counts, with its number. -/
inductive Shown
  | quiet
  | counted (seq : Nat) (x : LogRecord)

/-- What `sizeof(g_line) - 1` leaves room for. -/
def lineMax : Nat := 8191

/-- A `read` of the loop. A record that has no room is refused with `EINVAL`, which ends the loop
like any other error. -/
def sampleRead (tag : Bytes) (s : State) : State × Shown :=
  match s.ring.read s.next with
  | (.record seq x, next) =>
    if (x.render seq).length ≤ lineMax then
      ({ s with next, st := countRecord tag (x.render seq) s.st }, .counted seq x)
    else ({ s with next, stage := .done }, .quiet)
  | (.epipe, next) => ({ s with next, stage := .done, st := { s.st with overrun := 1 } }, .quiet)
  | (.eagain, next) => ({ s with next, stage := .done }, .quiet)

def step (tag : Bytes) (s : State) : Event → Option (State × Shown)
  | .kernel e =>
    match s.ring.kernel e with
    | some ring => some ({ s with ring }, .quiet)
    | none => none
  | .sampleOpen =>
    if s.stage = .closed then
      some ({ s with stage := .sampling, next := s.ring.first, st := .start }, .quiet)
    else none
  | .sampleOpenFails =>
    if s.stage = .closed then some ({ s with stage := .failed }, .quiet) else none
  | .sampleRead => if s.stage = .sampling then some (sampleRead tag s) else none
  | .sampleInterrupted => if s.stage = .sampling then some (s, .quiet) else none

abbrev Trace := List (Record State Event Shown)

/-- What a step can do. -/
inductive Move (tag : Bytes) (s : State) : Event → State → Shown → Prop
  | kernel {e : LogEvent LogRecord} {ring : Ring LogRecord} : s.ring.kernel e = some ring →
      Move tag s (.kernel e) { s with ring } .quiet
  | sampleOpen : s.stage = .closed →
      Move tag s .sampleOpen { s with stage := .sampling, next := s.ring.first, st := .start } .quiet
  | sampleOpenFails : s.stage = .closed → Move tag s .sampleOpenFails { s with stage := .failed } .quiet
  | record {x : LogRecord} : s.stage = .sampling → s.ring.has s.next →
      s.ring.read s.next = (.record s.next x, s.next + 1) →
      Move tag s .sampleRead
        { s with next := s.next + 1, st := countRecord tag (x.render s.next) s.st }
        (.counted s.next x)
  | refused {x : LogRecord} : s.stage = .sampling →
      s.ring.read s.next = (.record s.next x, s.next + 1) →
      Move tag s .sampleRead { s with next := s.next + 1, stage := .done } .quiet
  | overrun : s.stage = .sampling → s.ring.read s.next = (.epipe, s.ring.first) →
      Move tag s .sampleRead
        { s with next := s.ring.first, stage := .done, st := { s.st with overrun := 1 } } .quiet
  | empty : s.stage = .sampling → s.ring.read s.next = (.eagain, s.next) →
      Move tag s .sampleRead { s with stage := .done } .quiet
  | sampleInterrupted : s.stage = .sampling → Move tag s .sampleInterrupted s .quiet

theorem sampleRead_move (tag : Bytes) {s : State} (hstage : s.stage = .sampling) :
    Move tag s .sampleRead (sampleRead tag s).1 (sampleRead tag s).2 := by
  rcases s.ring.read_cases s.next with ⟨-, hread⟩ | ⟨x, hhas, -, hread⟩ | ⟨-, -, hread⟩
  · simp only [sampleRead, hread]
    exact .overrun hstage hread
  · simp only [sampleRead, hread]
    split
    · exact .record hstage hhas hread
    · exact .refused hstage hread
  · simp only [sampleRead, hread]
    exact .empty hstage hread

theorem step_move {tag : Bytes} {s t : State} {e : Event} {o : Shown}
    (h : step tag s e = some (t, o)) : Move tag s e t o := by
  cases e with
  | kernel e =>
    simp only [step] at h
    split at h
    · next ring hring =>
      cases h
      exact .kernel hring
    · cases h
  | sampleRead =>
    simp only [step, Option.ite_none_right_eq_some, Option.some.injEq] at h
    obtain ⟨hstage, hread⟩ := h
    have hmove := sampleRead_move tag hstage
    rwa [hread] at hmove
  | _ =>
    simp only [step, Option.ite_none_right_eq_some, Option.some.injEq, Prod.mk.injEq] at h
    obtain ⟨hstage, rfl, rfl⟩ := h
    constructor
    exact hstage

/-! ## One record -/

theorem gLine_render (x : LogRecord) (seq : Nat) :
    gLine (x.render seq) = x.header seq ++ 59 :: x.text := x.cut_render seq

theorem msgOf_render (x : LogRecord) (seq : Nat) : msgOf (gLine (x.render seq)) = x.text := by
  simp only [gLine_render, msgOf, x.strchr_semi, x.drop_semi]

/-- The number of a record as a `long`: the largest one stands for all that are larger. -/
def seqLong (seq : Nat) : Int := min (2 ^ 63 - 1) seq

theorem seqLong_of_lt {seq : Nat} (h : seq < 2 ^ 63) : seqLong seq = seq := by
  unfold seqLong
  omega

theorem seqOf_render (x : LogRecord) (seq : Nat) : seqOf (gLine (x.render seq)) = seqLong seq := by
  have hlt : (decimal x.prio).length < (x.header seq).length := by
    simp [LogRecord.header]
  simp only [gLine_render, seqOf, x.strchr_semi, x.strchr_comma, if_pos hlt, x.atol_seq, seqLong]

/-- The parser finds text and number of a record, whatever the text. -/
theorem countRecord_render (tag : Bytes) (x : LogRecord) (seq : Nat) (st : RingStat) :
    countRecord tag (x.render seq) st = note tag x.text (seqLong seq) st := by
  rw [countRecord, msgOf_render, seqOf_render]

section

variable (tag msg : Bytes) (seq : Int) (st : RingStat)

@[simp] theorem note_total : (note tag msg seq st).total = int64 (st.total + 1) := by
  simp only [note]
  split_ifs <;> rfl

@[simp] theorem note_textbytes :
    (note tag msg seq st).textbytes = (st.textbytes + (msg.length + 1)) % 2 ^ 64 := by
  simp only [note]
  split_ifs <;> rfl

@[simp] theorem note_lastSeq : (note tag msg seq st).lastSeq = seq := by
  simp only [note]
  split_ifs <;> rfl

@[simp] theorem note_newest : (note tag msg seq st).newest = printedString 128 msg := by
  simp only [note]
  split_ifs <;> rfl

@[simp] theorem note_overrun : (note tag msg seq st).overrun = st.overrun := by
  simp only [note]
  split_ifs <;> rfl

@[simp] theorem note_oldestSeq :
    (note tag msg seq st).oldestSeq = if int64 (st.total + 1) = 1 then seq else st.oldestSeq := by
  simp only [note]
  split_ifs <;> rfl

@[simp] theorem note_oldest : (note tag msg seq st).oldest =
    if int64 (st.total + 1) = 1 then printedString 128 msg else st.oldest := by
  simp only [note]
  split_ifs <;> rfl

theorem note_tagged : (note tag msg seq st).tagged =
    if (strstr msg tag).isSome then int64 (st.tagged + 1) else st.tagged := by
  simp only [note]
  split_ifs <;> rfl

theorem note_firstSeq : (note tag msg seq st).firstSeq =
    if (strstr msg tag).isSome ∧ (st.firstSeq < 0 ∨ seq < st.firstSeq) then seq
    else st.firstSeq := by
  simp only [note]
  split_ifs <;> simp_all

end

/-! ## The statistics of a list of records -/

/-- The text of a record contains the tag. -/
def hasTag (tag : Bytes) (c : Nat × LogRecord) : Bool := decide (tag <:+: c.2.text)

/-- What the statistics are when the records `cs` have been counted, in this order. -/
structure Statistics (tag : Bytes) (cs : List (Nat × LogRecord)) (st : RingStat) : Prop where
  total : st.total = cs.length
  oldestSeq : st.oldestSeq = cs.head?.elim (-1) fun c => seqLong c.1
  lastSeq : st.lastSeq = cs.getLast?.elim (-1) fun c => seqLong c.1
  oldest : st.oldest = cs.head?.elim [] fun c => c.2.text.take 127
  newest : st.newest = cs.getLast?.elim [] fun c => c.2.text.take 127
  textbytes : st.textbytes = (cs.map fun c => c.2.text.length + 1).sum % 2 ^ 64
  tagged : st.tagged = (cs.filter (hasTag tag)).length
  firstSeq : st.firstSeq = (cs.filter (hasTag tag)).head?.elim (-1) fun c => seqLong c.1

theorem statistics_start (tag : Bytes) : Statistics tag [] .start := by
  constructor <;> rfl

theorem Statistics.note {tag : Bytes} {cs : List (Nat × LogRecord)} {st : RingStat}
    (h : Statistics tag cs st) (x : LogRecord) {seq : Nat} (hlen : cs.length + 1 < 2 ^ 63)
    (hlt : ∀ c ∈ cs, c.1 < seq) :
    Statistics tag (cs ++ [(seq, x)]) (note tag x.text (seqLong seq) st) := by
  have htext : printedString 128 x.text = x.text.take 127 := printedString_eq x.text_plain.1
  have htotal : int64 (st.total + 1) = (cs.length : Int) + 1 := by
    rw [h.total, int64_of_range (by omega) (by omega)]
  have hle := List.length_filter_le (hasTag tag) cs
  have htagged : int64 (st.tagged + 1) = ((cs.filter (hasTag tag)).length : Int) + 1 := by
    rw [h.tagged, int64_of_range (by omega) (by omega)]
  have hhas : (strstr x.text tag).isSome = hasTag tag (seq, x) := by
    rw [Bool.eq_iff_iff, strstr_isSome_iff, hasTag, decide_eq_true_eq]
  constructor
  · simp [htotal]
  · cases cs with
    | nil => simp [htotal]
    | cons c cs =>
      rw [note_oldestSeq, htotal, if_neg (by simp only [List.length_cons]; omega), h.oldestSeq]
      rfl
  · simp
  · cases cs with
    | nil => simp [htotal, htext]
    | cons c cs =>
      rw [note_oldest, htotal, if_neg (by simp only [List.length_cons]; omega), h.oldest]
      rfl
  · simp [htext]
  · simp [h.textbytes, Nat.add_mod]
  · rw [note_tagged, htagged, hhas, List.filter_append]
    cases htag : hasTag tag (seq, x) <;> simp [htag, h.tagged]
  · rw [note_firstSeq, hhas, h.firstSeq, List.filter_append]
    cases htag : hasTag tag (seq, x) with
    | false => simp [htag]
    | true =>
      cases hfilter : cs.filter (hasTag tag) with
      | nil => simp [htag]
      | cons c rest =>
        have hc : c ∈ cs := List.mem_of_mem_filter (hfilter ▸ List.mem_cons_self)
        have := hlt c hc
        simp only [List.head?_cons, Option.elim_some, List.cons_append, ite_eq_right_iff, seqLong]
        omega

/-! ## The loop -/

def Shown.record? : Shown → Option (Nat × LogRecord)
  | .quiet => none
  | .counted seq x => some (seq, x)

/-- The records counted so far, each with its number. -/
def counted (tr : Trace) : List (Nat × LogRecord) := tr.filterMap fun r => r.out.record?

@[simp] theorem counted_nil : counted [] = [] := rfl

@[simp] theorem counted_quiet (tr : Trace) (s : State) (e : Event) :
    counted (tr ++ [⟨s, e, .quiet⟩]) = counted tr := by
  simp [counted, Shown.record?]

@[simp] theorem counted_record (tr : Trace) (s : State) (e : Event) (seq : Nat) (x : LogRecord) :
    counted (tr ++ [⟨s, e, .counted seq x⟩]) = counted tr ++ [(seq, x)] := by
  simp [counted, Shown.record?]

/-- What has been counted is an interval of the log, which ends where the reader stands. -/
structure Interval (tr : Trace) (s : State) : Prop where
  begins : s.stage = .closed → counted tr = []
  consecutive : ∃ k, (counted tr).map Prod.fst = List.range' k (counted tr).length ∧
    (s.stage = .sampling → s.next = k + (counted tr).length)

theorem Interval.quiet {tr : Trace} {s t : State} {e : Event} (h : Interval tr s)
    (hclosed : t.stage = .closed → s.stage = .closed)
    (hsampling : t.stage = .sampling → s.stage = .sampling ∧ t.next = s.next) :
    Interval (tr ++ [⟨s, e, .quiet⟩]) t := by
  constructor
  · intro hstage
    rw [counted_quiet]
    exact h.begins (hclosed hstage)
  · obtain ⟨k, hk, hnext⟩ := h.consecutive
    rw [counted_quiet]
    refine ⟨k, hk, ?_⟩
    intro hstage
    rw [(hsampling hstage).2]
    exact hnext (hsampling hstage).1

theorem interval_step {tag : Bytes} {tr : Trace} {s t : State} {e : Event} {o : Shown}
    (h : Interval tr s) (hs : step tag s e = some (t, o)) : Interval (tr ++ [⟨s, e, o⟩]) t := by
  cases step_move hs with
  | kernel hring => exact h.quiet id fun hstage => ⟨hstage, rfl⟩
  | sampleOpen hstage =>
    constructor
    · exact Stage.noConfusion
    · exact ⟨s.ring.first, by simp [h.begins hstage]⟩
  | record hstage hhas hread =>
    constructor
    · simp [hstage]
    · obtain ⟨k, hk, hnext⟩ := h.consecutive
      refine ⟨k, ?_, ?_⟩
      · rw [counted_record, List.map_append, hk, List.length_append, List.length_singleton,
          List.range'_1_concat, ← hnext hstage]
        rfl
      · simp [hnext hstage, Nat.add_assoc]
  | sampleInterrupted hstage => exact h.quiet id fun hstage => ⟨hstage, rfl⟩
  | _ => exact h.quiet (by simp) (by simp)

theorem interval_run {tag : Bytes} {ring : Ring LogRecord} {st : RingStat} {tr : Trace} {t : State}
    (h : Run (step tag) (State.init ring st) tr t) : Interval tr t := by
  apply h.history (I := Interval)
  · exact ⟨fun _ => rfl, 0, rfl, Stage.noConfusion⟩
  · intro tr t e u o _ hI hs
    exact interval_step hI hs

theorem Interval.below {tr : Trace} {s : State} (h : Interval tr s) (hstage : s.stage = .sampling)
    {c : Nat × LogRecord} (hc : c ∈ counted tr) : c.1 < s.next := by
  obtain ⟨k, hk, hnext⟩ := h.consecutive
  have hmem : c.1 ∈ List.range' k (counted tr).length := hk ▸ List.mem_map_of_mem hc
  rw [hnext hstage]
  exact (List.mem_range'_1.mp hmem).2

/-- The statistics are those of the records counted, as long as these can be counted in a `long`. -/
def Counts (tag : Bytes) (tr : Trace) (s : State) : Prop :=
  s.stage = .sampling ∨ s.stage = .done → (counted tr).length < 2 ^ 63 →
    Statistics tag (counted tr) s.st

theorem Counts.quiet {tag : Bytes} {tr : Trace} {s t : State} {e : Event} (h : Counts tag tr s)
    (hstage : t.stage = .sampling ∨ t.stage = .done → s.stage = .sampling ∨ s.stage = .done)
    (hst : t.st = s.st) : Counts tag (tr ++ [⟨s, e, .quiet⟩]) t := by
  intro hopen hcount
  rw [counted_quiet] at hcount ⊢
  rw [hst]
  exact h (hstage hopen) hcount

theorem counts_step {tag : Bytes} {tr : Trace} {s t : State} {e : Event} {o : Shown}
    (hint : Interval tr s) (h : Counts tag tr s) (hs : step tag s e = some (t, o)) :
    Counts tag (tr ++ [⟨s, e, o⟩]) t := by
  cases step_move hs with
  | kernel hring => exact h.quiet id rfl
  | sampleOpen hstage =>
    intro _ _
    rw [counted_quiet, hint.begins hstage]
    exact statistics_start tag
  | sampleOpenFails hstage => exact h.quiet (by simp) rfl
  | record hstage hhas hread =>
    intro _ hcount
    rw [counted_record] at hcount ⊢
    rw [List.length_append, List.length_singleton] at hcount
    dsimp only
    rw [countRecord_render]
    apply (h (Or.inl hstage) (Nat.lt_of_succ_lt hcount)).note
    · exact hcount
    · exact fun c hc => hint.below hstage hc
  | overrun hstage hread =>
    intro _ hcount
    rw [counted_quiet] at hcount ⊢
    have hst := h (Or.inl hstage) hcount
    exact ⟨hst.total, hst.oldestSeq, hst.lastSeq, hst.oldest, hst.newest, hst.textbytes, hst.tagged,
      hst.firstSeq⟩
  | refused hstage hread => exact h.quiet (fun _ => Or.inl hstage) rfl
  | empty hstage hread => exact h.quiet (fun _ => Or.inl hstage) rfl
  | sampleInterrupted hstage => exact h.quiet id rfl

theorem counts_run {tag : Bytes} {ring : Ring LogRecord} {st : RingStat} {tr : Trace} {t : State}
    (h : Run (step tag) (State.init ring st) tr t) : Counts tag tr t := by
  apply h.history (I := Counts tag)
  · exact fun hopen => absurd hopen (by simp [State.init])
  · intro tr t e u o hrun hI hs
    exact counts_step (interval_run hrun) hI hs

/-- The loop stops at this step with `EPIPE`. -/
def StopsAtEpipe (q : Record State Event Shown) : Prop :=
  q.event = .sampleRead ∧ (q.pre.ring.read q.pre.next).1 = .epipe

/-- `overrun` tells how the loop has ended. -/
structure Overrun (tr : Trace) (s : State) : Prop where
  going : s.stage ≠ .done → ∀ q ∈ tr, ¬ StopsAtEpipe q
  zero : s.stage = .sampling → s.st.overrun = 0
  stopped : s.stage = .done → (s.st.overrun = 1 ↔ ∃ q ∈ tr, StopsAtEpipe q)

theorem Overrun.still {tr : Trace} {s t : State} {e : Event} {o : Shown} (h : Overrun tr s)
    (hno : ¬ StopsAtEpipe ⟨s, e, o⟩) (hstage : t.stage = s.stage) (hst : t.st.overrun = s.st.overrun) :
    Overrun (tr ++ [⟨s, e, o⟩]) t := by
  have hmem : (∃ q ∈ tr ++ [⟨s, e, o⟩], StopsAtEpipe q) ↔ ∃ q ∈ tr, StopsAtEpipe q := by
    simp [or_and_right, exists_or, hno]
  constructor
  · intro hgoing q hq hstops
    have hold := h.going (hstage ▸ hgoing)
    obtain ⟨q', hq', hstops'⟩ := hmem.mp ⟨q, hq, hstops⟩
    exact hold q' hq' hstops'
  · rw [hstage, hst]
    exact h.zero
  · rw [hstage, hst, hmem]
    exact h.stopped

theorem Overrun.ends {tr : Trace} {s t : State} {e : Event} {o : Shown} (h : Overrun tr s)
    (hno : ¬ StopsAtEpipe ⟨s, e, o⟩) (hstage : s.stage = .sampling) (hdone : t.stage = .done)
    (hst : t.st = s.st) : Overrun (tr ++ [⟨s, e, o⟩]) t := by
  have hzero := h.zero hstage
  have hgoing := h.going (by simp [hstage])
  constructor
  · simp [hdone]
  · simp [hdone]
  · intro _
    simp only [hst, hzero]
    constructor
    · intro h01
      exact absurd h01 (by decide)
    · intro ⟨q, hq, hstops⟩
      rcases List.mem_append.mp hq with hold | hnow
      · exact absurd hstops (hgoing q hold)
      · exact absurd (List.mem_singleton.mp hnow ▸ hstops) hno

theorem overrun_step {tag : Bytes} {tr : Trace} {s t : State} {e : Event} {o : Shown}
    (h : Overrun tr s) (hs : step tag s e = some (t, o)) : Overrun (tr ++ [⟨s, e, o⟩]) t := by
  cases step_move hs with
  | kernel hring => exact h.still (by simp [StopsAtEpipe]) rfl rfl
  | sampleOpen hstage =>
    constructor
    · intro _
      simp only [List.forall_mem_append, List.forall_mem_singleton]
      exact ⟨h.going (by simp [hstage]), by simp [StopsAtEpipe]⟩
    · intro _
      rfl
    · simp
  | sampleOpenFails hstage =>
    constructor
    · intro _
      simp only [List.forall_mem_append, List.forall_mem_singleton]
      exact ⟨h.going (by simp [hstage]), by simp [StopsAtEpipe]⟩
    · simp
    · simp
  | record hstage hhas hread =>
    exact h.still (by simp [StopsAtEpipe, hread]) rfl (by simp [countRecord])
  | refused hstage hread => exact h.ends (by simp [StopsAtEpipe, hread]) hstage rfl rfl
  | overrun hstage hread =>
    constructor
    · simp
    · simp
    · intro _
      simp only [true_iff]
      exact ⟨_, List.mem_append_right _ List.mem_cons_self, rfl, by rw [hread]⟩
  | empty hstage hread => exact h.ends (by simp [StopsAtEpipe, hread]) hstage rfl rfl
  | sampleInterrupted hstage => exact h.still (by simp [StopsAtEpipe]) rfl rfl

theorem overrun_run {tag : Bytes} {ring : Ring LogRecord} {st : RingStat} {tr : Trace} {t : State}
    (h : Run (step tag) (State.init ring st) tr t) : Overrun tr t := by
  apply h.history (I := Overrun)
  · exact ⟨by simp, Stage.noConfusion, Stage.noConfusion⟩
  · intro tr t e u o _ hI hs
    exact overrun_step hI hs

/-! ## The result -/

theorem min?_of_sorted {l : List Nat} (h : l.Pairwise (· < ·)) : l.min? = l.head? := by
  cases l with
  | nil => rfl
  | cons a l =>
    apply List.min?_eq_some_iff.mpr
    simp only [List.mem_cons, true_or, forall_eq_or_imp, Nat.le_refl, true_and]
    exact fun b hb => Nat.le_of_lt ((List.pairwise_cons.mp h).1 b hb)

/-- An interval of numbers is as long as its ends are apart. -/
theorem Statistics.interval {tag : Bytes} {cs : List (Nat × LogRecord)} {st : RingStat}
    (h : Statistics tag cs st) {k : Nat} (hk : cs.map Prod.fst = List.range' k cs.length)
    (hlong : ∀ c ∈ cs, c.1 < 2 ^ 63) (hpos : 0 < st.total) :
    st.total = st.lastSeq - st.oldestSeq + 1 := by
  have hlen : 0 < cs.length := by
    have := h.total
    omega
  have hhead : (cs.map Prod.fst).head? = some k := by
    rw [hk, List.head?_range', if_neg (by omega)]
  have hlast : (cs.map Prod.fst).getLast? = some (k + cs.length - 1) := by
    rw [hk, List.getLast?_range', if_neg (by omega)]
  rw [List.head?_map] at hhead
  rw [List.getLast?_map] at hlast
  obtain ⟨c, hc, hck⟩ := Option.map_eq_some_iff.mp hhead
  obtain ⟨d, hd, hdk⟩ := Option.map_eq_some_iff.mp hlast
  have hclong := seqLong_of_lt (hlong c (List.mem_of_mem_head? hc))
  have hdlong := seqLong_of_lt (hlong d (List.mem_of_getLast? hd))
  rw [h.total, h.lastSeq, h.oldestSeq, hc, hd, Option.elim_some, Option.elim_some, hclong, hdlong,
    hck, hdk]
  omega

theorem Statistics.smallest {tag : Bytes} {cs : List (Nat × LogRecord)} {st : RingStat}
    (h : Statistics tag cs st) {k : Nat} (hk : cs.map Prod.fst = List.range' k cs.length) :
    st.firstSeq = ((cs.filter (hasTag tag)).map Prod.fst).min?.elim (-1) seqLong := by
  have hsorted : ((cs.filter (hasTag tag)).map Prod.fst).Pairwise (· < ·) := by
    have hall : (cs.map Prod.fst).Pairwise (· < ·) := hk ▸ List.pairwise_lt_range'
    exact hall.sublist (List.filter_sublist.map Prod.fst)
  rw [min?_of_sorted hsorted, List.head?_map, h.firstSeq]
  cases (cs.filter (hasTag tag)).head? <;> rfl

/-- Whatever the kernel appends and evicts between the calls of `sample_ring`, and whatever the
records hold: the records counted have consecutive numbers, and the statistics are those of these
records, their numbers taken as `long`. Below `2^63` they span exactly the records counted. -/
theorem sampleRing_statistics (tag : Bytes) (ring : Ring LogRecord) (st : RingStat) (tr : Trace)
    (t : State) (h : Run (step tag) (State.init ring st) tr t) (hdone : t.stage = .done)
    (hcount : (counted tr).length < 2 ^ 63) :
    Statistics tag (counted tr) t.st ∧
      (∃ k, (counted tr).map Prod.fst = List.range' k (counted tr).length) ∧
      ((∀ c ∈ counted tr, c.1 < 2 ^ 63) → 0 < t.st.total →
        t.st.total = t.st.lastSeq - t.st.oldestSeq + 1) ∧
      (t.st.firstSeq =
        (((counted tr).filter (hasTag tag)).map Prod.fst).min?.elim (-1) seqLong) ∧
      (t.st.overrun = 1 ↔ ∃ q ∈ tr, StopsAtEpipe q) := by
  have hstat := counts_run h (Or.inr hdone) hcount
  obtain ⟨k, hk, -⟩ := (interval_run h).consecutive
  have hover := (overrun_run h).stopped hdone
  exact ⟨hstat, ⟨k, hk⟩, hstat.interval hk, hstat.smallest hk, hover⟩

/-- A record `6,seq,1,-;RB` -/
def rbRecord : LogRecord :=
  ⟨6, 1, [45], [82, 66], [], by decide, by decide, by simp⟩

/-- Two records are counted, the second one appended while the loop runs. -/
theorem sampleRing_statistics_two : ∃ tr t,
    Run (step [82]) (State.init ⟨7, [rbRecord]⟩ .start) tr t ∧ t.st.total = 2 ∧
    (Statistics [82] (counted tr) t.st ∧
      (∃ k, (counted tr).map Prod.fst = List.range' k (counted tr).length) ∧
      ((∀ c ∈ counted tr, c.1 < 2 ^ 63) → 0 < t.st.total →
        t.st.total = t.st.lastSeq - t.st.oldestSeq + 1) ∧
      (t.st.firstSeq =
        (((counted tr).filter (hasTag [82])).map Prod.fst).min?.elim (-1) seqLong) ∧
      (t.st.overrun = 1 ↔ ∃ q ∈ tr, StopsAtEpipe q)) := by
  obtain ⟨tr, t, hrun, -, hq⟩ := exists_exec (step [82]) (State.init ⟨7, [rbRecord]⟩ .start)
    [.sampleOpen, .sampleRead, .kernel (.append rbRecord), .sampleRead, .sampleRead]
    (fun x => decide (x.2.stage = .done) && (decide ((counted x.1).length < 2 ^ 63) &&
      decide (x.2.st.total = 2))) (by decide +kernel)
  simp only [Bool.and_eq_true, decide_eq_true_eq] at hq
  obtain ⟨hdone, hcount, htotal⟩ := hq
  exact ⟨tr, t, hrun, htotal, sampleRing_statistics [82] _ _ tr t hrun hdone hcount⟩

/-- The records 2^63 and 2^63 + 1 are counted; `atol` gives the same number for both. -/
theorem sampleRing_number_saturates : ¬ ∀ tag ring st tr t, tag ≠ [] →
    Run (step tag) (State.init ring st) tr t → t.stage = .done →
    0 < t.st.total → t.st.total = t.st.lastSeq - t.st.oldestSeq + 1 := by
  intro hall
  obtain ⟨tr, t, hrun, -, hq⟩ := exists_exec (step [82])
    (State.init ⟨2 ^ 63, [rbRecord, rbRecord]⟩ .start)
    [.sampleOpen, .sampleRead, .sampleRead, .sampleRead]
    (fun x => decide (x.2.stage = .done) && (decide (0 < x.2.st.total) &&
      !decide (x.2.st.total = x.2.st.lastSeq - x.2.st.oldestSeq + 1))) (by decide +kernel)
  simp only [Bool.and_eq_true, Bool.not_eq_true', decide_eq_true_eq, decide_eq_false_iff_not] at hq
  obtain ⟨hdone, hpos, hne⟩ := hq
  exact hne (hall [82] _ _ tr t (by simp) hrun hdone hpos)

end LinuxDriverLab.RbFill
