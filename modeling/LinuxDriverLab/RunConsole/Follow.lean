import LinuxDriverLab.Kernel.CString
import LinuxDriverLab.Kernel.Kmsg

/-!
# Following the kernel log

`run_console` opens `/dev/kmsg`, reads away what is there, and then polls and reads for some
seconds while the kernel goes on logging. Every system call on the log is a step of its own, so the
kernel can append and evict between any two of them.
-/

namespace LinuxDriverLab.RunConsole

/-- Where the program stands. -/
inductive Stage
  | closed
  | draining
  | polling
  | reading
  | seeking
  | finished
deriving DecidableEq

structure State where
  ring : Ring Bytes
  stage : Stage
  next : Nat
deriving DecidableEq

def State.init (ring : Ring Bytes) : State := ⟨ring, .closed, 0⟩

/-- What the loop takes from a line for the output: the text behind the `;`, up to the newline. -/
def followMsg (buf : Bytes) : Bytes :=
  let line := cString buf
  let line := cutAt line (strchr line 10)
  match strchr line 59 with
  | some semi => line.drop (semi + 1)
  | none => line

theorem followMsg_render (x : LogRecord) (seq : Nat) : followMsg (x.render seq) = x.text := by
  simp only [followMsg, x.cut_render, x.strchr_semi, x.drop_semi]

inductive Event
  | kernel (e : LogEvent Bytes)
  | kmsgOpen
  | kmsgOpenFails
  | drainRead
  | drainInterrupted
  | pollReady
  | pollElapsed
  | pollFails
  | deadline
  | followRead
  | followInterrupted
  | followSeek
deriving DecidableEq

/-- What the loop prints of a record, beside its number in the log. -/
inductive Shown
  | quiet
  | printed (seq : Nat) (msg : Bytes)
deriving DecidableEq

/-- A read of `kmsg_open_drained`: a record is thrown away, every error other than `EINTR` ends the
loop. -/
def drainRead (s : State) : State :=
  match s.ring.read s.next with
  | (.record _ _, next) => { s with next }
  | (.epipe, next) => { s with stage := .polling, next }
  | (.eagain, next) => { s with stage := .polling, next }

/-- A read of the loop of `main`. -/
def followRead (s : State) : State × Shown :=
  match s.ring.read s.next with
  | (.record seq x, next) => ({ s with stage := .polling, next }, .printed seq (followMsg x))
  | (.epipe, next) => ({ s with stage := .seeking, next }, .quiet)
  | (.eagain, next) => ({ s with stage := .polling, next }, .quiet)

def step (s : State) : Event → Option (State × Shown)
  | .kernel e =>
    match s.ring.kernel e with
    | some ring => some ({ s with ring }, .quiet)
    | none => none
  | .kmsgOpen =>
    if s.stage = .closed then some ({ s with stage := .draining, next := s.ring.first }, .quiet)
    else none
  | .kmsgOpenFails =>
    if s.stage = .closed then some ({ s with stage := .finished }, .quiet) else none
  | .drainRead => if s.stage = .draining then some (drainRead s, .quiet) else none
  | .drainInterrupted => if s.stage = .draining then some (s, .quiet) else none
  -- `poll` may report the file ready at any time, a superset of what the kernel does
  | .pollReady => if s.stage = .polling then some ({ s with stage := .reading }, .quiet) else none
  | .pollElapsed => if s.stage = .polling then some (s, .quiet) else none
  | .pollFails => if s.stage = .polling then some ({ s with stage := .finished }, .quiet) else none
  | .deadline => if s.stage = .polling then some ({ s with stage := .finished }, .quiet) else none
  | .followRead => if s.stage = .reading then some (followRead s) else none
  -- only `EAGAIN` and `EPIPE` lead back into the loop
  | .followInterrupted =>
    if s.stage = .reading then some ({ s with stage := .finished }, .quiet) else none
  -- `lseek(kfd, 0, SEEK_SET)`
  | .followSeek =>
    if s.stage = .seeking then some ({ s with stage := .polling, next := s.ring.first }, .quiet)
    else none

abbrev Trace := List (Record State Event Shown)

/-- What a step can do. -/
inductive Move (s : State) : Event → State → Shown → Prop
  | kernel {e : LogEvent Bytes} {ring : Ring Bytes} : s.ring.kernel e = some ring →
      Move s (.kernel e) { s with ring } .quiet
  | kmsgOpen : s.stage = .closed →
      Move s .kmsgOpen { s with stage := .draining, next := s.ring.first } .quiet
  | kmsgOpenFails : s.stage = .closed → Move s .kmsgOpenFails { s with stage := .finished } .quiet
  | drainRecord {seq : Nat} {x : Bytes} : s.stage = .draining →
      (s.ring.read s.next).1 = .record seq x →
      Move s .drainRead { s with next := s.next + 1 } .quiet
  | drainOverrun : s.stage = .draining → (s.ring.read s.next).1 = .epipe →
      Move s .drainRead { s with stage := .polling, next := s.ring.first } .quiet
  | drainEnd : s.stage = .draining → (s.ring.read s.next).1 = .eagain →
      Move s .drainRead { s with stage := .polling } .quiet
  | drainInterrupted : s.stage = .draining → Move s .drainInterrupted s .quiet
  | pollReady : s.stage = .polling → Move s .pollReady { s with stage := .reading } .quiet
  | pollElapsed : s.stage = .polling → Move s .pollElapsed s .quiet
  | pollFails : s.stage = .polling → Move s .pollFails { s with stage := .finished } .quiet
  | deadline : s.stage = .polling → Move s .deadline { s with stage := .finished } .quiet
  | followRecord {x : Bytes} : s.stage = .reading → s.ring.has s.next →
      (s.ring.read s.next).1 = .record s.next x →
      Move s .followRead { s with stage := .polling, next := s.next + 1 }
        (.printed s.next (followMsg x))
  | followOverrun : s.stage = .reading → s.next < s.ring.first →
      Move s .followRead { s with stage := .seeking, next := s.ring.first } .quiet
  | followEmpty : s.stage = .reading → Move s .followRead { s with stage := .polling } .quiet
  | followInterrupted : s.stage = .reading →
      Move s .followInterrupted { s with stage := .finished } .quiet
  | followSeek : s.stage = .seeking →
      Move s .followSeek { s with stage := .polling, next := s.ring.first } .quiet

theorem followRead_move {s : State} (hstage : s.stage = .reading) :
    Move s .followRead (followRead s).1 (followRead s).2 := by
  rcases s.ring.read_cases s.next with ⟨hlt, hread⟩ | ⟨x, hhas, -, hread⟩ | ⟨-, -, hread⟩
  · simp only [followRead, hread]
    exact .followOverrun hstage hlt
  · simp only [followRead, hread]
    exact .followRecord hstage hhas (by rw [hread])
  · simp only [followRead, hread]
    exact .followEmpty hstage

theorem drainRead_move {s : State} (hstage : s.stage = .draining) :
    Move s .drainRead (drainRead s) .quiet := by
  rcases s.ring.read_cases s.next with ⟨-, hread⟩ | ⟨x, -, -, hread⟩ | ⟨-, -, hread⟩
  · simp only [drainRead, hread]
    exact .drainOverrun hstage (by rw [hread])
  · simp only [drainRead, hread]
    exact .drainRecord hstage (by rw [hread])
  · simp only [drainRead, hread]
    exact .drainEnd hstage (by rw [hread])

theorem step_move {s t : State} {e : Event} {o : Shown} (h : step s e = some (t, o)) :
    Move s e t o := by
  cases e with
  | kernel e =>
    simp only [step] at h
    split at h
    · next ring hring =>
      cases h
      exact .kernel hring
    · cases h
  | followRead =>
    simp only [step, Option.ite_none_right_eq_some, Option.some.injEq] at h
    obtain ⟨hstage, hread⟩ := h
    have hmove := followRead_move hstage
    rwa [hread] at hmove
  | drainRead =>
    simp only [step, Option.ite_none_right_eq_some, Option.some.injEq, Prod.mk.injEq] at h
    obtain ⟨hstage, rfl, rfl⟩ := h
    exact drainRead_move hstage
  | _ =>
    simp only [step, Option.ite_none_right_eq_some, Option.some.injEq, Prod.mk.injEq] at h
    obtain ⟨hstage, rfl, rfl⟩ := h
    constructor
    exact hstage

/-! ## The order of the records printed -/

def Shown.seq? : Shown → Option Nat
  | .quiet => none
  | .printed seq _ => some seq

/-- The numbers of the records printed so far. -/
def printed (tr : Trace) : List Nat := tr.filterMap fun r => r.out.seq?

@[simp] theorem printed_nil : printed [] = [] := rfl

@[simp] theorem printed_quiet (tr : Trace) (s : State) (e : Event) :
    printed (tr ++ [⟨s, e, .quiet⟩]) = printed tr := by
  simp [printed, Shown.seq?]

@[simp] theorem printed_record (tr : Trace) (s : State) (e : Event) (seq : Nat) (msg : Bytes) :
    printed (tr ++ [⟨s, e, .printed seq msg⟩]) = printed tr ++ [seq] := by
  simp [printed, Shown.seq?]

/-- Everything printed lies before the reader's next record, and in order. -/
structure Ordered (tr : Trace) (s : State) : Prop where
  start : s.stage = .closed → printed tr = []
  below : ∀ seq ∈ printed tr, seq < s.next
  sorted : (printed tr).Pairwise (· < ·)
  seeking : s.stage = .seeking → s.next ≤ s.ring.first

theorem Ordered.quiet {tr : Trace} {s t : State} {e : Event} (h : Ordered tr s)
    (hstart : t.stage = .closed → s.stage = .closed) (hnext : s.next ≤ t.next)
    (hseek : t.stage = .seeking → t.next ≤ t.ring.first) : Ordered (tr ++ [⟨s, e, .quiet⟩]) t := by
  constructor
  · intro hclosed
    rw [printed_quiet]
    exact h.start (hstart hclosed)
  · intro seq hseq
    rw [printed_quiet] at hseq
    exact Nat.lt_of_lt_of_le (h.below seq hseq) hnext
  · rw [printed_quiet]
    exact h.sorted
  · exact hseek

theorem ordered_step {tr : Trace} {s t : State} {e : Event} {o : Shown} (h : Ordered tr s)
    (hs : step s e = some (t, o)) : Ordered (tr ++ [⟨s, e, o⟩]) t := by
  cases step_move hs with
  | kernel hring =>
    have hfirst := Ring.kernel_first_le hring
    exact h.quiet id (Nat.le_refl _) fun hseek => Nat.le_trans (h.seeking hseek) hfirst
  | kmsgOpen hstage =>
    constructor
    · exact Stage.noConfusion
    · simp [h.start hstage]
    · simp [h.start hstage]
    · exact Stage.noConfusion
  | drainRecord hstage hread =>
    exact h.quiet (by simp [hstage]) (Nat.le_succ _) (by simp [hstage])
  | drainOverrun hstage hread =>
    have hlt := Ring.read_epipe hread
    exact h.quiet (by simp) (Nat.le_of_lt hlt) (by simp)
  | followRecord hstage hhas hread =>
    constructor
    · exact Stage.noConfusion
    · intro seq hseq
      rw [printed_record, List.mem_append, List.mem_singleton] at hseq
      rcases hseq with hold | hnow
      · exact Nat.lt_succ_of_lt (h.below seq hold)
      · exact Nat.lt_succ_of_le (Nat.le_of_eq hnow)
    · rw [printed_record, List.pairwise_append]
      simp only [List.pairwise_singleton, List.mem_singleton, forall_eq, true_and]
      exact ⟨h.sorted, h.below⟩
    · exact Stage.noConfusion
  | followOverrun hstage hlt => exact h.quiet (by simp) (Nat.le_of_lt hlt) fun _ => Nat.le_refl _
  | followSeek hstage => exact h.quiet (by simp) (h.seeking hstage) (by simp)
  | drainInterrupted hstage => exact h.quiet id (Nat.le_refl _) h.seeking
  | pollElapsed hstage => exact h.quiet id (Nat.le_refl _) h.seeking
  | _ => exact h.quiet (by simp) (Nat.le_refl _) (by simp)

theorem ordered_run {ring : Ring Bytes} {tr : Trace} {t : State}
    (h : Run step (State.init ring) tr t) : Ordered tr t := by
  apply h.history (I := Ordered)
  · exact ⟨fun _ => rfl, by simp, by simp, Stage.noConfusion⟩
  · intro tr t e u o _ hI hs
    exact ordered_step hI hs

/-! ## Only new records -/

/-- The last read of `kmsg_open_drained`: it brings no record. -/
def EndsDrain (q : Record State Event Shown) : Prop :=
  q.event = .drainRead ∧ (q.pre.ring.read q.pre.next).1.isRecord = false

instance (q : Record State Event Shown) : Decidable (EndsDrain q) :=
  inferInstanceAs (Decidable (_ ∧ _))

/-- A step prints no record that was in the log at the last read of `kmsg_open_drained`. -/
def PrintsNew (past : Trace) (r : Record State Event Shown) : Prop :=
  ∀ seq msg, r.out = .printed seq msg → ∀ q ∈ past, EndsDrain q → ¬ q.pre.ring.has seq

/-- A read of `kmsg_open_drained` does not find its next record evicted, unless the log is empty. -/
def DrainsInTime (_past : Trace) (r : Record State Event Shown) : Prop :=
  r.event = .drainRead → r.pre.ring.first ≤ r.pre.next ∨ r.pre.ring.records = []

/-- The reader stands behind everything that the last read of the drain found in the log. -/
structure Past (tr : Trace) (s : State) : Prop where
  drained : ∀ q ∈ tr, EndsDrain q → q.pre.ring.stop ≤ s.next
  new : Each PrintsNew tr
  opened : s.stage = .closed ∨ s.stage = .draining → ∀ q ∈ tr, ¬ EndsDrain q
  seeking : s.stage = .seeking → s.next ≤ s.ring.first

theorem Past.quiet {tr : Trace} {s t : State} {e : Event} (h : Past tr s)
    (hends : ¬ EndsDrain ⟨s, e, .quiet⟩) (hnext : ∀ q ∈ tr, EndsDrain q → s.next ≤ t.next)
    (hopen : t.stage = .closed ∨ t.stage = .draining → s.stage = .closed ∨ s.stage = .draining)
    (hseek : t.stage = .seeking → t.next ≤ t.ring.first) :
    Past (tr ++ [⟨s, e, .quiet⟩]) t := by
  constructor
  · simp only [List.forall_mem_append, List.forall_mem_singleton]
    constructor
    · intro q hq hend
      exact Nat.le_trans (h.drained q hq hend) (hnext q hq hend)
    · exact fun hend => absurd hend hends
  · rw [each_concat]
    exact ⟨h.new, fun _ _ hout => Shown.noConfusion hout⟩
  · intro hstage
    simp only [List.forall_mem_append, List.forall_mem_singleton]
    exact ⟨h.opened (hopen hstage), hends⟩
  · exact hseek

theorem Past.drainEnds {tr : Trace} {s t : State} (h : Past tr s) (hstage : s.stage = .draining)
    (hafter : t.stage = .polling) (hstop : s.ring.stop ≤ t.next) :
    Past (tr ++ [⟨s, .drainRead, .quiet⟩]) t := by
  constructor
  · simp only [List.forall_mem_append, List.forall_mem_singleton]
    constructor
    · intro q hq hend
      exact absurd hend (h.opened (Or.inr hstage) q hq)
    · exact fun _ => hstop
  · rw [each_concat]
    exact ⟨h.new, fun _ _ hout => Shown.noConfusion hout⟩
  · simp [hafter]
  · simp [hafter]

theorem past_step {tr : Trace} {s t : State} {e : Event} {o : Shown} (h : Past tr s)
    (hin : DrainsInTime tr ⟨s, e, o⟩) (hs : step s e = some (t, o)) :
    Past (tr ++ [⟨s, e, o⟩]) t := by
  cases step_move hs with
  | kernel hring =>
    have hfirst := Ring.kernel_first_le hring
    exact h.quiet (by simp [EndsDrain]) (fun _ _ _ => Nat.le_refl _) id
      fun hseek => Nat.le_trans (h.seeking hseek) hfirst
  | kmsgOpen hstage =>
    exact h.quiet (by simp [EndsDrain]) (fun q hq hend => absurd hend (h.opened (Or.inl hstage) q hq))
      (fun _ => Or.inl hstage) Stage.noConfusion
  | drainRecord hstage hread =>
    exact h.quiet (by simp [EndsDrain, hread, Got.isRecord]) (fun _ _ _ => Nat.le_succ _)
      (fun _ => Or.inr hstage) (by simp [hstage])
  | drainOverrun hstage hread =>
    have hlt := Ring.read_epipe hread
    apply h.drainEnds hstage rfl
    rcases hin rfl with hle | hempty
    · exact absurd hlt (Nat.not_lt.mpr hle)
    · have hstop : s.ring.stop = s.ring.first := by
        rw [Ring.stop, show s.ring.records = [] from hempty, List.length_nil, Nat.add_zero]
      exact Nat.le_of_eq hstop
  | drainEnd hstage hread => exact h.drainEnds hstage rfl (Ring.read_eagain hread)
  | @followRecord x hstage hhas hread =>
    have hends : ¬ EndsDrain ⟨s, .followRead, .printed s.next (followMsg x)⟩ := by simp [EndsDrain]
    constructor
    · simp only [List.forall_mem_append, List.forall_mem_singleton]
      constructor
      · intro q hq hend
        exact Nat.le_succ_of_le (h.drained q hq hend)
      · exact fun hend => absurd hend hends
    · rw [each_concat]
      refine ⟨h.new, ?_⟩
      intro seq msg hout q hq hend hold
      obtain ⟨rfl, -⟩ := Shown.printed.inj hout
      exact Nat.not_lt.mpr (h.drained q hq hend) hold.2
    · simp
    · exact Stage.noConfusion
  | followOverrun hstage hlt =>
    exact h.quiet (by simp [EndsDrain]) (fun _ _ _ => Nat.le_of_lt hlt) (by simp) fun _ => Nat.le_refl _
  | followSeek hstage =>
    exact h.quiet (by simp [EndsDrain]) (fun _ _ _ => h.seeking hstage) (by simp) (by simp)
  | drainInterrupted hstage => exact h.quiet (by simp [EndsDrain]) (fun _ _ _ => Nat.le_refl _) id h.seeking
  | pollElapsed hstage => exact h.quiet (by simp [EndsDrain]) (fun _ _ _ => Nat.le_refl _) id h.seeking
  | _ => exact h.quiet (by simp [EndsDrain]) (fun _ _ _ => Nat.le_refl _) (by simp) (by simp)

theorem past_run {ring : Ring Bytes} {tr : Trace} {t : State}
    (h : Run step (State.init ring) tr t) (hin : Each DrainsInTime tr) : Past tr t := by
  apply h.guarded hin (I := Past)
  · exact ⟨by simp, each_nil, by simp, Stage.noConfusion⟩
  · intro tr t e u o _ hI hP hs
    exact past_step hI hP hs

/-- An overrun at the end of the drain, while the log holds a record, lets the loop print one that
was there already. -/
theorem drain_overrun_prints_old {ring : Ring Bytes} {tr : Trace} {t : State}
    (h : Run step (State.init ring) tr t) (hstage : t.stage = .draining)
    (hlt : t.next < t.ring.first) (hrecords : t.ring.records ≠ []) :
    ∃ tr' u, Run step (State.init ring) (tr ++ tr') u ∧ ¬ Each PrintsNew (tr ++ tr') := by
  obtain ⟨x, rest, hx⟩ := List.exists_cons_of_ne_nil hrecords
  have hover : t.ring.read t.next = (.epipe, t.ring.first) := by rw [Ring.read, if_pos hlt]
  have hread : t.ring.read t.ring.first = (.record t.ring.first x, t.ring.first + 1) := by
    simp [Ring.read, hx]
  have hhas : t.ring.has t.ring.first := by simp [Ring.has, Ring.stop, hx]
  have hdrain : step t .drainRead = some (⟨t.ring, .polling, t.ring.first⟩, .quiet) := by
    simp [step, hstage, drainRead, hover]
  have hpoll : step ⟨t.ring, .polling, t.ring.first⟩ .pollReady =
      some (⟨t.ring, .reading, t.ring.first⟩, .quiet) := rfl
  have hfollow : step ⟨t.ring, .reading, t.ring.first⟩ .followRead =
      some (⟨t.ring, .polling, t.ring.first + 1⟩, .printed t.ring.first (followMsg x)) := by
    simp [step, followRead, hread]
  refine ⟨_, _, h.append (((Run.refl.tail hdrain).tail hpoll).tail hfollow), ?_⟩
  intro hnew
  rw [← List.append_assoc, each_concat] at hnew
  refine hnew.2 t.ring.first (followMsg x) rfl ⟨t, .drainRead, .quiet⟩ (by simp) ?_ hhas
  exact ⟨rfl, by rw [hover]; rfl⟩

/-- In every run, with the kernel appending and evicting between any two calls, in which no read of
`kmsg_open_drained` finds its next record evicted while the log holds another, the loop prints no
record that was in the log at the last of these reads. In every run it prints each record at most
once and in the order of their numbers. -/
theorem follow_prints_new (ring : Ring Bytes) (tr : Trace) (t : State)
    (h : Run step (State.init ring) tr t) (hin : Each DrainsInTime tr) :
    Each PrintsNew tr ∧ (printed tr).Nodup ∧ (printed tr).Pairwise (· < ·) := by
  have hsorted := (ordered_run h).sorted
  have hnodup : (printed tr).Nodup := hsorted.imp Nat.ne_of_lt
  exact ⟨(past_run h hin).new, hnodup, hsorted⟩

instance (past : Trace) (r : Record State Event Shown) : Decidable (DrainsInTime past r) :=
  inferInstanceAs (Decidable (_ → _))

/-- A record is drained, the end is reached, and the record that follows is printed. -/
theorem follow_prints_new_appended : ∃ tr t, Run step (State.init ⟨4, [[65]]⟩) tr t ∧
    tr.map Record.event = [.kmsgOpen, .drainRead, .drainRead,
      .kernel (.append [54, 44, 53, 59, 72, 105, 10]), .pollReady, .followRead] ∧
    printed tr = [5] ∧
    (Each PrintsNew tr ∧ (printed tr).Nodup ∧ (printed tr).Pairwise (· < ·)) := by
  obtain ⟨tr, t, hrun, hev, hq⟩ := exists_exec step (State.init ⟨4, [[65]]⟩)
    [.kmsgOpen, .drainRead, .drainRead, .kernel (.append [54, 44, 53, 59, 72, 105, 10]), .pollReady,
      .followRead]
    (fun x => decide (printed x.1 = [5]) && x.1.all fun r => decide (DrainsInTime [] r))
    (by decide +kernel)
  rw [Bool.and_eq_true, decide_eq_true_eq] at hq
  have hin : Each DrainsInTime tr :=
    each_of_all _ hq.2 fun _ _ hr => (decide_eq_true_eq.mp hr :)
  exact ⟨tr, t, hrun, hev, hq.1, follow_prints_new _ tr t hrun hin⟩

/-- The oldest of three records is evicted before the drain reads it; the drain ends at that, and
the loop prints the second one. -/
theorem follow_prints_old_after_overrun : ¬ ∀ ring tr t, Run step (State.init ring) tr t →
    Each PrintsNew tr ∧ (printed tr).Nodup ∧ (printed tr).Pairwise (· < ·) := by
  intro hall
  obtain ⟨past, r, t, hrun, -, hq⟩ := exists_exec_concat step
    (State.init ⟨4, [[65], [66], [67]]⟩)
    [.kmsgOpen, .kernel .evict, .drainRead, .pollReady] .followRead
    (fun past r => decide (r.out = .printed 5 [66]) &&
      past.any fun q => decide (EndsDrain q ∧ q.pre.ring.has 5)) (by decide +kernel)
  rw [Bool.and_eq_true, decide_eq_true_eq] at hq
  obtain ⟨q, hmem, hold⟩ := List.any_eq_true.mp hq.2
  obtain ⟨hend, hhas⟩ := decide_eq_true_eq.mp hold
  have hnew := ((each_concat past r).mp (hall _ _ t hrun).1).2
  exact hnew 5 [66] hq.1 q hmem hend hhas

end LinuxDriverLab.RunConsole
