import LinuxDriverLab.Framework.Buffer
import LinuxDriverLab.Framework.Run
import LinuxDriverLab.Framework.Words

/-!
# Draining a terminal

`drain_until` of `run_pty` polls, asks for the child and reads until a deadline, the end of the file
or a full buffer. The system decides the outcome of every call, so each call is a step of its own
with its outcome as the event.
-/

namespace LinuxDriverLab.RunPty

/-- The call that comes next. -/
inductive Stage
  | clock
  | poll
  | waitpid
  | read
  | drainRead
  | returned
deriving DecidableEq

structure State (cap : Nat) where
  out : Buf cap
  used : Nat
  stage : Stage
deriving DecidableEq

inductive PollResult
  | ready
  | elapsed
  | interrupted
  | failed
deriving DecidableEq

/-- A `read` gives bytes, none of them at the end of the file, or an error. -/
inductive ReadResult
  | data (chunk : Bytes)
  | interrupted
  | failed
deriving DecidableEq

inductive Event
  | clock (expired : Bool)
  | poll (r : PollResult)
  | waitpid (exited : Bool)
  | read (r : ReadResult)
deriving DecidableEq

/-- The third argument of a `read` -/
inductive Shown
  | quiet
  | asked (n : Nat)
deriving DecidableEq

section

variable {cap : Nat}

def State.init (out : Buf cap) : State cap := ⟨out, 0, .clock⟩

/-- `cap - used - 1` -/
def State.ask (s : State cap) : Nat := usub64 (usub64 cap s.used) 1

/-- `out[used] = '\0'` -/
def State.terminate (s : State cap) : State cap := { s with out := s.out.store s.used [0] }

/-- The end of the function. -/
def State.finish (s : State cap) : State cap := { s.terminate with stage := .returned }

/-- What a `read` of `chunk` leaves in the buffer. -/
def State.take (s : State cap) (chunk : Bytes) : State cap :=
  { s with out := s.out.store s.used chunk, used := s.used + chunk.length }

/-- A `read` of the inner loop: every error ends the function, as the end of the file does. -/
def drainRead (s : State cap) : ReadResult → State cap
  | .data chunk => if chunk = [] then s.finish else s.take chunk
  | .interrupted => s.finish
  | .failed => s.finish

/-- A `read` of the outer loop. -/
def outerRead (s : State cap) : ReadResult → State cap
  | .data chunk =>
    if chunk = [] then s.finish else { (s.take chunk).terminate with stage := .clock }
  | .interrupted => { s with stage := .clock }
  | .failed => s.finish

/-- A `read` gives no more than it was asked for. -/
def ReadResult.within (n : Nat) : ReadResult → Bool
  | .data chunk => chunk.length ≤ n
  | .interrupted => true
  | .failed => true

/-- `hasChild` is the test `child > 0`. -/
def step (hasChild : Bool) (s : State cap) : Event → Option (State cap × Shown)
  | .clock expired =>
    if s.stage = .clock then
      some (if expired then s.finish else { s with stage := .poll }, .quiet)
    else none
  | .poll r =>
    if s.stage = .poll then
      match r with
      | .ready => some ({ s with stage := .read }, .quiet)
      | .elapsed => some ({ s with stage := if hasChild then .waitpid else .clock }, .quiet)
      | .interrupted => some ({ s with stage := .clock }, .quiet)
      | .failed => some (s.finish, .quiet)
    else none
  | .waitpid exited =>
    if s.stage = .waitpid then
      some ({ s with stage := if exited then .drainRead else .clock }, .quiet)
    else none
  | .read r =>
    if r.within s.ask then
      if s.stage = .read then some (outerRead s r, .asked s.ask)
      else if s.stage = .drainRead then some (drainRead s r, .asked s.ask)
      else none
    else none

end

abbrev Trace (cap : Nat) := List (Record (State cap) Event Shown)

/-- The bytes that a step has read. -/
def chunk {cap : Nat} (r : Record (State cap) Event Shown) : Bytes :=
  match r.event with
  | .read (.data c) => c
  | _ => []

/-- All that has been read, in order. -/
def chunks {cap : Nat} (tr : Trace cap) : Bytes := tr.flatMap chunk

/-- The reads that the inner loop has made. -/
def innerReads {cap : Nat} (tr : Trace cap) : Nat := tr.countP fun r => r.pre.stage = .drainRead

/-- What a step can do. -/
inductive Move {cap : Nat} (hasChild : Bool) (s : State cap) : Event → State cap → Shown → Prop
  | goes {e : Event} {stage : Stage} : (∀ r, e ≠ .read r) → s.stage ≠ .drainRead →
      s.stage ≠ .returned → stage ≠ .returned → Move hasChild s e { s with stage } .quiet
  | finishes {e : Event} : (∀ r, e ≠ .read r) → s.stage ≠ .drainRead → s.stage ≠ .returned →
      Move hasChild s e s.finish .quiet
  | reads {c : Bytes} : s.stage = .read → c ≠ [] → c.length ≤ s.ask →
      Move hasChild s (.read (.data c)) { (s.take c).terminate with stage := .clock } (.asked s.ask)
  | again : s.stage = .read →
      Move hasChild s (.read .interrupted) { s with stage := .clock } (.asked s.ask)
  | ends {r : ReadResult} : s.stage ≠ .returned → (∀ c, r = .data c → c = []) →
      Move hasChild s (.read r) s.finish (.asked s.ask)
  | drains {c : Bytes} : s.stage = .drainRead → c ≠ [] → c.length ≤ s.ask →
      Move hasChild s (.read (.data c)) (s.take c) (.asked s.ask)

theorem read_move {cap : Nat} (hasChild : Bool) {s : State cap} (hstage : s.stage = .read) {r : ReadResult}
    (hr : r.within s.ask = true) : Move hasChild s (.read r) (outerRead s r) (.asked s.ask) := by
  have hlive : s.stage ≠ .returned := by simp [hstage]
  cases r with
  | data c =>
    by_cases hc : c = []
    · subst hc
      exact .ends hlive fun c h => (ReadResult.data.inj h).symm
    · rw [outerRead, if_neg hc]
      exact .reads hstage hc (of_decide_eq_true hr)
  | interrupted => exact .again hstage
  | failed => exact .ends hlive nofun

theorem drainRead_move {cap : Nat} (hasChild : Bool) {s : State cap} (hstage : s.stage = .drainRead)
    {r : ReadResult} (hr : r.within s.ask = true) :
    Move hasChild s (.read r) (drainRead s r) (.asked s.ask) := by
  have hlive : s.stage ≠ .returned := by simp [hstage]
  cases r with
  | data c =>
    by_cases hc : c = []
    · subst hc
      exact .ends hlive fun c h => (ReadResult.data.inj h).symm
    · rw [drainRead, if_neg hc]
      exact .drains hstage hc (of_decide_eq_true hr)
  | interrupted => exact .ends hlive nofun
  | failed => exact .ends hlive nofun

theorem step_move {cap : Nat} {hasChild : Bool} {s u : State cap} {e : Event} {o : Shown}
    (h : step hasChild s e = some (u, o)) : Move hasChild s e u o := by
  cases e with
  | clock expired =>
    simp only [step, Option.ite_none_right_eq_some, Option.some.injEq, Prod.mk.injEq] at h
    obtain ⟨hstage, rfl, rfl⟩ := h
    cases expired with
    | true => exact .finishes nofun (by simp [hstage]) (by simp [hstage])
    | false => exact .goes nofun (by simp [hstage]) (by simp [hstage]) nofun
  | poll r =>
    simp only [step, Option.ite_none_right_eq_some] at h
    obtain ⟨hstage, h⟩ := h
    cases r with
    | ready =>
      cases h
      exact .goes nofun (by simp [hstage]) (by simp [hstage]) nofun
    | elapsed =>
      cases h
      exact .goes nofun (by simp [hstage]) (by simp [hstage]) (by cases hasChild <;> nofun)
    | interrupted =>
      cases h
      exact .goes nofun (by simp [hstage]) (by simp [hstage]) nofun
    | failed =>
      cases h
      exact .finishes nofun (by simp [hstage]) (by simp [hstage])
  | waitpid exited =>
    simp only [step, Option.ite_none_right_eq_some, Option.some.injEq, Prod.mk.injEq] at h
    obtain ⟨hstage, rfl, rfl⟩ := h
    exact .goes nofun (by simp [hstage]) (by simp [hstage]) (by cases exited <;> nofun)
  | read r =>
    simp only [step, Option.ite_none_right_eq_some] at h
    obtain ⟨hr, h⟩ := h
    split at h
    · next hstage =>
      cases h
      exact read_move hasChild hstage hr
    · simp only [Option.ite_none_right_eq_some, Option.some.injEq, Prod.mk.injEq] at h
      obtain ⟨hstage, rfl, rfl⟩ := h
      exact drainRead_move hasChild hstage hr

/-! ## The buffer -/

section

variable {cap : Nat} {s : State cap}

theorem ask_eq (hmax : cap < 2 ^ 64) (h : s.used < cap) : s.ask = cap - 1 - s.used := by
  rw [State.ask, usub64_of_le h.le hmax, usub64_of_le (by omega) (by omega)]
  omega

theorem take_bytes {c : Bytes} (h : s.used + c.length ≤ cap) :
    (s.take c).out.bytes.take (s.take c).used = s.out.bytes.take s.used ++ c :=
  s.out.take_store h

theorem terminate_bytes (h : s.used < cap) :
    s.terminate.out.bytes.take s.used = s.out.bytes.take s.used ∧
      s.terminate.out.bytes.take (s.used + 1) = s.out.bytes.take s.used ++ [0] :=
  ⟨s.out.take_store_before h.le [0], @Buf.take_store cap s.out s.used [0] h⟩

end

/-! ## Every run -/

section

variable {cap : Nat} {hasChild : Bool}

/-- The buffer holds what has been read, and the inner loop has read at least one byte each time. -/
structure Collects (tr : Trace cap) (s : State cap) : Prop where
  used_lt : s.used < cap
  used_eq : s.used = (chunks tr).length
  bytes : s.out.bytes.take s.used = chunks tr
  nul : s.stage = .returned → s.out.bytes.take (s.used + 1) = chunks tr ++ [0]
  inner : innerReads tr ≤ s.used + if s.stage = .returned then 1 else 0

theorem chunks_concat (tr : Trace cap) (r : Record (State cap) Event Shown) :
    chunks (tr ++ [r]) = chunks tr ++ chunk r := by
  simp [chunks]

theorem innerReads_concat (tr : Trace cap) (r : Record (State cap) Event Shown) :
    innerReads (tr ++ [r]) = innerReads tr + if r.pre.stage = .drainRead then 1 else 0 := by
  simp [innerReads, List.countP_append, List.countP_singleton]

theorem chunk_of_not_read {s : State cap} {e : Event} {o : Shown} (he : ∀ r, e ≠ .read r) :
    chunk ⟨s, e, o⟩ = [] := by
  cases e with
  | read r => exact absurd rfl (he r)
  | _ => rfl

theorem chunk_of_end {s : State cap} {r : ReadResult} {o : Shown} (hr : ∀ c, r = .data c → c = []) :
    chunk ⟨s, .read r, o⟩ = [] := by
  cases r with
  | data c => exact hr c rfl
  | _ => rfl

theorem Collects.finish {tr : Trace cap} {s : State cap} {e : Event} {o : Shown} (h : Collects tr s)
    (hlive : s.stage ≠ .returned) (he : chunk ⟨s, e, o⟩ = []) : Collects (tr ++ [⟨s, e, o⟩]) s.finish := by
  obtain ⟨hkeep, hnul⟩ := terminate_bytes h.used_lt
  have hchunks : chunks (tr ++ [⟨s, e, o⟩]) = chunks tr := by rw [chunks_concat, he, List.append_nil]
  constructor
  · exact h.used_lt
  · rw [hchunks]
    exact h.used_eq
  · rw [hchunks, ← h.bytes]
    exact hkeep
  · intro _
    rw [hchunks, ← h.bytes]
    exact hnul
  · have hinner := h.inner
    rw [if_neg hlive] at hinner
    rw [innerReads_concat, if_pos (show s.finish.stage = .returned from rfl)]
    exact Nat.add_le_add hinner (by split <;> omega)

theorem Collects.goes {tr : Trace cap} {s : State cap} {e : Event} {o : Shown} {stage : Stage}
    (h : Collects tr s) (hdrain : s.stage ≠ .drainRead) (hlive : s.stage ≠ .returned)
    (hstage : stage ≠ .returned) (he : chunk ⟨s, e, o⟩ = []) :
    Collects (tr ++ [⟨s, e, o⟩]) { s with stage } := by
  have hchunks : chunks (tr ++ [⟨s, e, o⟩]) = chunks tr := by rw [chunks_concat, he, List.append_nil]
  have hinner := h.inner
  rw [if_neg hlive] at hinner
  constructor
  · exact h.used_lt
  · rw [hchunks]
    exact h.used_eq
  · rw [hchunks]
    exact h.bytes
  · exact fun hret => absurd hret hstage
  · rw [innerReads_concat, if_neg hdrain, if_neg hstage]
    exact hinner

/-- A step that reads some bytes; `u` is the state with them, and perhaps a NUL behind them. -/
theorem Collects.reads {tr : Trace cap} {s u : State cap} {c : Bytes} (hmax : cap < 2 ^ 64)
    (h : Collects tr s) (hlive : s.stage ≠ .returned) (hstage : u.stage ≠ .returned) (hc : c ≠ [])
    (hlen : c.length ≤ s.ask) (hused : u.used = s.used + c.length)
    (hbytes : u.out.bytes.take u.used = s.out.bytes.take s.used ++ c) (o : Shown) :
    Collects (tr ++ [⟨s, .read (.data c), o⟩]) u := by
  have hchunks : chunks (tr ++ [⟨s, .read (.data c), o⟩]) = chunks tr ++ c := chunks_concat _ _
  have hinner := h.inner
  have hlt := h.used_lt
  have hpos := List.length_pos_iff.mpr hc
  rw [if_neg hlive] at hinner
  rw [ask_eq hmax hlt] at hlen
  constructor
  · omega
  · rw [hchunks, List.length_append, hused, h.used_eq]
  · rw [hchunks, hbytes, h.bytes]
  · exact fun hret => absurd hret hstage
  · rw [innerReads_concat, if_neg hstage]
    split <;> omega

theorem collects_step (hmax : cap < 2 ^ 64) {tr : Trace cap} {s u : State cap} {e : Event} {o : Shown}
    (h : Collects tr s) (hs : step hasChild s e = some (u, o)) : Collects (tr ++ [⟨s, e, o⟩]) u := by
  have hlt := h.used_lt
  cases step_move hs with
  | goes he hdrain hlive hstage => exact h.goes hdrain hlive hstage (chunk_of_not_read he)
  | finishes he _ hlive => exact h.finish hlive (chunk_of_not_read he)
  | @reads c hstage hc hlen =>
    have hin := ask_eq hmax hlt ▸ hlen
    have hin' : (s.take c).used < cap := by
      change s.used + c.length < cap
      omega
    refine h.reads hmax (by simp [hstage]) (by simp) hc hlen rfl ?_ _
    rw [← take_bytes (by omega)]
    exact (terminate_bytes hin').1
  | again hstage => exact h.goes (by simp [hstage]) (by simp [hstage]) nofun rfl
  | ends hlive hr => exact h.finish hlive (chunk_of_end hr)
  | @drains c hstage hc hlen =>
    have hin := ask_eq hmax hlt ▸ hlen
    exact h.reads hmax (by simp [hstage]) (by simp [State.take, hstage]) hc hlen rfl (take_bytes (by omega)) _

theorem collects_init (hcap : 1 ≤ cap) (out : Buf cap) : Collects [] (State.init out) :=
  ⟨hcap, rfl, List.take_zero, nofun, Nat.zero_le _⟩

theorem collects_run (hcap : 1 ≤ cap) (hmax : cap < 2 ^ 64) {out : Buf cap} {tr : Trace cap}
    {t : State cap} (h : Run (step hasChild) (State.init out) tr t) : Collects tr t :=
  h.history (collects_init hcap out) fun _ _ _ _ _ _ hI hs => collects_step hmax hI hs

theorem full_step (hcap : 1 ≤ cap) (hmax : cap < 2 ^ 64) {s u : State cap} {r : ReadResult} {o : Shown}
    (hfull : s.used = cap - 1) (hs : step hasChild s (.read r) = some (u, o)) :
    o = .asked 0 ∧ u.used = s.used ∧ (u.stage = .returned ∨ s.stage = .read ∧ r = .interrupted) := by
  have hask : s.ask = 0 := by rw [ask_eq hmax (by omega), hfull, Nat.sub_self]
  cases step_move hs with
  | goes he => exact absurd rfl (he r)
  | finishes he => exact absurd rfl (he r)
  | reads _ hc hlen => exact absurd (List.length_eq_zero_iff.mp (by omega)) hc
  | again hstage => exact ⟨by rw [hask], rfl, .inr ⟨hstage, rfl⟩⟩
  | ends => exact ⟨by rw [hask], rfl, .inl rfl⟩
  | drains _ hc hlen => exact absurd (List.length_eq_zero_iff.mp (by omega)) hc

theorem asked_step (hmax : cap < 2 ^ 64) {s u : State cap} {e : Event} {o : Shown} {n : Nat}
    (hlt : s.used < cap) (hs : step hasChild s e = some (u, o)) (ho : o = .asked n) :
    s.used + n = cap - 1 := by
  have hask : n = s.ask := by
    cases step_move hs with
    | goes => cases ho
    | finishes => cases ho
    | reads => exact (Shown.asked.inj ho).symm
    | again => exact (Shown.asked.inj ho).symm
    | ends => exact (Shown.asked.inj ho).symm
    | drains => exact (Shown.asked.inj ho).symm
  rw [hask, ask_eq hmax hlt]
  omega

theorem nul_byte {s : State cap} {read : Bytes} (hlt : s.used < cap)
    (hbytes : s.out.bytes.take s.used = read) (hnul : s.out.bytes.take (s.used + 1) = read ++ [0]) :
    s.out.byte s.used = 0 := by
  have hlen : read.length = s.used := by
    rw [← hbytes, List.length_take_of_le (by rw [s.out.length_eq]; omega)]
  have hget := congrArg (fun l => l[s.used]?) hnul
  simp only [List.getElem?_take, Nat.lt_succ_self, if_true, List.getElem?_append_right hlen.le, hlen,
    Nat.sub_self] at hget
  rw [Buf.byte, List.getD_eq_getElem?_getD, hget]
  rfl

/-- Of the bytes `S` that arrive, all are read, or as many as there is room for, when the function has
ended with an empty read: one that asked for nothing, or that found no more. -/
theorem chunks_of_empty_read (hcap : 1 ≤ cap) (hmax : cap < 2 ^ 64) {out : Buf cap} {past : Trace cap}
    {r : Record (State cap) Event Shown} {t : State cap} {n : Nat} {S : Bytes}
    (h : Run (step hasChild) (State.init out) (past ++ [r]) t) (hevent : r.event = .read (.data []))
    (hask : r.out = .asked n) (hS : chunks (past ++ [r]) <+: S)
    (heof : n ≠ 0 → chunks (past ++ [r]) = S) : chunks (past ++ [r]) = S.take (cap - 1) := by
  obtain ⟨hrun, hs⟩ := h.concat_inv
  have hpre := collects_run hcap hmax hrun
  have hchunks : chunks (past ++ [r]) = chunks past := by
    rw [chunks_concat, chunk, hevent, List.append_nil]
  have hroom := asked_step hmax hpre.used_lt hs hask
  have hlen := hpre.used_eq
  by_cases hn : n = 0
  · rw [List.prefix_iff_eq_take.mp hS, hchunks]
    congr 1
    omega
  · rw [← heof hn, hchunks, List.take_of_length_le]
    omega

/-- In every run the bytes read are in the buffer, in order, and a NUL behind them; no read asks for
more than there is room for, a full buffer ends the reading with the first `cap - 1` of the bytes
that arrive, and the inner loop makes at most `cap` reads. -/
theorem drainUntil_collects (hcap : 1 ≤ cap) (hmax : cap < 2 ^ 64) {out : Buf cap} {tr : Trace cap}
    {t : State cap} (h : Run (step hasChild) (State.init out) tr t) :
    t.used ≤ cap - 1 ∧
    Each (fun _ r => ∀ n, r.out = .asked n → r.pre.used + n = cap - 1) tr ∧
    (t.stage = .returned → t.out.bytes.take t.used = chunks tr ∧ t.out.byte t.used = 0) ∧
    (t.used = cap - 1 → ∀ r u o, step hasChild t (.read r) = some (u, o) →
      o = .asked 0 ∧ u.used = t.used ∧ (u.stage = .returned ∨ t.stage = .read ∧ r = .interrupted)) ∧
    (∀ past r n S, tr = past ++ [r] → r.event = .read (.data []) → r.out = .asked n →
      chunks tr <+: S → (n ≠ 0 → chunks tr = S) → chunks tr = S.take (cap - 1)) ∧
    innerReads tr ≤ cap ∧ (t.stage = .drainRead → innerReads tr < cap) := by
  have hcollects := collects_run hcap hmax h
  have hlt := hcollects.used_lt
  have hinner := hcollects.inner
  refine ⟨by omega, ?_, ?_, fun hfull _ _ _ hs => full_step hcap hmax hfull hs, ?_, ?_, ?_⟩
  · intro past r rest htr n hn
    subst htr
    obtain ⟨hrun, u, hs, -⟩ := h.split
    exact asked_step hmax (collects_run hcap hmax hrun).used_lt hs hn
  · intro hret
    exact ⟨hcollects.bytes, nul_byte hlt hcollects.bytes (hcollects.nul hret)⟩
  · rintro past r n S rfl hevent hask hS heof
    exact chunks_of_empty_read hcap hmax h hevent hask hS heof
  · split at hinner <;> omega
  · intro hstage
    rw [if_neg (by simp [hstage])] at hinner
    omega

end

/-- The child has gone, and one byte after the other is read into a buffer of three. -/
theorem drainUntil_collects_two :
    ∃ tr t, Run (step true) (State.init (Buf.zero 3)) tr t ∧ t.stage = .returned ∧
      t.out.bytes.take t.used = chunks tr ∧ t.out.byte t.used = 0 ∧ chunks tr = [104, 105] ∧
      innerReads tr ≤ 3 := by
  obtain ⟨tr, t, hrun, -, hq⟩ := exists_exec (step true) (State.init (Buf.zero 3))
    [.clock false, .poll .elapsed, .waitpid true, .read (.data [104]), .read (.data [105]),
      .read (.data [])]
    (fun x => x.2.stage = .returned ∧ chunks x.1 = [104, 105]) (by decide)
  obtain ⟨hstage, hchunks⟩ := of_decide_eq_true hq
  obtain ⟨-, -, hret, -, -, hinner, -⟩ := drainUntil_collects (by decide) (by decide) hrun
  exact ⟨tr, t, hrun, hstage, (hret hstage).1, (hret hstage).2, hchunks, hinner⟩

end LinuxDriverLab.RunPty
