import LinuxDriverLab.RbFill.SampleRing

/-!
# rbfill

The program around `sample_ring`: it writes numbered messages to `/dev/kmsg`, samples the log after
every batch of them, and prints a report. Nobody else writes, so the log stands still while it is
sampled.
-/

namespace LinuxDriverLab.RbFill

/-! ## Sampling a log that stands still -/

/-- The loop of `sample_ring` over the records that are left. -/
def sampleLoop (tag : Bytes) : Nat → List LogRecord → RingStat → RingStat
  | _, [], st => st
  | seq, x :: rest, st =>
    if (x.render seq).length ≤ lineMax then
      sampleLoop tag (seq + 1) rest (countRecord tag (x.render seq) st)
    else st

def sampleRing (tag : Bytes) (ring : Ring LogRecord) : RingStat :=
  sampleLoop tag ring.first ring.records .start

def Event.isKernel : Event → Bool
  | .kernel _ => true
  | _ => false

/-- The sample that is being taken, or has been taken, is that of the log. -/
structure Sampled (tag : Bytes) (ring : Ring LogRecord) (s : State) : Prop where
  still : s.ring = ring
  going : s.stage = .sampling → ring.first ≤ s.next ∧
    sampleLoop tag s.next (ring.records.drop (s.next - ring.first)) s.st = sampleRing tag ring
  taken : s.stage = .done → s.st = sampleRing tag ring

theorem Sampled.read {tag : Bytes} {ring : Ring LogRecord} {s : State} (h : Sampled tag ring s)
    (hstage : s.stage = .sampling) : Sampled tag ring (sampleRead tag s).1 := by
  obtain ⟨hle, hloop⟩ := h.going hstage
  have hstill := h.still
  rcases s.ring.read_cases s.next with ⟨hlt, -⟩ | ⟨x, -, hget, hread⟩ | ⟨-, hstop, hread⟩
  · rw [hstill] at hlt
    omega
  · rw [hstill] at hget
    have hdrop : ring.records.drop (s.next - ring.first) =
        x :: ring.records.drop (s.next - ring.first + 1) :=
      (List.drop_eq_getElem?_toList_append).trans (by simp [hget])
    rw [hdrop, sampleLoop] at hloop
    simp only [sampleRead, hread]
    split
    · next hroom =>
      rw [if_pos hroom] at hloop
      constructor
      · exact hstill
      · intro _
        have hnext : s.next + 1 - ring.first = s.next - ring.first + 1 := by omega
        exact ⟨Nat.le_succ_of_le hle, hnext ▸ hloop⟩
      · simp [hstage]
    · next hroom =>
      rw [if_neg hroom] at hloop
      exact ⟨hstill, by simp, fun _ => hloop⟩
  · have hnil : ring.records.drop (s.next - ring.first) = [] := by
      apply List.drop_eq_nil_of_le
      rw [hstill, Ring.stop] at hstop
      omega
    rw [hnil, sampleLoop] at hloop
    simp only [sampleRead, hread]
    exact ⟨hstill, by simp, fun _ => hloop⟩

theorem sampled_step {tag : Bytes} {ring : Ring LogRecord} {s t : State} {e : Event} {o : Shown}
    (h : Sampled tag ring s) (hquiet : e.isKernel = false) (hs : step tag s e = some (t, o)) :
    Sampled tag ring t := by
  have hstill := h.still
  cases e with
  | kernel e => simp [Event.isKernel] at hquiet
  | sampleOpen =>
    simp only [step, Option.ite_none_right_eq_some, Option.some.injEq, Prod.mk.injEq] at hs
    obtain ⟨hstage, rfl, rfl⟩ := hs
    constructor
    · exact hstill
    · simp [hstill, sampleRing]
    · simp
  | sampleOpenFails =>
    simp only [step, Option.ite_none_right_eq_some, Option.some.injEq, Prod.mk.injEq] at hs
    obtain ⟨hstage, rfl, rfl⟩ := hs
    exact ⟨hstill, by simp, by simp⟩
  | sampleRead =>
    simp only [step, Option.ite_none_right_eq_some, Option.some.injEq] at hs
    obtain ⟨hstage, hread⟩ := hs
    have hnext := h.read hstage
    rwa [hread] at hnext
  | sampleInterrupted =>
    simp only [step, Option.ite_none_right_eq_some, Option.some.injEq, Prod.mk.injEq] at hs
    obtain ⟨hstage, rfl, rfl⟩ := hs
    exact h

/-- While nobody writes, a call of `sample_ring` that returns 0 leaves the sample of the log. -/
theorem sampled_run {tag : Bytes} {ring : Ring LogRecord} {st : RingStat} {tr : Trace} {t : State}
    (h : Run (step tag) (State.init ring st) tr t)
    (hquiet : Each (fun _ r => r.event.isKernel = false) tr) : Sampled tag ring t := by
  apply h.guarded hquiet (I := fun _ => Sampled tag ring)
  · exact ⟨rfl, Stage.noConfusion, Stage.noConfusion⟩
  · intro tr t e u o _ hI hP hs
    exact sampled_step hI hP hs

/-! ## The program -/

/-- The arguments that `main` admits. -/
structure Args where
  total : Nat
  batch : Nat
  pay : Nat
  tag : Bytes
  total_pos : 0 < total
  total_lt : total < 2 ^ 63
  batch_pos : 0 < batch
  pay_pos : 0 < pay
  pay_le : pay ≤ 3500
  tag_ne : tag ≠ []
  tag_length : tag.length ≤ 32
  tag_nulFree : (0 : UInt8) ∉ tag

/-- `TAG` -/
def defaultTag : Bytes := [82, 66, 70, 73, 76, 76]

/-- A number on the command line, or what stands for it when it is missing. -/
def argLong (argv : List Bytes) (k : Nat) (missing : Int) : Int :=
  argv[k]?.elim missing fun arg => atol (cString arg)

theorem argLong_lt (argv : List Bytes) (k : Nat) {m : Int} (hm : m < 2 ^ 63) :
    argLong argv k m < 2 ^ 63 := by
  unfold argLong
  cases argv[k]? with
  | none => exact hm
  | some arg => exact atol_lt _

/-- The label: an empty argument counts as none. -/
def argTag (argv : List Bytes) : Bytes :=
  argv[3]?.elim defaultTag fun arg => if cString arg = [] then defaultTag else cString arg

theorem argTag_cases (argv : List Bytes) :
    argTag argv = defaultTag ∨ ∃ arg, argTag argv = cString arg ∧ cString arg ≠ [] := by
  unfold argTag
  cases argv[3]? with
  | none => exact .inl rfl
  | some arg =>
    simp only [Option.elim_some]
    split
    · exact .inl rfl
    · next harg => exact .inr ⟨arg, rfl, harg⟩

theorem argTag_nulFree (argv : List Bytes) : (0 : UInt8) ∉ argTag argv := by
  obtain hdefault | ⟨arg, harg, -⟩ := argTag_cases argv
  · rw [hdefault]
    decide
  · rw [harg]
    exact cString_nulFree arg

theorem argTag_ne (argv : List Bytes) : argTag argv ≠ [] := by
  obtain hdefault | ⟨arg, harg, hne⟩ := argTag_cases argv
  · rw [hdefault]
    decide
  · rwa [harg]

/-- The arguments behind the program's name. -/
def parseArgs (argv : List Bytes) : Option Args :=
  let total := argLong argv 0 300
  let batch := argLong argv 1 16
  let pay := argLong argv 2 200
  if h : 0 < total ∧ 0 < batch ∧ 0 < pay ∧ pay ≤ 3500 ∧ (argTag argv).length ≤ 32 then
    some {
      total := total.toNat
      batch := batch.toNat
      pay := pay.toNat
      tag := argTag argv
      total_pos := by omega
      total_lt := by
        have := argLong_lt argv 0 (m := 300) (by decide)
        omega
      batch_pos := by omega
      pay_pos := by omega
      pay_le := by omega
      tag_ne := argTag_ne argv
      tag_length := h.2.2.2.2
      tag_nulFree := argTag_nulFree argv }
  else none

/-- `g_pad` -/
def gPad : Bytes := List.replicate 4095 120

/-- What `"<4>%s %05ld %.*s\n"` makes of the message with number `i`. -/
def messageText (args : Args) (i : Nat) : Bytes :=
  [60, 52, 62] ++ (args.tag ++ 32 :: (formatZero 5 i ++ 32 :: (formatString args.pay gPad ++ [10])))

/-- What is written for it: the first `len` bytes of `msgbuf`. -/
def message (args : Args) (i : Nat) : Bytes :=
  (snprintf 4096 (messageText args i)).line.take (snprintf 4096 (messageText args i)).ret

inductive Sample
  | base
  | batch (i : Nat)
  | final

/-- What a run meets: the answers of the system calls, and what the log does with a message. The
log is `ringsz` bytes large, so it holds no more records than that. -/
structure Env where
  ringsz : Int
  ringsz_lt : ringsz < 2 ^ 31
  opensWrite : Bool
  opens : Sample → Bool
  accepts : Nat → Bool
  /-- The record that a written message becomes. -/
  record : Nat → Bytes → LogRecord
  record_text : ∀ i written, (record i written).text = stored written
  /-- How many of the oldest records have to go for it. -/
  evicts : Nat → Ring LogRecord → LogRecord → Nat

/-- How many records the log gives up when the message with number `i` is written. -/
def Env.gone (env : Env) (args : Args) (i : Nat) (ring : Ring LogRecord) : Nat :=
  min ring.records.length (max (env.evicts i ring (env.record i (message args i)))
    (ring.records.length + 1 - env.ringsz.toNat))

/-- The log after that `write`. -/
def Env.write (env : Env) (args : Args) (i : Nat) (ring : Ring LogRecord) : Ring LogRecord :=
  ⟨ring.first + env.gone args i ring,
    ring.records.drop (env.gone args i ring) ++ [env.record i (message args i)]⟩

/-- The two variables of the loop, and the log. -/
structure Progress where
  ring : Ring LogRecord
  peak : Int
  wrapAt : Int

/-- What a batch sample changes. -/
def observe (base st : RingStat) (i : Nat) (p : Progress) : Progress :=
  { p with
    peak := if st.total > p.peak then st.total else p.peak
    wrapAt := if p.wrapAt < 0 ∧ base.oldestSeq ≥ 0 ∧ st.oldestSeq > base.oldestSeq then i
      else p.wrapAt }

/-- The loop that writes and samples, from the message with number `i` on. -/
def fill (env : Env) (args : Args) (base : RingStat) : Nat → Nat → Progress → Progress
  | 0, _, p => p
  | n + 1, i, p =>
    if env.accepts i then
      let p := { p with ring := env.write args i p.ring }
      if i % args.batch ≠ 0 then fill env args base n (i + 1) p
      else if env.opens (.batch i) then
        fill env args base n (i + 1) (observe base (sampleRing args.tag p.ring) i p)
      else p
    else p

/-- The last block of the report. -/
inductive Account
  | whole (total per : Int) (textbytes : Nat) (spare : Int)
  | mixed (others total tagged : Int)
deriving DecidableEq

def account (env : Env) (args : Args) (st : RingStat) : Account :=
  if st.total = st.tagged then
    .whole st.total (args.tag.length + 1 + 5 + 1 + args.pay + 1) st.textbytes
      (int64 (env.ringsz - st.textbytes))
  else .mixed (st.total - st.tagged) st.total st.tagged

/-- What is printed at the end; `overwriteFrom` is `none` for the line that says that no
overwriting has happened, `evicted` where the line with the count is missing. -/
structure Report where
  total : Int
  tagged : Int
  others : Int
  textbytes : Nat
  peak : Int
  overwriteFrom : Option Int
  evicted : Option Int
  baseStays : Bool
  account : Account

def report (env : Env) (args : Args) (base st : RingStat) (p : Progress) : Report where
  total := st.total
  tagged := st.tagged
  others := st.total - st.tagged
  textbytes := st.textbytes
  peak := p.peak
  overwriteFrom := if p.wrapAt > 0 then some p.wrapAt else none
  evicted := if base.oldestSeq ≥ 0 ∧ st.oldestSeq > base.oldestSeq then
      some (st.oldestSeq - base.oldestSeq)
    else none
  baseStays := (strstr st.oldest base.oldest).isSome
  account := account env args st

inductive Outcome
  | exit (code : Nat)
  | report (r : Report)

def main (env : Env) (argv : List Bytes) (ring : Ring LogRecord) : Outcome :=
  match parseArgs argv with
  | none => .exit 2
  | some args =>
    if env.ringsz < 0 then .exit 1
    else if env.opensWrite = false then .exit 1
    else if env.opens .base = false then .exit 1
    else
      let base := sampleRing args.tag ring
      let p := fill env args base args.total 1 ⟨ring, base.total, -1⟩
      if env.opens .final = false then .exit 1
      else .report (report env args base (sampleRing args.tag p.ring) p)

end LinuxDriverLab.RbFill
