import LinuxDriverLab.RbFill.Program

/-!
# The final report of rbfill

The peak and the start of overwriting are taken from the samples at the multiples of the batch, the
rest of the report from the sample behind the loop. The two agree on what has happened to the log
exactly when those samples have seen it.
-/

namespace LinuxDriverLab.RbFill

/-! ## What a sample tells of the log -/

/-- The records that a sample reads, each with its number. -/
def shownFrom : Nat → List LogRecord → List (Nat × LogRecord)
  | _, [] => []
  | seq, x :: rest => if (x.render seq).length ≤ lineMax then (seq, x) :: shownFrom (seq + 1) rest else []

def shown (ring : Ring LogRecord) : List (Nat × LogRecord) := shownFrom ring.first ring.records

/-- How many records can be read from the oldest one on. -/
def readable (ring : Ring LogRecord) : Nat := (shown ring).length

theorem shownFrom_length_le (seq : Nat) (xs : List LogRecord) : (shownFrom seq xs).length ≤ xs.length := by
  induction xs generalizing seq with
  | nil => simp [shownFrom]
  | cons x rest ih =>
    unfold shownFrom
    split
    · exact Nat.succ_le_succ (ih _)
    · exact Nat.zero_le _

theorem readable_le (ring : Ring LogRecord) : readable ring ≤ ring.records.length :=
  shownFrom_length_le _ _

theorem shown_head? (ring : Ring LogRecord) :
    (shown ring).head?.map Prod.fst = if 0 < readable ring then some ring.first else none := by
  unfold readable shown
  cases ring.records with
  | nil => rfl
  | cons x rest =>
    unfold shownFrom
    split <;> simp

theorem sampleLoop_statistics {tag : Bytes} {cs : List (Nat × LogRecord)} {st : RingStat} {seq : Nat}
    {xs : List LogRecord} (h : Statistics tag cs st) (hlt : ∀ c ∈ cs, c.1 < seq)
    (hlen : cs.length + xs.length < 2 ^ 63) :
    Statistics tag (cs ++ shownFrom seq xs) (sampleLoop tag seq xs st) := by
  induction xs generalizing cs seq st with
  | nil => simpa [shownFrom, sampleLoop] using h
  | cons x rest ih =>
    rw [List.length_cons] at hlen
    rw [shownFrom, sampleLoop]
    split
    · rw [countRecord_render, List.append_cons]
      apply ih
      · exact h.note x (by omega) hlt
      · simp only [List.forall_mem_append, List.forall_mem_singleton]
        exact ⟨fun c hc => Nat.lt_succ_of_lt (hlt c hc), Nat.lt_succ_self _⟩
      · rw [List.length_append, List.length_singleton]
        omega
    · simpa using h

theorem sampleRing_counts (tag : Bytes) {ring : Ring LogRecord} (h : ring.records.length < 2 ^ 63) :
    Statistics tag (shown ring) (sampleRing tag ring) := by
  apply sampleLoop_statistics (statistics_start tag)
  · simp
  · simpa using h

theorem sampleRing_oldestSeq (tag : Bytes) {ring : Ring LogRecord} (h : ring.records.length < 2 ^ 63) :
    (sampleRing tag ring).oldestSeq = if 0 < readable ring then seqLong ring.first else -1 := by
  have hhead := shown_head? ring
  rw [(sampleRing_counts tag h).oldestSeq]
  split_ifs at hhead ⊢ with hpos
  · obtain ⟨c, hc, hfirst⟩ := Option.map_eq_some_iff.mp hhead
    rw [hc, Option.elim_some, hfirst]
  · rw [Option.map_eq_none_iff.mp hhead, Option.elim_none]

/-! ## The log after some writes -/

/-- The log after the first `i` messages. -/
def Env.after (env : Env) (args : Args) (ring : Ring LogRecord) : Nat → Ring LogRecord
  | 0 => ring
  | i + 1 => env.write args (i + 1) (env.after args ring i)

/-- How many records have been evicted by the first `i` messages. -/
def Env.evicted (env : Env) (args : Args) (ring : Ring LogRecord) : Nat → Nat
  | 0 => 0
  | i + 1 => env.evicted args ring i + env.gone args (i + 1) (env.after args ring i)

section

variable (env : Env) (args : Args) (ring : Ring LogRecord)

theorem after_first (i : Nat) :
    (env.after args ring i).first = ring.first + env.evicted args ring i := by
  induction i with
  | zero => rfl
  | succ i ih => simp only [Env.after, Env.evicted, Env.write, ih, Nat.add_assoc]

theorem evicted_mono {i j : Nat} (h : i ≤ j) : env.evicted args ring i ≤ env.evicted args ring j := by
  induction h with
  | refl => exact Nat.le_refl _
  | step _ ih => exact Nat.le_add_right_of_le ih

theorem after_length_le (h : ring.records.length ≤ env.ringsz.toNat) (i : Nat) :
    (env.after args ring i).records.length ≤ max 1 env.ringsz.toNat := by
  induction i with
  | zero => exact h.trans (Nat.le_max_right _ _)
  | succ i ih =>
    simp only [Env.after, Env.write, Env.gone, List.length_append, List.length_drop,
      List.length_singleton]
    omega

theorem after_length_lt (h : ring.records.length ≤ env.ringsz.toNat) (i : Nat) :
    (env.after args ring i).records.length < 2 ^ 63 := by
  have hle := after_length_le env args ring h i
  have hlt := env.ringsz_lt
  omega

/-- A sample of the log after the first `i` messages. -/
def Env.sample (i : Nat) : RingStat := sampleRing args.tag (env.after args ring i)

/-- A sample taken after the first `j` messages shows that the oldest record has gone. -/
def Advanced (j : Nat) : Prop :=
  0 ≤ (env.sample args ring 0).oldestSeq ∧
    (env.sample args ring 0).oldestSeq < (env.sample args ring j).oldestSeq

theorem advanced_iff (h : ring.records.length ≤ env.ringsz.toNat) (j : Nat) :
    Advanced env args ring j ↔ 0 < readable ring ∧ ring.first + 1 < 2 ^ 63 ∧
      0 < env.evicted args ring j ∧ 0 < readable (env.after args ring j) := by
  unfold Advanced Env.sample
  rw [sampleRing_oldestSeq _ (after_length_lt env args ring h 0),
    sampleRing_oldestSeq _ (after_length_lt env args ring h j), after_first env args ring j, Env.after]
  unfold seqLong
  split_ifs <;> omega

theorem advanced_count (h : ring.records.length ≤ env.ringsz.toNat) (j : Nat)
    (hadv : Advanced env args ring j) :
    (env.sample args ring j).oldestSeq - (env.sample args ring 0).oldestSeq =
        env.evicted args ring j ↔ ring.first + env.evicted args ring j < 2 ^ 63 := by
  obtain ⟨hbase, hnumber, hgone, hread⟩ := (advanced_iff env args ring h j).mp hadv
  unfold Env.sample
  rw [sampleRing_oldestSeq _ (after_length_lt env args ring h 0),
    sampleRing_oldestSeq _ (after_length_lt env args ring h j), after_first env args ring j, Env.after,
    if_pos hbase, if_pos hread]
  unfold seqLong
  omega

/-! ## The loop -/

/-- A sample is kept of the log after the first `j` messages: the baseline, or that of a batch. -/
def Env.observes (env : Env) (args : Args) (j : Nat) : Prop :=
  j = 0 ∨ args.batch ∣ j ∧ env.opens (.batch j) = true

/-- The loop ends behind the message with number `i`, since no sample can be taken. -/
def Env.breaks (env : Env) (args : Args) (i : Nat) : Prop :=
  args.batch ∣ i ∧ env.opens (.batch i) = false

instance (i : Nat) : Decidable (env.breaks args i) := inferInstanceAs (Decidable (_ ∧ _))

/-- How many messages are written when `i` have been and `n` are left. -/
def Env.writtenFrom (env : Env) (args : Args) : Nat → Nat → Nat
  | 0, i => i
  | n + 1, i =>
    if env.accepts (i + 1) then
      if env.breaks args (i + 1) then i + 1 else env.writtenFrom args n (i + 1)
    else i

/-- How many messages the run writes. -/
def Env.written : Nat := env.writtenFrom args args.total 0

theorem writtenFrom_eq (haccept : ∀ i, env.accepts i = true) (hopen : ∀ s, env.opens s = true)
    (n i : Nat) : env.writtenFrom args n i = i + n := by
  induction n generalizing i with
  | zero => rfl
  | succ n ih =>
    simp only [Env.writtenFrom, haccept, Env.breaks, hopen, Bool.true_eq_false, and_false, if_true,
      if_false, ih]
    omega

theorem written_eq (haccept : ∀ i, env.accepts i = true) (hopen : ∀ s, env.opens s = true) :
    env.written args = args.total := by
  rw [Env.written, writtenFrom_eq env args haccept hopen, Nat.zero_add]

theorem exists_observed_succ {i : Nat} {Q : Nat → Prop} :
    (∃ j ≤ i + 1, env.observes args j ∧ Q j) ↔
      (∃ j ≤ i, env.observes args j ∧ Q j) ∨ env.observes args (i + 1) ∧ Q (i + 1) := by
  simp only [Nat.le_succ_iff, or_and_right, exists_or, exists_eq_left]

/-- The loop after the first `i` messages: the peak is the largest total of the samples kept, and
the start of overwriting is set when one of them has shown it. -/
structure Watched (i : Nat) (p : Progress) : Prop where
  log : p.ring = env.after args ring i
  peak : ∀ c : Int, c ≤ p.peak ↔ ∃ j ≤ i, env.observes args j ∧ c ≤ (env.sample args ring j).total
  unset : p.wrapAt < 0 ∨ 0 < p.wrapAt
  wrapped : 0 < p.wrapAt ↔ ∃ j ≤ i, env.observes args j ∧ Advanced env args ring j

theorem watched_start :
    Watched env args ring 0 ⟨ring, (sampleRing args.tag ring).total, -1⟩ := by
  constructor
  · rfl
  · simp [Env.observes, Env.sample, Env.after]
  · exact Or.inl (show (-1 : Int) < 0 by decide)
  · simp [Advanced]

variable {env args ring}

theorem Watched.pass {i : Nat} {p : Progress} (h : Watched env args ring i p)
    (hbatch : ¬ env.observes args (i + 1)) :
    Watched env args ring (i + 1) { p with ring := env.write args (i + 1) p.ring } := by
  constructor
  · simp only [h.log, Env.after]
  · simpa [exists_observed_succ, hbatch] using h.peak
  · exact h.unset
  · simpa [exists_observed_succ, hbatch] using h.wrapped

theorem Watched.observe {i : Nat} {p : Progress} (h : Watched env args ring i p)
    (hbatch : env.observes args (i + 1)) :
    Watched env args ring (i + 1) (observe (sampleRing args.tag ring) (env.sample args ring (i + 1))
      (i + 1) { p with ring := env.write args (i + 1) p.ring }) := by
  have hunset := h.unset
  constructor
  · simp only [RbFill.observe, h.log, Env.after]
  · intro c
    simp only [RbFill.observe, exists_observed_succ, hbatch, true_and, ← h.peak c]
    split_ifs <;> omega
  · simp only [RbFill.observe]
    split_ifs <;> omega
  · have hnow : Advanced env args ring (i + 1) ↔ 0 ≤ (sampleRing args.tag ring).oldestSeq ∧
      (sampleRing args.tag ring).oldestSeq < (env.sample args ring (i + 1)).oldestSeq := Iff.rfl
    simp only [RbFill.observe, exists_observed_succ, hbatch, true_and, ← h.wrapped, hnow]
    split_ifs <;> omega

theorem fill_watched (n : Nat) {i : Nat} {p : Progress} (h : Watched env args ring i p) :
    Watched env args ring (env.writtenFrom args n i)
      (fill env args (sampleRing args.tag ring) n (i + 1) p) := by
  induction n generalizing i p with
  | zero => exact h
  | succ n ih =>
    unfold fill Env.writtenFrom
    by_cases haccept : env.accepts (i + 1) = true
    · simp only [haccept, if_true, ne_eq, ite_not, ← Nat.dvd_iff_mod_eq_zero]
      by_cases hbatch : args.batch ∣ i + 1
      · by_cases hopen : env.opens (.batch (i + 1)) = true
        · have hnext := h.observe (Or.inr ⟨hbatch, hopen⟩)
          rw [Env.sample, Env.after, ← h.log] at hnext
          simpa [hbatch, hopen, Env.breaks] using ih hnext
        · have hnext := h.pass (by simp [Env.observes, hopen])
          simpa [hbatch, hopen, Env.breaks] using hnext
      · have hnext := h.pass (by simp [Env.observes, hbatch])
        simpa [hbatch, Env.breaks] using ih hnext
    · simpa [haccept] using h

end

/-! ## The report -/

/-- What the report says of the evictions between the baseline and the last sample is true, and the
peak is one. -/
structure Report.Consistent (rep : Report) (evicted : Nat) : Prop where
  peak : rep.total ≤ rep.peak
  overwriting : rep.overwriteFrom = none ↔ evicted = 0
  count : ∀ n, rep.evicted = some n → n = evicted

/-- The samples at the multiples of the batch see what happens: the log as large as it is at the
end, and an eviction if there has been one; and the numbers fit into a `long`. -/
structure Observed (env : Env) (args : Args) (ring : Ring LogRecord) : Prop where
  largest : ∃ j ≤ env.written args, env.observes args j ∧
    readable (env.after args ring (env.written args)) ≤ readable (env.after args ring j)
  eviction : 0 < env.evicted args ring (env.written args) →
    0 < readable ring ∧ ring.first + 1 < 2 ^ 63 ∧ ∃ j ≤ env.written args, env.observes args j ∧
      0 < env.evicted args ring j ∧ 0 < readable (env.after args ring j)
  number : 0 < env.evicted args ring (env.written args) →
    0 < readable (env.after args ring (env.written args)) →
    ring.first + env.evicted args ring (env.written args) < 2 ^ 63

section

variable {env : Env} {args : Args} {ring : Ring LogRecord} {p : Progress}

theorem Watched.peak_iff (h : Watched env args ring (env.written args) p)
    (hring : ring.records.length ≤ env.ringsz.toNat) :
    (env.sample args ring (env.written args)).total ≤ p.peak ↔
      ∃ j ≤ env.written args, env.observes args j ∧
        readable (env.after args ring (env.written args)) ≤ readable (env.after args ring j) := by
  have htotal : ∀ j, (env.sample args ring j).total = readable (env.after args ring j) :=
    fun j => (sampleRing_counts args.tag (after_length_lt env args ring hring j)).total
  simp only [h.peak, htotal, Int.ofNat_le]

theorem Watched.overwriting_iff (h : Watched env args ring (env.written args) p)
    (hring : ring.records.length ≤ env.ringsz.toNat) :
    0 < p.wrapAt ↔ 0 < readable ring ∧ ring.first + 1 < 2 ^ 63 ∧
      ∃ j ≤ env.written args, env.observes args j ∧ 0 < env.evicted args ring j ∧
        0 < readable (env.after args ring j) := by
  simp only [h.wrapped, advanced_iff env args ring hring]
  constructor
  · intro ⟨j, hj, hbatch, hread, hnumber, hgone⟩
    exact ⟨hread, hnumber, j, hj, hbatch, hgone⟩
  · intro ⟨hread, hnumber, j, hj, hbatch, hgone⟩
    exact ⟨j, hj, hbatch, hread, hnumber, hgone⟩

theorem Watched.consistent_iff (h : Watched env args ring (env.written args) p)
    (hring : ring.records.length ≤ env.ringsz.toNat) :
    (report env args (env.sample args ring 0) (env.sample args ring (env.written args)) p).Consistent
      (env.evicted args ring (env.written args)) ↔ Observed env args ring := by
  have hpeak := h.peak_iff hring
  have hover := h.overwriting_iff hring
  have hadvanced := advanced_iff env args ring hring (env.written args)
  have hcount := advanced_count env args ring hring (env.written args)
  constructor
  · intro hcons
    have hsome : 0 < env.evicted args ring (env.written args) → 0 < p.wrapAt := by
      have := hcons.overwriting
      simp only [report, ite_eq_right_iff, reduceCtorEq, imp_false] at this
      omega
    constructor
    · exact hpeak.mp hcons.peak
    · exact fun hpos => hover.mp (hsome hpos)
    · intro hpos hread
      obtain ⟨hbase, hnumber, -⟩ := hover.mp (hsome hpos)
      have hadv := hadvanced.mpr ⟨hbase, hnumber, hpos, hread⟩
      apply (hcount hadv).mp
      apply hcons.count
      simp only [report]
      exact if_pos hadv
  · intro hobs
    constructor
    · exact hpeak.mpr hobs.largest
    · simp only [report, ite_eq_right_iff, reduceCtorEq, imp_false]
      constructor
      · intro hnone
        by_contra hne
        exact hnone (hover.mpr (hobs.eviction (Nat.pos_of_ne_zero hne)))
      · intro hzero hwrap
        obtain ⟨-, -, j, hj, -, hgone, -⟩ := hover.mp hwrap
        have := evicted_mono env args ring hj
        omega
    · intro n hn
      simp only [report, Option.ite_none_right_eq_some, Option.some.injEq] at hn
      obtain ⟨hadv, rfl⟩ := hn
      obtain ⟨-, -, hpos, hread⟩ := hadvanced.mp hadv
      exact (hcount hadv).mpr (hobs.number hpos hread)

end

def Outcome.report? : Outcome → Option Report
  | .report rep => some rep
  | .exit _ => none

theorem exists_report (env : Env) (argv : List Bytes) (ring : Ring LogRecord)
    (q : Args → Report → Bool)
    (h : ((parseArgs argv).any fun args => (main env argv ring).report?.any fun rep => q args rep) =
      true) :
    ∃ args rep, parseArgs argv = some args ∧ main env argv ring = .report rep ∧ q args rep = true := by
  cases hargs : parseArgs argv with
  | none => simp [hargs] at h
  | some args =>
    cases hmain : main env argv ring with
    | exit code => simp [hargs, hmain, Outcome.report?] at h
    | report rep => exact ⟨args, rep, rfl, rfl, by simpa [hargs, hmain, Outcome.report?] using h⟩

/-- A run of `main` that gets as far as the report. -/
theorem main_report {env : Env} {argv : List Bytes} {args : Args} {ring : Ring LogRecord}
    {rep : Report} (hargs : parseArgs argv = some args) (hmain : main env argv ring = .report rep) :
    ∃ p, Watched env args ring (env.written args) p ∧
      rep = report env args (env.sample args ring 0) (env.sample args ring (env.written args)) p := by
  have hwatched := fill_watched args.total (watched_start env args ring)
  refine ⟨_, hwatched, ?_⟩
  rw [main, hargs] at hmain
  simp only at hmain
  split_ifs at hmain
  obtain rfl := Outcome.report.inj hmain
  rw [Env.sample, Env.sample, Env.written, ← hwatched.log]
  rfl

/-- Whatever the log evicts and whichever system calls fail: when nobody else writes, a report is
consistent exactly if the samples kept have observed what happened to the log. -/
theorem report_consistent_iff (env : Env) (argv : List Bytes) (args : Args) (ring : Ring LogRecord)
    (rep : Report) (hargs : parseArgs argv = some args)
    (hring : ring.records.length ≤ env.ringsz.toNat) (hmain : main env argv ring = .report rep) :
    rep.Consistent (env.evicted args ring (env.written args)) ↔ Observed env args ring := by
  obtain ⟨p, hwatched, rfl⟩ := main_report hargs hmain
  exact hwatched.consistent_iff hring

/-- A log in which three records have room. -/
def smallLog : Env where
  ringsz := 128
  ringsz_lt := by decide
  opensWrite := true
  opens := fun _ => true
  accepts := fun _ => true
  record := fun i written => logged 12 i written
  record_text := fun _ _ => rfl
  evicts := fun _ ring _ => ring.records.length + 1 - 3

/-- Four messages in batches of two push out two records. -/
theorem report_consistent_iff_small : ∃ args rep,
    parseArgs [[52], [50], [49]] = some args ∧
      main smallLog [[52], [50], [49]] ⟨7, [rbRecord]⟩ = .report rep ∧
      rep.overwriteFrom = some 4 ∧ rep.evicted = some 2 ∧
      (rep.Consistent (smallLog.evicted args ⟨7, [rbRecord]⟩ (smallLog.written args)) ↔
        Observed smallLog args ⟨7, [rbRecord]⟩) := by
  obtain ⟨args, rep, hargs, hmain, hq⟩ := exists_report smallLog [[52], [50], [49]] ⟨7, [rbRecord]⟩
    (fun _ rep => decide (rep.overwriteFrom = some 4 ∧ rep.evicted = some 2)) (by decide +kernel)
  obtain ⟨hfrom, hevicted⟩ := of_decide_eq_true hq
  exact ⟨args, rep, hargs, hmain, hfrom, hevicted,
    report_consistent_iff smallLog _ args _ rep hargs (by decide) hmain⟩

/-- Four messages in one batch of sixteen push out two records as well: no sample is taken before
the last one, the peak stays at the baseline and the report denies the evictions it counts. -/
theorem report_contradicts_itself : ¬ ∀ (env : Env) (argv : List Bytes) (args : Args)
    (ring : Ring LogRecord) (rep : Report), parseArgs argv = some args →
    (∀ s, env.opens s = true) → (∀ i, env.accepts i = true) →
    ring.records.length ≤ env.ringsz.toNat → main env argv ring = .report rep →
    rep.Consistent (env.evicted args ring args.total) := by
  intro hall
  obtain ⟨args, rep, hargs, hmain, hq⟩ := exists_report smallLog [[52], [49, 54], [49]]
    ⟨7, [rbRecord]⟩ (fun _ rep => decide (rep.overwriteFrom = none ∧ rep.evicted = some 2))
    (by decide +kernel)
  obtain ⟨hnone, hevicted⟩ := of_decide_eq_true hq
  have hcons := hall smallLog _ args _ rep hargs (fun _ => rfl) (fun _ => rfl) (by decide) hmain
  have hzero := hcons.overwriting.mp hnone
  have hcount := hcons.count 2 hevicted
  omega

end LinuxDriverLab.RbFill
