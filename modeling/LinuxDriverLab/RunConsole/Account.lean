import LinuxDriverLab.RunConsole.Follow

/-!
# What the follow loop prints

From where the drain left the reader on, the loop prints every record once and in order, except for
those that were evicted before it got to them. This needs the records of the whole run, also those
that are no longer in the log.
-/

namespace LinuxDriverLab.RunConsole

/-- What the kernel logged during the run. -/
def appended (tr : Trace) : List Bytes := tr.flatMap fun r =>
  match r.event with
  | .kernel e => e.appended
  | _ => []

/-- The record with this number, evicted or not. -/
def recordAt (ring : Ring Bytes) (tr : Trace) (seq : Nat) : Option Bytes :=
  if seq < ring.first then none else (ring.records ++ appended tr)[seq - ring.first]?

/-- The step moves the reader past this record, which is no longer in the log. -/
def skips (r : Record State Event Shown) (seq : Nat) : Bool :=
  (r.event = .followRead || r.event = .followSeek) && r.pre.next ≤ seq && seq < r.pre.ring.first

def skipped (tr : Trace) (seq : Nat) : Bool := tr.any fun r => skips r seq

/-- Where the last read of the drain leaves the reader. -/
def baseline (tr : Trace) : Option Nat :=
  (tr.find? fun r => EndsDrain r).map fun r => (r.pre.ring.read r.pre.next).2

def Shown.line? : Shown → Option (Nat × Bytes)
  | .quiet => none
  | .printed seq msg => some (seq, msg)

/-- The lines printed, each with the number of its record. -/
def lines (tr : Trace) : List (Nat × Bytes) := tr.filterMap fun r => r.out.line?

/-- The lines of the records from `k` up to `m`, without those that were skipped. -/
def account (ring : Ring Bytes) (tr : Trace) (k m : Nat) : List (Nat × Bytes) :=
  ((List.range' k (m - k)).filter fun seq => !skipped tr seq).map fun seq =>
    (seq, followMsg ((recordAt ring tr seq).getD []))

section

variable {ring : Ring Bytes} {tr : Trace} {s t : State} {e : Event} {o : Shown}

@[simp] theorem lines_concat (r : Record State Event Shown) :
    lines (tr ++ [r]) = lines tr ++ r.out.line?.toList := by
  cases h : r.out.line? <;> simp [lines, h]

@[simp] theorem skipped_concat (r : Record State Event Shown) (seq : Nat) :
    skipped (tr ++ [r]) seq = (skipped tr seq || skips r seq) := by
  simp [skipped]

theorem appended_concat (r : Record State Event Shown) :
    appended (tr ++ [r]) = appended tr ++ appended [r] := List.flatMap_append

theorem baseline_concat {r : Record State Event Shown} (h : ¬ EndsDrain r) :
    baseline (tr ++ [r]) = baseline tr := by
  simp [baseline, List.find?_append, h]

theorem baseline_ends {r : Record State Event Shown} (h : EndsDrain r) (hnone : baseline tr = none) :
    baseline (tr ++ [r]) = some (r.pre.ring.read r.pre.next).2 := by
  have hfind : (tr.find? fun q => decide (EndsDrain q)) = none := by simpa [baseline] using hnone
  simp [baseline, List.find?_append, hfind, h]

/-! ## Accounts -/

theorem account_self (k : Nat) : account ring tr k k = [] := by
  simp [account]

theorem account_append {k m n : Nat} (hkm : k ≤ m) (hmn : m ≤ n) :
    account ring tr k n = account ring tr k m ++ account ring tr m n := by
  have hrange : List.range' k (n - k) = List.range' k (m - k) ++ List.range' m (n - m) := by
    have hlen : n - k = (m - k) + (n - m) := by omega
    have hstart : k + 1 * (m - k) = m := by omega
    rw [hlen, ← List.range'_append, hstart]
  simp [account, hrange]

theorem account_skipped {m n : Nat} (h : ∀ seq, m ≤ seq → seq < n → skipped tr seq = true) :
    account ring tr m n = [] := by
  rw [account, List.map_eq_nil_iff, List.filter_eq_nil_iff]
  intro seq hseq
  obtain ⟨hle, hlt⟩ := List.mem_range'_1.mp hseq
  simp [h seq hle (by omega)]

theorem account_one {m : Nat} {x : Bytes} (hkept : skipped tr m = false)
    (hrecord : recordAt ring tr m = some x) : account ring tr m (m + 1) = [(m, followMsg x)] := by
  have hone : m + 1 - m = 1 := by omega
  simp [account, hone, hkept, hrecord]

theorem account_congr {tr' : Trace} {k m : Nat}
    (hskip : ∀ seq < m, skipped tr' seq = skipped tr seq)
    (hrecord : ∀ seq < m, recordAt ring tr' seq = recordAt ring tr seq) :
    account ring tr' k m = account ring tr k m := by
  have hlt : ∀ seq ∈ List.range' k (m - k), seq < m := by
    intro seq hseq
    have hbound := List.mem_range'_1.mp hseq
    omega
  unfold account
  have hfilter : (List.range' k (m - k)).filter (fun seq => !skipped tr' seq) =
      (List.range' k (m - k)).filter (fun seq => !skipped tr seq) := by
    apply List.filter_congr
    intro seq hseq
    rw [hskip seq (hlt seq hseq)]
  rw [hfilter]
  apply List.map_congr_left
  intro seq hseq
  rw [hrecord seq (hlt seq (List.mem_filter.mp hseq).1)]

/-! ## The account is right -/

theorem since_run (h : Run step (State.init ring) tr t) : ring.Since (appended tr) t.ring := by
  apply h.history (I := fun tr t => ring.Since (appended tr) t.ring)
  · exact .refl ring
  · intro tr s e t o _ hI hs
    rw [appended_concat]
    cases step_move hs with
    | kernel hring => simpa [appended] using hI.kernel hring
    | _ => simpa [appended] using hI

theorem recordAt_concat {r : Record State Event Shown} {seq : Nat}
    (hsince : ring.Since (appended tr) s.ring) (hseq : seq < s.ring.stop) :
    recordAt ring (tr ++ [r]) seq = recordAt ring tr seq := by
  have hstop := hsince.stop_eq
  unfold recordAt
  split
  · rfl
  · next hfirst =>
    rw [appended_concat, ← List.append_assoc, List.getElem?_append_left (by omega)]

theorem recordAt_of_read {x : Bytes} (hsince : ring.Since (appended tr) s.ring)
    (hhas : s.ring.has s.next) (hget : s.ring.records[s.next - s.ring.first]? = some x) :
    recordAt ring tr s.next = some x := by
  have hfirst := hsince.first_le
  have hle := hhas.1
  rw [recordAt, if_neg (by omega), ← hsince.get hle, hget]

/-- The lines printed are those of the account, up to the reader's next record. -/
structure Accounted (ring : Ring Bytes) (tr : Trace) (s : State) : Prop where
  next_le : s.next ≤ s.ring.stop
  seeking : s.stage = .seeking → s.next ≤ s.ring.first
  skipped_lt : ∀ seq, skipped tr seq = true → seq < s.next
  opened : s.stage = .closed ∨ s.stage = .draining → baseline tr = none
  following : s.stage = .polling ∨ s.stage = .reading ∨ s.stage = .seeking → baseline tr ≠ none
  before : baseline tr = none → lines tr = [] ∧ ∀ seq, skipped tr seq = false
  told : ∀ k, baseline tr = some k → k ≤ s.next ∧ lines tr = account ring tr k s.next

theorem Accounted.quiet (h : Accounted ring tr s) (hsince : ring.Since (appended tr) s.ring)
    (hskip : ∀ seq, skips ⟨s, e, .quiet⟩ seq = false) (hends : ¬ EndsDrain ⟨s, e, .quiet⟩)
    (hle : t.next ≤ t.ring.stop) (hseek : t.stage = .seeking → t.next ≤ t.ring.first)
    (hopen : t.stage = .closed ∨ t.stage = .draining → s.stage = .closed ∨ s.stage = .draining)
    (hfollow : t.stage = .polling ∨ t.stage = .reading ∨ t.stage = .seeking →
      s.stage = .polling ∨ s.stage = .reading ∨ s.stage = .seeking)
    (hnext : t.next = s.next ∨ baseline tr = none) :
    Accounted ring (tr ++ [⟨s, e, .quiet⟩]) t := by
  have hbase : baseline (tr ++ [⟨s, e, .quiet⟩]) = baseline tr := baseline_concat hends
  have hskipped : ∀ seq, skipped (tr ++ [⟨s, e, .quiet⟩]) seq = skipped tr seq := by
    intro seq
    rw [skipped_concat, hskip, Bool.or_false]
  have hlines : lines (tr ++ [⟨s, e, .quiet⟩]) = lines tr := by simp [Shown.line?]
  constructor
  · exact hle
  · exact hseek
  · intro seq hseq
    rw [hskipped] at hseq
    rcases hnext with heq | hnone
    · exact heq ▸ h.skipped_lt seq hseq
    · rw [(h.before hnone).2 seq] at hseq
      cases hseq
  · intro hstage
    rw [hbase]
    exact h.opened (hopen hstage)
  · intro hstage
    rw [hbase]
    exact h.following (hfollow hstage)
  · intro hnone
    rw [hbase] at hnone
    rw [hlines]
    exact ⟨(h.before hnone).1, fun seq => (hskipped seq).trans ((h.before hnone).2 seq)⟩
  · intro k hk
    rw [hbase] at hk
    obtain ⟨hkle, htold⟩ := h.told k hk
    have heq : t.next = s.next := hnext.resolve_right (by simp [hk])
    have hsame : account ring (tr ++ [⟨s, e, .quiet⟩]) k s.next = account ring tr k s.next :=
      account_congr (fun seq _ => hskipped seq) fun seq hseq =>
        recordAt_concat hsince (Nat.lt_of_lt_of_le hseq h.next_le)
    rw [heq, hlines, hsame]
    exact ⟨hkle, htold⟩

theorem Accounted.drainEnds (h : Accounted ring tr s) (hstage : s.stage = .draining)
    (hends : EndsDrain ⟨s, .drainRead, .quiet⟩) (hafter : t.stage = .polling)
    (hnext : (s.ring.read s.next).2 = t.next) (hle : t.next ≤ t.ring.stop) :
    Accounted ring (tr ++ [⟨s, .drainRead, .quiet⟩]) t := by
  have hnone := h.opened (Or.inr hstage)
  obtain ⟨hlines, hskipped⟩ := h.before hnone
  have hbase : baseline (tr ++ [⟨s, .drainRead, .quiet⟩]) = some t.next := by
    rw [baseline_ends hends hnone, hnext]
  constructor
  · exact hle
  · simp [hafter]
  · intro seq hseq
    simp [hskipped, skips] at hseq
  · simp [hafter]
  · simp [hbase]
  · simp [hbase]
  · intro k hk
    obtain rfl := Option.some.inj (hbase.symm.trans hk)
    simp [account_self, hlines, Shown.line?]

/-- The reader is moved to the oldest record that is left, past those that were evicted. -/
theorem Accounted.overrun (h : Accounted ring tr s) (hsince : ring.Since (appended tr) s.ring)
    (hevent : e = .followRead ∨ e = .followSeek)
    (hstage : s.stage = .polling ∨ s.stage = .reading ∨ s.stage = .seeking)
    (hlt : s.next ≤ s.ring.first) (hring : t.ring = s.ring) (hnext : t.next = s.ring.first)
    (hafter : t.stage = .polling ∨ t.stage = .seeking) :
    Accounted ring (tr ++ [⟨s, e, .quiet⟩]) t := by
  have hbase : baseline (tr ++ [⟨s, e, .quiet⟩]) = baseline tr := by
    apply baseline_concat
    rcases hevent with rfl | rfl <;> simp [EndsDrain]
  have hskip : ∀ seq, skips ⟨s, e, .quiet⟩ seq =
      (decide (s.next ≤ seq) && decide (seq < t.next)) := by
    intro seq
    rcases hevent with rfl | rfl <;> simp [skips, hnext]
  have hfollows := h.following hstage
  constructor
  · rw [hnext, hring]
    exact Nat.le_add_right _ _
  · intro _
    rw [hnext, hring]
  · intro seq hseq
    rw [skipped_concat, hskip, Bool.or_eq_true, Bool.and_eq_true, decide_eq_true_eq,
      decide_eq_true_eq] at hseq
    rcases hseq with hold | ⟨-, hnow⟩
    · rw [hnext]
      exact Nat.lt_of_lt_of_le (h.skipped_lt seq hold) hlt
    · exact hnow
  · rcases hafter with hafter | hafter <;> simp [hafter]
  · intro _
    rwa [hbase]
  · rw [hbase]
    exact fun hnone => absurd hnone hfollows
  · intro k hk
    rw [hbase] at hk
    obtain ⟨hkle, htold⟩ := h.told k hk
    have hmn : s.next ≤ t.next := hnext ▸ hlt
    have hsame : account ring (tr ++ [⟨s, e, .quiet⟩]) k s.next = account ring tr k s.next := by
      apply account_congr
      · intro seq hseq
        simp [hskip, Nat.not_le.mpr hseq]
      · intro seq hseq
        exact recordAt_concat hsince (Nat.lt_of_lt_of_le hseq h.next_le)
    have hgone : account ring (tr ++ [⟨s, e, .quiet⟩]) s.next t.next = [] := by
      apply account_skipped
      intro seq hle hseq
      simp [hskip, hle, hseq]
    refine ⟨Nat.le_trans hkle hmn, ?_⟩
    rw [account_append hkle hmn, hsame, hgone, htold.symm]
    simp [Shown.line?]

theorem Accounted.record {x : Bytes} (h : Accounted ring tr s)
    (hsince : ring.Since (appended tr) s.ring) (hstage : s.stage = .reading)
    (hhas : s.ring.has s.next) (hget : s.ring.records[s.next - s.ring.first]? = some x) :
    Accounted ring (tr ++ [⟨s, .followRead, .printed s.next (followMsg x)⟩])
      { s with stage := .polling, next := s.next + 1 } := by
  have hbase : baseline (tr ++ [⟨s, .followRead, .printed s.next (followMsg x)⟩]) = baseline tr :=
    baseline_concat (by simp [EndsDrain])
  have hskipped : ∀ seq, skipped (tr ++ [⟨s, .followRead, .printed s.next (followMsg x)⟩]) seq =
      skipped tr seq := by
    intro seq
    have hskip : skips ⟨s, .followRead, .printed s.next (followMsg x)⟩ seq = false := by
      have hle := hhas.1
      simp only [skips, Bool.and_eq_false_iff, decide_eq_false_iff_not, Nat.not_lt]
      omega
    rw [skipped_concat, hskip, Bool.or_false]
  have hfollows := h.following (Or.inr (Or.inl hstage))
  constructor
  · exact hhas.2
  · exact Stage.noConfusion
  · intro seq hseq
    rw [hskipped] at hseq
    exact Nat.lt_succ_of_lt (h.skipped_lt seq hseq)
  · simp
  · intro _
    rwa [hbase]
  · rw [hbase]
    exact fun hnone => absurd hnone hfollows
  · intro k hk
    rw [hbase] at hk
    obtain ⟨hkle, htold⟩ := h.told k hk
    have hrecord : ∀ seq ≤ s.next,
        recordAt ring (tr ++ [⟨s, .followRead, .printed s.next (followMsg x)⟩]) seq =
          recordAt ring tr seq := by
      intro seq hseq
      exact recordAt_concat hsince (Nat.lt_of_le_of_lt hseq hhas.2)
    have hkept : skipped tr s.next = false := by
      by_contra hskip
      exact absurd (h.skipped_lt s.next (by simpa using hskip)) (Nat.lt_irrefl _)
    have hsame := account_congr (k := k) (fun seq _ => hskipped seq)
      fun seq (hseq : seq < s.next) => hrecord seq (Nat.le_of_lt hseq)
    have hone := account_one ((hskipped _).trans hkept)
      ((hrecord _ (Nat.le_refl _)).trans (recordAt_of_read hsince hhas hget))
    refine ⟨Nat.le_succ_of_le hkle, ?_⟩
    rw [account_append hkle (Nat.le_succ _), hsame, hone, ← htold]
    simp [Shown.line?]

theorem accounted_followRead (h : Accounted ring tr s) (hsince : ring.Since (appended tr) s.ring)
    (hs : step s .followRead = some (t, o)) : Accounted ring (tr ++ [⟨s, .followRead, o⟩]) t := by
  simp only [step, Option.ite_none_right_eq_some, Option.some.injEq] at hs
  obtain ⟨hstage, hread⟩ := hs
  rcases s.ring.read_cases s.next with ⟨hlt, hgot⟩ | ⟨x, hhas, hget, hgot⟩ | ⟨hfirst, -, hgot⟩
  · simp only [followRead, hgot] at hread
    cases hread
    exact h.overrun hsince (Or.inl rfl) (Or.inr (Or.inl hstage)) (Nat.le_of_lt hlt) rfl rfl (Or.inr rfl)
  · simp only [followRead, hgot] at hread
    cases hread
    exact h.record hsince hstage hhas hget
  · simp only [followRead, hgot] at hread
    cases hread
    have hskip : ∀ seq, skips ⟨s, .followRead, .quiet⟩ seq = false := by
      intro seq
      simp only [skips, Bool.and_eq_false_iff, decide_eq_false_iff_not, Nat.not_lt]
      omega
    exact h.quiet hsince hskip (by simp [EndsDrain]) h.next_le (by simp) (by simp) (by simp [hstage])
      (Or.inl rfl)

theorem accounted_step (h : Accounted ring tr s) (hsince : ring.Since (appended tr) s.ring)
    (hs : step s e = some (t, o)) : Accounted ring (tr ++ [⟨s, e, o⟩]) t := by
  cases step_move hs with
  | @kernel ke ring' hring =>
    have hfirst := Ring.kernel_first_le hring
    have hstop : s.ring.stop ≤ ring'.stop := by
      rw [hsince.stop_eq, (hsince.kernel hring).stop_eq]
      simp
    exact h.quiet hsince (by simp [skips]) (by simp [EndsDrain]) (Nat.le_trans h.next_le hstop)
      (fun hseek => Nat.le_trans (h.seeking hseek) hfirst) id id (Or.inl rfl)
  | kmsgOpen hstage =>
    exact h.quiet hsince (by simp [skips]) (by simp [EndsDrain]) (Nat.le_add_right _ _) (by simp)
      (fun _ => Or.inl hstage) (by simp) (Or.inr (h.opened (Or.inl hstage)))
  | drainRecord hstage hread =>
    have hnext : s.next + 1 ≤ s.ring.stop := by
      rcases s.ring.read_cases s.next with ⟨-, hgot⟩ | ⟨x, hhas, -, -⟩ | ⟨-, -, hgot⟩
      · simp [hgot] at hread
      · exact hhas.2
      · simp [hgot] at hread
    exact h.quiet hsince (by simp [skips]) (by simp [EndsDrain, hread, Got.isRecord]) hnext
      (by simp [hstage]) (fun _ => Or.inr hstage) (by simp [hstage])
      (Or.inr (h.opened (Or.inr hstage)))
  | drainOverrun hstage hread =>
    have hlt := Ring.read_epipe hread
    have hgot : s.ring.read s.next = (.epipe, s.ring.first) := by rw [Ring.read, if_pos hlt]
    exact h.drainEnds hstage (by simp [EndsDrain, hread, Got.isRecord]) rfl (by rw [hgot])
      (Nat.le_add_right _ _)
  | drainEnd hstage hread =>
    have hnext : (s.ring.read s.next).2 = s.next := by
      rcases s.ring.read_cases s.next with ⟨-, hgot⟩ | ⟨x, -, -, hgot⟩ | ⟨-, -, hgot⟩
      · simp [hgot] at hread
      · simp [hgot] at hread
      · rw [hgot]
    exact h.drainEnds hstage (by simp [EndsDrain, hread, Got.isRecord]) rfl hnext h.next_le
  | followRecord => exact accounted_followRead h hsince hs
  | followOverrun => exact accounted_followRead h hsince hs
  | followEmpty => exact accounted_followRead h hsince hs
  | followSeek hstage =>
    exact h.overrun hsince (Or.inr rfl) (Or.inr (Or.inr hstage)) (h.seeking hstage) rfl rfl (Or.inl rfl)
  | drainInterrupted hstage =>
    exact h.quiet hsince (by simp [skips]) (by simp [EndsDrain]) h.next_le h.seeking id id (Or.inl rfl)
  | pollElapsed hstage =>
    exact h.quiet hsince (by simp [skips]) (by simp [EndsDrain]) h.next_le h.seeking id id (Or.inl rfl)
  | pollReady hstage =>
    exact h.quiet hsince (by simp [skips]) (by simp [EndsDrain]) h.next_le (by simp) (by simp)
      (by simp [hstage]) (Or.inl rfl)
  | _ =>
    exact h.quiet hsince (by simp [skips]) (by simp [EndsDrain]) h.next_le (by simp) (by simp) (by simp)
      (Or.inl rfl)

theorem accounted_run (h : Run step (State.init ring) tr t) : Accounted ring tr t := by
  apply h.history (I := Accounted ring)
  · constructor <;> simp [State.init, skipped, baseline, lines]
  · intro tr s e t o hrun hI hs
    exact accounted_step hI (since_run hrun) hs

theorem evicted_of_skipped (h : Run step (State.init ring) tr t) :
    ∀ seq, skipped tr seq = true → seq < t.ring.first := by
  apply h.history (I := fun tr t => ∀ seq, skipped tr seq = true → seq < t.ring.first)
  · simp [skipped]
  · intro tr s e t o _ hI hs seq hseq
    have hfirst : s.ring.first ≤ t.ring.first := by
      cases step_move hs with
      | kernel hring => exact Ring.kernel_first_le hring
      | _ => exact Nat.le_refl _
    rw [skipped_concat, Bool.or_eq_true] at hseq
    rcases hseq with hold | hnow
    · exact Nat.lt_of_lt_of_le (hI seq hold) hfirst
    · simp only [skips, Bool.and_eq_true, decide_eq_true_eq] at hnow
      exact Nat.lt_of_lt_of_le hnow.2 hfirst

theorem next_eq_stop_of_eagain {r : Record State Event Shown}
    (h : Run step (State.init ring) (tr ++ [r]) t) (hevent : r.event = .followRead)
    (hread : (r.pre.ring.read r.pre.next).1 = .eagain) : t.next = t.ring.stop := by
  obtain ⟨s, e, o⟩ := r
  obtain ⟨hpast, hs⟩ := h.concat_inv
  simp only at hpast hs hread hevent
  subst hevent
  simp only [step, Option.ite_none_right_eq_some, Option.some.injEq] at hs
  obtain ⟨-, hmove⟩ := hs
  rcases s.ring.read_cases s.next with ⟨-, hgot⟩ | ⟨x, -, -, hgot⟩ | ⟨-, hstop, hgot⟩
  · simp [hgot] at hread
  · simp [hgot] at hread
  · simp only [followRead, hgot] at hmove
    cases hmove
    exact Nat.le_antisymm (accounted_run hpast).next_le hstop

theorem recordAt_concat_of_some {r : Record State Event Shown} {seq : Nat} {x : Bytes}
    (h : recordAt ring tr seq = some x) : recordAt ring (tr ++ [r]) seq = some x := by
  unfold recordAt at h ⊢
  split at h
  · cases h
  · next hfirst =>
    have hlen := (List.getElem?_eq_some_iff.mp h).1
    rw [if_neg hfirst, appended_concat, ← List.append_assoc, List.getElem?_append_left hlen, h]

theorem recorded_run (h : Run step (State.init ring) tr t) :
    ∀ seq msg, (seq, msg) ∈ lines tr → ∃ x, recordAt ring tr seq = some x ∧ msg = followMsg x := by
  apply h.history (I := fun tr _ => ∀ seq msg, (seq, msg) ∈ lines tr →
    ∃ x, recordAt ring tr seq = some x ∧ msg = followMsg x)
  · simp [lines]
  · intro tr s e t o hrun hI hs seq msg hmem
    rw [lines_concat, List.mem_append] at hmem
    rcases hmem with hold | hnew
    · obtain ⟨x, hx, hmsg⟩ := hI seq msg hold
      exact ⟨x, recordAt_concat_of_some hx, hmsg⟩
    · cases step_move hs with
      | @followRecord x hstage hhas hread =>
        obtain ⟨rfl, rfl⟩ : seq = s.next ∧ msg = followMsg x := by simpa [Shown.line?] using hnew
        have hget : s.ring.records[s.next - s.ring.first]? = some x := by
          rcases s.ring.read_cases s.next with ⟨hlt, -⟩ | ⟨y, -, hy, hgot⟩ | ⟨-, hstop, -⟩
          · exact absurd hhas.1 (Nat.not_le_of_lt hlt)
          · rw [hgot] at hread
            cases hread
            exact hy
          · exact absurd hhas.2 (Nat.not_lt_of_le hstop)
        exact ⟨x, recordAt_concat_of_some (recordAt_of_read (since_run hrun) hhas hget), rfl⟩
      | _ => simp [Shown.line?] at hnew

theorem account_length (k m : Nat) : (account ring tr k m).length +
    (List.range' k (m - k)).countP (skipped tr) = m - k := by
  have hsplit := List.length_eq_countP_add_countP (skipped tr) (l := List.range' k (m - k))
  rw [List.length_range'] at hsplit
  have hkept : (account ring tr k m).length =
      (List.range' k (m - k)).countP fun seq => !skipped tr seq := by
    rw [account, List.length_map, List.countP_eq_length_filter]
  have hnot : (List.range' k (m - k)).countP (fun seq => !skipped tr seq) =
      (List.range' k (m - k)).countP fun seq => ¬ skipped tr seq := by
    simp
  omega

end

/-- In every run, with the kernel appending and evicting between any two calls, the lines printed are
those of the records from the last read of the drain up to the reader's next record, each once and in
order, without the ones that had been evicted when the loop got to them; so the lines and these make up
all that was logged from there on, once a read finds nothing. Nothing is printed before the drain has
ended. A line is the text that the kernel logged under its number. -/
theorem follow_accounts (ring : Ring Bytes) (tr : Trace) (t : State)
    (h : Run step (State.init ring) tr t) :
    (baseline tr = none → lines tr = []) ∧
    (∀ k, baseline tr = some k → k ≤ t.next ∧ lines tr = account ring tr k t.next ∧
      (lines tr).length + (List.range' k (t.next - k)).countP (skipped tr) = t.next - k) ∧
    (∀ seq, skipped tr seq = true → seq < t.ring.first) ∧
    t.next ≤ t.ring.stop ∧ t.ring.stop = ring.first + (ring.records ++ appended tr).length ∧
    (∀ past r, tr = past ++ [r] → r.event = .followRead →
      (r.pre.ring.read r.pre.next).1 = .eagain → t.next = t.ring.stop) ∧
    ∀ records : Nat → LogRecord,
      (∀ seq x, recordAt ring tr seq = some x → x = (records seq).render seq) →
      ∀ seq msg, (seq, msg) ∈ lines tr → msg = (records seq).text := by
  have hacc := accounted_run h
  refine ⟨fun hnone => (hacc.before hnone).1, ?_, evicted_of_skipped h, hacc.next_le,
    (since_run h).stop_eq, ?_, ?_⟩
  · intro k hk
    obtain ⟨hle, htold⟩ := hacc.told k hk
    exact ⟨hle, htold, htold ▸ account_length k t.next⟩
  · rintro past r rfl hevent hread
    exact next_eq_stop_of_eagain h hevent hread
  · intro records hrendered seq msg hmem
    obtain ⟨x, hx, rfl⟩ := recorded_run h seq msg hmem
    rw [hrendered seq x hx, followMsg_render]

/-- Messages of one letter, the record's number deciding which -/
def letters (seq : Nat) : LogRecord := logged 6 1000 [UInt8.ofNat (61 + seq)]

theorem rendered_letters {tr : Trace}
    (happended : appended tr = [(letters 5).render 5, (letters 6).render 6, (letters 7).render 7])
    {seq : Nat} {x : Bytes} (h : recordAt ⟨4, [(letters 4).render 4]⟩ tr seq = some x) :
    x = (letters seq).render seq := by
  rw [recordAt, happended] at h
  split at h
  · cases h
  · next hfirst =>
    have hlen := (List.getElem?_eq_some_iff.mp h).1
    simp only [List.cons_append, List.nil_append, List.length_cons, List.length_nil] at hfirst hlen
    obtain rfl | rfl | rfl | rfl : seq = 4 ∨ seq = 5 ∨ seq = 6 ∨ seq = 7 := by omega
    all_goals exact (Option.some.inj h).symm

/-- Of three new records the first is evicted before the loop reads it, and the second before it has
moved to the oldest that is left: one line is printed, for the third. -/
theorem follow_accounts_overrun : ∃ tr t, Run step (State.init ⟨4, [(letters 4).render 4]⟩) tr t ∧
    baseline tr = some 5 ∧ lines tr = [(7, [68])] ∧
    (lines tr = account ⟨4, [(letters 4).render 4]⟩ tr 5 t.next ∧ t.next = t.ring.stop ∧
      ∀ seq msg, (seq, msg) ∈ lines tr → msg = (letters seq).text) := by
  obtain ⟨tr, r, t, hrun, hevent, hq⟩ := exists_exec_concat step (State.init ⟨4, [(letters 4).render 4]⟩)
    [.kmsgOpen, .drainRead, .drainRead, .kernel (.append ((letters 5).render 5)),
      .kernel (.append ((letters 6).render 6)), .kernel (.append ((letters 7).render 7)),
      .kernel .evict, .kernel .evict, .pollReady, .followRead, .kernel .evict,
      .followSeek, .pollReady, .followRead, .pollReady] .followRead
    (fun past r => decide (baseline (past ++ [r]) = some 5) && decide (lines (past ++ [r]) = [(7, [68])]) &&
      decide ((r.pre.ring.read r.pre.next).1 = .eagain) && decide (appended (past ++ [r]) =
        [(letters 5).render 5, (letters 6).render 6, (letters 7).render 7])) (by decide +kernel)
  simp only [Bool.and_eq_true, decide_eq_true_eq] at hq
  obtain ⟨⟨⟨hbase, hlines⟩, hread⟩, happended⟩ := hq
  obtain ⟨-, htold, -, -, -, hend, htext⟩ := follow_accounts _ _ t hrun
  exact ⟨_, t, hrun, hbase, hlines, (htold 5 hbase).2.1, hend tr r rfl hevent hread,
    htext letters fun seq x h => rendered_letters happended h⟩

end LinuxDriverLab.RunConsole
