import Mathlib.Algebra.BigOperators.Group.List.Basic
import Mathlib.Algebra.Order.BigOperators.Group.List
import LinuxDriverLab.RbFill.Report

/-!
# The account of rbfill

When every record carries the tag, the report takes the log to be filled by this run alone, and the
bytes of text to be the records times the length of one message. Both are judged by a search for
the tag, so what counts is which records carry it and how the messages look in the log.
-/

namespace LinuxDriverLab.RbFill

/-! ## The text of a message -/

theorem escape_append (s t : Bytes) : escape (s ++ t) = escape s ++ escape t := List.flatMap_append

theorem formatZero_digits {w n : Nat} {c : UInt8} (h : c ∈ formatZero w n) :
    48 ≤ c.toNat ∧ c.toNat ≤ 57 := by
  rcases List.mem_append.mp h with h | h
  · rw [List.eq_of_mem_replicate h]
    decide
  · have hdigit := decimal_isDigit h
    simpa [isDigit] using hdigit

theorem formatString_gPad (args : Args) : formatString args.pay gPad = List.replicate args.pay 120 := by
  have hpay := args.pay_le
  rw [formatString, gPad, List.take_replicate, Nat.min_eq_left (by omega), List.takeWhile_eq_self_iff]
  intro b hb
  rw [List.eq_of_mem_replicate hb]
  decide

/-- The line of a message, between the prefix and the newline. -/
def messageLine (args : Args) (i : Nat) : Bytes :=
  args.tag ++ 32 :: (formatZero 5 i ++ 32 :: List.replicate args.pay 120)

theorem messageText_eq (args : Args) (i : Nat) :
    messageText args i = 60 :: 52 :: 62 :: (messageLine args i ++ [10]) := by
  simp [messageText, messageLine, formatString_gPad]

theorem decimal_length_of_lt {i : Nat} (hi : i < 2 ^ 63) : (decimal i).length ≤ 19 :=
  decimal_length_le (by decide) (hi.trans (by decide))

theorem message_eq (args : Args) {i : Nat} (hi : i < 2 ^ 63) : message args i = messageText args i := by
  apply snprintf_take
  have hdigits := decimal_length_of_lt hi
  have htag := args.tag_length
  have hpay := args.pay_le
  simp only [messageText_eq, messageLine, List.length_cons, List.length_append, formatZero_length,
    List.length_replicate, List.length_nil]
  omega

theorem messageLine_nulFree (args : Args) (i : Nat) : (0 : UInt8) ∉ messageLine args i ++ [10] := by
  have hnumber : (0 : UInt8) ∉ formatZero 5 i := fun h => absurd (formatZero_digits h).1 (by decide)
  simp [messageLine, args.tag_nulFree, hnumber, List.mem_replicate]

theorem stored_message (args : Args) {i : Nat} (hi : i < 2 ^ 63) :
    stored (message args i) =
      escape args.tag ++ 32 :: (formatZero 5 i ++ 32 :: List.replicate args.pay 120) := by
  have hdrop : dropPriority (messageText args i) = messageLine args i ++ [10] := by
    rw [messageText_eq]
    simp [dropPriority, isDigit]
  have hrest : (32 :: (formatZero 5 i ++ 32 :: List.replicate args.pay 120)).all isShown = true := by
    simp only [List.all_eq_true, List.mem_cons, List.mem_append, List.mem_replicate]
    rintro c (rfl | hc | rfl | ⟨-, rfl⟩)
    · decide
    · have hrange := formatZero_digits hc
      have hne : c ≠ 92 := by
        rintro rfl
        exact absurd hrange.2 (by decide)
      simp only [isShown, Bool.and_eq_true, decide_eq_true_eq, bne_iff_ne, ne_eq]
      exact ⟨by omega, hne⟩
    · decide
    · decide
  rw [stored, message_eq args hi, hdrop, cString_of_nulFree (messageLine_nulFree args i), dropNewline,
    if_pos (by simp), List.dropLast_concat, messageLine, escape_append, escape_of_shown hrest]

/-- A message takes the length that is printed, and more where the tag is escaped or the number
outgrows its five digits. -/
theorem stored_message_length (args : Args) {i : Nat} (hi : i < 2 ^ 63) :
    (stored (message args i)).length + 1 = (args.tag.length + 1 + 5 + 1 + args.pay + 1) +
      (((escape args.tag).length - args.tag.length) + ((decimal i).length - 5)) := by
  have hle := (escape_length args.tag).1
  rw [stored_message args hi]
  simp only [List.length_append, List.length_cons, formatZero_length, List.length_replicate]
  omega

/-! ## The records of the run -/

/-- The records that the first `i` messages become. -/
def Env.own (env : Env) (args : Args) (i : Nat) : List LogRecord :=
  (List.range i).map fun j => env.record (j + 1) (message args (j + 1))

section

variable (env : Env) (args : Args) (ring : Ring LogRecord)

theorem after_records (i : Nat) : env.evicted args ring i ≤ ring.records.length + i ∧
    (env.after args ring i).records =
      (ring.records ++ env.own args i).drop (env.evicted args ring i) := by
  induction i with
  | zero => simp [Env.evicted, Env.after, Env.own]
  | succ i ih =>
    have hown : env.own args (i + 1) =
        env.own args i ++ [env.record (i + 1) (message args (i + 1))] := by
      simp [Env.own, List.range_succ]
    have hgone : env.gone args (i + 1) (env.after args ring i) ≤
        ring.records.length + i - env.evicted args ring i := by
      refine (Nat.min_le_left _ _).trans (Nat.le_of_eq ?_)
      rw [ih.2]
      simp [Env.own]
    constructor
    · rw [Env.evicted]
      omega
    · simp only [Env.after, Env.write, Env.evicted]
      rw [ih.2, List.drop_drop, hown, ← List.append_assoc]
      apply (List.drop_append_of_le_length _).symm
      simp only [List.length_append, Env.own, List.length_map, List.length_range]
      omega

theorem mem_shownFrom {c : Nat × LogRecord} {seq : Nat} {xs : List LogRecord}
    (h : c ∈ shownFrom seq xs) : seq ≤ c.1 ∧ xs[c.1 - seq]? = some c.2 := by
  induction xs generalizing seq with
  | nil => simp [shownFrom] at h
  | cons x rest ih =>
    rw [shownFrom] at h
    split at h
    · rcases List.mem_cons.mp h with rfl | h
      · simp
      · obtain ⟨hle, hget⟩ := ih h
        have hsub : c.1 - seq = c.1 - (seq + 1) + 1 := by omega
        rw [hsub, List.getElem?_cons_succ]
        exact ⟨by omega, hget⟩
    · simp at h

theorem shown_own {i : Nat} {c : Nat × LogRecord} (hc : c ∈ shown (env.after args ring i))
    (hstop : ring.stop ≤ c.1) : c.1 - ring.stop < i ∧
      c.2 = env.record (c.1 - ring.stop + 1) (message args (c.1 - ring.stop + 1)) := by
  obtain ⟨hle, hget⟩ := mem_shownFrom hc
  rw [after_first] at hle hget
  rw [(after_records env args ring i).2, List.getElem?_drop, List.getElem?_append_right] at hget
  · unfold Ring.stop at hstop ⊢
    have hindex : env.evicted args ring i + (c.1 - (ring.first + env.evicted args ring i)) -
        ring.records.length = c.1 - (ring.first + ring.records.length) := by omega
    rw [hindex, Env.own, List.getElem?_map, Option.map_eq_some_iff] at hget
    obtain ⟨j, hj, hrecord⟩ := hget
    obtain ⟨hlt, rfl⟩ := List.getElem?_eq_some_iff.mp hj
    rw [List.length_range] at hlt
    rw [List.getElem_range] at hrecord
    exact ⟨hlt, hrecord.symm⟩
  · unfold Ring.stop at hstop
    omega

/-! ## The bytes of text -/

/-- What is printed as the length of one message. -/
def perMessage : Nat := args.tag.length + 1 + 5 + 1 + args.pay + 1

/-- By how much the text of the message with number `i` is longer than that. -/
def excess (i : Nat) : Nat :=
  ((escape args.tag).length - args.tag.length) + ((decimal i).length - 5)

theorem excess_eq_zero_iff (i : Nat) : excess args i = 0 ↔ args.tag.all isShown = true ∧ i < 10 ^ 5 := by
  have hescape := escape_length args.tag
  have hdigits : (decimal i).length ≤ 5 ↔ i < 10 ^ 5 := by
    rw [decimal, List.length_map, Nat.length_toDigits_le_iff (by decide) (by decide)]
  rw [← hescape.2, ← hdigits, excess]
  omega

theorem escape_length_le (s : Bytes) : (escape s).length ≤ 4 * s.length := by
  induction s with
  | nil => simp [escape]
  | cons c s ih =>
    have hbyte : (escapeByte c).length ≤ 4 := by
      unfold escapeByte
      split <;> simp
    have hcons : (escape (c :: s)).length = (escapeByte c).length + (escape s).length := by
      simp [escape]
    rw [hcons, List.length_cons]
    omega

theorem excess_le {i : Nat} (hi : i < 2 ^ 63) : excess args i ≤ 110 := by
  have htag := args.tag_length
  have hescape := escape_length_le args.tag
  have hdigits := decimal_length_of_lt hi
  unfold excess
  omega

theorem own_textbytes {i : Nat} (hi : i < 2 ^ 63)
    (hown : ∀ c ∈ shown (env.after args ring i), ring.stop ≤ c.1) :
    ((shown (env.after args ring i)).map fun c => c.2.text.length + 1).sum =
      readable (env.after args ring i) * perMessage args +
        ((shown (env.after args ring i)).map fun c => excess args (c.1 - ring.stop + 1)).sum := by
  have hterm : ∀ c ∈ shown (env.after args ring i),
      c.2.text.length + 1 = perMessage args + excess args (c.1 - ring.stop + 1) := by
    intro c hc
    obtain ⟨hlt, hrecord⟩ := shown_own env args ring hc (hown c hc)
    rw [hrecord, env.record_text, stored_message_length args (by omega), perMessage, excess]
  rw [List.map_congr_left hterm, List.sum_map_add, List.map_const', List.sum_replicate, Nat.nsmul_eq_mul,
    readable]

/-- The number of the records times the printed length is the number of bytes only if no message has
an excess. -/
theorem own_textbytes_iff {i : Nat} (hi : i < 2 ^ 63) (hring : ring.records.length ≤ env.ringsz.toNat)
    (hown : ∀ c ∈ shown (env.after args ring i), ring.stop ≤ c.1) :
    (env.sample args ring i).textbytes = readable (env.after args ring i) * perMessage args ↔
      ∀ c ∈ shown (env.after args ring i),
        args.tag.all isShown = true ∧ c.1 < ring.stop + 99999 := by
  have hstat := sampleRing_counts args.tag (after_length_lt env args ring hring i)
  have hsum := own_textbytes env args ring hi hown
  have hexcess : ((shown (env.after args ring i)).map fun c => excess args (c.1 - ring.stop + 1)).sum ≤
      readable (env.after args ring i) * 110 := by
    have hle := List.sum_le_card_nsmul
      ((shown (env.after args ring i)).map fun c => excess args (c.1 - ring.stop + 1)) 110
    rw [List.length_map, Nat.nsmul_eq_mul] at hle
    apply hle
    intro x hx
    obtain ⟨c, hc, rfl⟩ := List.mem_map.mp hx
    have hlt := (shown_own env args ring hc (hown c hc)).1
    exact excess_le args (by omega)
  have hsmall : readable (env.after args ring i) * perMessage args +
      ((shown (env.after args ring i)).map fun c => excess args (c.1 - ring.stop + 1)).sum < 2 ^ 64 := by
    have hread := (readable_le _).trans (after_length_le env args ring hring i)
    have hringsz := env.ringsz_lt
    have hper : perMessage args ≤ 3540 := by
      have := args.tag_length
      have := args.pay_le
      unfold perMessage
      omega
    have hmul := Nat.mul_le_mul_left (readable (env.after args ring i)) hper
    omega
  rw [Env.sample, hstat.textbytes, hsum, Nat.mod_eq_of_lt hsmall, Nat.add_eq_left,
    List.sum_eq_zero_iff]
  simp only [List.mem_map, forall_exists_index, and_imp, forall_apply_eq_imp_iff₂, excess_eq_zero_iff]
  constructor
  · intro h c hc
    have := (h c hc).2
    exact ⟨(h c hc).1, by omega⟩
  · intro h c hc
    have := (h c hc).2
    have := hown c hc
    exact ⟨(h c hc).1, by omega⟩

/-! ## The account -/

/-- What the report says of a log that holds this run alone is true of the records counted. -/
def Report.AccountTrue (rep : Report) (ring : Ring LogRecord) (counted : List (Nat × LogRecord)) :
    Prop :=
  ∀ total per textbytes spare, rep.account = .whole total per textbytes spare →
    (∀ c ∈ counted, ring.stop ≤ c.1) ∧ (textbytes : Int) = total * per

/-- The three ways for the account to go wrong are shut off: whenever an old record, a tag that is
escaped or a number of six digits is among what the last sample reads, so is a record without the
tag. -/
structure Separated : Prop where
  leftover : (∃ c ∈ shown (env.after args ring (env.written args)), c.1 < ring.stop) →
    ∃ d ∈ shown (env.after args ring (env.written args)), hasTag args.tag d = false
  escaped : args.tag.all isShown = false → shown (env.after args ring (env.written args)) ≠ [] →
    ∃ d ∈ shown (env.after args ring (env.written args)), hasTag args.tag d = false
  numbers : (∃ c ∈ shown (env.after args ring (env.written args)), ring.stop + 99999 ≤ c.1) →
    ∃ d ∈ shown (env.after args ring (env.written args)), hasTag args.tag d = false

end

/-- The branch is taken when every record that the last sample reads has the tag. -/
theorem account_whole_iff {tag : Bytes} {cs : List (Nat × LogRecord)} {st : RingStat}
    (h : Statistics tag cs st) : st.total = st.tagged ↔ ∀ c ∈ cs, hasTag tag c = true := by
  rw [h.total, h.tagged, Nat.cast_inj, eq_comm, List.length_filter_eq_length_iff]

theorem written_le (env : Env) (args : Args) : env.written args ≤ args.total := by
  have hle : ∀ n i, env.writtenFrom args n i ≤ i + n := by
    intro n
    induction n with
    | zero => exact fun i => Nat.le_refl i
    | succ n ih =>
      intro i
      have hnext := ih (i + 1)
      unfold Env.writtenFrom
      split_ifs <;> omega
  simpa [Env.written] using hle args.total 0

@[simp] theorem report_account (env : Env) (args : Args) (base st : RingStat) (p : Progress) :
    (report env args base st p).account = account env args st := rfl

theorem account_of_whole {env : Env} {args : Args} {st : RingStat} (h : st.total = st.tagged) :
    account env args st = .whole st.total (perMessage args) st.textbytes
      (int64 (env.ringsz - st.textbytes)) := by
  rw [account, if_pos h]
  simp [perMessage]

/-- In the branch the account is true when the records counted are messages of the run without an
excess. -/
theorem accountTrue_iff {env : Env} {args : Args} {ring : Ring LogRecord} {p : Progress} {i : Nat}
    (hi : i < 2 ^ 63) (hring : ring.records.length ≤ env.ringsz.toNat)
    (hall : ∀ c ∈ shown (env.after args ring i), hasTag args.tag c = true) :
    (report env args (env.sample args ring 0) (env.sample args ring i) p).AccountTrue ring
        (shown (env.after args ring i)) ↔
      ∀ c ∈ shown (env.after args ring i),
        ring.stop ≤ c.1 ∧ args.tag.all isShown = true ∧ c.1 < ring.stop + 99999 := by
  have hstat : Statistics args.tag (shown (env.after args ring i)) (env.sample args ring i) :=
    sampleRing_counts args.tag (after_length_lt env args ring hring i)
  have hwhole : (report env args (env.sample args ring 0) (env.sample args ring i) p).account =
      .whole (readable (env.after args ring i)) (perMessage args) (env.sample args ring i).textbytes
        (int64 (env.ringsz - (env.sample args ring i).textbytes)) := by
    rw [report_account, account_of_whole ((account_whole_iff hstat).mpr hall), hstat.total]
    rfl
  have hbytes := own_textbytes_iff env args ring hi hring
  rw [Report.AccountTrue, hwhole]
  constructor
  · intro htrue c hc
    obtain ⟨hown, heq⟩ := htrue _ _ _ _ rfl
    exact ⟨hown c hc, (hbytes hown).mp (by exact_mod_cast heq) c hc⟩
  · intro hgood total per textbytes spare heq
    have hown := fun c hc => (hgood c hc).1
    obtain ⟨rfl, rfl, rfl, -⟩ := Account.whole.inj heq
    refine ⟨hown, ?_⟩
    exact_mod_cast (hbytes hown).mpr fun c hc => (hgood c hc).2

/-- Whatever the log held before and whatever it evicts: when nobody else writes, what a report says
of a log that is filled by this run alone is true exactly if none of the three ways for it to go
wrong is open. -/
theorem account_true_iff (env : Env) (argv : List Bytes) (args : Args) (ring : Ring LogRecord)
    (rep : Report) (hargs : parseArgs argv = some args)
    (hring : ring.records.length ≤ env.ringsz.toNat) (hmain : main env argv ring = .report rep) :
    rep.AccountTrue ring (shown (env.after args ring (env.written args))) ↔
      Separated env args ring := by
  obtain ⟨p, -, rfl⟩ := main_report hargs hmain
  have hwritten : env.written args < 2 ^ 63 := (written_le env args).trans_lt args.total_lt
  have hstat := sampleRing_counts args.tag (after_length_lt env args ring hring (env.written args))
  by_cases hall : ∀ c ∈ shown (env.after args ring (env.written args)), hasTag args.tag c = true
  · have hno : ¬ ∃ d ∈ shown (env.after args ring (env.written args)), hasTag args.tag d = false := by
      simpa using hall
    rw [accountTrue_iff hwritten hring hall]
    constructor
    · intro hgood
      constructor
      · intro ⟨c, hc, hlt⟩
        have := (hgood c hc).1
        omega
      · intro hescaped hne
        obtain ⟨c, hc⟩ := List.exists_mem_of_ne_nil _ hne
        simp [(hgood c hc).2.1] at hescaped
      · intro ⟨c, hc, hle⟩
        have := (hgood c hc).2.2
        omega
    · intro hsep c hc
      refine ⟨?_, ?_, ?_⟩
      · by_contra hlt
        exact hno (hsep.leftover ⟨c, hc, Nat.lt_of_not_le hlt⟩)
      · by_contra hescaped
        exact hno (hsep.escaped (by simpa using hescaped) (List.ne_nil_of_mem hc))
      · by_contra hle
        exact hno (hsep.numbers ⟨c, hc, Nat.le_of_not_lt hle⟩)
  · have hbad : ∃ d ∈ shown (env.after args ring (env.written args)), hasTag args.tag d = false := by
      simpa using hall
    constructor
    · exact fun _ => ⟨fun _ => hbad, fun _ _ => hbad, fun _ => hbad⟩
    · intro _ total per textbytes spare heq
      rw [report_account, account, Env.sample, if_neg (mt (account_whole_iff hstat).mp hall)] at heq
      cases heq

/-- Ten messages push the old record out, and the three that are left have the length printed. -/
theorem account_true_iff_small : ∃ args rep,
    parseArgs [[49, 48], [50], [49]] = some args ∧
      main smallLog [[49, 48], [50], [49]] ⟨7, [rbRecord]⟩ = .report rep ∧
      rep.account = .whole 3 15 45 83 ∧
      (rep.AccountTrue ⟨7, [rbRecord]⟩
          (shown (smallLog.after args ⟨7, [rbRecord]⟩ (smallLog.written args))) ↔
        Separated smallLog args ⟨7, [rbRecord]⟩) := by
  obtain ⟨args, rep, hargs, hmain, hq⟩ := exists_report smallLog [[49, 48], [50], [49]]
    ⟨7, [rbRecord]⟩ (fun _ rep => decide (rep.account = .whole 3 15 45 83)) (by decide +kernel)
  exact ⟨args, rep, hargs, hmain, of_decide_eq_true hq,
    account_true_iff smallLog _ args _ rep hargs (by decide) hmain⟩

/-- The message `RBFILL 00300 xx` of an earlier run -/
def oldMessage : LogRecord :=
  logged 12 0 [60, 52, 62, 82, 66, 70, 73, 76, 76, 32, 48, 48, 51, 48, 48, 32, 120, 120, 10]

/-- Two messages with the default tag meet one that an earlier run has left: all three carry the
tag, and the report takes them for its own. -/
theorem account_takes_old_message : ¬ ∀ (env : Env) (argv : List Bytes) (args : Args)
    (ring : Ring LogRecord) (rep : Report), parseArgs argv = some args →
    (∀ s, env.opens s = true) → (∀ i, env.accepts i = true) →
    ring.records.length ≤ env.ringsz.toNat → main env argv ring = .report rep →
    rep.AccountTrue ring (shown (env.after args ring args.total)) := by
  intro hall
  obtain ⟨args, rep, hargs, hmain, hq⟩ := exists_report smallLog [[50], [49], [49]] ⟨7, [oldMessage]⟩
    (fun _ rep => decide (rep.account = .whole 3 15 46 82)) (by decide +kernel)
  have htrue := hall smallLog _ args _ rep hargs (fun _ => rfl) (fun _ => rfl) (by decide) hmain
  have hbytes := (htrue 3 15 46 82 (of_decide_eq_true hq)).2
  exact absurd hbytes (by decide)

end LinuxDriverLab.RbFill
