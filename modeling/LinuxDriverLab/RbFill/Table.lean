import LinuxDriverLab.RbFill.Account

/-!
# The table of rbfill

Behind every batch the loop prints a row of what its sample shows. The row where overwriting begins is
marked. The column for the oldest message of the run starts at a fixed place in its text, which is
the place of its number for tags as long as the default one.
-/

namespace LinuxDriverLab.RbFill

/-- `shorten` into `n` bytes, `n` being at least 4 -/
def shorten (s : Bytes) (n : Nat) : Bytes :=
  if s.length ≤ n - 1 then s else s.take (n - 4) ++ literal "..."

/-- A row of the table, without the blanks between its columns. -/
structure Row where
  written : Nat
  total : Int
  tagged : Int
  number : Bytes
  oldest : Bytes
  overwriting : Bool
deriving DecidableEq

/-- The `printf` of the loop. The column for the number skips `strlen(TAG) + 1` bytes; behind a shorter
text `oldest_tag` holds zeros. -/
def row (st : RingStat) (i : Nat) (wrapAt : Int) : Row where
  written := i
  total := st.total
  tagged := st.tagged
  number :=
    if st.tagged ≠ 0 then shorten (st.oldestTag.drop (defaultTag.length + 1)) 40 else literal "-"
  oldest := shorten st.oldest 40
  overwriting := wrapAt = i

/-- The rows that the loop prints from the message with number `i` on. -/
def rows (env : Env) (args : Args) (base : RingStat) : Nat → Nat → Progress → List Row
  | 0, _, _ => []
  | n + 1, i, p =>
    if env.accepts i then
      let p := { p with ring := env.write args i p.ring }
      if i % args.batch ≠ 0 then rows env args base n (i + 1) p
      else if env.opens (.batch i) then
        let p := observe base (sampleRing args.tag p.ring) i p
        row (sampleRing args.tag p.ring) i p.wrapAt :: rows env args base n (i + 1) p
      else []
    else []

/-- The table of a run that starts with the log `ring`. -/
def table (env : Env) (args : Args) (ring : Ring LogRecord) : List Row :=
  rows env args (sampleRing args.tag ring) args.total 1 ⟨ring, (sampleRing args.tag ring).total, -1⟩

/-! ## The mark -/

section

variable (env : Env) (args : Args) (base : RingStat)

/-- The rows that are marked, by what is written there. -/
def marks (rs : List Row) : List Int := (rs.filter Row.overwriting).map fun r => (r.written : Int)

theorem marks_cons (r : Row) (rs : List Row) :
    marks (r :: rs) = (if r.overwriting then [(r.written : Int)] else []) ++ marks rs := by
  unfold marks
  cases h : r.overwriting <;> simp [h]

/-- Once `wrap_at` is set no row is marked, and before that the one that sets it. -/
def Marked (wrapAt last : Int) (rs : List Row) : Prop :=
  if 0 ≤ wrapAt then marks rs = [] ∧ last = wrapAt else marks rs = if 0 ≤ last then [last] else []

theorem marked_nil (wrapAt : Int) : Marked wrapAt wrapAt [] := by
  unfold Marked
  split_ifs <;> simp [marks]

theorem Marked.cons {wrapAt next last : Int} {rs : List Row} {st : RingStat} {i : Nat}
    (h : Marked next last rs) (hlt : wrapAt < i) (hnext : next = wrapAt ∨ wrapAt < 0 ∧ next = i) :
    Marked wrapAt last (row st i next :: rs) := by
  unfold Marked at h ⊢
  rw [marks_cons]
  rcases hnext with rfl | ⟨hneg, rfl⟩
  · have hplain : (row st i next).overwriting = false := decide_eq_false (Int.ne_of_lt hlt)
    rw [hplain, if_neg Bool.false_ne_true, List.nil_append]
    exact h
  · have hstar : (row st i i).overwriting = true := decide_eq_true rfl
    rw [if_pos (Int.natCast_nonneg i)] at h
    rw [if_neg (by omega), hstar, if_pos rfl, h.1, h.2, if_pos (Int.natCast_nonneg i)]
    rfl

theorem rows_marked (n i : Nat) (p : Progress) (hp : p.wrapAt < i) :
    Marked p.wrapAt (fill env args base n i p).wrapAt (rows env args base n i p) := by
  induction n generalizing i p with
  | zero => exact marked_nil _
  | succ n ih =>
    unfold rows fill
    by_cases haccept : env.accepts i = true
    · rw [if_pos haccept, if_pos haccept]
      by_cases hbatch : i % args.batch ≠ 0
      · simp only [if_pos hbatch]
        exact ih (i + 1) { p with ring := env.write args i p.ring } (by simp only; omega)
      · by_cases hopen : env.opens (.batch i) = true
        · simp only [if_neg hbatch, if_pos hopen]
          refine (ih (i + 1) _ ?_).cons hp ?_
          · simp only [observe]
            split_ifs <;> omega
          · simp only [observe]
            split_ifs <;> omega
        · simp only [if_neg hbatch, if_neg hopen]
          exact marked_nil _
    · rw [if_neg haccept, if_neg haccept]
      exact marked_nil _

end

/-! ## The rows -/

/-- Behind the message with number `j` a sample is taken. -/
def Env.samples (env : Env) (args : Args) (j : Nat) : Bool :=
  decide (args.batch ∣ j) && env.opens (.batch j)

section

variable {env : Env} {args : Args} {ring : Ring LogRecord}

theorem le_writtenFrom (env : Env) (args : Args) (n i : Nat) : i ≤ env.writtenFrom args n i := by
  induction n generalizing i with
  | zero => exact Nat.le_refl i
  | succ n ih =>
    have hnext := ih (i + 1)
    unfold Env.writtenFrom
    split_ifs <;> omega

theorem rows_samples (n i : Nat) (p : Progress) (hring : p.ring = env.after args ring i) :
    (rows env args (sampleRing args.tag ring) n (i + 1) p).map Row.written =
      (List.range' (i + 1) (env.writtenFrom args n i - i)).filter (env.samples args) ∧
    ∀ r ∈ rows env args (sampleRing args.tag ring) n (i + 1) p,
      ∃ wrapAt, r = row (env.sample args ring r.written) r.written wrapAt := by
  induction n generalizing i p with
  | zero => simp [rows, Env.writtenFrom]
  | succ n ih =>
    have hwrite : env.write args (i + 1) p.ring = env.after args ring (i + 1) := by rw [hring]; rfl
    unfold rows Env.writtenFrom
    by_cases haccept : env.accepts (i + 1) = true
    · have hrange : List.range' (i + 1) (env.writtenFrom args n (i + 1) - i) =
          (i + 1) :: List.range' (i + 1 + 1) (env.writtenFrom args n (i + 1) - (i + 1)) := by
        have hle := le_writtenFrom env args n (i + 1)
        rw [← List.range'_succ]
        congr 1
        omega
      simp only [haccept, if_true, ne_eq, ite_not, ← Nat.dvd_iff_mod_eq_zero, hwrite]
      by_cases hbatch : args.batch ∣ i + 1
      · by_cases hopen : env.opens (.batch (i + 1)) = true
        · obtain ⟨hmap, hrows⟩ := ih (i + 1) (observe (sampleRing args.tag ring)
            (env.sample args ring (i + 1)) (i + 1) { p with ring := env.after args ring (i + 1) }) rfl
          have hkeep : env.samples args (i + 1) = true := by simp [Env.samples, hbatch, hopen]
          simp only [hbatch, hopen, Env.breaks, if_true, Bool.true_eq_false, and_false, if_false, hrange,
            List.filter_cons_of_pos hkeep, List.map_cons]
          refine ⟨congrArg _ hmap, ?_⟩
          intro r hr
          rcases List.mem_cons.mp hr with rfl | hr
          · exact ⟨_, rfl⟩
          · exact hrows r hr
        · have hdrop : env.samples args (i + 1) = false := by simp [Env.samples, hopen]
          simp [hbatch, hopen, Env.breaks, hdrop]
      · obtain ⟨hmap, hrows⟩ := ih (i + 1) { p with ring := env.after args ring (i + 1) } rfl
        have hdrop : env.samples args (i + 1) = false := by simp [Env.samples, hbatch]
        simp only [hbatch, Env.breaks, false_and, if_false, hrange,
          List.filter_cons_of_neg (hdrop ▸ Bool.false_ne_true)]
        exact ⟨hmap, hrows⟩
    · simp [haccept]

end

/-! ## The column of the number -/

/-- The text of the oldest record with the tag. -/
def oldestTagged (tag : Bytes) (cs : List (Nat × LogRecord)) : Bytes :=
  (cs.filter (hasTag tag)).head?.elim [] fun c => c.2.text.take 127

theorem note_oldestTag {tag : Bytes} {cs : List (Nat × LogRecord)} {st : RingStat}
    (h : Statistics tag cs st) (hold : st.oldestTag = oldestTagged tag cs) (x : LogRecord) {seq : Nat}
    (hlt : ∀ c ∈ cs, c.1 < seq) :
    (note tag x.text (seqLong seq) st).oldestTag = oldestTagged tag (cs ++ [(seq, x)]) := by
  have hhas : (strstr x.text tag).isSome = hasTag tag (seq, x) := by
    rw [Bool.eq_iff_iff, strstr_isSome_iff, hasTag, decide_eq_true_eq]
  have hnote : (note tag x.text (seqLong seq) st).oldestTag =
      if (strstr x.text tag).isSome ∧ (st.firstSeq < 0 ∨ seqLong seq < st.firstSeq) then
        printedString 128 x.text else st.oldestTag := by
    simp only [note]
    split_ifs <;> simp_all
  rw [hnote, hhas, h.firstSeq, oldestTagged, List.filter_append]
  cases htag : hasTag tag (seq, x) with
  | false => simp [htag, hold, oldestTagged]
  | true =>
    cases hfilter : cs.filter (hasTag tag) with
    | nil => simp [htag, printedString_eq x.text_plain.1]
    | cons c rest =>
      have hc := hlt c (List.mem_of_mem_filter (hfilter ▸ List.mem_cons_self))
      have hlater : ¬ (seqLong c.1 < 0 ∨ seqLong seq < seqLong c.1) := by
        unfold seqLong
        omega
      simp [hlater, hold, oldestTagged, hfilter]

theorem sampleLoop_oldestTag {tag : Bytes} {cs : List (Nat × LogRecord)} {st : RingStat} {seq : Nat}
    {xs : List LogRecord} (h : Statistics tag cs st) (hold : st.oldestTag = oldestTagged tag cs)
    (hlt : ∀ c ∈ cs, c.1 < seq) (hlen : cs.length + xs.length < 2 ^ 63) :
    (sampleLoop tag seq xs st).oldestTag = oldestTagged tag (cs ++ shownFrom seq xs) := by
  induction xs generalizing cs seq st with
  | nil => simpa [shownFrom, sampleLoop] using hold
  | cons x rest ih =>
    rw [List.length_cons] at hlen
    rw [shownFrom, sampleLoop]
    split
    · rw [countRecord_render, List.append_cons]
      apply ih
      · exact h.note x (by omega) hlt
      · exact note_oldestTag h hold x hlt
      · simp only [List.forall_mem_append, List.forall_mem_singleton]
        exact ⟨fun c hc => Nat.lt_succ_of_lt (hlt c hc), Nat.lt_succ_self _⟩
      · rw [List.length_append, List.length_singleton]
        omega
    · simpa using hold

theorem sampleRing_oldestTag (tag : Bytes) {ring : Ring LogRecord} (h : ring.records.length < 2 ^ 63) :
    (sampleRing tag ring).oldestTag = oldestTagged tag (shown ring) := by
  apply sampleLoop_oldestTag (statistics_start tag) rfl
  · simp
  · simpa using h

theorem shorten_getElem? {s : Bytes} {n m : Nat} (h : m < n - 4) : (shorten s n)[m]? = s[m]? := by
  unfold shorten
  split
  · rfl
  · next hlen =>
    rw [List.getElem?_append_left (by rw [List.length_take]; omega), List.getElem?_take_of_lt h]

theorem shorten_take {s : Bytes} {k n : Nat} (hn : 0 < n) (h : n ≤ k) :
    shorten (s.take k) n = shorten s n := by
  unfold shorten
  rw [List.length_take, List.take_take]
  by_cases hlen : s.length ≤ n - 1
  · rw [if_pos (by omega), if_pos hlen, List.take_of_length_le (by omega)]
  · rw [if_neg (by omega), if_neg hlen, Nat.min_eq_left (by omega)]

/-- What a message has behind its tag. -/
def numbered (args : Args) (j : Nat) : Bytes := formatZero 5 j ++ 32 :: List.replicate args.pay 120

section

variable (args : Args) (j : Nat)

theorem numbered_digit {m : Nat} (h : m < (formatZero 5 j).length) :
    ∃ d : UInt8, (numbered args j)[m]? = some d ∧ 48 ≤ d.toNat ∧ d.toNat ≤ 57 := by
  refine ⟨(formatZero 5 j)[m], ?_, formatZero_digits (List.getElem_mem h)⟩
  rw [numbered, List.getElem?_append_left h, List.getElem?_eq_getElem h]

theorem numbered_blank : (numbered args j)[(formatZero 5 j).length]? = some 32 := by
  rw [numbered, List.getElem?_append_right (Nat.le_refl _), Nat.sub_self]
  rfl

theorem numbered_pad {m : Nat} (h : (formatZero 5 j).length < m) : (numbered args j)[m]? ≠ some 32 := by
  obtain ⟨k, rfl⟩ := Nat.exists_eq_add_of_lt h
  rw [numbered, List.getElem?_append_right (by omega)]
  have hsub : (formatZero 5 j).length + k + 1 - (formatZero 5 j).length = k + 1 := by omega
  rw [hsub, List.getElem?_cons_succ, List.getElem?_replicate]
  split <;> decide

theorem numbered_first_pad : (numbered args j)[(formatZero 5 j).length + 1]? = some 120 := by
  rw [numbered, List.getElem?_append_right (by omega), Nat.add_sub_cancel_left, List.getElem?_cons_succ,
    List.getElem?_replicate_of_lt args.pay_pos]

theorem tagged_getElem? (m : Nat) :
    (args.tag ++ 32 :: numbered args j)[args.tag.length + 1 + m]? = (numbered args j)[m]? := by
  rw [List.getElem?_append_right (by omega)]
  have hsub : args.tag.length + 1 + m - args.tag.length = m + 1 := by omega
  rw [hsub, List.getElem?_cons_succ]

theorem tagged_blank : (args.tag ++ 32 :: numbered args j)[args.tag.length]? = some 32 := by
  rw [List.getElem?_append_right (Nat.le_refl _), Nat.sub_self]
  rfl

variable {j}

theorem formatZero_five_length (hj : j < 2 ^ 63) :
    5 ≤ (formatZero 5 j).length ∧ (formatZero 5 j).length ≤ 19 := by
  have hdigits := decimal_length_of_lt hj
  rw [formatZero_length]
  omega

/-- The column shows the number of a message exactly if its tag is as long as the default one. -/
theorem column_iff (hj : j < 2 ^ 63) :
    shorten (((args.tag ++ 32 :: numbered args j).take 127).drop 7) 40 = shorten (numbered args j) 40 ↔
      args.tag.length = 6 := by
  have hcut : ((args.tag ++ 32 :: numbered args j).take 127).drop 7 =
      ((args.tag ++ 32 :: numbered args j).drop 7).take 120 := List.drop_take
  rw [hcut, shorten_take (by decide) (by decide)]
  constructor
  · intro heq
    obtain ⟨hlo, hhi⟩ := formatZero_five_length hj
    have htag := args.tag_length
    have hpos := List.length_pos_iff.mpr args.tag_ne
    have hat : ∀ m < 36, (args.tag ++ 32 :: numbered args j)[7 + m]? = (numbered args j)[m]? := by
      intro m hm
      have hget := congrArg (fun l : Bytes => l[m]?) heq
      simpa only [shorten_getElem? (show m < 40 - 4 from hm), List.getElem?_drop] using hget
    by_contra hne
    rcases Nat.lt_or_gt_of_ne hne with hshort | hlong
    · -- the blank behind the number comes too early
      obtain ⟨d, hd, hlow, -⟩ :=
        numbered_digit args j (m := args.tag.length + (formatZero 5 j).length - 6) (by omega)
      have hblank := tagged_getElem? args j (formatZero 5 j).length
      have hplace : args.tag.length + 1 + (formatZero 5 j).length =
          7 + (args.tag.length + (formatZero 5 j).length - 6) := by omega
      rw [hplace, hat _ (by omega), numbered_blank, hd] at hblank
      obtain rfl := Option.some.inj hblank
      exact absurd hlow (by decide)
    · -- the blank behind the tag is in the column
      have hblank := tagged_blank args j
      have hplace : args.tag.length = 7 + (args.tag.length - 7) := by omega
      rw [hplace, hat _ (by omega)] at hblank
      rcases Nat.lt_trichotomy (args.tag.length - 7) (formatZero 5 j).length with hlt | hmid | hgt
      · obtain ⟨d, hd, hlow, -⟩ := numbered_digit args j hlt
        rw [hd] at hblank
        obtain rfl := Option.some.inj hblank
        exact absurd hlow (by decide)
      · obtain ⟨d, hd, -, hhigh⟩ := numbered_digit args j (m := 0) (by omega)
        have hnext := hat ((formatZero 5 j).length + 1) (by omega)
        have hplace' : 7 + ((formatZero 5 j).length + 1) = args.tag.length + 1 + 0 := by omega
        rw [hplace', tagged_getElem?, hd, numbered_first_pad] at hnext
        obtain rfl := Option.some.inj hnext
        exact absurd hhigh (by decide)
      · exact numbered_pad args j hgt hblank
  · intro hlen
    have hdrop : (args.tag ++ 32 :: numbered args j).drop 7 = numbered args j := by
      rw [List.append_cons, List.drop_left' (by rw [List.length_append, hlen]; rfl)]
    rw [hdrop]

end

/-! ## The table of a run -/

/-- What a row tells of the log that its sample has read. -/
structure Row.Shows (r : Row) (tag : Bytes) (ring : Ring LogRecord) : Prop where
  total : r.total = readable ring
  tagged : r.tagged = ((shown ring).filter (hasTag tag)).length
  oldest : r.oldest = shorten ((shown ring).head?.elim [] fun c => c.2.text) 40
  number : r.number = ((shown ring).filter (hasTag tag)).head?.elim (literal "-") fun c =>
    shorten ((c.2.text.take 127).drop 7) 40

theorem row_shows (tag : Bytes) {ring : Ring LogRecord} (h : ring.records.length < 2 ^ 63) (i : Nat)
    (wrapAt : Int) : (row (sampleRing tag ring) i wrapAt).Shows tag ring := by
  have hstat := sampleRing_counts tag h
  have htagged := hstat.tagged
  refine ⟨hstat.total, htagged, ?_, ?_⟩
  · simp only [row, hstat.oldest]
    cases (shown ring).head? with
    | none => rfl
    | some c => exact shorten_take (by decide) (by decide)
  · simp only [row, htagged, sampleRing_oldestTag tag h, oldestTagged]
    cases (shown ring).filter (hasTag tag) with
    | nil => rfl
    | cons c rest => exact if_pos (Int.natCast_ne_zero.mpr (Nat.succ_ne_zero rest.length))

/-- Whatever the log evicts and whichever system calls fail: the table has a row for every batch whose
sample is taken, which shows the log as it is then; the row that is marked is that of the report, and
there is no other. Where the oldest record with the tag is a message of the run, and the tag needs no
escaping, its number is in the table exactly if the tag is as long as the default one. -/
theorem table_of_run (env : Env) (argv : List Bytes) (args : Args) (ring : Ring LogRecord) (rep : Report)
    (hargs : parseArgs argv = some args) (hring : ring.records.length ≤ env.ringsz.toNat)
    (hmain : main env argv ring = .report rep) :
    (table env args ring).map Row.written =
      (List.range' 1 (env.written args)).filter (env.samples args) ∧
    marks (table env args ring) = rep.overwriteFrom.toList ∧
    ∀ r ∈ table env args ring, r.Shows args.tag (env.after args ring r.written) ∧
      ∀ c, ((shown (env.after args ring r.written)).filter (hasTag args.tag)).head? = some c →
        ring.stop ≤ c.1 → args.tag.all isShown = true →
          (r.number = shorten (numbered args (c.1 - ring.stop + 1)) 40 ↔ args.tag.length = 6) := by
  obtain ⟨hmap, hrows⟩ := rows_samples args.total 0 ⟨ring, (sampleRing args.tag ring).total, -1⟩
    (show ring = env.after args ring 0 from rfl)
  refine ⟨hmap, ?_, ?_⟩
  · let start : Progress := ⟨ring, (sampleRing args.tag ring).total, -1⟩
    let last := (fill env args (sampleRing args.tag ring) args.total 1 start).wrapAt
    have hmarked : marks (table env args ring) = if 0 ≤ last then [last] else [] :=
      (if_neg (show ¬ (0 : Int) ≤ -1 by decide)).mp
        (rows_marked env args _ args.total 1 start (show (-1 : Int) < (1 : Nat) by decide))
    have hunset : last < 0 ∨ 0 < last := (fill_watched args.total (watched_start env args ring)).unset
    have hfrom : rep.overwriteFrom = if last > 0 then some last else none := by
      rw [main, hargs] at hmain
      simp only at hmain
      split_ifs at hmain
      exact (Outcome.report.inj hmain) ▸ rfl
    rw [hmarked, hfrom]
    rcases hunset with hneg | hpos
    · rw [if_neg (by omega), if_neg (by omega)]
      rfl
    · rw [if_pos (by omega), if_pos hpos]
      rfl
  · intro r hr
    obtain ⟨wrapAt, hrow⟩ := hrows r hr
    have hshows : r.Shows args.tag (env.after args ring r.written) := by
      rw [hrow]
      exact row_shows args.tag (after_length_lt env args ring hring r.written) r.written wrapAt
    refine ⟨hshows, fun c hc hown hplain => ?_⟩
    have hmem := List.mem_of_mem_filter (List.mem_of_mem_head? hc)
    obtain ⟨hlt, hrecord⟩ := shown_own env args ring hmem hown
    have hlast : r.written ≤ args.total := by
      have hin := (List.mem_filter.mp (hmap ▸ List.mem_map_of_mem hr)).1
      have hle := written_le env args
      rw [List.mem_range'_1] at hin
      unfold Env.written at hle
      omega
    have hnumber : c.1 - ring.stop + 1 < 2 ^ 63 := by
      have htotal := args.total_lt
      omega
    rw [hshows.number, hc, Option.elim_some, hrecord, env.record_text, stored_message args hnumber,
      escape_of_shown hplain]
    exact column_iff args hnumber

/-- Four messages in batches of two; the second row is the one where overwriting begins. -/
theorem table_of_run_small : ∃ args rep,
    parseArgs [[52], [50], [49]] = some args ∧
      main smallLog [[52], [50], [49]] ⟨7, [rbRecord]⟩ = .report rep ∧
      rep.overwriteFrom = some 4 ∧ marks (table smallLog args ⟨7, [rbRecord]⟩) = [4] := by
  obtain ⟨args, rep, hargs, hmain, hq⟩ := exists_report smallLog [[52], [50], [49]] ⟨7, [rbRecord]⟩
    (fun _ rep => decide (rep.overwriteFrom = some 4)) (by decide +kernel)
  have hfrom := of_decide_eq_true hq
  obtain ⟨-, hmarks, -⟩ := table_of_run smallLog _ args _ rep hargs (by decide) hmain
  exact ⟨args, rep, hargs, hmain, hfrom, hmarks.trans (congrArg Option.toList hfrom)⟩

end LinuxDriverLab.RbFill
