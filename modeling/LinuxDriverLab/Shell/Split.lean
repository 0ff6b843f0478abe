import LinuxDriverLab.Kernel.Decimal

/-!
# How a shell splits a command

Token recognition of the POSIX shell, with its three ways of quoting, and pipelines of simple commands
with redirections. There are no expansions: `$` and the backquote stand for themselves.
-/

namespace LinuxDriverLab.Shell

/-- How the next character of a word is read: as it is outside quotes, behind a backslash, in single
quotes, in double quotes, or behind a backslash in double quotes. -/
inductive Quoting
  | bare
  | escaped
  | single
  | double
  | doubleEscaped
deriving DecidableEq

def isBlank (c : UInt8) : Bool := c = 32 || c = 9

/-- A newline and the characters `& ( ) ; < > |` -/
def startsOperator (c : UInt8) : Bool := c ∈ [10, 38, 40, 41, 59, 60, 62, 124]

def endsWord (c : UInt8) : Bool := isBlank c || startsOperator c

/-- `$`, the backquote, `"`, the backslash and the newline: in double quotes, a backslash before one of
these does not stand for itself. -/
def special (c : UInt8) : Bool := c ∈ [36, 96, 34, 92, 10]

/-- One character of a word: how the next is read, and what this one adds to the word; `none` where
it ends the word. -/
def wordStep : Quoting → UInt8 → Option (Quoting × Bytes)
  | .bare, c =>
    if c = 39 then some (.single, [])
    else if c = 34 then some (.double, [])
    else if c = 92 then some (.escaped, [])
    else if endsWord c then none
    else some (.bare, [c])
  | .escaped, c => some (.bare, if c = 10 then [] else [c])
  | .single, c => if c = 39 then some (.bare, []) else some (.single, [c])
  | .double, c =>
    if c = 34 then some (.bare, [])
    else if c = 92 then some (.doubleEscaped, [])
    else some (.double, [c])
  | .doubleEscaped, c =>
    some (.double, if c = 10 then [] else if special c then [c] else [92, c])

/-- The end of the input: a last backslash stands for itself, and quotes have to be closed. -/
def Quoting.atEnd : Quoting → Option Bytes
  | .bare => some []
  | .escaped => some [92]
  | .single => none
  | .double => none
  | .doubleEscaped => none

/-- The rest of a word, and the text behind it. -/
def spell : Quoting → Bytes → Option (Bytes × Bytes)
  | q, [] => q.atEnd.map fun w => (w, [])
  | q, c :: cs =>
    match wordStep q c with
    | none => some ([], c :: cs)
    | some (q', out) => (spell q' cs).map fun r => (out ++ r.1, r.2)

inductive Token
  | word (w : Bytes)
  | ioNumber (n : Bytes)
  | op (o : Bytes)
deriving DecidableEq

/-- What can follow the first character of an operator, the longest first. -/
def operatorTails (c : UInt8) : List Bytes :=
  if c = 60 then [[60, 45], [60], [38], [62]]
  else if c = 62 then [[62], [38], [124]]
  else if c = 38 then [[38]]
  else if c = 124 then [[124]]
  else if c = 59 then [[59]]
  else []

def operatorTail (c : UInt8) (cs : Bytes) : Bytes :=
  ((operatorTails c).find? fun t => t.isPrefixOf cs).getD []

/-- A word of digits right before `<` or `>` is the number of a file descriptor. -/
def wordToken (cs w rest : Bytes) : Token :=
  if (cs.take (cs.length - rest.length)).all isDigit && (rest.head? = some 60 || rest.head? = some 62) then
    .ioNumber w
  else .word w

theorem spell_length {q : Quoting} {cs w rest : Bytes} (h : spell q cs = some (w, rest)) :
    rest.length ≤ cs.length := by
  induction cs generalizing q w with
  | nil =>
    simp only [spell, Option.map_eq_some_iff, Prod.mk.injEq] at h
    obtain ⟨_, -, -, rfl⟩ := h
    exact Nat.le_refl _
  | cons c cs ih =>
    simp only [spell] at h
    split at h
    · cases h
      exact Nat.le_refl _
    · obtain ⟨r, hr, heq⟩ := Option.map_eq_some_iff.mp h
      cases heq
      exact (ih hr).trans (Nat.le_succ _)

theorem spell_bare_length {c : UInt8} {cs w rest : Bytes} (hc : endsWord c = false)
    (h : spell .bare (c :: cs) = some (w, rest)) : rest.length < (c :: cs).length := by
  simp only [spell] at h
  split at h
  · next hstep =>
    simp only [wordStep, hc, Bool.false_eq_true, if_false] at hstep
    split_ifs at hstep
  · obtain ⟨r, hr, heq⟩ := Option.map_eq_some_iff.mp h
    cases heq
    exact Nat.lt_succ_of_le (spell_length hr)

/-! ## Words -/

/-- A character that stands for itself outside quotes. -/
def ordinary (c : UInt8) : Bool := c ∉ [39, 34, 92] && !endsWord c

theorem ordinary_word {c : UInt8} (hc : ordinary c = true) : endsWord c = false ∧ c ≠ 92 := by
  simp only [ordinary, List.mem_cons, List.not_mem_nil, or_false, not_or, Bool.and_eq_true,
    decide_eq_true_eq, Bool.not_eq_true'] at hc
  exact ⟨hc.2, hc.1.2.2⟩

/-- How many characters wait to be put into the word: a backslash, until the next one is read. -/
def Quoting.waiting : Quoting → ℕ
  | .escaped => 1
  | .doubleEscaped => 1
  | _ => 0

section

variable {q q' : Quoting} {c : UInt8} {out : Bytes}

theorem wordStep_length (h : wordStep q c = some (q', out)) : out.length + q'.waiting ≤ 1 + q.waiting := by
  cases q <;> simp only [wordStep] at h <;> split_ifs at h <;> cases h <;> simp [Quoting.waiting]

theorem wordStep_blank (h : wordStep q c = some (q', out)) : out.count 32 = [c].count 32 := by
  cases q <;> simp only [wordStep] at h <;> split_ifs at h <;> cases h <;> simp_all [List.count_cons]

theorem wordStep_quote (h : wordStep q c = some (q', out)) : out.count 39 ≤ [c].count 39 := by
  cases q <;> simp only [wordStep] at h <;> split_ifs at h <;> cases h <;> simp [List.count_cons]

theorem wordStep_single (h : wordStep q c = some (.single, out)) : q = .single ∨ c = 39 ∧ out = [] := by
  cases q <;> simp only [wordStep] at h <;> split_ifs at h <;> cases h <;> simp_all

end

theorem spell_cons {q q' : Quoting} {c : UInt8} {out : Bytes} (h : wordStep q c = some (q', out))
    (cs : Bytes) : spell q (c :: cs) = (spell q' cs).map fun r => (out ++ r.1, r.2) := by
  simp only [spell, h]

theorem map_spell_eq_some {o : Option (Bytes × Bytes)} {out w rest : Bytes}
    (h : (o.map fun r => (out ++ r.1, r.2)) = some (w, rest)) : ∃ w', o = some (w', rest) ∧ w = out ++ w' := by
  obtain ⟨⟨w', r⟩, hr, heq⟩ := Option.map_eq_some_iff.mp h
  cases heq
  exact ⟨w', hr, rfl⟩

/-- Where a word goes on, and where it ends. -/
theorem spell_cases {q : Quoting} {c : UInt8} {cs w rest : Bytes} (h : spell q (c :: cs) = some (w, rest)) :
    w = [] ∨ ∃ q' out w', wordStep q c = some (q', out) ∧ spell q' cs = some (w', rest) ∧ w = out ++ w' := by
  simp only [spell] at h
  split at h
  · cases h
    exact .inl rfl
  · next q' out hstep =>
    obtain ⟨w', hr, rfl⟩ := map_spell_eq_some h
    exact .inr ⟨q', out, w', hstep, hr, rfl⟩

theorem spell_single {w : Bytes} (hw : 39 ∉ w) (cs : Bytes) :
    spell .single (w ++ 39 :: cs) = (spell .bare cs).map fun r => (w ++ r.1, r.2) := by
  induction w with
  | nil => simp [spell, wordStep]
  | cons c w ih =>
    have hc : c ≠ 39 := fun h => hw (h ▸ List.mem_cons_self)
    have hstep : wordStep .single c = some (.single, [c]) := by simp [wordStep, hc]
    rw [List.cons_append, spell_cons hstep, ih fun h => hw (List.mem_cons_of_mem _ h), Option.map_map]
    rfl

theorem spell_ordinary {w : Bytes} (hw : w.all ordinary) (cs : Bytes) :
    spell .bare (w ++ cs) = (spell .bare cs).map fun r => (w ++ r.1, r.2) := by
  induction w with
  | nil => simp
  | cons c w ih =>
    simp only [List.all_cons, Bool.and_eq_true] at hw
    have hstep : wordStep .bare c = some (.bare, [c]) := by
      have hc := hw.1
      simp only [ordinary, List.mem_cons, List.not_mem_nil, or_false, not_or, Bool.and_eq_true,
        decide_eq_true_eq, Bool.not_eq_true'] at hc
      simp [wordStep, hc]
    rw [List.cons_append, spell_cons hstep, ih hw.2, Option.map_map]
    rfl

theorem spell_endsWord {c : UInt8} (hc : endsWord c = true) (cs : Bytes) :
    spell .bare (c :: cs) = some ([], c :: cs) := by
  have hquote : c ≠ 39 ∧ c ≠ 34 ∧ c ≠ 92 := by
    refine ⟨?_, ?_, ?_⟩ <;> (rintro rfl; exact absurd hc (by decide))
  have hstep : wordStep .bare c = none := by simp [wordStep, hquote, hc]
  simp only [spell, hstep]

/-! ## Tokens -/

/-- The tokens of a text. -/
def tokens : Bytes → Option (List Token)
  | [] => some []
  | c :: cs =>
    if isBlank c then tokens cs
    else if startsOperator c then
      (tokens (cs.drop (operatorTail c cs).length)).map (.op (c :: operatorTail c cs) :: ·)
    -- a comment
    else if c = 35 then tokens (cs.dropWhile (· ≠ 10))
    -- a line that goes on
    else if c = 92 ∧ cs.head? = some 10 then tokens cs.tail
    else
      match _hw : spell .bare (c :: cs) with
      | none => none
      | some (w, rest) => (tokens rest).map (wordToken (c :: cs) w rest :: ·)
termination_by cs => cs.length
decreasing_by
  · exact Nat.lt_succ_self _
  · simp only [List.length_drop, List.length_cons]
    omega
  · exact Nat.lt_succ_of_le (List.dropWhile_sublist _).length_le
  · simp only [List.length_tail, List.length_cons]
    omega
  · next hblank hop _ _ => exact spell_bare_length (by simp [endsWord, hblank, hop]) _hw

theorem tokens_blank {c : UInt8} (hc : isBlank c = true) (cs : Bytes) : tokens (c :: cs) = tokens cs := by
  rw [tokens, if_pos hc]

theorem tokens_bar (cs : Bytes) : tokens (124 :: 32 :: cs) = (tokens cs).map (.op [124] :: ·) := by
  have htail : operatorTail 124 (32 :: cs) = [] := by simp [operatorTail, operatorTails]
  rw [tokens, if_neg (by decide), if_pos (by decide), htail]
  exact congrArg _ (tokens_blank (by decide) cs)

theorem wordToken_end (cs w : Bytes) : wordToken cs w [] = .word w := by simp [wordToken]

theorem wordToken_not_digit {c : UInt8} (hc : isDigit c = false) {cs w rest : Bytes}
    (hlt : rest.length < (c :: cs).length) : wordToken (c :: cs) w rest = .word w := by
  obtain ⟨n, hn⟩ : ∃ n, (c :: cs).length - rest.length = n + 1 := ⟨_, (Nat.sub_one_add_one (by omega)).symm⟩
  simp only [wordToken, hn, List.take_succ_cons, List.all_cons, hc, Bool.false_and, Bool.false_eq_true, if_false]

theorem tokens_word {c : UInt8} (hend : endsWord c = false) (hhash : c ≠ 35) (hslash : c ≠ 92) (cs : Bytes) :
    tokens (c :: cs) =
      (spell .bare (c :: cs)).bind fun r => (tokens r.2).map (wordToken (c :: cs) r.1 r.2 :: ·) := by
  have hblank : isBlank c = false ∧ startsOperator c = false := by
    simpa only [endsWord, Bool.or_eq_false_iff] using hend
  rw [tokens, if_neg (by simp [hblank]), if_neg (by simp [hblank]), if_neg hhash, if_neg (by simp [hslash])]
  split
  · next hw => rw [hw]; rfl
  · next hw => rw [hw]; rfl

theorem tokens_last_word {c : UInt8} (hend : endsWord c = false) (hhash : c ≠ 35) (hslash : c ≠ 92)
    {cs w : Bytes} (h : spell .bare (c :: cs) = some (w, [])) : tokens (c :: cs) = some [.word w] := by
  rw [tokens_word hend hhash hslash, h, Option.bind_some, wordToken_end, tokens]
  rfl

theorem tokens_word_not_digit {c : UInt8} (hend : endsWord c = false) (hhash : c ≠ 35) (hslash : c ≠ 92)
    (hdigit : isDigit c = false) (cs : Bytes) :
    tokens (c :: cs) = (spell .bare (c :: cs)).bind fun r => (tokens r.2).map (.word r.1 :: ·) := by
  rw [tokens_word hend hhash hslash]
  refine Option.bind_congr fun r hr => ?_
  rw [wordToken_not_digit hdigit (spell_bare_length hend hr)]

theorem tokens_single (t : Bytes) :
    tokens (39 :: t) = (spell .single t).bind fun r => (tokens r.2).map (.word r.1 :: ·) := by
  have hopen : spell .bare (39 :: t) = spell .single t := by simp [spell, wordStep]
  rw [tokens_word_not_digit (by decide) (by decide) (by decide) (by decide), hopen]

theorem tokens_double (t : Bytes) :
    tokens (34 :: t) = (spell .double t).bind fun r => (tokens r.2).map (.word r.1 :: ·) := by
  have hopen : spell .bare (34 :: t) = spell .double t := by simp [spell, wordStep]
  rw [tokens_word_not_digit (by decide) (by decide) (by decide) (by decide), hopen]

/-- A word that needs no quotes, and begins neither a comment nor a redirection. -/
def plainWord (w : Bytes) : Bool := w.all ordinary && w.head?.any fun c => c ≠ 35 && !isDigit c

theorem tokens_plainWord {w : Bytes} (hw : plainWord w = true) (cs : Bytes) :
    tokens (w ++ 32 :: cs) = (tokens cs).map (.word w :: ·) := by
  obtain ⟨hall, hhead⟩ : w.all ordinary = true ∧ _ := by simpa only [plainWord, Bool.and_eq_true] using hw
  cases w with
  | nil => cases hhead
  | cons c w =>
    have hc : ordinary c = true := List.all_eq_true.mp hall c List.mem_cons_self
    obtain ⟨hend, hslash⟩ := ordinary_word hc
    simp only [List.head?_cons, Option.any_some, Bool.and_eq_true, decide_eq_true_eq, Bool.not_eq_true'] at hhead
    rw [List.cons_append, tokens_word_not_digit hend hhead.1 hslash hhead.2, ← List.cons_append, spell_ordinary hall,
      spell_endsWord (by decide)]
    simp [@tokens_blank 32 (by decide)]

/-! ## Pipelines -/

structure Redirect where
  number : Option Bytes
  op : Bytes
  target : Bytes
deriving DecidableEq

/-- A simple command. -/
structure Simple where
  words : List Bytes
  redirects : List Redirect
deriving DecidableEq

def Simple.addWord (s : Simple) (w : Bytes) : Simple := { s with words := s.words ++ [w] }

def Simple.addRedirect (s : Simple) (r : Redirect) : Simple := { s with redirects := s.redirects ++ [r] }

def Simple.isEmpty (s : Simple) : Bool := s.words = [] && s.redirects = []

/-- `< > >> <& >& <> >|` -/
def isRedirect (o : Bytes) : Bool := o ∈ [[60], [62], [62, 62], [60, 38], [62, 38], [60, 62], [62, 124]]

/-- The commands of a pipeline, `s` being what is read of the first one. Other operators than redirections
and `|` make something else than a pipeline. -/
def commands (s : Simple) : List Token → Option (List Simple)
  | [] => if s.isEmpty then none else some [s]
  | .word w :: ts => commands (s.addWord w) ts
  | .ioNumber n :: .op o :: .word w :: ts =>
    if isRedirect o then commands (s.addRedirect ⟨some n, o, w⟩) ts else none
  | .ioNumber _ :: _ => none
  | .op o :: .word w :: ts =>
    if isRedirect o then commands (s.addRedirect ⟨none, o, w⟩) ts
    else if o = [124] ∧ s.isEmpty = false then
      (commands ⟨[w], []⟩ ts).map (s :: ·)
    else none
  | .op o :: ts =>
    if o = [124] ∧ s.isEmpty = false then (commands ⟨[], []⟩ ts).map (s :: ·) else none

/-- The pipeline that a text is. -/
def pipeline (text : Bytes) : Option (List Simple) := (tokens text).bind (commands ⟨[], []⟩)

/-- What has been read of the first command is kept. -/
theorem commands_words {s c : Simple} {ts : List Token} {cs : List Simple} (h : commands s ts = some (c :: cs)) :
    s.words <+: c.words := by
  fun_induction commands s ts with
  | case1 s hs => cases h
  | case2 s hs => cases h; exact List.prefix_rfl
  | case3 s w ts ih => exact (List.prefix_append _ _).trans (ih h)
  | case4 s n o w ts ho ih => exact ih h
  | case5 s n o w ts ho => cases h
  | case6 => cases h
  | case7 s o w ts ho ih => exact ih h
  | case8 s o w ts ho hbar ih =>
    obtain ⟨_, -, heq⟩ := Option.map_eq_some_iff.mp h
    cases heq
    exact List.prefix_rfl
  | case9 => cases h
  | case10 s o ts hword hbar ih =>
    obtain ⟨_, -, heq⟩ := Option.map_eq_some_iff.mp h
    cases heq
    exact List.prefix_rfl
  | case11 => cases h

end LinuxDriverLab.Shell
