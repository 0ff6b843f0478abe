import LinuxDriverLab.Shell.Split

/-!
# The remote command lines

`deploy_module.py` and `fix_boot_order.py` run a command as root on the other machine: each has its own
`sudo`, which puts the password and the command into one line for the shell there.
-/

namespace LinuxDriverLab.RemoteTools

open Shell

/-- `s.replace(old, new)`, for an `old` of one character. -/
def replace (old : UInt8) (new s : Bytes) : Bytes := s.flatMap fun c => if c = old then new else [c]

theorem count_cons_add (b c : UInt8) (s : Bytes) : (c :: s).count b = [c].count b + s.count b := by
  rw [← List.singleton_append, List.count_append]

/-! ## `shlex` -/

/-- A letter, a digit, or one of `_ @ % + = : , . / -` -/
def shlexSafe (c : UInt8) : Bool :=
  isDigit c || (65 ≤ c && c ≤ 90) || (97 ≤ c && c ≤ 122) || c ∈ literal "_@%+=:,./-"

/-- In single quotes, with the single quotes of `s` in double ones. -/
def singleQuoted (s : Bytes) : Bytes := 39 :: replace 39 (literal "'\"'\"'") s ++ [39]

/-- `shlex.quote`: a text that needs no quotes gets none. -/
def shlexQuote (s : Bytes) : Bytes :=
  if s = [] then literal "''" else if s.all shlexSafe then s else singleQuoted s

/-! ## `sudo` -/

/-- `cmd.replace('"', '\\"')` -/
def DeployModule.escape (cmd : Bytes) : Bytes := replace 34 (literal "\\\"") cmd

/-- `sudo` of `deploy_module.py` -/
def DeployModule.sudo (password cmd : Bytes) : Bytes :=
  literal "echo '" ++ password ++ literal "' | sudo -S bash -c \"" ++ escape cmd ++ literal "\" 2>&1"

/-- The line of `sudo` of `fix_boot_order.py` -/
def FixBootOrder.sudo (quote : Bytes → Bytes) (password cmd : Bytes) : Bytes :=
  literal "echo '" ++ password ++ literal "' | sudo -S sh -c " ++ quote cmd

/-- The password on the standard input of `sudo`, which runs the command in a shell. -/
def piped (password : Bytes) (shell : String) (cmd : Bytes) (redirects : List Redirect) : List Simple :=
  [⟨[literal "echo", password], []⟩,
    ⟨[literal "sudo", literal "-S", literal shell, literal "-c", cmd], redirects⟩]

/-- `2>&1` -/
def stderrToStdout : Redirect := ⟨some (literal "2"), literal ">&", literal "1"⟩

/-- Every backslash of a text stands for itself in double quotes: one more character follows it, and
not one that it escapes there. -/
def keepsBackslashes : Bytes → Bool
  | [] => true
  | c :: cs => (c ≠ 92 || cs.head?.any fun d => !special d) && keepsBackslashes cs

/-! ## The line up to the shell's options -/

/-- The line is read up to the password, in whatever way its quote is read. -/
theorem tokens_echo (s : Bytes) :
    tokens (literal "echo '" ++ s) =
      (spell .single s).bind fun r => (tokens r.2).map fun ts => .word (literal "echo") :: .word r.1 :: ts := by
  have hecho : literal "echo '" = literal "echo" ++ [32, 39] := by decide
  rw [hecho, List.append_assoc, List.cons_append, List.cons_append, List.nil_append,
    tokens_plainWord (by decide), tokens_single]
  cases spell .single s with
  | none => rfl
  | some r => simp only [Option.bind_some, Option.map_map]; rfl

theorem pipeline_echo {password : Bytes} (h : 39 ∉ password) {shell : String}
    (hshell : plainWord (literal shell) = true) (s : Bytes) :
    pipeline (literal "echo '" ++ password ++ literal "' | sudo -S " ++ literal shell ++ literal " -c " ++ s) =
      (tokens s).bind fun ts =>
        (commands ⟨[literal "sudo", literal "-S", literal shell, literal "-c"], []⟩ ts).map
          (⟨[literal "echo", password], []⟩ :: ·) := by
  have hsudo : literal "' | sudo -S " = 39 :: 32 :: 124 :: 32 :: (literal "sudo" ++ 32 :: (literal "-S" ++ [32])) := by
    decide
  have hoption : literal " -c " = 32 :: (literal "-c" ++ [32]) := by decide
  have hline : literal "echo '" ++ password ++ literal "' | sudo -S " ++ literal shell ++ literal " -c " ++ s =
      literal "echo '" ++ (password ++ 39 :: 32 :: 124 :: 32 :: (literal "sudo" ++ 32 :: (literal "-S" ++
        32 :: (literal shell ++ 32 :: (literal "-c" ++ 32 :: s))))) := by
    simp only [hsudo, hoption, List.append_assoc, List.cons_append, List.nil_append]
  rw [hline, pipeline, tokens_echo, spell_single h, spell_endsWord (by decide), Option.map_some,
    Option.bind_some, tokens_blank (by decide), tokens_bar, tokens_plainWord (by decide),
    tokens_plainWord (by decide), tokens_plainWord hshell, tokens_plainWord (by decide)]
  cases tokens s with
  | none => rfl
  | some ts => simp [commands, Simple.addWord, Simple.isEmpty, isRedirect]

/-! ## Single quotes -/

/-- `'"'"'` closes the quotes, puts a single quote and opens them again. -/
theorem spell_quotes (t : Bytes) :
    spell .single (literal "'\"'\"'" ++ t) = (spell .single t).map fun r => (39 :: r.1, r.2) := by
  have hquotes : literal "'\"'\"'" = [39, 34, 39, 34, 39] := by decide
  simp [hquotes, spell, wordStep, Function.comp_def]

theorem spell_replace (s cs : Bytes) :
    spell .single (replace 39 (literal "'\"'\"'") s ++ 39 :: cs) =
      (spell .bare cs).map fun r => (s ++ r.1, r.2) := by
  induction s with
  | nil => simp [replace, spell, wordStep]
  | cons c s ih =>
    rw [replace, List.flatMap_cons, ← replace, List.append_assoc]
    split
    · next hc => rw [spell_quotes, ih, Option.map_map, hc]; rfl
    · next hc =>
      have hstep : wordStep .single c = some (.single, [c]) := by simp [wordStep, hc]
      rw [List.cons_append, List.nil_append, spell_cons hstep, ih, Option.map_map]
      rfl

theorem tokens_singleQuoted (s : Bytes) : tokens (singleQuoted s) = some [.word s] := by
  rw [singleQuoted, List.cons_append, tokens_single, spell_replace]
  simp [spell, Quoting.atEnd, tokens]

theorem shlexSafe_ordinary {c : UInt8} (h : shlexSafe c = true) : ordinary c = true ∧ c ≠ 35 := by
  have hne : ∀ d, shlexSafe d = false → c ≠ d := by
    rintro d hd rfl
    exact Bool.false_ne_true (hd.symm.trans h)
  have hquote : c ≠ 39 ∧ c ≠ 34 ∧ c ≠ 92 :=
    ⟨hne 39 (by decide), hne 34 (by decide), hne 92 (by decide)⟩
  have hblank : c ≠ 32 ∧ c ≠ 9 ∧ c ≠ 10 := ⟨hne 32 (by decide), hne 9 (by decide), hne 10 (by decide)⟩
  have hoperator : c ≠ 38 ∧ c ≠ 40 ∧ c ≠ 41 ∧ c ≠ 59 ∧ c ≠ 60 ∧ c ≠ 62 ∧ c ≠ 124 :=
    ⟨hne 38 (by decide), hne 40 (by decide), hne 41 (by decide), hne 59 (by decide), hne 60 (by decide),
      hne 62 (by decide), hne 124 (by decide)⟩
  exact ⟨by simp [ordinary, endsWord, isBlank, startsOperator, hquote, hblank, hoperator], hne 35 (by decide)⟩

theorem tokens_shlexQuote (s : Bytes) : tokens (shlexQuote s) = some [.word s] := by
  rw [shlexQuote]
  split
  · next hs =>
    subst hs
    exact tokens_singleQuoted []
  · next hs =>
    split
    · next hsafe =>
      obtain ⟨c, cs, rfl⟩ := List.exists_cons_of_ne_nil hs
      have hall : (c :: cs).all ordinary = true :=
        List.all_eq_true.mpr fun d hd => (shlexSafe_ordinary (List.all_eq_true.mp hsafe d hd)).1
      have hc := shlexSafe_ordinary (List.all_eq_true.mp hsafe c List.mem_cons_self)
      have hspell : spell .bare (c :: cs) = some (c :: cs, []) := by
        simpa [spell, Quoting.atEnd] using spell_ordinary hall []
      have hword := ordinary_word hc.1
      exact tokens_last_word hword.1 hc.2 hword.2 hspell
    · exact tokens_singleQuoted s

/-! ## Double quotes -/

/-- What follows the command. -/
def behind : Bytes := literal "\" 2>&1"

theorem escape_cons (c : UInt8) (cmd : Bytes) :
    DeployModule.escape (c :: cmd) = (if c = 34 then [92, 34] else [c]) ++ DeployModule.escape cmd := by
  have hquote : literal "\\\"" = [92, 34] := by decide
  rw [DeployModule.escape, replace, List.flatMap_cons, hquote]
  rfl

theorem spell_escape {c : UInt8} {cmd : Bytes}
    (hc : (c ≠ 92 || cmd.head?.any fun d => !special d) = true) (t : Bytes) :
    spell .double (DeployModule.escape (c :: cmd) ++ t) =
      (spell .double (DeployModule.escape cmd ++ t)).map fun r => (c :: r.1, r.2) := by
  rw [escape_cons]
  by_cases hslash : c = 92
  · subst hslash
    obtain ⟨d, cs, rfl, hd⟩ : ∃ d cs, cmd = d :: cs ∧ special d = false := by
      cases cmd with
      | nil => simp at hc
      | cons d cs => exact ⟨d, cs, rfl, by simpa using hc⟩
    have hne : d ≠ 36 ∧ d ≠ 96 ∧ d ≠ 34 ∧ d ≠ 92 ∧ d ≠ 10 := by simpa [special] using hd
    rw [escape_cons]
    simp [spell, wordStep, hne, hd, Function.comp_def]
  · split
    · next hquote =>
      subst hquote
      simp [spell, wordStep, special, Function.comp_def]
    · next hquote => simp [spell, wordStep, hslash, hquote]

theorem spell_escape_keeps {cmd : Bytes} (h : keepsBackslashes cmd = true) :
    spell .double (DeployModule.escape cmd ++ behind) = some (cmd, literal " 2>&1") := by
  induction cmd with
  | nil => decide
  | cons c cmd ih =>
    simp only [keepsBackslashes, Bool.and_eq_true] at h
    rw [spell_escape h.1, ih h.2]
    rfl

theorem spell_escaped_quote (q : Quoting) :
    ∃ q' out, (∀ t, spell q (92 :: 34 :: t) = (spell q' t).map fun r => (out ++ r.1, r.2)) ∧
      out.count 39 = 0 ∧ (q ≠ .single → q' ≠ .single ∧ out.length + q'.waiting ≤ 1 + q.waiting) := by
  cases q with
  | bare => exact ⟨.bare, [34], by simp [spell, wordStep, Function.comp_def], by decide, by decide⟩
  | escaped => exact ⟨.double, [92], by simp [spell, wordStep], by decide, by decide⟩
  | single => exact ⟨.single, [92, 34], by simp [spell, wordStep, Function.comp_def], by decide, by decide⟩
  | double => exact ⟨.double, [34], by simp [spell, wordStep, special, Function.comp_def], by decide, by decide⟩
  | doubleEscaped => exact ⟨.bare, [92], by simp [spell, wordStep, special], by decide, by decide⟩

/-- One character of the command, whatever way it is read: the word ends, a single quote is lost, or what
is put into the word is no longer than the character and the backslash that waited. -/
theorem spell_escape_step {q : Quoting} {c : UInt8} {cmd t w rest : Bytes}
    (h : spell q (DeployModule.escape (c :: cmd) ++ t) = some (w, rest)) :
    w = [] ∨ ∃ q' out w', spell q' (DeployModule.escape cmd ++ t) = some (w', rest) ∧ w = out ++ w' ∧
      out.count 39 ≤ [c].count 39 ∧ (q ≠ .single → out.count 39 < [c].count 39 ∨
        q' ≠ .single ∧ out.length + q'.waiting ≤ 1 + q.waiting) := by
  rw [escape_cons] at h
  split at h
  · next hc =>
    obtain ⟨q', out, hspell, hcount, hlen⟩ := spell_escaped_quote q
    rw [List.append_assoc, List.cons_append, List.cons_append, List.nil_append, hspell] at h
    obtain ⟨w', hr, rfl⟩ := map_spell_eq_some h
    exact .inr ⟨q', out, w', hr, rfl, by omega, fun hq => .inr (hlen hq)⟩
  · next hc =>
    obtain hnil | ⟨q', out, w', hstep, hr, rfl⟩ := spell_cases h
    · exact .inl hnil
    · refine .inr ⟨q', out, w', hr, rfl, wordStep_quote hstep, fun hq => ?_⟩
      by_cases hq' : q' = .single
      · subst hq'
        obtain rfl | ⟨rfl, rfl⟩ := wordStep_single hstep
        · exact absurd rfl hq
        · exact .inl (by decide)
      · exact .inr ⟨hq', wordStep_length hstep⟩

/-- The rest of the command, once a character is lost: it does not come back. -/
theorem spell_escape_loses {q : Quoting} {cmd w rest : Bytes}
    (h : spell q (DeployModule.escape cmd ++ behind) = some (w, rest)) :
    w.count 39 ≤ cmd.count 39 ∧
      (q ≠ .single → w.count 39 < cmd.count 39 ∨ w.length ≤ cmd.length + q.waiting) := by
  induction cmd generalizing q w with
  | nil =>
    have hend : spell q behind = some (w, rest) := h
    cases q with
    | bare => exact absurd (hend.symm.trans (by decide : spell .bare behind = none)) (by simp)
    | escaped =>
      cases hend.symm.trans (by decide : spell .escaped behind = some ([34], literal " 2>&1"))
      decide
    | single => exact absurd (hend.symm.trans (by decide : spell .single behind = none)) (by simp)
    | double =>
      cases hend.symm.trans (by decide : spell .double behind = some ([], literal " 2>&1"))
      decide
    | doubleEscaped => exact absurd (hend.symm.trans (by decide : spell .doubleEscaped behind = none)) (by simp)
  | cons c cmd ih =>
    obtain rfl | ⟨q', out, w', hr, rfl, hcount, hlen⟩ := spell_escape_step h
    · simp
    · obtain ⟨hcount', hlen'⟩ := ih hr
      rw [count_cons_add, List.count_append, List.length_append, List.length_cons]
      refine ⟨by omega, fun hq => ?_⟩
      obtain hlost | ⟨hq', hlong⟩ := hlen hq
      · exact .inl (by omega)
      · obtain hlost | hlong' := hlen' hq'
        · exact .inl (by omega)
        · exact .inr (by omega)

/-- In double quotes, a backslash goes before one of the characters that it escapes. -/
theorem spell_special {d : UInt8} {cmd w rest : Bytes} (hd : special d = true)
    (h : spell .double (92 :: (DeployModule.escape (d :: cmd) ++ behind)) = some (w, rest)) :
    w ≠ 92 :: d :: cmd := by
  -- `\"` becomes `\\"`: a backslash, and the quotes are closed
  have hlost : ∃ q out, (∀ t, spell .double (92 :: (DeployModule.escape (d :: cmd) ++ t)) =
        (spell q (DeployModule.escape cmd ++ t)).map fun r => (out ++ r.1, r.2)) ∧
      q ≠ .single ∧ q.waiting = 0 ∧ out.count 39 = 0 ∧ out.length ≤ 1 := by
    by_cases hquote : d = 34
    · subst hquote
      exact ⟨.bare, [92], by simp [escape_cons, spell, wordStep, special, Function.comp_def], by decide,
        by decide, by decide, by decide⟩
    · have hne : d ≠ 39 := by
        rintro rfl
        exact absurd hd (by decide)
      refine ⟨.double, if d = 10 then [] else [d], fun t => ?_, by decide, by decide, ?_, ?_⟩
      · simp [escape_cons, hquote, spell, wordStep, hd, Function.comp_def]
      · split <;> simp [hne]
      · split <;> simp
  obtain ⟨q, out, hspell, hq, hwaiting, hcount, hlen⟩ := hlost
  rw [hspell] at h
  obtain ⟨w', hr, rfl⟩ := map_spell_eq_some h
  intro hw
  have hcounts := congrArg (List.count 39) hw
  have hlens := congrArg List.length hw
  simp only [List.count_append, List.count_cons, List.length_append, List.length_cons] at hcounts hlens
  obtain hless | hless := (spell_escape_loses hr).2 hq
  · omega
  · omega

/-- A backslash that escapes what follows it is lost, and one before the end takes the closing quote. -/
theorem spell_escape_ne {cmd w rest : Bytes} (h : keepsBackslashes cmd = false)
    (hspell : spell .double (DeployModule.escape cmd ++ behind) = some (w, rest)) : w ≠ cmd := by
  induction cmd generalizing w with
  | nil => cases h
  | cons c cmd ih =>
    by_cases hc : (c ≠ 92 || cmd.head?.any fun d => !special d) = true
    · rw [keepsBackslashes, hc, Bool.true_and] at h
      rw [spell_escape hc] at hspell
      obtain ⟨w', hr, rfl⟩ := @map_spell_eq_some _ [c] _ _ hspell
      exact fun hw => ih h hr (List.cons.inj hw).2
    · simp only [ne_eq, decide_not, Bool.or_eq_true, Bool.not_eq_true', decide_eq_false_iff_not, not_or,
        not_not, Bool.not_eq_true] at hc
      obtain ⟨rfl, hspecial⟩ := hc
      rw [escape_cons] at hspell
      cases cmd with
      | nil => exact absurd (hspell.symm.trans (by decide : spell .double (92 :: behind) = none)) (by simp)
      | cons d cs => exact spell_special (by simpa using hspecial) hspell

/-! ## A single quote in the password -/

/-- The rest of the password, once its quotes are closed: a character stays lost, or the quote behind it
opens new ones, and the blank after that is put into the word. -/
theorem spell_password {q : Quoting} {password t w rest : Bytes}
    (h : spell q (password ++ 39 :: 32 :: t) = some (w, rest)) :
    w.length ≤ password.length + q.waiting ∨ password.count 32 < w.count 32 := by
  induction password generalizing q w with
  | nil =>
    cases q <;> simp only [List.nil_append, spell, wordStep] at h <;>
      simp [endsWord, isBlank, special] at h
    case bare =>
      obtain ⟨_, -, rfl⟩ := h
      exact .inr (by simp)
    case escaped =>
      obtain ⟨rfl, -⟩ := h
      exact .inl (by decide)
    case single =>
      obtain ⟨rfl, -⟩ := h
      exact .inl (by decide)
    case double =>
      obtain ⟨_, -, rfl⟩ := h
      exact .inr (by simp)
    case doubleEscaped =>
      obtain ⟨_, -, rfl⟩ := h
      exact .inr (by simp)
  | cons c password ih =>
    obtain rfl | ⟨q', out, w', hstep, hr, rfl⟩ := spell_cases h
    · exact .inl (Nat.zero_le _)
    · have hlen := wordStep_length hstep
      have hblank := wordStep_blank hstep
      rw [count_cons_add, List.count_append, List.length_append, List.length_cons]
      obtain hshort | hmore := ih hr
      · exact .inl (by omega)
      · exact .inr (by omega)

theorem spell_password_ne {password t w rest : Bytes} (h : 39 ∈ password)
    (hspell : spell .single (password ++ 39 :: 32 :: t) = some (w, rest)) : w ≠ password := by
  obtain ⟨u, v, rfl, hu⟩ := List.eq_append_cons_of_mem h
  rw [List.append_assoc, List.cons_append, spell_single hu] at hspell
  obtain ⟨w', hr, rfl⟩ := map_spell_eq_some hspell
  intro hw
  obtain hshort | hmore := spell_password hr
  · have hlens := congrArg List.length (List.append_cancel_left hw)
    simp only [List.length_cons, Quoting.waiting] at hlens hshort
    omega
  · have hcounts := congrArg (List.count 32) (List.append_cancel_left hw)
    simp only [List.count_cons] at hcounts
    simp at hcounts
    omega

/-- The first command has the password only if that has no single quote. -/
theorem pipeline_password {password t : Bytes} {rs : List Redirect} {cs : List Simple}
    (h : pipeline (literal "echo '" ++ (password ++ 39 :: 32 :: t)) =
      some (⟨[literal "echo", password], rs⟩ :: cs)) : 39 ∉ password := by
  intro hmem
  rw [pipeline, tokens_echo] at h
  obtain ⟨ts, hts, hcommands⟩ := Option.bind_eq_some_iff.mp h
  obtain ⟨⟨w, rest⟩, hspell, hmap⟩ := Option.bind_eq_some_iff.mp hts
  obtain ⟨ts', -, rfl⟩ := Option.map_eq_some_iff.mp hmap
  rw [commands, commands] at hcommands
  have hwords : [literal "echo", w] <+: [literal "echo", password] := commands_words hcommands
  have hw : w = password := by simpa using hwords
  exact spell_password_ne hmem hspell hw

/-! ## The two lines -/

variable {password cmd : Bytes}

theorem deployModule_eq : DeployModule.sudo password cmd =
    literal "echo '" ++ password ++ literal "' | sudo -S " ++ literal "bash" ++ literal " -c " ++
      (34 :: (DeployModule.escape cmd ++ behind)) := by
  have hbash : literal "' | sudo -S bash -c \"" =
      literal "' | sudo -S " ++ literal "bash" ++ literal " -c " ++ [34] := by decide
  simp only [DeployModule.sudo, hbash, behind, List.append_assoc, List.cons_append, List.nil_append]

theorem fixBootOrder_eq (quote : Bytes → Bytes) : FixBootOrder.sudo quote password cmd =
    literal "echo '" ++ password ++ literal "' | sudo -S " ++ literal "sh" ++ literal " -c " ++ quote cmd := by
  have hsh : literal "' | sudo -S sh -c " = literal "' | sudo -S " ++ literal "sh" ++ literal " -c " := by decide
  simp only [FixBootOrder.sudo, hsh, List.append_assoc]

theorem piped_password {shell : String} {s : Bytes} {rs : List Redirect}
    (h : pipeline (literal "echo '" ++ password ++ literal "' | sudo -S " ++ literal shell ++ literal " -c " ++ s) =
      some (piped password shell cmd rs)) : 39 ∉ password := by
  have hquote : literal "' | sudo -S " = 39 :: 32 :: literal "| sudo -S " := by decide
  rw [List.append_assoc, List.append_assoc, List.append_assoc, List.append_assoc, hquote] at h
  exact pipeline_password h

theorem fixBootOrder_splits {quote : Bytes → Bytes} (hquote : tokens (quote cmd) = some [.word cmd]) :
    pipeline (FixBootOrder.sudo quote password cmd) = some (piped password "sh" cmd []) ↔ 39 ∉ password := by
  rw [fixBootOrder_eq]
  refine ⟨piped_password, fun h => ?_⟩
  rw [pipeline_echo h (by decide), hquote]
  simp [commands, Simple.addWord, Simple.isEmpty, piped]

theorem tokens_behind : tokens (literal " 2>&1") =
    some [.ioNumber (literal "2"), .op (literal ">&"), .word (literal "1")] := by
  decide +kernel

theorem deployModule_splits :
    pipeline (DeployModule.sudo password cmd) = some (piped password "bash" cmd [stderrToStdout]) ↔
      39 ∉ password ∧ keepsBackslashes cmd = true := by
  rw [deployModule_eq]
  constructor
  · intro h
    have hpassword := piped_password h
    refine ⟨hpassword, ?_⟩
    by_contra hlost
    rw [pipeline_echo hpassword (by decide), tokens_double] at h
    obtain ⟨ts, hts, hmap⟩ := Option.bind_eq_some_iff.mp h
    obtain ⟨⟨w, rest⟩, hspell, hword⟩ := Option.bind_eq_some_iff.mp hts
    obtain ⟨ts', -, rfl⟩ := Option.map_eq_some_iff.mp hword
    obtain ⟨cs, hcommands, heq⟩ := Option.map_eq_some_iff.mp hmap
    cases heq
    rw [commands] at hcommands
    have hwords : [literal "sudo", literal "-S", literal "bash", literal "-c", w] <+:
        [literal "sudo", literal "-S", literal "bash", literal "-c", cmd] := commands_words hcommands
    have hw : w = cmd := by simpa using hwords
    exact spell_escape_ne (Bool.not_eq_true _ ▸ hlost) hspell hw
  · rintro ⟨hpassword, hkeeps⟩
    rw [pipeline_echo hpassword (by decide), tokens_double, spell_escape_keeps hkeeps,
      Option.bind_some, tokens_behind]
    have hredirect : isRedirect (literal ">&") = true := by decide
    simp [commands, Simple.addWord, Simple.addRedirect, Simple.isEmpty, piped, stderrToStdout, hredirect]

/-- The shell that reads the line of `deploy_module.py` gets the password and the command as they are
passed in if and only if the password has no single quote, and every backslash of the command stands for
itself in double quotes; that of `fix_boot_order.py` does if and only if the password has no single
quote, whether or not `quote` leaves some texts as they are. -/
theorem sudo_splits_iff (password cmd : Bytes) :
    (pipeline (DeployModule.sudo password cmd) = some (piped password "bash" cmd [stderrToStdout]) ↔
        39 ∉ password ∧ keepsBackslashes cmd = true) ∧
      (pipeline (FixBootOrder.sudo shlexQuote password cmd) = some (piped password "sh" cmd []) ↔
        39 ∉ password) ∧
      (pipeline (FixBootOrder.sudo singleQuoted password cmd) = some (piped password "sh" cmd []) ↔
        39 ∉ password) :=
  ⟨deployModule_splits, fixBootOrder_splits (tokens_shlexQuote cmd), fixBootOrder_splits (tokens_singleQuoted cmd)⟩

/-- The backslash of `echo \$HOME` is lost, and a single quote in the password leaves quotes open. -/
theorem sudo_splits_otherwise :
    pipeline (DeployModule.sudo (literal "pw") (literal "echo \\$HOME")) =
        some (piped (literal "pw") "bash" (literal "echo $HOME") [stderrToStdout]) ∧
      pipeline (FixBootOrder.sudo singleQuoted (literal "p'w") (literal "id")) = none ∧
      ¬ ∀ password cmd : Bytes, 10 ∉ password → 0 ∉ password → 10 ∉ cmd → 0 ∉ cmd →
        pipeline (DeployModule.sudo password cmd) = some (piped password "bash" cmd [stderrToStdout]) ∧
          pipeline (FixBootOrder.sudo singleQuoted password cmd) = some (piped password "sh" cmd []) := by
  have hopen : pipeline (FixBootOrder.sudo singleQuoted (literal "p'w") (literal "id")) = none := by
    decide +kernel
  refine ⟨by decide +kernel, hopen, fun h => ?_⟩
  have hsplit := h (literal "p'w") (literal "id") (by decide) (by decide) (by decide) (by decide)
  exact absurd (hopen.symm.trans hsplit.2) (by simp)

end LinuxDriverLab.RemoteTools
