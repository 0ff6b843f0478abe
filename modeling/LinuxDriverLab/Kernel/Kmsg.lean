import LinuxDriverLab.Framework.Run
import LinuxDriverLab.Kernel.CString

/-!
# The kernel log

`/dev/kmsg` as a ring of consecutively numbered records. The kernel appends at one end and evicts
at the other; a reader keeps the number of the record it reads next.
-/

namespace LinuxDriverLab

/-- The records of the log, the oldest first; the number of the oldest is `first`. -/
structure Ring (ρ : Type) where
  first : Nat
  records : List ρ
deriving DecidableEq

/-- What the kernel does to the log. -/
inductive LogEvent (ρ : Type)
  | append (x : ρ)
  | evict
deriving DecidableEq

/-- What a reader gets from one `read`: a record, or the errors `EPIPE` and `EAGAIN`. -/
inductive Got (ρ : Type)
  | record (seq : Nat) (x : ρ)
  | epipe
  | eagain
deriving DecidableEq

/-- What the event adds to the log. -/
def LogEvent.appended {ρ : Type} : LogEvent ρ → List ρ
  | .append x => [x]
  | .evict => []

def Got.isRecord {ρ : Type} : Got ρ → Bool
  | .record _ _ => true
  | _ => false

namespace Ring

variable {ρ : Type}

/-- The number that the next record will have. -/
def stop (r : Ring ρ) : Nat := r.first + r.records.length

def has (r : Ring ρ) (seq : Nat) : Prop := r.first ≤ seq ∧ seq < r.stop

instance (r : Ring ρ) (seq : Nat) : Decidable (r.has seq) := inferInstanceAs (Decidable (_ ∧ _))

def kernel (r : Ring ρ) : LogEvent ρ → Option (Ring ρ)
  | .append x => some { r with records := r.records ++ [x] }
  | .evict =>
    match r.records with
    | [] => none
    | _ :: rest => some ⟨r.first + 1, rest⟩

/-- A `read` by a reader whose next record is `next`, and where it leaves the reader: past an
evicted record it is moved to the oldest one that is left. -/
def read (r : Ring ρ) (next : Nat) : Got ρ × Nat :=
  if next < r.first then (.epipe, r.first)
  else
    match r.records[next - r.first]? with
    | some x => (.record next x, next + 1)
    | none => (.eagain, next)

theorem kernel_first_le {r r' : Ring ρ} {e : LogEvent ρ} (h : r.kernel e = some r') :
    r.first ≤ r'.first := by
  cases e with
  | append x =>
    obtain rfl := Option.some.inj h
    exact Nat.le_refl _
  | evict =>
    unfold kernel at h
    cases hrecords : r.records with
    | nil => simp [hrecords] at h
    | cons x rest =>
      simp only [hrecords, Option.some.injEq] at h
      subst h
      exact Nat.le_succ _

theorem read_cases (r : Ring ρ) (next : Nat) :
    (next < r.first ∧ r.read next = (.epipe, r.first)) ∨
    (∃ x, r.has next ∧ r.records[next - r.first]? = some x ∧
      r.read next = (.record next x, next + 1)) ∨
    (r.first ≤ next ∧ r.stop ≤ next ∧ r.read next = (.eagain, next)) := by
  unfold read has stop
  by_cases hfirst : next < r.first
  · rw [if_pos hfirst]
    exact Or.inl ⟨hfirst, rfl⟩
  · rw [if_neg hfirst]
    cases hget : r.records[next - r.first]? with
    | some x =>
      have hlen := (List.getElem?_eq_some_iff.mp hget).1
      exact Or.inr (Or.inl ⟨x, ⟨by omega, by omega⟩, rfl, rfl⟩)
    | none =>
      have hlen := List.getElem?_eq_none_iff.mp hget
      exact Or.inr (Or.inr ⟨by omega, by omega, rfl⟩)

theorem read_epipe {r : Ring ρ} {next : Nat} (h : (r.read next).1 = .epipe) : next < r.first := by
  rcases r.read_cases next with ⟨hlt, -⟩ | ⟨x, -, -, hread⟩ | ⟨-, -, hread⟩
  · exact hlt
  · simp [hread] at h
  · simp [hread] at h

theorem read_eagain {r : Ring ρ} {next : Nat} (h : (r.read next).1 = .eagain) : r.stop ≤ next := by
  rcases r.read_cases next with ⟨-, hread⟩ | ⟨x, -, -, hread⟩ | ⟨-, hstop, -⟩
  · simp [hread] at h
  · simp [hread] at h
  · exact hstop

/-- What the log `old` can have become when `xs` were appended: it has lost some of the oldest records
and kept the rest. -/
structure Since (old : Ring ρ) (xs : List ρ) (r : Ring ρ) : Prop where
  first_le : old.first ≤ r.first
  stop_eq : r.stop = old.first + (old.records ++ xs).length
  kept : r.records = (old.records ++ xs).drop (r.first - old.first)

theorem Since.refl (r : Ring ρ) : Since r [] r where
  first_le := Nat.le_refl _
  stop_eq := by simp [stop]
  kept := by simp

theorem Since.kernel {old r r' : Ring ρ} {xs : List ρ} {e : LogEvent ρ} (h : Since old xs r)
    (hkernel : r.kernel e = some r') : Since old (xs ++ e.appended) r' := by
  have hstop := h.stop_eq
  have hfirst := h.first_le
  cases e with
  | append x =>
    obtain rfl := Option.some.inj hkernel
    have hle : r.first - old.first ≤ (old.records ++ xs).length := by
      unfold stop at hstop
      omega
    refine ⟨hfirst, ?_, ?_⟩
    · simp only [stop, LogEvent.appended, List.length_append] at hstop ⊢
      omega
    · rw [LogEvent.appended, ← List.append_assoc, List.drop_append_of_le_length hle, ← h.kept]
  | evict =>
    unfold Ring.kernel at hkernel
    cases hrecords : r.records with
    | nil => simp [hrecords] at hkernel
    | cons x rest =>
      simp only [hrecords, Option.some.injEq] at hkernel
      subst hkernel
      have hrest : rest = r.records.drop 1 := by rw [hrecords, List.drop_one, List.tail_cons]
      have hsub : r.first + 1 - old.first = r.first - old.first + 1 := by omega
      refine ⟨Nat.le_succ_of_le hfirst, ?_, ?_⟩
      · rw [LogEvent.appended, List.append_nil, ← hstop]
        simp only [stop, hrecords, List.length_cons]
        omega
      · rw [LogEvent.appended, List.append_nil, hrest, h.kept, List.drop_drop, hsub]

/-- A record keeps its number and its text as long as it is in the log. -/
theorem Since.get {old r : Ring ρ} {xs : List ρ} (h : Since old xs r) {seq : Nat}
    (hseq : r.first ≤ seq) : r.records[seq - r.first]? = (old.records ++ xs)[seq - old.first]? := by
  have hfirst := h.first_le
  have hsum : r.first - old.first + (seq - r.first) = seq - old.first := by omega
  rw [h.kept, List.getElem?_drop, hsum]

end Ring

/-! ## The text of a record -/

/-- A record without its number: the fields of the header, the text, and the dictionary lines. -/
structure LogRecord where
  prio : Nat
  timestamp : Nat
  flags : Bytes
  text : Bytes
  dict : List Bytes
  flags_plain : (0 : UInt8) ∉ flags ∧ (10 : UInt8) ∉ flags ∧ (59 : UInt8) ∉ flags
  text_plain : (0 : UInt8) ∉ text ∧ (10 : UInt8) ∉ text
  dict_plain : ∀ line ∈ dict, (0 : UInt8) ∉ line

namespace LogRecord

/-- What stands in front of the `;`. -/
def header (x : LogRecord) (seq : Nat) : Bytes :=
  decimal x.prio ++ 44 :: (decimal seq ++ 44 :: (decimal x.timestamp ++ 44 :: x.flags))

/-- What a reader gets of the record with number `seq`. -/
def render (x : LogRecord) (seq : Nat) : Bytes :=
  x.header seq ++ 59 :: (x.text ++ 10 :: x.dict.flatMap fun line => line ++ [10])

theorem notMem_header (x : LogRecord) (seq : Nat) {c : UInt8} (hdigit : ¬ isDigit c) (hcomma : c ≠ 44)
    (hflags : c ∉ x.flags) : c ∉ x.header seq := by
  have hdec : ∀ n, c ∉ decimal n := fun n h => hdigit (decimal_isDigit h)
  simp [header, hdec, hcomma, hflags]

theorem render_nulFree (x : LogRecord) (seq : Nat) : (0 : UInt8) ∉ x.render seq := by
  have hheader := x.notMem_header seq (by decide) (by decide) x.flags_plain.1
  simpa [render, hheader, x.text_plain.1] using x.dict_plain

theorem cut_render (x : LogRecord) (seq : Nat) :
    cutAt (cString (x.render seq)) (strchr (cString (x.render seq)) 10) =
      x.header seq ++ 59 :: x.text := by
  have hheader := x.notMem_header seq (c := 10) (by decide) (by decide) x.flags_plain.2.1
  have hline : (10 : UInt8) ∉ x.header seq ++ 59 :: x.text := by
    simp [hheader, x.text_plain.2]
  have hsplit : x.render seq =
      (x.header seq ++ 59 :: x.text) ++ 10 :: x.dict.flatMap fun line => line ++ [10] := by
    simp [render]
  rw [cString_of_nulFree (x.render_nulFree seq), hsplit, strchr_append hline, cutAt, List.take_left]

/-- The `;` that ends the header is the first one, whatever the text holds. -/
theorem strchr_semi (x : LogRecord) (seq : Nat) :
    strchr (x.header seq ++ 59 :: x.text) 59 = some (x.header seq).length :=
  strchr_append (x.notMem_header seq (by decide) (by decide) x.flags_plain.2.2)

theorem drop_semi (x : LogRecord) (seq : Nat) :
    (x.header seq ++ 59 :: x.text).drop ((x.header seq).length + 1) = x.text := by
  rw [List.drop_append, List.drop_of_length_le (Nat.le_succ _)]
  simp

theorem strchr_comma (x : LogRecord) (seq : Nat) :
    strchr (x.header seq ++ 59 :: x.text) 44 = some (decimal x.prio).length := by
  have hdec : (44 : UInt8) ∉ decimal x.prio := fun h => absurd (decimal_isDigit h) (by decide)
  rw [header, List.append_assoc, List.cons_append, strchr_append hdec]

/-- The number behind it is that of the record, as far as a `long` holds it. -/
theorem atol_seq (x : LogRecord) (seq : Nat) :
    atol ((x.header seq ++ 59 :: x.text).drop ((decimal x.prio).length + 1)) =
      min (2 ^ 63 - 1) (seq : Int) := by
  have hdrop : (x.header seq ++ 59 :: x.text).drop ((decimal x.prio).length + 1) =
      decimal seq ++ 44 :: (decimal x.timestamp ++ 44 :: (x.flags ++ 59 :: x.text)) := by
    simp [header, List.drop_append]
  rw [hdrop, atol_decimal seq (by simp; decide)]

end LogRecord

/-! ## Writing to the log -/

/-- `%x` of a number below 16 -/
def hexDigit (n : Nat) : UInt8 := UInt8.ofNat (if n < 10 then 48 + n else 87 + n)

/-- The bytes that `/dev/kmsg` shows as they are. -/
def isShown (c : UInt8) : Bool := 32 ≤ c.toNat && c.toNat < 127 && c != 92

/-- All others, and the backslash, are shown as `\xNN`. -/
def escapeByte (c : UInt8) : Bytes :=
  if isShown c then [c] else [92, 120, hexDigit (c.toNat / 16), hexDigit (c.toNat % 16)]

def escape (s : Bytes) : Bytes := s.flatMap escapeByte

/-- A message without the syslog prefix `<N>`. -/
def dropPriority : Bytes → Bytes
  | 60 :: rest =>
    match rest.dropWhile isDigit with
    | 62 :: line => line
    | _ => 60 :: rest
  | line => line

/-- A message without the newline at its end. -/
def dropNewline (line : Bytes) : Bytes := if line.getLast? = some 10 then line.dropLast else line

/-- The text of the record that a written message becomes, as a reader gets it. -/
def stored (written : Bytes) : Bytes := escape (dropNewline (cString (dropPriority written)))

theorem hexDigit_range {n : Nat} (h : n < 16) :
    32 ≤ (hexDigit n).toNat ∧ (hexDigit n).toNat < 127 := by
  unfold hexDigit
  split <;> simp only [UInt8.toNat_ofNat'] <;> omega

theorem escape_range {s : Bytes} {c : UInt8} (h : c ∈ escape s) : 32 ≤ c.toNat ∧ c.toNat < 127 := by
  obtain ⟨d, -, hc⟩ := List.mem_flatMap.mp h
  unfold escapeByte at hc
  split at hc
  · next hshown =>
    obtain rfl := List.mem_singleton.mp hc
    simp only [isShown, Bool.and_eq_true, decide_eq_true_eq] at hshown
    exact hshown.1
  · have hlt := d.toNat_lt
    simp only [List.mem_cons, List.not_mem_nil, or_false] at hc
    rcases hc with rfl | rfl | rfl | rfl
    · decide
    · decide
    · exact hexDigit_range (by omega)
    · exact hexDigit_range (by omega)

theorem escape_plain (s : Bytes) : (0 : UInt8) ∉ escape s ∧ (10 : UInt8) ∉ escape s :=
  ⟨fun h => absurd (escape_range h).1 (by decide), fun h => absurd (escape_range h).1 (by decide)⟩

theorem escape_of_shown {s : Bytes} (h : s.all isShown = true) : escape s = s := by
  induction s with
  | nil => rfl
  | cons c s ih =>
    simp only [List.all_cons, Bool.and_eq_true] at h
    have hs : s.flatMap escapeByte = s := ih h.2
    simp [escape, escapeByte, h.1, hs]

/-- Escaping makes text longer unless it changes nothing. -/
theorem escape_length (s : Bytes) :
    s.length ≤ (escape s).length ∧ ((escape s).length = s.length ↔ s.all isShown = true) := by
  induction s with
  | nil => simp [escape]
  | cons c s ih =>
    have hlen : (escape (c :: s)).length = (escapeByte c).length + (escape s).length := by
      simp [escape]
    have hle := ih.1
    rw [hlen, List.length_cons, List.all_cons, Bool.and_eq_true, ← ih.2]
    cases hc : isShown c with
    | true =>
      have hbyte : (escapeByte c).length = 1 := by simp [escapeByte, hc]
      simp only [true_and]
      omega
    | false =>
      have hbyte : (escapeByte c).length = 4 := by simp [escapeByte, hc]
      simp only [Bool.false_eq_true, false_and, iff_false]
      omega

theorem noFlags_plain : (0 : UInt8) ∉ [45] ∧ (10 : UInt8) ∉ [45] ∧ (59 : UInt8) ∉ [45] := by
  decide

theorem noDict_plain : ∀ line ∈ ([] : List Bytes), (0 : UInt8) ∉ line := by
  simp

/-- The record of a message: `facility` and level of `<N>` make the priority. -/
def logged (prio timestamp : Nat) (written : Bytes) : LogRecord where
  prio := prio
  timestamp := timestamp
  flags := [45]
  text := stored written
  dict := []
  flags_plain := noFlags_plain
  text_plain := escape_plain _
  dict_plain := noDict_plain

end LinuxDriverLab
