import Mathlib.Data.Fintype.EquivFin
import LinuxDriverLab.ListMsg.Cursor

/-!
# Delivery

Without `LISTMSG_CLEAR` every file reads the messages in the order of their writes, from the first
one on, for as long as it does not meet the end of the list. The number in front of a message is the
file's own count, an `int`.
-/

namespace LinuxDriverLab.ListMsg

/-- No `LISTMSG_CLEAR`, buffers that take a whole line, and one read at a time on a file. -/
structure Undisturbed (past : List (Record State Event Shown)) (r : Record State Event Shown) :
    Prop where
  noClear : ∀ t f arg, r.event ≠ .ioctl t f listmsgClear arg
  buffer : ∀ t f cnt room, r.event = .readTest t f cnt room → lineSize ≤ cnt ∧ lineSize ≤ room
  alone : ∀ t f cnt room, r.event = .readTest t f cnt room →
    ∀ t' cnt' room', r.pre.pc t' ≠ .readTested f cnt' room'

/-- The step returns bytes to a read on `f`. -/
def serves (f : File) (r : Record State Event Shown) : Bool :=
  match r.out with
  | .readReturned g (.ok n) _ => g == f && decide (0 < n)
  | _ => false

def served (f : File) (tr : List (Record State Event Shown)) : Nat := tr.countP (serves f)

/-- The list was empty when `f` was opened, or the message last read on `f` was then the last. -/
def Ended (f : File) (past : List (Record State Event Shown)) : Prop :=
  ∃ a q b, past = a ++ q :: b ∧ (∀ p ∈ b, serves f p = false) ∧
    (Opens f q ∧ stored a = [] ∨ serves f q = true ∧ (stored a).length = served f a + 1)

/-- What a read returns for the message `m`. -/
def line (idx : Int) (m : Bytes) : Bytes := formatInt idx ++ [58, 32] ++ m ++ [10]

/-- No fault, and what a read returns: the next of the messages `msgs`, with `number j` in front of
the `j`-th, or nothing. -/
def Delivers (number : Nat → Int) (msgs : List Bytes) (past : List (Record State Event Shown))
    (r : Record State Event Shown) : Prop :=
  r.out ≠ .oops ∧ ∀ f ret data, r.out = .readReturned f ret data →
    (∃ m, msgs[served f past]? = some m ∧ ret = .ok data.length ∧
      data = line (number (served f past + 1)) m ∧ 0 < data.length ∧ data.length < lineSize) ∨
    (ret = .ok 0 ∧ data = [] ∧ Ended f past)

variable {xs ys : List Addr} {s u : State} {tr : List (Record State Event Shown)}
variable {r : Record State Event Shown} {f g : File}

theorem served_concat (f : File) (tr : List (Record State Event Shown))
    (r : Record State Event Shown) :
    served f (tr ++ [r]) = if serves f r then served f tr + 1 else served f tr := by
  unfold served
  rw [List.countP_append, List.countP_singleton]
  split <;> rfl

theorem served_concat_of_not (h : serves f r = false) : served f (tr ++ [r]) = served f tr := by
  rw [served_concat, h]
  rfl

theorem Ended.concat (h : Ended f tr) (hr : serves f r = false) : Ended f (tr ++ [r]) := by
  obtain ⟨a, q, b, rfl, hb, hq⟩ := h
  refine ⟨a, q, b ++ [r], by simp, ?_, hq⟩
  simp only [List.forall_mem_append, List.forall_mem_singleton]
  exact ⟨hb, hr⟩

theorem line_length (idx : Int) (m : Bytes) :
    (line idx m).length = (formatInt idx).length + m.length + 3 := by
  simp only [line, List.length_append, List.length_cons, List.length_nil]
  omega

theorem line_length_lt (i : Int) {m : Bytes} (hm : m.length ≤ msgMax) :
    (line (int32 i) m).length < lineSize := by
  obtain ⟨hlo, hhi⟩ := int32_range i
  have hidx := formatInt_length_le hlo hhi
  rw [line_length]
  unfold lineSize msgMax at *
  omega

theorem msgText_of {m : Bytes} (idx : Int) (hm : (0 : UInt8) ∉ m) : msgText idx (Msg.of m) = line idx m := by
  rw [msgText, Msg.of, formatString_of_nulFree (Nat.le_refl _) hm]
  rfl

theorem lmReadCopy_eq (text : Bytes) (cnt room : Nat) :
    lmReadCopy text cnt room =
      let copy := copyToUser (snprintf lineSize text).line (min cnt text.length) room
      if copy.left ≠ 0 then (.error .efault, copy.stored)
      else (.ok (min cnt text.length), copy.stored) := by
  have hret : (snprintf lineSize text).ret = text.length := rfl
  simp only [lmReadCopy, hret, clamp_eq_min]

/-- The user gets as much of the text as the buffer was said to hold. -/
theorem lmReadCopy_ok {text : Bytes} {cnt room : Nat} (htext : text.length < lineSize)
    (hroom : min cnt text.length ≤ room) :
    lmReadCopy text cnt room = (.ok (min cnt text.length), text.take (min cnt text.length)) := by
  have hline : (snprintf lineSize text).line = text ++ [0] := by
    rw [snprintf, List.take_of_length_le (by omega)]
  have hlen : min cnt text.length ≤ (text ++ [0]).length := by
    rw [List.length_append]
    omega
  rw [lmReadCopy_eq, hline, copyToUser_of_le hlen hroom,
    List.take_append_of_le_length (Nat.min_le_right _ _)]
  rfl

theorem lmReadCopy_fault {text : Bytes} {cnt room : Nat} (hroom : room < min cnt text.length) :
    (lmReadCopy text cnt room).1 = .error .efault := by
  rw [lmReadCopy_eq]
  dsimp only
  rw [if_pos (copyToUser_left_pos hroom)]

theorem lmReadCopy_line {text : Bytes} {cnt room : Nat} (htext : text.length < lineSize)
    (hcnt : lineSize ≤ cnt) (hroom : lineSize ≤ room) :
    lmReadCopy text cnt room = (.ok text.length, text) := by
  rw [lmReadCopy_ok htext (by omega), Nat.min_eq_right (by omega), List.take_length]

theorem length_of_mem_stored {m : Bytes} (h : m ∈ stored tr) : m.length ≤ msgMax := by
  induction tr using List.reverseRecOn with
  | nil => cases h
  | append_singleton tr r ih =>
    rw [stored_concat] at h
    unfold Shown.after at h
    split at h
    · rcases List.mem_append.mp h with h | h
      · exact ih h
      · rw [List.mem_singleton.mp h, List.length_take]
        omega
    · cases h
    · exact ih h

theorem Holds.val {msgs : List Bytes} (h : Holds xs msgs s) {i : Nat} {a : Addr}
    (ha : xs[i]? = some a) : ∃ m, msgs[i]? = some m ∧ s.heap.val a = Msg.of m := by
  have hval := congrArg (fun l => l[i]?) h.vals
  simp only [List.getElem?_map, ha, Option.map_some] at hval
  obtain ⟨m, hm, heq⟩ := Option.map_eq_some_iff.mp hval.symm
  exact ⟨m, hm, heq.symm⟩

theorem Holds.length {msgs : List Bytes} (h : Holds xs msgs s) : xs.length = msgs.length := by
  have := congrArg List.length h.vals
  simpa using this

/-- The cursor of a file, after the messages it has read. -/
structure CursorAt (xs : List Addr) (tr : List (Record State Event Shown)) (f : File)
    (cur : Cursor) : Prop where
  idx : cur.idx = int32 (served f tr + 1)
  pos : ∀ a, cur.pos = some a → xs[served f tr]? = some a
  ended : cur.pos = none → Ended f tr

/-- The files and the reads in flight, against the ring through `xs`. -/
structure Follows (xs : List Addr) (tr : List (Record State Event Shown)) (s : State) : Prop where
  unopened : ∀ f, s.files f = .no → served f tr = 0
  cursor : ∀ f cur, s.files f = .yes cur → CursorAt xs tr f cur
  buffer : ∀ t f cnt room, s.pc t = .readTested f cnt room → lineSize ≤ cnt ∧ lineSize ≤ room
  tested : ∀ t f cnt room, s.pc t = .readTested f cnt room →
    s.files f ≠ .no ∧ ∀ cur, s.files f = .yes cur → cur.pos ≠ none
  alone : ∀ t t' f cnt cnt' room room', s.pc t = .readTested f cnt room →
    s.pc t' = .readTested f cnt' room' → t = t'
  noClear : ∀ t f, s.pc t ≠ .clearDone f

theorem follows_init (junk : Heap Msg) : Follows [] [] (State.init junk) :=
  ⟨fun _ _ => rfl, nofun, nofun, nofun, nofun, nofun⟩

theorem CursorAt.concat {cur : Cursor} (h : CursorAt xs tr f cur) (hr : serves f r = false) :
    CursorAt xs (tr ++ [r]) f cur := by
  refine ⟨?_, ?_, fun hnone => (h.ended hnone).concat hr⟩
  · rw [served_concat_of_not hr]
    exact h.idx
  · rw [served_concat_of_not hr]
    exact h.pos

theorem Follows.mono (h : Follows xs tr s) (hpre : xs <+: ys) : Follows ys tr s where
  unopened := h.unopened
  cursor := fun f cur hf => by
    obtain ⟨hidx, hpos, hend⟩ := h.cursor f cur hf
    refine ⟨hidx, fun a ha => ?_, hend⟩
    obtain ⟨zs, rfl⟩ := hpre
    have hlt := (List.getElem?_eq_some_iff.mp (hpos a ha)).1
    rw [List.getElem?_append_left hlt]
    exact hpos a ha
  buffer := h.buffer
  tested := h.tested
  alone := h.alone
  noClear := h.noClear

theorem Follows.frame (h : Follows xs tr s) (hr : ∀ f, serves f r = false)
    (hfiles : u.files = s.files)
    (htested : ∀ t f cnt room, u.pc t = .readTested f cnt room → s.pc t = .readTested f cnt room)
    (hclear : ∀ t f, u.pc t ≠ .clearDone f) : Follows xs (tr ++ [r]) u where
  unopened := fun f hf => by
    rw [served_concat_of_not (hr f)]
    exact h.unopened f (hfiles ▸ hf)
  cursor := fun f cur hf => (h.cursor f cur (hfiles ▸ hf)).concat (hr f)
  buffer := fun t f cnt room ht => h.buffer t f cnt room (htested t f cnt room ht)
  tested := fun t f cnt room ht => by
    rw [hfiles]
    exact h.tested t f cnt room (htested t f cnt room ht)
  alone := fun t t' f cnt cnt' room room' ht ht' =>
    h.alone t t' f cnt cnt' room room' (htested _ _ _ _ ht) (htested _ _ _ _ ht')
  noClear := hclear

theorem Follows.quiet (h : Follows xs tr s) (hr : ∀ f, serves f r = false)
    (hfiles : u.files = s.files) (hpc : u.pc = s.pc) : Follows xs (tr ++ [r]) u :=
  h.frame hr hfiles (fun _ _ _ _ ht => hpc ▸ ht) fun t f => hpc ▸ h.noClear t f

theorem Follows.goto {t : Task} {pc : Pc} (h : Follows xs tr s) (hr : ∀ f, serves f r = false)
    (hfiles : u.files = s.files) (hupc : u.pc = (s.goto t pc).pc) (hpc : pc.Aside) :
    Follows xs (tr ++ [r]) u :=
  h.frame hr hfiles (fun _ _ _ _ ht => goto_readTested hpc (hupc ▸ ht))
    fun t' f ht => h.noClear t' f (goto_clearDone hpc (hupc ▸ ht))

theorem Follows.setFile {o : Opened} (h : Follows xs tr s)
    (hr : ∀ g, g ≠ f → serves g r = false) (ho : o ≠ .no)
    (hcur : ∀ cur, o = .yes cur → CursorAt xs (tr ++ [r]) f cur)
    (hfree : (∃ t cnt room, s.pc t = .readTested f cnt room) → ∀ cur, o ≠ .yes cur) :
    Follows xs (tr ++ [r]) (s.setFile f o) := by
  refine ⟨fun g hg => ?_, fun g cur hg => ?_, h.buffer, fun t g cnt room ht => ?_, h.alone, h.noClear⟩
  · by_cases heq : g = f
    · rw [heq, setFile_self] at hg
      exact absurd hg ho
    · rw [setFile_other _ _ heq] at hg
      rw [served_concat_of_not (hr g heq)]
      exact h.unopened g hg
  · by_cases heq : g = f
    · subst heq
      rw [setFile_self] at hg
      exact hcur cur hg
    · rw [setFile_other _ _ heq] at hg
      exact (h.cursor g cur hg).concat (hr g heq)
  · by_cases heq : g = f
    · subst heq
      rw [setFile_self]
      exact ⟨ho, fun cur hg => absurd hg (hfree ⟨t, cnt, room, ht⟩ cur)⟩
    · rw [setFile_other _ _ heq]
      exact h.tested t g cnt room ht

theorem Follows.leave (h : Follows xs tr s) (t : Task) : Follows xs tr (s.goto t .idle) := by
  have htested : ∀ {t' f cnt room}, (s.goto t .idle).pc t' = .readTested f cnt room →
      s.pc t' = .readTested f cnt room := fun ht => (goto_pc_ne Pc.noConfusion ht).2
  exact ⟨h.unopened, h.cursor, fun t' f cnt room ht => h.buffer t' f cnt room (htested ht),
    fun t' f cnt room ht => h.tested t' f cnt room (htested ht),
    fun t₁ t₂ f cnt cnt' room room' h₁ h₂ => h.alone _ _ f _ _ _ _ (htested h₁) (htested h₂),
    fun t' f ht => h.noClear t' f (goto_pc_ne Pc.noConfusion ht).2⟩

theorem Follows.openFile {t : Task} {cur : Cursor} {o : Shown} (h : Follows xs tr s)
    (hs : Holds xs (stored tr) s) (hf : s.files f = .no) (hcur : lmOpenLocked s.heap = some cur)
    (ho : ∀ g, serves g ⟨s, .openFile t f true, o⟩ = false) :
    Follows xs (tr ++ [⟨s, .openFile t f true, o⟩]) (s.setFile f (.yes cur)) := by
  rw [lmOpenLocked, Heap.listFirstEntryOrNull_ring hs.ring] at hcur
  obtain rfl : cur = ⟨xs.head?, 1⟩ := (Option.some.inj hcur).symm
  refine h.setFile (fun g _ => ho g) Opened.noConfusion ?_ ?_
  · intro cur' heq
    cases heq
    refine ⟨?_, fun a ha => ?_, fun hnone => ⟨tr, _, [], rfl, List.forall_mem_nil _, .inl ⟨rfl, ?_⟩⟩⟩
    · rw [served_concat_of_not (ho f), h.unopened f hf]
      rfl
    · rw [served_concat_of_not (ho f), h.unopened f hf, ← List.head?_eq_getElem?]
      exact ha
    · have hlen := hs.length
      rw [List.head?_eq_none_iff.mp hnone] at hlen
      exact List.length_eq_zero_iff.mp hlen.symm
  · rintro ⟨t', cnt, room, ht⟩
    exact absurd hf (h.tested t' f cnt room ht).1

theorem Follows.release (h : Follows xs tr s) (hr : ∀ g, serves g r = false) :
    Follows xs (tr ++ [r]) (s.setFile f .released) :=
  h.setFile (fun g _ => hr g) Opened.noConfusion nofun fun _ _ => Opened.noConfusion

theorem Follows.readTest {t : Task} {cnt room : Nat} {cur : Cursor} {a : Addr} (h : Follows xs tr s)
    (hr : ∀ g, serves g r = false) (hf : s.files f = .yes cur) (hpos : cur.pos = some a)
    (hbuf : lineSize ≤ cnt ∧ lineSize ≤ room)
    (halone : ∀ t' cnt' room', s.pc t' ≠ .readTested f cnt' room') :
    Follows xs (tr ++ [r]) (s.goto t (.readTested f cnt room)) := by
  -- a read in flight is the new one or an old one
  have hpc : ∀ {t' g c m}, (s.goto t (.readTested f cnt room)).pc t' = .readTested g c m →
      (t' = t ∧ g = f ∧ c = cnt ∧ m = room) ∨ (g ≠ f ∧ s.pc t' = .readTested g c m) := by
    intro t' g c m ht'
    rcases goto_pc_cases ht' with ⟨heq, hnew⟩ | ⟨-, hold⟩
    · cases hnew
      exact .inl ⟨heq, rfl, rfl, rfl⟩
    · exact .inr ⟨fun hg => halone t' c m (hg ▸ hold), hold⟩
  refine ⟨fun g hg => ?_, fun g c hg => (h.cursor g c hg).concat (hr g), fun t' g c m ht' => ?_,
    fun t' g c m ht' => ?_, fun t₁ t₂ g c₁ c₂ m₁ m₂ h₁ h₂ => ?_, fun t' g ht' => ?_⟩
  · rw [served_concat_of_not (hr g)]
    exact h.unopened g hg
  · rcases hpc ht' with ⟨-, -, rfl, rfl⟩ | ⟨-, ht'⟩
    · exact hbuf
    · exact h.buffer t' g c m ht'
  · rcases hpc ht' with ⟨-, rfl, -, -⟩ | ⟨-, ht'⟩
    · rw [goto_files, hf]
      refine ⟨Opened.noConfusion, ?_⟩
      intro cur' heq
      cases heq
      simp [hpos]
    · exact h.tested t' g c m ht'
  · rcases hpc h₁ with ⟨ht₁, hg, -, -⟩ | ⟨hg, k₁⟩
    · rcases hpc h₂ with ⟨ht₂, -, -, -⟩ | ⟨hg', -⟩
      · rw [ht₁, ht₂]
      · exact absurd hg hg'
    · rcases hpc h₂ with ⟨-, hg', -, -⟩ | ⟨-, k₂⟩
      · exact absurd hg' hg
      · exact h.alone t₁ t₂ g c₁ c₂ m₁ m₂ k₁ k₂
  · exact h.noClear t' g (goto_pc_ne Pc.noConfusion ht').2

/-- What the locked section of a read does: the next message goes to the reader, and the cursor to
the message after it. -/
theorem Follows.reads {t : Task} {cnt room : Nat} {cur : Cursor} (h : Follows xs tr s)
    (hs : Holds xs (stored tr) s) (hplain : ∀ m ∈ stored tr, (0 : UInt8) ∉ m)
    (ht : s.pc t = .readTested f cnt room) (hf : s.files f = .yes cur) :
    ∃ m, (stored tr)[served f tr]? = some m ∧ m.length ≤ msgMax ∧
      lmReadLocked s.heap cur = some (line (int32 (served f tr + 1)) m,
        ⟨xs[served f tr + 1]?, int32 (served f tr + 1 + 1)⟩) := by
  obtain ⟨hidx, hat, -⟩ := h.cursor f cur hf
  cases hpos : cur.pos with
  | none => exact absurd hpos ((h.tested t f cnt room ht).2 cur hf)
  | some a =>
    obtain ⟨m, hm, hval⟩ := hs.val (hat a hpos)
    have hmem := List.mem_of_getElem? hm
    refine ⟨m, hm, length_of_mem_stored hmem, ?_⟩
    rw [lmReadLocked_ring hs.ring hpos (hat a hpos), hval, msgText_of _ (hplain m hmem), hidx,
      int32_add_int32]

theorem serves_readReturned (f g : File) (n : Nat) (data : Bytes) (pre : State) (e : Event) :
    serves g ⟨pre, e, .readReturned f (.ok n) data⟩ = (f == g && decide (0 < n)) := rfl

theorem line_pos (idx : Int) (m : Bytes) : 0 < (line idx m).length := by
  rw [line_length]
  omega

theorem Follows.readLocked {t : Task} {cnt room : Nat} {cur cur' : Cursor} {text : Bytes}
    (h : Follows xs tr s) (hs : Holds xs (stored tr) s)
    (hplain : ∀ m ∈ stored tr, (0 : UInt8) ∉ m) (ht : s.pc t = .readTested f cnt room)
    (hf : s.files f = .yes cur) (hread : lmReadLocked s.heap cur = some (text, cur')) :
    Follows xs (tr ++ [⟨s, .readLocked t,
        .readReturned f (lmReadCopy text cnt room).1 (lmReadCopy text cnt room).2⟩])
      ((s.setFile f (.yes cur')).goto t .idle) := by
  obtain ⟨hcnt, hroom⟩ := h.buffer t f cnt room ht
  obtain ⟨m, hm, hlen, hread'⟩ := h.reads hs hplain ht hf
  obtain ⟨htext, hcur⟩ := Prod.mk.inj (Option.some.inj (hread.symm.trans hread'))
  rw [htext, hcur, lmReadCopy_line (line_length_lt _ hlen) hcnt hroom]
  have hserves : ∀ g, serves g ⟨s, .readLocked t, .readReturned f
      (.ok (line (int32 (served f tr + 1)) m).length) (line (int32 (served f tr + 1)) m)⟩ =
      (f == g) := by
    intro g
    rw [serves_readReturned, decide_eq_true (line_pos _ _), Bool.and_true]
  refine (h.leave t).setFile (fun g hg => ?_) Opened.noConfusion ?_ ?_
  · rw [hserves]
    exact beq_eq_false_iff_ne.mpr (Ne.symm hg)
  · intro cur' heq
    cases heq
    have hnext := served_concat f tr ⟨s, .readLocked t, .readReturned f
      (.ok (line (int32 (served f tr + 1)) m).length) (line (int32 (served f tr + 1)) m)⟩
    rw [hserves, beq_self_eq_true, if_pos rfl] at hnext
    refine ⟨?_, fun a ha => ?_, fun hnone => ?_⟩
    · rw [hnext, Nat.cast_add, Nat.cast_one]
    · rw [hnext]
      exact ha
    · -- the message just read is the last one of the list
      refine ⟨tr, _, [], rfl, List.forall_mem_nil _, .inr ⟨by rw [hserves, beq_self_eq_true], ?_⟩⟩
      have hend : xs.length ≤ served f tr + 1 := List.getElem?_eq_none_iff.mp hnone
      have hlt := (List.getElem?_eq_some_iff.mp hm).1
      have := hs.length
      omega
  · rintro ⟨t', cnt', room', ht'⟩
    obtain ⟨hne, ht'⟩ := goto_pc_ne Pc.noConfusion ht'
    exact absurd (h.alone t' t f _ _ _ _ ht' ht) hne

theorem follows_step {e : Event} {o : Shown} (h : Follows xs tr s) (hs : Holds xs (stored tr) s)
    (hplain : ∀ m ∈ stored tr, (0 : UInt8) ∉ m) (hP : Undisturbed tr ⟨s, e, o⟩)
    (hstep : step s e = some (u, o)) : Follows xs (tr ++ [⟨s, e, o⟩]) u := by
  cases step_move hstep with
  | openFile _ hf hcur => exact h.openFile hs hf hcur fun _ => rfl
  | openOops _ _ hcur =>
    rw [lmOpenLocked, Heap.listFirstEntryOrNull_ring hs.ring] at hcur
    cases hcur
  | openFails => exact h.quiet (fun _ => rfl) rfl rfl
  | release => exact h.release fun _ => rfl
  | readEnd => exact h.quiet (fun _ => by simp [serves]) rfl rfl
  | readTest _ hf hpos =>
    exact h.readTest (fun _ => rfl) hf hpos (hP.buffer _ _ _ _ rfl) (hP.alone _ _ _ _ rfl)
  | readLocked ht hf hread => exact h.readLocked hs hplain ht hf hread
  | readOops ht hf hread =>
    obtain ⟨m, -, -, hread'⟩ := h.reads hs hplain ht hf
    rw [hread] at hread'
    cases hread'
  | writeReturn => exact h.quiet (fun _ => rfl) rfl rfl
  | writeReady => exact h.goto (fun _ => rfl) rfl rfl trivial
  | writeOops => exact h.goto (fun _ => rfl) rfl rfl trivial
  | writeLocked => exact h.goto (fun _ => rfl) rfl rfl trivial
  | writeLockedOops => exact h.goto (fun _ => rfl) rfl rfl trivial
  | count => exact h.quiet (fun _ => rfl) rfl rfl
  | clear => exact absurd rfl (hP.noClear _ _ _)
  | clearOops => exact absurd rfl (hP.noClear _ _ _)
  | ioctlOther => exact h.quiet (fun _ => rfl) rfl rfl
  | clearReset ht => exact absurd ht (h.noClear _ _)

theorem stored_prefix_step {e : Event} {o : Shown} (hP : Undisturbed tr ⟨s, e, o⟩)
    (hstep : step s e = some (u, o)) : stored tr <+: stored (tr ++ [⟨s, e, o⟩]) := by
  rw [stored_concat]
  cases step_move hstep with
  | writeLocked => exact List.prefix_append _ _
  | clear => exact absurd rfl (hP.noClear _ _ _)
  | _ => exact List.prefix_rfl

theorem stored_prefix {start : State} {past rest : List (Record State Event Shown)}
    (h : Run step start (past ++ rest) s) (hP : Each Undisturbed (past ++ rest)) :
    stored past <+: stored (past ++ rest) := by
  induction rest using List.reverseRecOn generalizing s with
  | nil => rw [List.append_nil]
  | append_singleton rest r ih =>
    rw [← List.append_assoc] at h hP ⊢
    obtain ⟨hrun, hstep⟩ := h.concat_inv
    obtain ⟨hprev, hlast⟩ := (each_concat _ _).mp hP
    exact (ih hrun hprev).trans (stored_prefix_step hlast hstep)

theorem follows_run {junk : Heap Msg} (h : Run step (State.init junk) tr s)
    (hplain : ∀ m ∈ stored tr, (0 : UInt8) ∉ m) (hP : Each Undisturbed tr) :
    ∃ xs, Holds xs (stored tr) s ∧ Follows xs tr s := by
  induction h with
  | refl => exact ⟨[], holds_init junk, follows_init junk⟩
  | @tail t u tr e o hrun hstep ih =>
    obtain ⟨hprev, hlast⟩ := (each_concat _ _).mp hP
    have hplain' : ∀ m ∈ stored tr, (0 : UInt8) ∉ m := fun m hm =>
      hplain m ((stored_prefix_step hlast hstep).subset hm)
    obtain ⟨xs, hs, hfollows⟩ := ih hplain' hprev
    obtain ⟨ys, hys, hgrow⟩ := holds_step hs hstep
    refine ⟨ys, by rwa [stored_concat], (follows_step hfollows hs hplain' hlast hstep).mono ?_⟩
    apply hgrow
    intro f ho
    subst ho
    cases step_move hstep with
    | clear => exact hlast.noClear _ _ _ rfl

theorem delivers_step {e : Event} {o : Shown} (h : Follows xs tr s) (hs : Holds xs (stored tr) s)
    (hplain : ∀ m ∈ stored tr, (0 : UInt8) ∉ m) (hstep : step s e = some (u, o)) :
    Delivers (fun j => int32 j) (stored tr) tr ⟨s, e, o⟩ := by
  constructor
  · intro ho
    obtain ⟨t, he⟩ := noFault_step tr hs hstep ho
    dsimp only at he ho
    subst he ho
    cases step_move hstep with
    | readOops ht hf hread =>
      obtain ⟨m, -, -, hread'⟩ := h.reads hs hplain ht hf
      rw [hread] at hread'
      cases hread'
  · intro f ret data ho
    dsimp only at ho
    subst ho
    cases step_move hstep with
    | readEnd ht hf hpos => exact .inr ⟨rfl, rfl, (h.cursor _ _ hf).ended hpos⟩
    | readLocked ht hf hread =>
      obtain ⟨m, hm, hlen, hread'⟩ := h.reads hs hplain ht hf
      obtain ⟨hcnt, hroom⟩ := h.buffer _ _ _ _ ht
      obtain ⟨htext, -⟩ := Prod.mk.inj (Option.some.inj (hread.symm.trans hread'))
      have hfits := line_length_lt (served f tr + 1) hlen
      rw [htext, lmReadCopy_line hfits hcnt hroom]
      exact .inl ⟨m, hm, rfl, by simp only [Nat.cast_add, Nat.cast_one], line_pos _ _, hfits⟩

theorem Delivers.mono {number : Nat → Int} {msgs msgs' : List Bytes}
    (h : Delivers number msgs tr r) (hpre : msgs <+: msgs') : Delivers number msgs' tr r := by
  refine ⟨h.1, fun f ret data ho => (h.2 f ret data ho).imp_left ?_⟩
  rintro ⟨m, hm, hrest⟩
  obtain ⟨more, rfl⟩ := hpre
  refine ⟨m, ?_, hrest⟩
  rw [List.getElem?_append_left (List.getElem?_eq_some_iff.mp hm).1]
  exact hm

/-- In every undisturbed run over messages without NUL, the `j`-th read of a file that returns bytes
returns the `j`-th of all messages, under the number `j` as an `int`. -/
theorem lmRead_delivers (junk : Heap Msg) (tr : List (Record State Event Shown)) (s : State)
    (h : Run step (State.init junk) tr s) (hP : Each Undisturbed tr)
    (hplain : ∀ m ∈ stored tr, (0 : UInt8) ∉ m) :
    Each (Delivers (fun j => int32 j) (stored tr)) tr := by
  intro past r rest htr
  subst htr
  obtain ⟨hpast, u, hstep, -⟩ := h.split
  have hpre := stored_prefix h hP
  have hplain' : ∀ m ∈ stored past, (0 : UInt8) ∉ m := fun m hm => hplain m (hpre.subset hm)
  obtain ⟨xs, hs, hfollows⟩ := follows_run hpast hplain' hP.prefix
  exact (delivers_step hfollows hs hplain' hstep).mono hpre

/-- Neither a clear nor a read that starts. -/
def Event.Aside : Event → Prop
  | .ioctl .. | .readTest .. => False
  | _ => True

theorem Event.Aside.undisturbed {past : List (Record State Event Shown)} (h : r.event.Aside) :
    Undisturbed past r := by
  refine ⟨fun t f arg he => ?_, fun t f cnt room he => ?_, fun t f cnt room he => ?_⟩ <;>
    rw [he] at h <;> exact h.elim

theorem exists_written (n : Nat) : ∃ tr s cur, Run step (State.init blank) tr s ∧
    Each Undisturbed tr ∧ stored tr = List.replicate n [33] ∧ (∀ t, s.pc t = .idle) ∧
      s.files 0 = .yes cur ∧ s.files 1 = .no := by
  induction n with
  | zero =>
    have hstep : step (State.init blank) (.openFile 0 0 true) =
        some ((State.init blank).setFile 0 (.yes ⟨none, 1⟩), .opened 0 (.ok ())) := rfl
    exact ⟨_, _, _, Run.tail .refl hstep,
      (each_concat _ _).mpr ⟨each_nil, Event.Aside.undisturbed trivial⟩, rfl, fun _ => rfl, rfl, rfl⟩
  | succ n ih =>
    obtain ⟨tr, s, cur, hrun, hP, hstored, hidle, hfile, hother⟩ := ih
    obtain ⟨m, hm⟩ := Infinite.exists_notMem_finset s.heap.live
    have hfresh : Fresh s.heap (some m) := by
      intro a heq
      cases heq
      exact hm
    obtain ⟨heap, res, hprep, hend⟩ := lmWritePrepare_end [33] 1 hfresh
    cases hend with
    | empty hcnt => cases hcnt
    | fault _ hleft => exact absurd hleft (by decide)
    | @ready m heap =>
      generalize hs₁ : { s with heap }.goto 0 (.writeReady 0 m [33] 1) = s₁
      have hpc : s₁.pc 0 = .writeReady 0 m [33] 1 := hs₁ ▸ goto_pc_self _ _ _
      have hwrite : step s (.write 0 0 [33] 1 (some m)) = some (s₁, .quiet) := by
        simp only [step, hidle 0, hfile, if_pos hfresh, hprep, hs₁]
      obtain ⟨xs, hs⟩ := holds_run (hrun.tail hwrite)
      obtain ⟨heap', hadd, -⟩ := hs.writeLocked hpc
      have hlocked : step s₁ (.writeLocked 0) =
          some ({ s₁ with heap := heap', msgCount := int32 (s₁.msgCount + 1) }.goto 0 .idle,
            .written 0 (lmWriteClamp 1) [33] 1) := by
        simp only [step, hpc, hadd]
      refine ⟨_, _, cur, (hrun.tail hwrite).tail hlocked, ?_, ?_, fun t => ?_, ?_, ?_⟩
      · simp only [each_concat]
        exact ⟨⟨hP, Event.Aside.undisturbed trivial⟩, Event.Aside.undisturbed trivial⟩
      · rw [stored_concat, stored_concat, List.replicate_succ', ← hstored]
        rfl
      · by_cases ht : t = 0
        · rw [ht, goto_pc_self]
        · rw [goto_pc_other _ _ ht, ← hs₁]
          exact (goto_pc_other _ _ ht).trans (hidle t)
      · rw [goto_files, ← hs₁]
        exact hfile
      · rw [goto_files, ← hs₁]
        exact hother

/-- `n` messages are stored, `k` of them have been read on file 1, and no call is in flight. -/
structure Reading (n k : Nat) (tr : List (Record State Event Shown)) (s : State) : Prop where
  run : Run step (State.init blank) tr s
  undisturbed : Each Undisturbed tr
  messages : stored tr = List.replicate n [33]
  idle : ∀ t, s.pc t = .idle
  cursor : ∃ xs, Holds xs (stored tr) s ∧ s.files 1 = .yes ⟨xs[k]?, int32 (k + 1)⟩
  count : served 1 tr = k

theorem exists_reading (n : Nat) : ∃ tr s, Reading n 0 tr s := by
  obtain ⟨tr, s, cur, hrun, hP, hstored, hidle, -, hfile⟩ := exists_written n
  have hplain : ∀ m ∈ stored tr, (0 : UInt8) ∉ m := by
    intro m hm
    rw [hstored] at hm
    rw [List.eq_of_mem_replicate hm]
    decide
  obtain ⟨xs, hs, hfollows⟩ := follows_run hrun hplain hP
  have hopen : step s (.openFile 1 1 true) = some (s.setFile 1 (.yes ⟨xs[0]?, 1⟩), .opened 1 (.ok ())) := by
    simp only [step, hidle 1, hfile, if_true, lmOpenLocked, Heap.listFirstEntryOrNull_ring hs.ring,
      Option.bind_eq_bind, Option.bind_some, List.head?_eq_getElem?]
  refine ⟨_, _, hrun.tail hopen, (each_concat _ _).mpr ⟨hP, Event.Aside.undisturbed trivial⟩, ?_,
    hidle, ⟨xs, ?_, setFile_self _ _ _⟩, ?_⟩
  · rw [stored_concat]
    exact hstored
  · rw [stored_concat]
    exact hs.setFile _ _
  · rw [served_concat_of_not rfl, hfollows.unopened 1 hfile]

theorem step_readLocked {t : Task} {cnt room : Nat} {cur cur' : Cursor} {text : Bytes}
    (ht : s.pc t = .readTested f cnt room) (hf : s.files f = .yes cur)
    (hread : lmReadLocked s.heap cur = some (text, cur')) :
    step s (.readLocked t) = some ((s.setFile f (.yes cur')).goto t .idle,
      .readReturned f (lmReadCopy text cnt room).1 (lmReadCopy text cnt room).2) := by
  simp only [step, ht, hf, hread]

theorem Reading.next {n k : Nat} (h : Reading n k tr s) (hk : k < n) :
    ∃ q r u, Reading n (k + 1) ((tr ++ [q]) ++ [r]) u ∧ served 1 (tr ++ [q]) = k ∧
      r.out = .readReturned 1 (.ok (line (int32 (k + 1)) [33]).length) (line (int32 (k + 1)) [33]) := by
  obtain ⟨xs, hs, hfile⟩ := h.cursor
  have hlen : xs.length = n := by rw [hs.length, h.messages, List.length_replicate]
  obtain ⟨a, ha⟩ : ∃ a, xs[k]? = some a := ⟨_, List.getElem?_eq_getElem (hlen ▸ hk)⟩
  obtain ⟨m, hm, hval⟩ := hs.val ha
  obtain rfl : m = [33] := by
    rw [h.messages] at hm
    exact List.eq_of_mem_replicate (List.mem_of_getElem? hm)
  have htest : step s (.readTest 1 1 lineSize lineSize) =
      some (s.goto 1 (.readTested 1 lineSize lineSize), .quiet) := by
    simp only [step, h.idle 1, hfile, ha]
  have hread : lmReadLocked s.heap ⟨xs[k]?, int32 (k + 1)⟩ =
      some (line (int32 (k + 1)) [33], ⟨xs[k + 1]?, int32 (k + 1 + 1)⟩) := by
    rw [lmReadLocked_ring hs.ring ha ha, hval, msgText_of _ (by decide), int32_add_int32]
  have hcopy : lmReadCopy (line (int32 (k + 1)) [33]) lineSize lineSize =
      (.ok (line (int32 (k + 1)) [33]).length, line (int32 (k + 1)) [33]) :=
    lmReadCopy_line (line_length_lt _ (by decide)) (Nat.le_refl _) (Nat.le_refl _)
  have hlocked := step_readLocked (s := s.goto 1 (.readTested 1 lineSize lineSize))
    (goto_pc_self _ _ _) hfile hread
  rw [hcopy] at hlocked
  have hcount : served 1 (tr ++ [⟨s, .readTest 1 1 lineSize lineSize, .quiet⟩]) = k := by
    rw [served_concat_of_not rfl, h.count]
  refine ⟨_, _, _, ⟨(h.run.tail htest).tail hlocked, ?_, ?_, fun t => ?_, ⟨xs, ?_, ?_⟩, ?_⟩, hcount,
    rfl⟩
  · simp only [each_concat]
    refine ⟨⟨h.undisturbed, fun _ _ _ => Event.noConfusion, ?_, fun _ _ _ _ _ t' _ _ ht' => ?_⟩, Event.Aside.undisturbed trivial⟩
    · intro t f cnt room heq
      cases heq
      exact ⟨Nat.le_refl _, Nat.le_refl _⟩
    · dsimp only at ht'
      rw [h.idle t'] at ht'
      cases ht'
  · rw [stored_concat, stored_concat]
    exact h.messages
  · by_cases ht : t = 1
    · rw [ht, goto_pc_self]
    · rw [goto_pc_other _ _ ht, setFile_pc, goto_pc_other _ _ ht]
      exact h.idle t
  · rw [stored_concat, stored_concat]
    have htested : Holds xs (stored tr) (s.goto 1 (.readTested 1 lineSize lineSize)) :=
      hs.goto (h.idle 1) id id
    exact (htested.setFile _ _).goto (goto_pc_self s 1 _) id id
  · rw [goto_files, setFile_self, Nat.cast_add, Nat.cast_one]
  · rw [served_concat, serves_readReturned, decide_eq_true (line_pos _ _), hcount]
    rfl

theorem exists_reading_of_le {n k : Nat} (hk : k ≤ n) : ∃ tr s, Reading n k tr s := by
  induction k with
  | zero => exact exists_reading n
  | succ k ih =>
    obtain ⟨tr, s, h⟩ := ih (by omega)
    obtain ⟨q, r, u, hnext, -⟩ := h.next hk
    exact ⟨_, u, hnext⟩

theorem Reading.plain {n k : Nat} (h : Reading n k tr s) : ∀ m ∈ stored tr, (0 : UInt8) ∉ m := by
  intro m hm
  rw [h.messages] at hm
  rw [List.eq_of_mem_replicate hm]
  decide

theorem lmRead_delivers_two : ∃ tr s, (Run step (State.init blank) tr s ∧ Each Undisturbed tr ∧
      stored tr = [[33], [33]] ∧ served 1 tr = 2) ∧
    Each (Delivers (fun j => int32 j) (stored tr)) tr := by
  obtain ⟨tr, s, h⟩ := exists_reading_of_le (Nat.le_refl 2)
  exact ⟨tr, s, ⟨h.run, h.undisturbed, h.messages, h.count⟩,
    lmRead_delivers blank tr s h.run h.undisturbed h.plain⟩

/-- The read number `2 ^ 31` on a file puts `-2147483648` in front of its message. -/
theorem lmRead_number_wraps : ¬ ∀ junk tr s, Run step (State.init junk) tr s →
    Each Undisturbed tr → (∀ m ∈ stored tr, (0 : UInt8) ∉ m) →
      Each (Delivers (fun j => j) (stored tr)) tr := by
  intro hall
  obtain ⟨tr, s, h⟩ := exists_reading_of_le (n := 2 ^ 31) (k := 2 ^ 31 - 1) (by omega)
  obtain ⟨q, r, u, hnext, hcount, hout⟩ := h.next (by omega)
  have hlast := ((each_concat _ _).mp (hall blank _ u hnext.run hnext.undisturbed hnext.plain)).2
  rcases hlast.2 _ _ _ hout with ⟨m, -, -, hline, -⟩ | ⟨hzero, -⟩
  · rw [hcount] at hline
    simp only [line, List.append_assoc] at hline
    exact formatInt_append_ne (by decide +kernel) (Int.natCast_nonneg _) _ _ hline
  · have := line_pos (int32 (((2 ^ 31 - 1 : Nat) : Int) + 1)) [33]
    have hret := Except.ok.inj hzero
    omega

end LinuxDriverLab.ListMsg
