import LinuxDriverLab.ListMsg.Delivery

/-!
# The bytes of a payload

A message keeps all bytes that were written, but a read prints it with `%.*s`, which ends at a NUL.
-/

namespace LinuxDriverLab.ListMsg

theorem msgText_eq (idx : Int) (m : Bytes) :
    msgText idx (Msg.of m) = line idx (formatString m.length m) := rfl

theorem line_inj {idx : Int} {m m' : Bytes} : line idx m = line idx m' ↔ m = m' := by
  simp [line]

/-! ## The number in a cursor -/

def IdxInt (s : State) : Prop := ∀ f cur, s.files f = .yes cur → ∃ i, cur.idx = int32 i

variable {s u : State}

theorem IdxInt.setFile {o : Opened} (f : File) (h : IdxInt s)
    (ho : ∀ cur, o = .yes cur → ∃ i, cur.idx = int32 i) : IdxInt (s.setFile f o) := by
  intro g cur hg
  by_cases hgf : g = f
  · subst hgf
    rw [setFile_self] at hg
    exact ho cur hg
  · rw [setFile_other s _ hgf] at hg
    exact h g cur hg

theorem lmReadLocked_idx {h : Heap Msg} {cur cur' : Cursor} {text : Bytes}
    (hread : lmReadLocked h cur = some (text, cur')) : cur'.idx = int32 (cur.idx + 1) := by
  simp only [lmReadLocked, Option.bind_eq_bind, Option.bind_eq_some_iff] at hread
  obtain ⟨pos, -, m, -, last, -, hend⟩ := hread
  cases last with
  | true =>
    cases hend
    rfl
  | false =>
    obtain ⟨next, -, hend⟩ := Option.bind_eq_some_iff.mp hend
    cases hend
    rfl

theorem lmOpenLocked_idx {h : Heap Msg} {cur : Cursor} (hopen : lmOpenLocked h = some cur) :
    cur.idx = 1 := by
  simp only [lmOpenLocked, Option.bind_eq_bind, Option.bind_eq_some_iff] at hopen
  obtain ⟨pos, -, hend⟩ := hopen
  cases hend
  rfl

theorem idxInt_step {e : Event} {o : Shown} (h : IdxInt s) (hs : step s e = some (u, o)) :
    IdxInt u := by
  cases step_move hs with
  | openFile _ _ hcur =>
    apply h.setFile
    intro cur heq
    cases heq
    exact ⟨1, lmOpenLocked_idx hcur⟩
  | release => exact h.setFile _ nofun
  | readLocked _ _ hread =>
    refine IdxInt.setFile _ h ?_
    intro cur heq
    cases heq
    exact ⟨_, lmReadLocked_idx hread⟩
  | clearReset _ hf =>
    refine IdxInt.setFile _ h ?_
    intro cur heq
    cases heq
    obtain ⟨i, hi⟩ := h _ _ hf
    exact ⟨i, hi⟩
  | _ => exact h

theorem idxInt_run {junk : Heap Msg} {tr : List (Record State Event Shown)}
    (h : Run step (State.init junk) tr s) : IdxInt s :=
  h.invariant nofun fun _ _ _ _ hI hs => idxInt_step hI hs

/-! ## What a read returns -/

/-- A read that takes the `i`-th message into a buffer that has room for any line returns it up to
its first NUL. -/
theorem Holds.readLocked {xs : List Addr} {msgs : List Bytes} {t : Task} {f : File} {cnt room : Nat}
    {cur : Cursor} {a : Addr} {i : Nat} (h : Holds xs msgs s) (hidx : IdxInt s)
    (hmsgs : ∀ m ∈ msgs, m.length ≤ msgMax) (ht : s.pc t = .readTested f cnt room)
    (hf : s.files f = .yes cur) (hpos : cur.pos = some a) (hi : xs[i]? = some a)
    (hcnt : lineSize ≤ cnt) (hroom : lineSize ≤ room) :
    ∃ payload u data, msgs[i]? = some payload ∧
      step s (.readLocked t) = some (u, .readReturned f (.ok data.length) data) ∧
      data = line cur.idx (formatString payload.length payload) := by
  obtain ⟨payload, hpayload, hval⟩ := h.val hi
  obtain ⟨j, hj⟩ := hidx f cur hf
  have hread := lmReadLocked_ring h.ring hpos hi
  rw [hval, msgText_eq] at hread
  have hfits : (line cur.idx (formatString payload.length payload)).length < lineSize := by
    rw [hj]
    apply line_length_lt
    exact (formatString_length_le _ _).trans (hmsgs _ (List.mem_of_getElem? hpayload))
  have hstep := step_readLocked ht hf hread
  rw [lmReadCopy_line hfits hcnt hroom] at hstep
  exact ⟨payload, _, _, hpayload, hstep, rfl⟩

/-- In every state reached, a read that takes the `i`-th linked message into such a buffer returns
all its bytes exactly if it has no NUL. -/
theorem lmRead_keeps_payload_iff (junk : Heap Msg) (tr : List (Record State Event Shown)) (s : State)
    (h : Run step (State.init junk) tr s) :
    ∃ xs : List Addr, s.heap.IsRing xs ∧ ∀ t f cnt room cur a (i : Nat),
      s.pc t = .readTested f cnt room → s.files f = .yes cur → cur.pos = some a → xs[i]? = some a →
      lineSize ≤ cnt → lineSize ≤ room →
      ∃ payload u data, (stored tr)[i]? = some payload ∧
        step s (.readLocked t) = some (u, .readReturned f (.ok data.length) data) ∧
        data = line cur.idx (payload.takeWhile (· ≠ 0)) ∧
        (data = line cur.idx payload ↔ (0 : UInt8) ∉ payload) := by
  obtain ⟨xs, hs⟩ := holds_run h
  refine ⟨xs, hs.ring, ?_⟩
  intro t f cnt room cur a i ht hf hpos hi hcnt hroom
  obtain ⟨payload, u, data, hpayload, hstep, hdata⟩ :=
    hs.readLocked (idxInt_run h) (fun _ => length_of_mem_stored) ht hf hpos hi hcnt hroom
  refine ⟨payload, u, data, hpayload, hstep, ?_, ?_⟩
  · rw [hdata, formatString, List.take_length]
  · rw [hdata, line_inj]
    exact formatString_eq_self_iff (Nat.le_refl _)

/-- One message is stored, and task 1 is about to read it on file 1. -/
structure Waiting (payload : Bytes) (tr : List (Record State Event Shown)) (s : State) : Prop where
  run : Run step (State.init blank) tr s
  messages : stored tr = [payload]
  tested : s.pc 1 = .readTested 1 152 152
  cursor : s.files 1 = .yes ⟨some 7, 1⟩
  first : s.heap.listFirstEntryOrNull = some (some 7)

def waiting (payload : Bytes) (x : List (Record State Event Shown) × State) : Bool :=
  stored x.1 == [payload] && x.2.heap.listFirstEntryOrNull == some (some 7) &&
    (match x.2.pc 1 with
      | .readTested f cnt room => f == 1 && cnt == 152 && room == 152
      | _ => false) &&
    match x.2.files 1 with
    | .yes cur => cur == ⟨some 7, 1⟩
    | _ => false

theorem exists_waiting (payload : Bytes)
    (h : (exec step (State.init blank) [.openFile 0 0 true, .write 0 0 payload payload.length (some 7),
      .writeLocked 0, .openFile 1 1 true, .readTest 1 1 152 152]).any (waiting payload) = true) :
    ∃ tr s, Waiting payload tr s := by
  obtain ⟨tr, s, hrun, -, hq⟩ := exists_exec step (State.init blank) _ _ h
  simp only [waiting, Bool.and_eq_true, beq_iff_eq] at hq
  obtain ⟨⟨⟨hstored, hfirst⟩, hpc⟩, hfile⟩ := hq
  refine ⟨tr, s, hrun, hstored, ?_, ?_, hfirst⟩
  · split at hpc
    · next heq =>
      simp only [Bool.and_eq_true, beq_iff_eq] at hpc
      obtain ⟨⟨rfl, rfl⟩, rfl⟩ := hpc
      exact heq
    · cases hpc
  · split at hfile
    · next heq => rw [heq, beq_iff_eq.mp hfile]
    · cases hfile

theorem Waiting.ring {payload : Bytes} {tr : List (Record State Event Shown)} {xs : List Addr}
    (h : Waiting payload tr s) (hring : s.heap.IsRing xs) : xs[0]? = some 7 := by
  rw [← List.head?_eq_getElem?]
  exact Option.some.inj ((Heap.listFirstEntryOrNull_ring hring).symm.trans h.first)

/-- The message `a`, newline, `b` is read back whole. -/
theorem lmRead_keeps_payload_iff_newline : ∃ tr s u, Run step (State.init blank) tr s ∧
    stored tr = [[97, 10, 98]] ∧
    step s (.readLocked 1) = some (u, .readReturned 1 (.ok 7) [49, 58, 32, 97, 10, 98, 10]) := by
  obtain ⟨tr, s, h⟩ := exists_waiting [97, 10, 98] (by decide +kernel)
  obtain ⟨xs, hring, hread⟩ := lmRead_keeps_payload_iff blank tr s h.run
  obtain ⟨payload, u, data, hpayload, hstep, -, hiff⟩ :=
    hread 1 1 152 152 _ 7 0 h.tested h.cursor rfl (h.ring hring) (by decide) (by decide)
  rw [h.messages] at hpayload
  cases hpayload
  rw [hiff.mpr (by decide)] at hstep
  exact ⟨tr, s, u, h.run, h.messages, hstep⟩

/-- Of the message `a`, NUL, `b` a read returns the `a`. -/
theorem lmRead_ends_at_nul : ¬ ∀ junk tr s, Run step (State.init junk) tr s →
    ∀ xs : List Addr, s.heap.IsRing xs → ∀ t f cnt room cur a (i : Nat),
      s.pc t = .readTested f cnt room → s.files f = .yes cur → cur.pos = some a → xs[i]? = some a →
      lineSize ≤ cnt → lineSize ≤ room →
      ∃ payload u, (stored tr)[i]? = some payload ∧
        step s (.readLocked t) =
          some (u, .readReturned f (.ok (line cur.idx payload).length) (line cur.idx payload)) := by
  intro hall
  obtain ⟨tr, s, h⟩ := exists_waiting [97, 0, 98] (by decide +kernel)
  obtain ⟨xs, hs⟩ := holds_run h.run
  have hi := h.ring hs.ring
  obtain ⟨payload, u, hpayload, hwhole⟩ := hall blank tr s h.run xs hs.ring 1 1 152 152 _ 7 0 h.tested
    h.cursor rfl hi (by decide) (by decide)
  obtain ⟨payload', u', data, hpayload', hstep, hdata⟩ := hs.readLocked (idxInt_run h.run)
    (fun _ => length_of_mem_stored) h.tested h.cursor rfl hi (by decide) (by decide)
  rw [h.messages] at hpayload hpayload'
  cases hpayload
  cases hpayload'
  rw [hwhole] at hstep
  simp only [Option.some.injEq, Prod.mk.injEq, Shown.readReturned.injEq] at hstep
  rw [hdata] at hstep
  exact absurd (line_inj.mp hstep.2.2.2) (by decide)

end LinuxDriverLab.ListMsg
