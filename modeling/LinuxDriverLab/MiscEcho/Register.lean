import LinuxDriverLab.Framework.Intent
import LinuxDriverLab.MiscEcho.Driver

/-!
# misc_echo as an atomic register

The register holds the bytes of the latest write. The order of the locked sections is an order of
the calls in which every read returns a slice of the register.
-/

namespace LinuxDriverLab.MiscEcho

/-- The readable bytes of the device. -/
def Dev.content (d : Dev) : Bytes := d.msg.bytes.take d.msgLen

theorem content_length {d : Dev} (h : d.msgLen ≤ msgMax) : d.content.length = d.msgLen := by
  have := d.msg.length_eq
  simp only [Dev.content, List.length_take]
  omega

theorem edRead_clamp (cnt : Nat) {len pos : Nat} (hlen : len ≤ msgMax) (hpos : pos < len) :
    (if cnt > usub64 len pos then usub64 len pos else cnt) = min cnt (len - pos) := by
  rw [usub64_of_le hpos.le (by simp only [msgMax] at hlen; omega)]
  exact clamp_eq_min cnt (len - pos)

theorem edRead_ok {d : Dev} {room cnt pos : Nat} (hlen : d.msgLen ≤ msgMax)
    (hroom : min cnt (d.msgLen - pos) ≤ room) :
    edRead d room cnt pos =
      ⟨.ok (slice d.content pos cnt).length, slice d.content pos cnt,
        pos + (slice d.content pos cnt).length⟩ := by
  have hc := content_length hlen
  by_cases hpos : pos ≥ d.msgLen
  · have hs : slice d.content pos cnt = [] := slice_of_length_le (by omega) cnt
    simp [edRead, hpos, hs]
  · have hclamp := edRead_clamp cnt hlen (Nat.lt_of_not_ge hpos)
    have hs : slice d.content pos cnt = slice d.msg.bytes pos (min cnt (d.msgLen - pos)) := by
      have hcut : slice d.content pos cnt = slice d.content pos (min cnt (d.msgLen - pos)) := by
        simp only [slice, Dev.content, List.drop_take, List.take_take]
        congr 1
        omega
      rw [hcut, Dev.content, slice_take (by omega)]
    have hn : (slice d.content pos cnt).length = min cnt (d.msgLen - pos) := by
      rw [slice_length, hc]
    have hsrc : min cnt (d.msgLen - pos) ≤ (d.msg.bytes.drop pos).length := by
      have := d.msg.length_eq
      rw [List.length_drop]
      omega
    simp only [edRead, hpos, if_false, hclamp]
    rw [copyToUser_of_le hsrc hroom, if_neg (by simp), hn, hs]
    rfl

theorem edWriteLocked_ok {d : Dev} {u : Bytes} {cnt : Nat} (hcnt : cnt ≤ msgMax) (hu : cnt ≤ u.length) :
    (edWriteLocked d u cnt).1.msgLen = cnt ∧ (edWriteLocked d u cnt).1.content = u.take cnt ∧
      (edWriteLocked d u cnt).2 = .ok cnt := by
  have hlen : (u.take cnt).length = cnt := by simp [hu]
  have hstore := d.msg.store_start (show (u.take cnt).length ≤ msgMax by omega)
  have hval : edWriteLocked d u cnt = (⟨d.msg.store 0 (u.take cnt), cnt⟩, .ok cnt) := by
    simp [edWriteLocked, copyFromUser_of_le hu]
  rw [hval]
  refine ⟨rfl, ?_, rfl⟩
  rw [Dev.content, hstore]
  exact List.take_left' hlen

theorem edWriteClamp_eq (cnt : Nat) : edWriteClamp cnt = min cnt msgMax :=
  clamp_eq_min cnt msgMax

/-- The part of an event in the writes, read off its arguments. -/
def Event.intent : Event → Intent Task Bytes
  | .writeEnter t _ u count => .prepare t (u.take (min count msgMax))
  | .writeLocked t => .commit t
  | _ => .other

/-- The register after the events `es`: the first 256 bytes of the write that was the last to take the
lock. -/
def register (es : List Event) : Bytes := (asked (fun _ w => w) Event.intent [] es).value

/-- The write a step commits to the register. -/
def committed (r : Record State Event Shown) : Option Bytes :=
  match r.out with
  | .wrote _ u count _ => some (u.take (min count msgMax))
  | _ => none

/-- A call is handed user memory that it can access. -/
def Accessible (_ : List (Record State Event Shown)) (r : Record State Event Shown) : Prop :=
  match r.event with
  | .readEnter _ _ room cnt => min cnt msgMax ≤ room
  | .writeEnter _ _ u count => min count msgMax ≤ u.length
  | _ => True

/-- A write in flight has cut its count to the size of the buffer. -/
def Pc.Clamped : Pc → Prop
  | .writeClamped _ _ count cnt _ => cnt = min count msgMax
  | _ => True

theorem clamped_goto {s : State} {t : Task} {pc : Pc} (h : ∀ t, (s.pc t).Clamped)
    (hpc : pc.Clamped) : ∀ t', ((s.goto t pc).pc t').Clamped :=
  (Function.forall_update_iff _ fun _ q => Pc.Clamped q).mpr ⟨hpc, fun t' _ => h t'⟩

theorem clamped_step {s u : State} {e : Event} {o : Shown} (h : ∀ t, (s.pc t).Clamped)
    (hstep : step s e = some (u, o)) : ∀ t, (u.pc t).Clamped := by
  cases step_move hstep with
  | readEnter => exact clamped_goto h trivial
  | readLocked => exact clamped_goto h trivial
  | writeEnter => exact clamped_goto h (edWriteClamp_eq _)
  | writeLocked => exact clamped_goto (s := { s with dev := _ }) h trivial
  | ret => exact clamped_goto (s := { s with pos := _ }) h trivial

/-- The user memory of a call in flight can be accessed. -/
def Pc.Reaches : Pc → Prop
  | .readEntered _ room cnt _ => min cnt msgMax ≤ room
  | .writeClamped _ u count _ _ => min count msgMax ≤ u.length
  | _ => True

theorem reaches_goto {s : State} {t : Task} {pc : Pc} (h : ∀ t, (s.pc t).Reaches)
    (hpc : pc.Reaches) : ∀ t', ((s.goto t pc).pc t').Reaches :=
  (Function.forall_update_iff _ fun _ q => Pc.Reaches q).mpr ⟨hpc, fun t' _ => h t'⟩

theorem reaches_step {tr : List (Record State Event Shown)} {s u : State} {e : Event} {o : Shown}
    (h : ∀ t, (s.pc t).Reaches) (hmem : Accessible tr ⟨s, e, o⟩) (hstep : step s e = some (u, o)) :
    ∀ t, (u.pc t).Reaches := by
  cases step_move hstep with
  | readEnter => exact reaches_goto h hmem
  | readLocked => exact reaches_goto h trivial
  | writeEnter => exact reaches_goto h hmem
  | writeLocked => exact reaches_goto (s := { s with dev := _ }) h trivial
  | ret => exact reaches_goto (s := { s with pos := _ }) h trivial

/-- The task is about to take the lock with the write `w`. -/
def Ready (s : State) (t : Task) (w : Bytes) : Prop :=
  ∃ f u count cnt pos, s.pc t = .writeClamped f u count cnt pos ∧ w = u.take (min count msgMax)

theorem ready_goto {s : State} {t t' : Task} {pc : Pc} {w : Bytes}
    (hpc : ∀ f u count cnt pos, pc ≠ .writeClamped f u count cnt pos) (h : Ready (s.goto t pc) t' w) :
    t' ≠ t ∧ Ready s t' w := by
  obtain ⟨f, u, count, cnt, pos, ht, hw⟩ := h
  by_cases heq : t' = t
  · subst heq
    rw [goto_pc_self] at ht
    exact absurd ht (hpc _ _ _ _ _)
  · rw [goto_pc_other _ _ heq] at ht
    exact ⟨heq, f, u, count, cnt, pos, ht, hw⟩

theorem intent_step {s u : State} {e : Event} {o : Shown} (hstep : step s e = some (u, o)) :
    Intent.Fits Ready s u e.intent (committed ⟨s, e, o⟩) := by
  cases step_move hstep with
  | readEnter => exact .other fun t w h => (ready_goto (by simp) h).2
  | readLocked => exact .other fun t w h => (ready_goto (by simp) h).2
  | @writeEnter t f b count hpc =>
    refine .prepare fun t' w h => ?_
    obtain ⟨f', b', count', cnt, pos, ht, rfl⟩ := h
    by_cases heq : t' = t
    · subst heq
      rw [goto_pc_self] at ht
      cases ht
      exact .inl ⟨rfl, rfl⟩
    · rw [goto_pc_other _ _ heq] at ht
      exact .inr ⟨heq, f', b', count', cnt, pos, ht, rfl⟩
  | @writeLocked t f b count cnt pos hpc =>
    exact .commit ⟨f, b, count, cnt, pos, hpc, rfl⟩ fun t' w h =>
      ready_goto (s := { s with dev := _ }) (by simp) h
  | ret => exact .other fun t w h => (ready_goto (s := { s with pos := _ }) (by simp) h).2

theorem register_eq {pos : File → Nat} {tr : List (Record State Event Shown)} {s : State}
    (h : Run step (State.init pos) tr s) :
    register (tr.map Record.event) = replay (fun _ w => w) committed [] tr := by
  refine (h.asked_eq Ready committed Event.intent ?_ ?_).1
  · rintro t w ⟨f, u, count, cnt, p, ht, -⟩
    cases ht
  · exact fun _ _ _ _ _ _ hs => intent_step hs

/-- The device holds `reg`. -/
structure Holds (reg : Bytes) (s : State) : Prop where
  len : s.dev.msgLen ≤ msgMax
  content : s.dev.content = reg
  clamped : ∀ t, (s.pc t).Clamped
  reaches : ∀ t, (s.pc t).Reaches

theorem Holds.writeLocked {reg : Bytes} {s : State} {t : Task} {f : File} {w : Bytes} {count cnt pos : Nat}
    (h : Holds reg s) (hpc : s.pc t = .writeClamped f w count cnt pos) :
    cnt = min count msgMax ∧ (edWriteLocked s.dev w cnt).1.msgLen = cnt ∧
      (edWriteLocked s.dev w cnt).1.content = w.take cnt ∧ (edWriteLocked s.dev w cnt).2 = .ok cnt := by
  have hcnt := h.clamped t
  have hmem := h.reaches t
  rw [hpc] at hcnt hmem
  have hcnt : cnt = min count msgMax := hcnt
  have hmem : min count msgMax ≤ w.length := hmem
  exact ⟨hcnt, edWriteLocked_ok (by omega) (by omega)⟩

theorem holds_step {tr : List (Record State Event Shown)} {reg : Bytes} {s u : State} {e : Event} {o : Shown}
    (h : Holds reg s) (hmem : Accessible tr ⟨s, e, o⟩) (hstep : step s e = some (u, o)) :
    Holds ((committed ⟨s, e, o⟩).getD reg) u := by
  have hclamped := clamped_step h.clamped hstep
  have hreaches := reaches_step h.reaches hmem hstep
  cases step_move hstep with
  | @writeLocked t f w count cnt pos hpc =>
    obtain ⟨rfl, hlen, hcontent, -⟩ := h.writeLocked hpc
    refine ⟨?_, hcontent, hclamped, hreaches⟩
    simp only [goto_dev, hlen]
    exact Nat.min_le_right _ _
  | _ => exact ⟨h.len, h.content, hclamped, hreaches⟩

theorem holds_run {pos : File → Nat} {tr : List (Record State Event Shown)} {s : State}
    (h : Run step (State.init pos) tr s) (hmem : Each Accessible tr) :
    Holds (register (tr.map Record.event)) s := by
  rw [register_eq h]
  refine h.guarded (I := fun tr s => Holds (replay (fun _ w => w) committed [] tr) s) hmem ?_ ?_
  · exact ⟨Nat.zero_le _, rfl, fun _ => trivial, fun _ => trivial⟩
  · intro tr t e u o _ hI hP hs
    have hnext := holds_step hI hP hs
    rw [replay_concat]
    cases hc : committed ⟨t, e, o⟩ <;> rw [hc] at hnext <;> exact hnext

/-- What the steps of the calls answer in a state whose register is `reg`. -/
structure Answers (reg : Bytes) (s : State) : Prop where
  readEnter : ∀ t f room cnt, s.pc t = .idle →
    step s (.readEnter t f room cnt) = some (s.goto t (.readEntered f room cnt (s.pos f)), .quiet)
  read : ∀ t f room cnt p, s.pc t = .readEntered f room cnt p →
    step s (.readLocked t) = some
      (s.goto t (.done f ⟨.ok (min cnt (reg.length - p)), slice reg p cnt, p + min cnt (reg.length - p)⟩),
        .read f cnt p
          ⟨.ok (min cnt (reg.length - p)), slice reg p cnt, p + min cnt (reg.length - p)⟩)
  writeEnter : ∀ t f u count, s.pc t = .idle →
    step s (.writeEnter t f u count) =
      some (s.goto t (.writeClamped f u count (min count msgMax) (s.pos f)), .quiet)
  write : ∀ t f u count cnt p, s.pc t = .writeClamped f u count cnt p →
    ∃ v, step s (.writeLocked t) = some (v, .wrote f u count (.ok (min count msgMax))) ∧
      v.pc t = .done f ⟨.ok (min count msgMax), [], p⟩ ∧ v.pos = s.pos
  ret : ∀ t f res, s.pc t = .done f res →
    ∃ v, step s (.ret t) = some (v, .returned f res) ∧ v.dev = s.dev ∧ v.pos = storePos s.pos f res ∧
      ∀ g, g ≠ f → v.pos g = s.pos g

theorem holds_answers {reg : Bytes} {s : State} (h : Holds reg s) : Answers reg s := by
  have hlen : reg.length = s.dev.msgLen := by rw [← h.content, content_length h.len]
  constructor
  · intro t f room cnt hpc
    simp only [step, hpc]
  · intro t f room cnt p hpc
    have hmem := h.reaches t
    rw [hpc] at hmem
    have hmem : min cnt msgMax ≤ room := hmem
    have hleft : min cnt (s.dev.msgLen - p) ≤ room := by
      have := h.len
      omega
    have hread := edRead_ok h.len hleft
    rw [slice_length, h.content] at hread
    simp only [step, hpc, hread]
  · intro t f u count hpc
    simp only [step, hpc, edWriteClamp_eq]
  · intro t f u count cnt p hpc
    obtain ⟨rfl, -, -, hret⟩ := h.writeLocked hpc
    refine ⟨{ s with dev := (edWriteLocked s.dev u (min count msgMax)).1 }.goto t
      (.done f ⟨.ok (min count msgMax), [], p⟩), ?_, goto_pc_self _ _ _, rfl⟩
    simp only [step, hpc, hret]
  · intro t f res hpc
    refine ⟨{ s with pos := storePos s.pos f res }.goto t .idle, by simp only [step, hpc], rfl, rfl, ?_⟩
    intro g hg
    exact storePos_other _ _ hg

/-- A call of task `t` on file `f` that was entered in the steps `tr`, took its locked section at
one step after that, with the position the file had at the entry, and got the result `res` there. -/
def Committed (tr : List (Record State Event Shown)) (t : Task) (f : File) (res : ReadResult) :
    Prop :=
  ∃ before enter between lock after,
    tr = before ++ enter :: (between ++ lock :: after) ∧
    (∀ r ∈ between ++ after, r.event.task ≠ t) ∧
    ((∃ room cnt, enter.event = .readEnter t f room cnt ∧ lock.event = .readLocked t ∧
        lock.out = .read f cnt (enter.pre.pos f) res) ∨
      (∃ u count ret, enter.event = .writeEnter t f u count ∧ lock.event = .writeLocked t ∧
        lock.out = .wrote f u count ret ∧ res = ⟨ret, [], enter.pre.pos f⟩))

/-- A call of task `t` that was entered in the steps `tr` by the event `e` on file `f` at position
`pos`, and has made no step since. -/
def Entered (tr : List (Record State Event Shown)) (t : Task) (e : Event) (f : File) (pos : Nat) :
    Prop :=
  ∃ before enter after, tr = before ++ enter :: after ∧ (∀ r ∈ after, r.event.task ≠ t) ∧
    enter.event = e ∧ enter.pre.pos f = pos

/-- What the steps so far say of the call a task is in. -/
def CallPlaced (tr : List (Record State Event Shown)) (t : Task) : Pc → Prop
  | .idle => True
  | .readEntered f room cnt pos => Entered tr t (.readEnter t f room cnt) f pos
  | .writeClamped f u count _ pos => Entered tr t (.writeEnter t f u count) f pos
  | .done f res => Committed tr t f res

theorem callPlaced_concat {tr : List (Record State Event Shown)} {t : Task} {pc : Pc}
    {r : Record State Event Shown} (h : CallPlaced tr t pc) (hr : r.event.task ≠ t) :
    CallPlaced (tr ++ [r]) t pc := by
  have entered {e : Event} {f : File} {pos : Nat} (h : Entered tr t e f pos) :
      Entered (tr ++ [r]) t e f pos := by
    obtain ⟨before, enter, after, htr, hafter, he⟩ := h
    refine ⟨before, enter, after ++ [r], by simp [htr], ?_, he⟩
    simp only [List.forall_mem_append, List.forall_mem_singleton]
    exact ⟨hafter, hr⟩
  cases pc with
  | idle => trivial
  | readEntered => exact entered h
  | writeClamped => exact entered h
  | done f res =>
    obtain ⟨before, enter, between, lock, after, htr, hother, hcall⟩ := h
    refine ⟨before, enter, between, lock, after ++ [r], by simp [htr], ?_, hcall⟩
    rw [← List.append_assoc, List.forall_mem_append, List.forall_mem_singleton]
    exact ⟨hother, hr⟩

theorem entered_concat {tr : List (Record State Event Shown)} {t : Task}
    {r : Record State Event Shown} (f : File) :
    Entered (tr ++ [r]) t r.event f (r.pre.pos f) :=
  ⟨tr, r, [], rfl, by simp, rfl, rfl⟩

theorem callPlaced_step {tr : List (Record State Event Shown)} {s u : State} {e : Event} {o : Shown}
    (h : ∀ t, CallPlaced tr t (s.pc t)) (hstep : step s e = some (u, o)) (t : Task) :
    CallPlaced (tr ++ [⟨s, e, o⟩]) t (u.pc t) := by
  by_cases ht : t = e.task
  · subst ht
    cases step_move hstep with
    | readEnter => rw [Event.task, goto_pc_self]; exact entered_concat _
    | @readLocked t f room cnt pos hpc =>
      have hc := h t
      rw [hpc] at hc
      obtain ⟨before, enter, after, htr, hafter, he, rfl⟩ := hc
      rw [Event.task, goto_pc_self]
      refine ⟨before, enter, after, ⟨s, .readLocked t, .read f cnt (enter.pre.pos f)
        (edRead s.dev room cnt (enter.pre.pos f))⟩, [], ?_, ?_, .inl ⟨room, cnt, he, rfl, rfl⟩⟩
      · rw [htr, List.append_assoc]
        rfl
      · simpa using hafter
    | writeEnter => rw [Event.task, goto_pc_self]; exact entered_concat _
    | @writeLocked t f w count cnt pos hpc =>
      have hc := h t
      rw [hpc] at hc
      obtain ⟨before, enter, after, htr, hafter, he, rfl⟩ := hc
      rw [Event.task, goto_pc_self]
      refine ⟨before, enter, after, ⟨s, .writeLocked t, .wrote f w count
        (edWriteLocked s.dev w cnt).2⟩, [], ?_, ?_, .inr ⟨w, count, _, he, rfl, rfl, rfl⟩⟩
      · rw [htr, List.append_assoc]
        rfl
      · simpa using hafter
    | ret => rw [Event.task, goto_pc_self]; trivial
  · have hpc : u.pc t = s.pc t := by
      cases step_move hstep with
      | readEnter => exact goto_pc_other _ _ ht
      | readLocked => exact goto_pc_other _ _ ht
      | writeEnter => exact goto_pc_other _ _ ht
      | writeLocked => exact goto_pc_other { s with dev := _ } _ ht
      | ret => exact goto_pc_other { s with pos := _ } _ ht
    rw [hpc]
    exact callPlaced_concat (h t) (Ne.symm ht)

theorem callPlaced_run {pos : File → Nat} {tr : List (Record State Event Shown)} {s : State}
    (h : Run step (State.init pos) tr s) (t : Task) : CallPlaced tr t (s.pc t) := by
  refine h.history (I := fun tr s => ∀ t, CallPlaced tr t (s.pc t)) ?_ ?_ t
  · intro t
    trivial
  · intro tr t e u o _ hI hs
    exact callPlaced_step hI hs

/-- No call is in flight on the file. -/
def FileIdle (s : State) (f : File) : Prop := ∀ t, (s.pc t).file ≠ some f

/-- The step belongs to a series of reads on `f`: no write takes effect, and only reads go through
`f`, each entered when no other call on `f` is in flight. -/
def ReadSeries (f : File) (_ : List (Record State Event Shown)) (r : Record State Event Shown) :
    Prop :=
  (∀ t, r.event ≠ .writeLocked t) ∧
    (∀ t room cnt, r.event = .readEnter t f room cnt → FileIdle r.pre f) ∧
    (∀ t u count, r.event ≠ .writeEnter t f u count)

/-- The bytes that a step hands to the reader of `f`. -/
def delivered (f : File) (r : Record State Event Shown) : Bytes :=
  match r.out with
  | .returned g res => if g = f then res.data else []
  | _ => []

/-- The call a task is in continues a series of reads on `f` that has come to position `p`. -/
def Continues (f : File) (content : Bytes) (p : Nat) : Pc → Prop
  | .idle => True
  | .readEntered g _ _ pos => g = f → pos = p
  | .writeClamped g .. => g ≠ f
  | .done g res => g = f → ∃ cnt, res = ⟨.ok (slice content p cnt).length, slice content p cnt,
      p + (slice content p cnt).length⟩

structure SeriesInv (f : File) (content : Bytes) (p : Nat) (dev : Dev)
    (tr : List (Record State Event Shown)) (s : State) : Prop where
  dev_eq : s.dev = dev
  reaches : ∀ t, (s.pc t).Reaches
  pos_eq : s.pos f = p + (tr.flatMap (delivered f)).length
  bytes : tr.flatMap (delivered f) = slice content p (tr.flatMap (delivered f)).length
  alone : ∀ t t', (s.pc t).file = some f → (s.pc t').file = some f → t = t'
  calls : ∀ t, Continues f content (s.pos f) (s.pc t)

theorem seriesInv_goto {f : File} {content : Bytes} {p : Nat} {dev : Dev}
    {tr : List (Record State Event Shown)} {s : State} {t : Task} {pc : Pc}
    {r : Record State Event Shown} (h : SeriesInv f content p dev tr s) (hr : delivered f r = [])
    (hpc : pc.Reaches) (halone : pc.file = some f → FileIdle s f ∨ (s.pc t).file = some f)
    (hcont : Continues f content (s.pos f) pc) :
    SeriesInv f content p dev (tr ++ [r]) (s.goto t pc) := by
  have hflat : (tr ++ [r]).flatMap (delivered f) = tr.flatMap (delivered f) := by simp [hr]
  refine ⟨h.dev_eq, reaches_goto h.reaches hpc, ?_, ?_, ?_, ?_⟩
  · rw [hflat]
    exact h.pos_eq
  · rw [hflat]
    exact h.bytes
  · intro a b ha hb
    by_cases hat : a = t <;> by_cases hbt : b = t
    · rw [hat, hbt]
    · subst a
      rw [goto_pc_self] at ha
      rw [goto_pc_other _ _ hbt] at hb
      rcases halone ha with hidle | hown
      · exact absurd hb (hidle b)
      · exact h.alone _ _ hown hb
    · subst b
      rw [goto_pc_self] at hb
      rw [goto_pc_other _ _ hat] at ha
      rcases halone hb with hidle | hown
      · exact absurd ha (hidle a)
      · exact h.alone _ _ ha hown
    · rw [goto_pc_other _ _ hat] at ha
      rw [goto_pc_other _ _ hbt] at hb
      exact h.alone _ _ ha hb
  · intro a
    by_cases hat : a = t
    · subst a
      rw [goto_pc_self]
      exact hcont
    · rw [goto_pc_other _ _ hat]
      exact h.calls a

theorem continues_other {f : File} {content : Bytes} {p : Nat} {pc : Pc}
    (h : pc.file ≠ some f) : Continues f content p pc := by
  cases pc with
  | idle => trivial
  | readEntered g => exact fun hg => absurd (congrArg some hg) h
  | writeClamped g => exact fun hg => h (congrArg some hg)
  | done g => exact fun hg => absurd (congrArg some hg) h

theorem seriesInv_returned {f : File} {content : Bytes} {p : Nat} {dev : Dev}
    {tr : List (Record State Event Shown)} {s : State} {t : Task} {res : ReadResult}
    (h : SeriesInv f content p dev tr s) (hpc : s.pc t = .done f res) :
    SeriesInv f content p dev (tr ++ [⟨s, .ret t, .returned f res⟩])
      (({ s with pos := storePos s.pos f res } : State).goto t .idle) := by
  have hcall := h.calls t
  rw [hpc] at hcall
  obtain ⟨cnt, hres⟩ := hcall rfl
  have hflat : (tr ++ [Record.mk s (Event.ret t) (Shown.returned f res)]).flatMap (delivered f) =
      tr.flatMap (delivered f) ++ slice content (s.pos f) cnt := by
    simp [delivered, hres]
  have hpos : storePos s.pos f res f = s.pos f + (slice content (s.pos f) cnt).length := by
    simp [storePos, hres]
  have hidle : ∀ a, ((({ s with pos := storePos s.pos f res } : State).goto t .idle).pc a).file ≠
      some f := by
    intro a
    by_cases ha : a = t
    · subst a
      simp [Pc.file]
    · rw [goto_pc_other _ _ ha]
      intro hfile
      exact ha (h.alone a t hfile (by rw [hpc]; rfl))
  refine ⟨h.dev_eq, reaches_goto (s := { s with pos := _ }) h.reaches trivial, ?_, ?_, ?_, ?_⟩
  · change storePos s.pos f res f = _
    rw [hflat, hpos, List.length_append, ← Nat.add_assoc, ← h.pos_eq]
  · rw [hflat, List.length_append, slice_append, ← h.pos_eq, slice_self_length, ← h.bytes]
  · intro a b ha
    exact absurd ha (hidle a)
  · intro a
    exact continues_other (hidle a)

theorem seriesInv_storePos {f g : File} {content : Bytes} {p : Nat} {dev : Dev}
    {tr : List (Record State Event Shown)} {s : State} (h : SeriesInv f content p dev tr s)
    (res : ReadResult) (hg : g ≠ f) :
    SeriesInv f content p dev tr { s with pos := storePos s.pos g res } := by
  have hother : storePos s.pos g res f = s.pos f := storePos_other _ _ (Ne.symm hg)
  refine ⟨h.dev_eq, h.reaches, hother.trans h.pos_eq, h.bytes, h.alone, ?_⟩
  intro a
  change Continues f content (storePos s.pos g res f) (s.pc a)
  rw [hother]
  exact h.calls a

theorem seriesInv_step {f : File} {p : Nat} {dev : Dev} (hlen : dev.msgLen ≤ msgMax)
    {tr : List (Record State Event Shown)} {s u : State} {e : Event} {o : Shown}
    (h : SeriesInv f dev.content p dev tr s) (hmem : Accessible tr ⟨s, e, o⟩)
    (hseries : ReadSeries f tr ⟨s, e, o⟩) (hstep : step s e = some (u, o)) :
    SeriesInv f dev.content p dev (tr ++ [⟨s, e, o⟩]) u := by
  obtain ⟨hnowrite, hreads, hnowriter⟩ := hseries
  cases step_move hstep with
  | @readEnter t g room cnt hpc =>
    refine seriesInv_goto h rfl ?_ ?_ ?_
    · exact hmem
    · intro hg
      obtain rfl : g = f := by simpa [Pc.file] using hg
      exact .inl (hreads t room cnt rfl)
    · intro heq
      subst heq
      rfl
  | @readLocked t g room cnt pos hpc =>
    have hroom := h.reaches t
    rw [hpc] at hroom
    have hroom : min cnt msgMax ≤ room := hroom
    refine seriesInv_goto h rfl ?_ ?_ ?_
    · trivial
    · intro hg
      rw [hpc]
      exact .inr hg
    · intro heq
      subst heq
      have hcall := h.calls t
      rw [hpc] at hcall
      obtain rfl := hcall rfl
      refine ⟨cnt, ?_⟩
      rw [← h.dev_eq] at hlen ⊢
      exact edRead_ok hlen (by omega)
  | @writeEnter t g w count hpc =>
    have hg : g ≠ f := fun hg => hnowriter t w count (by rw [hg])
    refine seriesInv_goto h rfl hmem ?_ hg
    intro hf
    exact absurd (by simpa [Pc.file] using hf) hg
  | @writeLocked t g w count cnt pos hpc => exact absurd rfl (hnowrite t)
  | @ret t g res hpc =>
    by_cases hg : g = f
    · subst hg
      exact seriesInv_returned h hpc
    · refine seriesInv_goto (seriesInv_storePos h res hg) (by simp [delivered, hg]) trivial ?_ trivial
      intro hf
      cases hf

/-- A series of reads on one file delivers a contiguous slice of the register, whatever the chunk
sizes, and moves the file's position along. -/
theorem series_run {f : File} {m s : State} {seg : List (Record State Event Shown)}
    (hlen : m.dev.msgLen ≤ msgMax) (hreaches : ∀ t, (m.pc t).Reaches) (hidle : FileIdle m f)
    (h : Run step m seg s) (hmem : Each Accessible seg) (hseries : Each (ReadSeries f) seg) :
    SeriesInv f m.dev.content (m.pos f) m.dev seg s := by
  have hboth : Each (fun past r => Accessible past r ∧ ReadSeries f past r) seg :=
    fun past r rest htr => ⟨hmem past r rest htr, hseries past r rest htr⟩
  apply h.guarded hboth
  · refine ⟨rfl, hreaches, rfl, rfl, ?_, ?_⟩
    · intro a b ha
      exact absurd ha (hidle a)
    · intro a
      exact continues_other (hidle a)
  · intro tr t e u o _ hI hP hs
    exact seriesInv_step hlen hI hP.1 hP.2 hs

/-- misc_echo is an atomic register of at most 256 bytes. In every run of calls whose user memory can be
accessed the order of the locked sections is an order of the calls such that: the content is that of
the latest write; every read at position `p` for `cnt` bytes gets `[p, p + min cnt (L - p))` of it;
every call that is done had its locked section since its entry, and returns what it got there and
moves only its own file; and a series of reads on one file between two writes concatenates to one
slice. -/
theorem edCalls_atomic_register (pos : File → Nat) (tr : List (Record State Event Shown)) (s : State)
    (h : Run step (State.init pos) tr s) (hmem : Each Accessible tr) :
    (s.dev.msgLen ≤ msgMax ∧ s.dev.content = register (tr.map Record.event) ∧
      (register (tr.map Record.event)).length = s.dev.msgLen) ∧
    Answers (register (tr.map Record.event)) s ∧
    (∀ t f res, s.pc t = .done f res → Committed tr t f res) ∧
    (∀ before seg m f, tr = before ++ seg → Run step (State.init pos) before m →
      Run step m seg s → FileIdle m f → Each (ReadSeries f) seg →
      seg.flatMap (delivered f) = slice (register (before.map Record.event)) (m.pos f)
          (seg.flatMap (delivered f)).length ∧
        s.pos f = m.pos f + (seg.flatMap (delivered f)).length) := by
  have hI := holds_run h hmem
  refine ⟨⟨hI.len, hI.content, by rw [← hI.content, content_length hI.len]⟩, holds_answers hI, ?_, ?_⟩
  · intro t f res hpc
    have hplace := callPlaced_run h t
    rwa [hpc] at hplace
  · intro before seg m f htr hbefore hseg hidle hseries
    subst htr
    have hm := holds_run hbefore hmem.prefix
    have hmemseg : Each Accessible seg := by
      intro past r rest hs
      exact hmem (before ++ past) r rest (by simp [hs])
    have hser := series_run hm.len hm.reaches hidle hseg hmemseg hseries
    rw [hm.content] at hser
    exact ⟨hser.bytes, hser.pos_eq⟩

/-- A write, reads of it in two chunks and at its end, and a second write. -/
def writeAndReads : List Event :=
  [.readEnter 1 1 2 2, .writeEnter 0 0 [104, 105, 33] 3, .writeLocked 0, .readLocked 1, .ret 1, .ret 0,
    .readEnter 1 1 16 16, .writeEnter 0 0 [63] 1, .readLocked 1, .ret 1, .writeLocked 0,
    .readEnter 1 1 16 16, .readLocked 1]

theorem edCalls_atomic_register_write_read : ∃ tr s,
    (Run step (State.init fun _ => 0) tr s ∧ Each Accessible tr ∧ tr.map Record.event = writeAndReads ∧
      tr.map Record.out = [.quiet, .quiet, .wrote 0 [104, 105, 33] 3 (.ok 3),
        .read 1 2 0 ⟨.ok 2, [104, 105], 2⟩, .returned 1 ⟨.ok 2, [104, 105], 2⟩,
        .returned 0 ⟨.ok 3, [], 0⟩, .quiet, .quiet, .read 1 16 2 ⟨.ok 1, [33], 3⟩,
        .returned 1 ⟨.ok 1, [33], 3⟩, .wrote 0 [63] 1 (.ok 1), .quiet, .read 1 16 3 ⟨.ok 0, [], 3⟩]) ∧
    (s.dev.msgLen ≤ msgMax ∧ s.dev.content = register (tr.map Record.event) ∧
      (register (tr.map Record.event)).length = s.dev.msgLen) ∧
    Answers (register (tr.map Record.event)) s ∧
    (∀ t f res, s.pc t = .done f res → Committed tr t f res) := by
  obtain ⟨tr, s, hrun, hev, hq⟩ := exists_exec step (State.init fun _ => 0) writeAndReads
    (fun x => x.1.map Record.out = [.quiet, .quiet, .wrote 0 [104, 105, 33] 3 (.ok 3),
      .read 1 2 0 ⟨.ok 2, [104, 105], 2⟩, .returned 1 ⟨.ok 2, [104, 105], 2⟩,
      .returned 0 ⟨.ok 3, [], 0⟩, .quiet, .quiet, .read 1 16 2 ⟨.ok 1, [33], 3⟩,
      .returned 1 ⟨.ok 1, [33], 3⟩, .wrote 0 [63] 1 (.ok 1), .quiet, .read 1 16 3 ⟨.ok 0, [], 3⟩])
    (by decide +kernel)
  have hmem : Each Accessible tr := by
    intro past r rest htr
    have hr : r.event ∈ writeAndReads := by
      rw [← hev, htr]
      simp
    simp only [writeAndReads, List.mem_cons, List.not_mem_nil, or_false] at hr
    rcases hr with hr | hr | hr | hr | hr | hr | hr | hr | hr | hr | hr | hr | hr <;>
      simp [Accessible, hr]
  obtain ⟨hreg, hanswers, hdone, -⟩ := edCalls_atomic_register _ tr s hrun hmem
  exact ⟨tr, s, ⟨hrun, hmem, hev, of_decide_eq_true hq⟩, hreg, hanswers, hdone⟩

end LinuxDriverLab.MiscEcho
