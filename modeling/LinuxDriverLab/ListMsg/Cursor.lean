import LinuxDriverLab.ListMsg.Store

/-!
# The cursors of listmsg

A cursor is a bare pointer into a list that any file may clear. It is safe to follow as long as,
since its file was opened, no `LISTMSG_CLEAR` has run and no read on the file has taken the last
message.
-/

namespace LinuxDriverLab.ListMsg

/-- The step is a `LISTMSG_CLEAR`, or a locked section of `lm_read` on `f` whose cursor stands at
the last message. -/
def Spoils (f : File) (r : Record State Event Shown) : Prop :=
  (∃ t g arg, r.event = .ioctl t g listmsgClear arg) ∨
    ∃ t cnt room cur a, r.event = .readLocked t ∧ r.pre.pc t = .readTested f cnt room ∧
      r.pre.files f = .yes cur ∧ cur.pos = some a ∧ r.pre.heap.listIsLast a = some true

/-- The step is an open that gets as far as its locked section. -/
def Opens (f : File) (r : Record State Event Shown) : Prop :=
  match r.event with
  | .openFile _ g true => g = f
  | _ => False

/-- No such step since `f` was opened. -/
def Unspoiled (f : File) (past : List (Record State Event Shown)) : Prop :=
  ∀ a r b, past = a ++ r :: b → Spoils f r → ∃ q ∈ b, Opens f q

/-- A read that enters its locked section finds its file unspoiled. -/
def ReadsUnspoiled (past : List (Record State Event Shown)) (r : Record State Event Shown) : Prop :=
  ∀ t f cnt room, r.event = .readLocked t → r.pre.pc t = .readTested f cnt room → Unspoiled f past

/-- The pointer that the locked section of a read follows is a message that is linked. -/
def DerefsLinked (_ : List (Record State Event Shown)) (r : Record State Event Shown) : Prop :=
  ∀ t f cnt room cur, r.event = .readLocked t → r.pre.pc t = .readTested f cnt room →
    r.pre.files f = .yes cur → ∃ a xs, cur.pos = some a ∧ r.pre.heap.IsRing xs ∧ a ∈ xs

variable {tr : List (Record State Event Shown)} {r : Record State Event Shown} {f : File}

theorem unspoiled_concat : Unspoiled f (tr ++ [r]) ↔ ¬ Spoils f r ∧ (Opens f r ∨ Unspoiled f tr) := by
  constructor
  · intro h
    refine ⟨fun hr => ?_, ?_⟩
    · obtain ⟨q, hq, -⟩ := h tr r [] rfl hr
      cases hq
    · by_cases hopen : Opens f r
      · exact .inl hopen
      · refine .inr fun a q b htr hq => ?_
        obtain ⟨p, hp, hpo⟩ := h a q (b ++ [r]) (by simp [htr]) hq
        rcases List.mem_append.mp hp with hp | hp
        · exact ⟨p, hp, hpo⟩
        · exact absurd (List.mem_singleton.mp hp ▸ hpo) hopen
  · rintro ⟨hr, hold⟩ a q b htr hq
    rcases List.eq_nil_or_concat b with rfl | ⟨b', z, rfl⟩
    · obtain ⟨-, hqr⟩ := List.append_inj' htr rfl
      rw [List.singleton_inj.mp hqr] at hr
      exact absurd hq hr
    · have hcat : tr ++ [r] = (a ++ q :: b') ++ [z] := by simpa using htr
      obtain ⟨htr', hz⟩ := List.append_inj' hcat rfl
      obtain rfl := List.singleton_inj.mp hz
      rcases hold with hopen | hold
      · exact ⟨r, by simp, hopen⟩
      · obtain ⟨p, hp, hpo⟩ := hold a q b' htr' hq
        exact ⟨p, by simp [hp], hpo⟩

theorem Unspoiled.before (h : Unspoiled f (tr ++ [r])) (hopen : ¬ Opens f r) : Unspoiled f tr :=
  (unspoiled_concat.mp h).2.resolve_left hopen

theorem lmReadLocked_ring {h : Heap Msg} {xs : List Addr} {cur : Cursor} {a : Addr} {i : Nat}
    (hr : h.IsRing xs) (hpos : cur.pos = some a) (hi : xs[i]? = some a) :
    lmReadLocked h cur = some (msgText cur.idx (h.val a), ⟨xs[i + 1]?, int32 (cur.idx + 1)⟩) := by
  have ha := hr.live a (List.mem_of_getElem? hi)
  simp only [lmReadLocked, hpos, Heap.getVal_live ha, Heap.listIsLast_ring hr hi,
    Heap.listNextEntry_ring hr hi, Option.bind_eq_bind, Option.bind_some]
  cases hnext : xs[i + 1]? <;> rfl

/-- The cursors and the calls in flight, against the ring through `xs`. -/
structure Cursors (xs : List Addr) (tr : List (Record State Event Shown)) (s : State) : Prop where
  linked : ∀ f cur a, s.files f = .yes cur → cur.pos = some a → Unspoiled f tr → a ∈ xs
  tested : ∀ t f cnt room, s.pc t = .readTested f cnt room →
    s.files f ≠ .no ∧ ∀ cur, s.files f = .yes cur → Unspoiled f tr → cur.pos ≠ none
  clearing : ∀ t f, s.pc t = .clearDone f → s.files f ≠ .no ∧ ¬ Unspoiled f tr

theorem cursors_init (junk : Heap Msg) : Cursors [] [] (State.init junk) :=
  ⟨nofun, nofun, nofun⟩

variable {xs ys : List Addr} {s u : State}

theorem Cursors.mono (h : Cursors xs tr s) (hsub : ∀ a ∈ xs, a ∈ ys) : Cursors ys tr s :=
  ⟨fun f cur a hf ha hun => hsub a (h.linked f cur a hf ha hun), h.tested, h.clearing⟩

theorem Cursors.frame (h : Cursors xs tr s) (hopen : ∀ f, ¬ Opens f r) (hfiles : u.files = s.files)
    (htested : ∀ t f cnt room, u.pc t = .readTested f cnt room → s.pc t = .readTested f cnt room)
    (hclearing : ∀ t f, u.pc t = .clearDone f → s.pc t = .clearDone f) :
    Cursors xs (tr ++ [r]) u where
  linked := fun f cur a hf ha hun => h.linked f cur a (hfiles ▸ hf) ha (hun.before (hopen f))
  tested := fun t f cnt room ht => by
    obtain ⟨hno, hpos⟩ := h.tested t f cnt room (htested t f cnt room ht)
    rw [hfiles]
    exact ⟨hno, fun cur hf hun => hpos cur hf (hun.before (hopen f))⟩
  clearing := fun t f ht => by
    obtain ⟨hno, hspoiled⟩ := h.clearing t f (hclearing t f ht)
    rw [hfiles]
    exact ⟨hno, fun hun => hspoiled (hun.before (hopen f))⟩

/-- Neither a read past its test nor a clear before its reset. -/
def Pc.Aside : Pc → Prop
  | .readTested _ _ _ | .clearDone _ => False
  | _ => True

theorem goto_readTested {t t' : Task} {pc : Pc} {f : File} {cnt room : Nat} (hpc : pc.Aside)
    (h : (s.goto t pc).pc t' = .readTested f cnt room) : s.pc t' = .readTested f cnt room := by
  refine (goto_pc_ne (fun heq => ?_) h).2
  rw [heq] at hpc
  exact hpc

theorem goto_clearDone {t t' : Task} {pc : Pc} {f : File} (hpc : pc.Aside)
    (h : (s.goto t pc).pc t' = .clearDone f) : s.pc t' = .clearDone f := by
  refine (goto_pc_ne (fun heq => ?_) h).2
  rw [heq] at hpc
  exact hpc

theorem Cursors.goto {t : Task} {pc : Pc} (h : Cursors xs tr s) (hopen : ∀ f, ¬ Opens f r)
    (hfiles : u.files = s.files) (hupc : u.pc = (s.goto t pc).pc) (hpc : pc.Aside) :
    Cursors xs (tr ++ [r]) u :=
  h.frame hopen hfiles (fun _ _ _ _ ht => goto_readTested hpc (hupc ▸ ht))
    fun _ _ ht => goto_clearDone hpc (hupc ▸ ht)

theorem Cursors.quiet (h : Cursors xs tr s) (hopen : ∀ f, ¬ Opens f r) (hfiles : u.files = s.files)
    (hpc : u.pc = s.pc) : Cursors xs (tr ++ [r]) u :=
  h.frame hopen hfiles (fun _ _ _ _ ht => hpc ▸ ht) fun _ _ ht => hpc ▸ ht

theorem Cursors.leave (h : Cursors xs tr s) (t : Task) : Cursors xs tr (s.goto t .idle) :=
  ⟨h.linked, fun t' f cnt room ht => h.tested t' f cnt room (goto_pc_ne Pc.noConfusion ht).2,
    fun t' f ht => h.clearing t' f (goto_pc_ne Pc.noConfusion ht).2⟩

theorem Cursors.setFile {o : Opened} (h : Cursors xs tr s)
    (hopen : ∀ g, Opens g r → g = f ∧ s.files f = .no) (ho : o ≠ .no)
    (hlinked : ∀ cur a, o = .yes cur → cur.pos = some a → Unspoiled f (tr ++ [r]) → a ∈ xs)
    (htested : s.files f ≠ .no → ∀ cur, o = .yes cur → Unspoiled f (tr ++ [r]) → cur.pos ≠ none) :
    Cursors xs (tr ++ [r]) (s.setFile f o) := by
  have hother : ∀ {g}, g ≠ f → ¬ Opens g r := fun hg hr => hg (hopen _ hr).1
  refine ⟨fun g cur a hg ha hun => ?_, fun t g cnt room ht => ?_, fun t g ht => ?_⟩
  · by_cases heq : g = f
    · subst heq
      rw [setFile_self] at hg
      exact hlinked cur a hg ha hun
    · rw [setFile_other _ _ heq] at hg
      exact h.linked g cur a hg ha (hun.before (hother heq))
  · obtain ⟨hno, hpos⟩ := h.tested t g cnt room ht
    by_cases heq : g = f
    · subst heq
      rw [setFile_self]
      exact ⟨ho, htested hno⟩
    · rw [setFile_other _ _ heq]
      exact ⟨hno, fun cur hg hun => hpos cur hg (hun.before (hother heq))⟩
  · obtain ⟨hno, hspoiled⟩ := h.clearing t g ht
    refine ⟨?_, fun hun => hspoiled (hun.before fun hr => ?_)⟩
    · by_cases heq : g = f
      · rw [heq, setFile_self]
        exact ho
      · rw [setFile_other _ _ heq]
        exact hno
    · obtain ⟨rfl, hf⟩ := hopen g hr
      exact hno hf

theorem Cursors.openFile {t : Task} {cur : Cursor} {o : Shown} (h : Cursors xs tr s)
    (hr : s.heap.IsRing xs) (hf : s.files f = .no) (hcur : lmOpenLocked s.heap = some cur) :
    Cursors xs (tr ++ [⟨s, .openFile t f true, o⟩]) (s.setFile f (.yes cur)) := by
  rw [lmOpenLocked, Heap.listFirstEntryOrNull_ring hr] at hcur
  obtain rfl : cur = ⟨xs.head?, 1⟩ := (Option.some.inj hcur).symm
  refine h.setFile (fun g hg => ⟨hg.symm, hf⟩) Opened.noConfusion ?_ fun hno => absurd hf hno
  intro cur' a heq ha _
  cases heq
  exact List.mem_of_mem_head? ha

theorem Cursors.release (h : Cursors xs tr s) (hopen : ∀ g, ¬ Opens g r) :
    Cursors xs (tr ++ [r]) (s.setFile f .released) :=
  h.setFile (fun g hg => absurd hg (hopen g)) Opened.noConfusion (fun _ _ => Opened.noConfusion)
    fun _ _ => Opened.noConfusion

theorem Cursors.readTest {t : Task} {f : File} {cnt room : Nat} {cur : Cursor} {a : Addr}
    (h : Cursors xs tr s) (hopen : ∀ g, ¬ Opens g r) (hf : s.files f = .yes cur)
    (hpos : cur.pos = some a) : Cursors xs (tr ++ [r]) (s.goto t (.readTested f cnt room)) := by
  refine ⟨fun g cur' b hg hb hun => h.linked g cur' b hg hb (hun.before (hopen g)), ?_, ?_⟩
  · intro t' g cnt' room' ht'
    rcases goto_pc_cases ht' with ⟨-, hnew⟩ | ⟨-, hold⟩
    · cases hnew
      rw [goto_files, hf]
      refine ⟨Opened.noConfusion, fun cur' hcur' _ => ?_⟩
      cases hcur'
      simp [hpos]
    · obtain ⟨hno, hp⟩ := h.tested t' g cnt' room' hold
      exact ⟨hno, fun cur' hg hun => hp cur' hg (hun.before (hopen g))⟩
  · intro t' g ht'
    obtain ⟨-, ht'⟩ := goto_pc_ne Pc.noConfusion ht'
    obtain ⟨hno, hspoiled⟩ := h.clearing t' g ht'
    exact ⟨hno, fun hun => hspoiled (hun.before (hopen g))⟩

/-- The cursor that an unspoiled file brings to the locked section of a read. -/
theorem Cursors.linked_of_tested {t : Task} {f : File} {cnt room : Nat} {cur : Cursor}
    (h : Cursors xs tr s) (ht : s.pc t = .readTested f cnt room) (hf : s.files f = .yes cur)
    (hun : Unspoiled f tr) : ∃ (a : Addr) (i : Nat), cur.pos = some a ∧ xs[i]? = some a := by
  cases hpos : cur.pos with
  | none => exact absurd hpos ((h.tested t f cnt room ht).2 cur hf hun)
  | some a =>
    obtain ⟨i, hi⟩ := List.mem_iff_getElem?.mp (h.linked f cur a hf hpos hun)
    exact ⟨a, i, rfl, hi⟩

theorem Cursors.readLocked {t : Task} {cnt room : Nat} {cur cur' : Cursor} {text : Bytes}
    {o : Shown} (h : Cursors xs tr s) (hr : s.heap.IsRing xs) (ht : s.pc t = .readTested f cnt room)
    (hf : s.files f = .yes cur) (hun : Unspoiled f tr)
    (hread : lmReadLocked s.heap cur = some (text, cur')) :
    Cursors xs (tr ++ [⟨s, .readLocked t, o⟩]) ((s.setFile f (.yes cur')).goto t .idle) := by
  obtain ⟨a, i, hpos, hi⟩ := h.linked_of_tested ht hf hun
  rw [lmReadLocked_ring hr hpos hi] at hread
  have hnext : xs[i + 1]? = cur'.pos :=
    congrArg (fun x => (Prod.snd x).pos) (Option.some.inj hread)
  refine (h.leave t).setFile (fun _ => False.elim) Opened.noConfusion ?_ ?_
  · intro c b hc hb _
    cases hc
    exact List.mem_of_getElem? (hnext.trans hb)
  · -- a cursor that ends here stood at the last message
    intro _ c hc hun' hnone
    cases hc
    refine (unspoiled_concat.mp hun').1 (.inr ⟨t, cnt, room, cur, a, rfl, ht, hf, hpos, ?_⟩)
    rw [Heap.listIsLast_ring hr hi, hnext, hnone]
    rfl

theorem Cursors.clear {t : Task} {f : File} {arg : UserInt} {cur : Cursor} {heap : Heap Msg} {o : Shown}
    (h : Cursors xs tr s) (hf : s.files f = .yes cur) :
    Cursors [] (tr ++ [⟨s, .ioctl t f listmsgClear arg, o⟩])
      ({ s with heap, msgCount := 0 }.goto t (.clearDone f)) := by
  have hspoiled : ∀ g, ¬ Unspoiled g (tr ++ [⟨s, .ioctl t f listmsgClear arg, o⟩]) := fun g hun =>
    (unspoiled_concat.mp hun).1 (.inl ⟨t, f, arg, rfl⟩)
  refine ⟨fun g _ _ _ _ hun => absurd hun (hspoiled g), ?_, ?_⟩
  · intro t' g cnt room ht'
    obtain ⟨-, ht'⟩ := goto_pc_ne Pc.noConfusion ht'
    exact ⟨(h.tested t' g cnt room ht').1, fun _ _ hun => absurd hun (hspoiled g)⟩
  · intro t' g ht'
    refine ⟨?_, hspoiled g⟩
    rcases goto_pc_cases ht' with ⟨-, hnew⟩ | ⟨-, hold⟩
    · cases hnew
      rw [goto_files, hf]
      exact Opened.noConfusion
    · exact (h.clearing t' g hold).1

theorem Cursors.clearReset {t : Task} (cur : Cursor) (h : Cursors xs tr s)
    (hopen : ∀ g, ¬ Opens g r) (ht : s.pc t = .clearDone f) :
    Cursors xs (tr ++ [r]) ((s.setFile f (.yes { cur with pos := none })).goto t .idle) := by
  obtain ⟨-, hspoiled⟩ := h.clearing t f ht
  have hun : ¬ Unspoiled f (tr ++ [r]) := fun hun => hspoiled (hun.before (hopen f))
  exact (h.leave t).setFile (fun g hg => absurd hg (hopen g)) Opened.noConfusion
    (fun _ _ _ _ hun' => absurd hun' hun) fun _ _ _ hun' => absurd hun' hun

theorem cursors_step {e : Event} {o : Shown} {msgs : List Bytes} (h : Cursors xs tr s)
    (hs : Holds xs msgs s) (hP : ReadsUnspoiled tr ⟨s, e, o⟩) (hstep : step s e = some (u, o))
    (hkept : ∀ f, o ≠ .cleared f) : Cursors xs (tr ++ [⟨s, e, o⟩]) u := by
  cases step_move hstep with
  | openFile _ hf hcur => exact h.openFile hs.ring hf hcur
  | openOops _ _ hcur =>
    rw [lmOpenLocked, Heap.listFirstEntryOrNull_ring hs.ring] at hcur
    cases hcur
  | openFails => exact h.quiet (fun _ => id) rfl rfl
  | release => exact h.release fun _ => id
  | readEnd => exact h.quiet (fun _ => id) rfl rfl
  | readTest _ hf hpos => exact h.readTest (fun _ => id) hf hpos
  | readLocked ht hf hread => exact h.readLocked hs.ring ht hf (hP _ _ _ _ rfl ht) hread
  | readOops ht hf hread =>
    obtain ⟨a, i, hpos, hi⟩ := h.linked_of_tested ht hf (hP _ _ _ _ rfl ht)
    rw [lmReadLocked_ring hs.ring hpos hi] at hread
    cases hread
  | writeReturn => exact h.quiet (fun _ => id) rfl rfl
  | writeReady => exact h.goto (fun _ => id) rfl rfl trivial
  | writeOops => exact h.goto (fun _ => id) rfl rfl trivial
  | writeLocked => exact h.goto (fun _ => id) rfl rfl trivial
  | writeLockedOops => exact h.goto (fun _ => id) rfl rfl trivial
  | count => exact h.quiet (fun _ => id) rfl rfl
  | clear => exact absurd rfl (hkept _)
  | clearOops => exact h.goto (fun _ => id) rfl rfl trivial
  | ioctlOther => exact h.quiet (fun _ => id) rfl rfl
  | clearReset ht => exact h.clearReset _ (fun _ => id) ht

theorem cursors_cleared {e : Event} (h : Cursors xs tr s)
    (hstep : step s e = some (u, .cleared f)) :
    Cursors [] (tr ++ [⟨s, e, .cleared f⟩]) u := by
  cases step_move hstep with
  | clear _ hf => exact h.clear hf

theorem cursors_run {junk : Heap Msg} (h : Run step (State.init junk) tr s)
    (hreads : Each ReadsUnspoiled tr) : ∃ xs, Holds xs (stored tr) s ∧ Cursors xs tr s := by
  refine h.guarded (I := fun tr s => ∃ xs, Holds xs (stored tr) s ∧ Cursors xs tr s) hreads
    ⟨[], holds_init junk, cursors_init junk⟩ ?_
  rintro tr t e u o - ⟨xs, hs, hc⟩ hP hstep
  rw [stored_concat]
  obtain ⟨ys, hys, hgrow⟩ := holds_step hs hstep
  refine ⟨ys, hys, ?_⟩
  by_cases hclear : ∃ f, o = .cleared f
  · obtain ⟨f, rfl⟩ := hclear
    exact (cursors_cleared hc hstep).mono (List.forall_mem_nil _)
  · have hkept : ∀ f, o ≠ .cleared f := fun f ho => hclear ⟨f, ho⟩
    exact (cursors_step hc hs hP hstep hkept).mono fun a ha => (hgrow hkept).subset ha

/-- In every run whose reads come to their locked section with an unspoiled file, each of them
follows a pointer to a message that is linked. -/
theorem lmRead_derefs_linked (junk : Heap Msg) (tr : List (Record State Event Shown)) (s : State)
    (h : Run step (State.init junk) tr s) (hreads : Each ReadsUnspoiled tr) :
    Each DerefsLinked tr := by
  intro past r rest htr t f cnt room cur he ht hf
  subst htr
  obtain ⟨xs, hs, hc⟩ := cursors_run h.split.1 hreads.prefix
  have hun : Unspoiled f past := hreads past r rest rfl t f cnt room he ht
  obtain ⟨a, i, hpos, hi⟩ := hc.linked_of_tested ht hf hun
  exact ⟨a, xs, hpos, hs.ring, List.mem_of_getElem? hi⟩

theorem unspoiled_of_events {past : List (Record State Event Shown)}
    (hclear : ∀ r ∈ past, ∀ t g arg, r.event ≠ .ioctl t g listmsgClear arg)
    (hread : ∀ r ∈ past, ∀ t, r.event ≠ .readLocked t) : Unspoiled f past := by
  rintro a r b rfl (⟨t, g, arg, he⟩ | ⟨t, cnt, room, cur, p, he, -⟩)
  · exact absurd he (hclear r (by simp) t g arg)
  · exact absurd he (hread r (by simp) t)

theorem lmRead_derefs_linked_read : ∃ tr s,
    (Run step (State.init blank) tr s ∧ Each ReadsUnspoiled tr ∧
      tr.map Record.event = [.openFile 0 0 true, .write 0 0 [104, 105] 2 (some 7), .writeLocked 0,
        .openFile 1 1 true, .readTest 1 1 152 152, .readLocked 1]) ∧
    Each DerefsLinked tr := by
  obtain ⟨tr, s, hrun, hev, -⟩ := exists_exec step (State.init blank)
    [.openFile 0 0 true, .write 0 0 [104, 105] 2 (some 7), .writeLocked 0, .openFile 1 1 true,
      .readTest 1 1 152 152, .readLocked 1] (fun _ => true) (by decide +kernel)
  have hreads : Each ReadsUnspoiled tr := by
    rintro past r rest rfl t f cnt room - -
    have hbefore : ∀ q ∈ past, q.event ∈ [Event.openFile 0 0 true, .write 0 0 [104, 105] 2 (some 7),
        .writeLocked 0, .openFile 1 1 true, .readTest 1 1 152 152] := by
      intro q hq
      have hmem : q ∈ (past ++ r :: rest).dropLast := by
        rw [List.dropLast_append_cons]
        exact List.mem_append_left _ hq
      have := List.mem_map_of_mem (f := Record.event) hmem
      rwa [List.map_dropLast, hev] at this
    refine unspoiled_of_events (fun q hq t g arg he => ?_) fun q hq t he => ?_
    · simpa [he] using hbefore q hq
    · simpa [he] using hbefore q hq
  exact ⟨tr, s, ⟨hrun, hreads, hev⟩, lmRead_derefs_linked blank tr s hrun hreads⟩

/-- The locked section of a read on file 1 that finds the list empty. -/
def readsEmptied (r : Record State Event Shown) : Bool :=
  match r.event, r.pre.pc 1, r.pre.files 1 with
  | .readLocked 1, .readTested 1 _ _, .yes _ => r.pre.heap.next .head == .head
  | _, _, _ => false

/-- A file whose cursor stands at a message when another file clears the list reads the message
after it is freed. -/
theorem lmRead_derefs_freed : ¬ ∀ junk tr s,
    Run step (State.init junk) tr s → Each DerefsLinked tr := by
  intro hall
  obtain ⟨tr, s, hrun, -, hq⟩ := exists_exec step (State.init blank)
    [.openFile 0 0 true, .write 0 0 [104, 105] 2 (some 7), .writeLocked 0, .openFile 1 1 true,
      .ioctl 0 0 listmsgClear ⟨none, false⟩, .clearReset 0, .readTest 1 1 152 152, .readLocked 1]
    (fun x => x.1.any readsEmptied) (by decide +kernel)
  refine not_each_of_any _ hq ?_ (hall blank tr s hrun)
  intro past r hr hlinked
  unfold readsEmptied at hr
  split at hr
  · next he ht hf =>
    obtain ⟨a, xs, -, hring, ha⟩ := hlinked 1 1 _ _ _ he ht hf
    rw [hring.eq_nil (beq_iff_eq.mp hr)] at ha
    cases ha
  · cases hr

end LinuxDriverLab.ListMsg
