import LinuxDriverLab.ListMsg.Delivery

/-!
# What the reads of one file add up to

The cursor moves before the copy, whatever the copy does. A read whose buffer is shorter than the
line loses the rest of the line, and one that faults loses all of it. The bytes delivered are never
more than the lines passed, and they are all of them only if no line was cut.
-/

namespace LinuxDriverLab.ListMsg

/-- The lines of all messages, with `number j` in front of the `j`-th. -/
def rendering (number : Nat → Int) (msgs : List Bytes) : Bytes :=
  (msgs.mapIdx fun i m => line (number (i + 1)) m).flatten

/-- The step is the locked section of a read on `f`. -/
def takes (f : File) (r : Record State Event Shown) : Bool :=
  match r.event with
  | .readLocked t =>
    match r.pre.pc t with
    | .readTested g _ _ => g == f
    | _ => false
  | _ => false

/-- The step begins a read on `f` that goes on to its locked section. -/
def begins (f : File) (r : Record State Event Shown) : Bool :=
  match r.event, r.out with
  | .readTest _ g _ _, .quiet => g == f
  | _, _ => false

def taken (f : File) (tr : List (Record State Event Shown)) : Nat := tr.countP (takes f)
def begun (f : File) (tr : List (Record State Event Shown)) : Nat := tr.countP (begins f)

/-- The bytes that a step hands to a successful read on `f`. -/
def handed (f : File) (r : Record State Event Shown) : Bytes :=
  match r.out with
  | .readReturned g (.ok _) data => if g = f then data else []
  | _ => []

def delivered (f : File) (tr : List (Record State Event Shown)) : Bytes := tr.flatMap (handed f)

/-- No write takes effect and nothing is cleared; reads on `f` ask for a byte at least and are made
one after the other. -/
structure ReadsOn (f : File) (past : List (Record State Event Shown))
    (r : Record State Event Shown) : Prop where
  still : listOp r = none
  size : ∀ t cnt room, r.event = .readTest t f cnt room → 1 ≤ cnt
  alone : ∀ t cnt room, r.event = .readTest t f cnt room → begun f past = taken f past

/-- The read that takes the next message has room for the whole of its line. -/
def TakesWhole (msgs : List Bytes) (f : File) (past : List (Record State Event Shown))
    (r : Record State Event Shown) : Prop :=
  ∀ t cnt room m, r.event = .readLocked t → r.pre.pc t = .readTested f cnt room →
    msgs[taken f past]? = some m →
    (line (int32 (taken f past + 1)) m).length ≤ cnt ∧
      (line (int32 (taken f past + 1)) m).length ≤ room

variable {number : Nat → Int} {msgs : List Bytes} {xs : List Addr} {s u : State}
variable {tr : List (Record State Event Shown)} {r : Record State Event Shown} {f g : File}

theorem rendering_take_succ {k : Nat} {m : Bytes} (hm : msgs[k]? = some m) :
    rendering number (msgs.take (k + 1)) =
      rendering number (msgs.take k) ++ line (number (k + 1)) m := by
  have hlt := (List.getElem?_eq_some_iff.mp hm).1
  rw [List.take_add_one, hm]
  simp only [rendering, Option.toList_some, List.mapIdx_append, List.flatten_append,
    List.mapIdx_cons, List.mapIdx_nil, List.flatten_cons, List.flatten_nil, List.append_nil,
    List.length_take, Nat.min_eq_left (Nat.le_of_lt hlt), Nat.zero_add]

theorem rendering_congr {number' : Nat → Int}
    (h : ∀ i, i < msgs.length → number (i + 1) = number' (i + 1)) :
    rendering number msgs = rendering number' msgs := by
  unfold rendering
  congr 1
  apply List.ext_getElem
  · simp
  · intro i hi _
    have hlt : i < msgs.length := by simpa using hi
    simp [h i hlt]

theorem rendering_take_prefix (number : Nat → Int) (msgs : List Bytes) (k : Nat) :
    rendering number (msgs.take k) <+: rendering number msgs := by
  conv => rhs; rw [← List.take_append_drop k msgs]
  rw [rendering, rendering, List.mapIdx_append, List.flatten_append]
  exact List.prefix_append _ _

/-- Up to `2 ^ 31 - 1` messages the numbers are those that an `int` holds. -/
theorem rendering_int32_eq_iff :
    rendering (fun j => int32 j) msgs = rendering (fun j => j) msgs ↔ msgs.length < 2 ^ 31 := by
  constructor
  · intro heq
    by_contra hlen
    obtain ⟨m, hm⟩ : ∃ m, msgs[2 ^ 31 - 1]? = some m :=
      ⟨_, List.getElem?_eq_getElem (by omega)⟩
    obtain ⟨u, hu⟩ := rendering_take_prefix (fun j => int32 j) msgs (2 ^ 31 - 1 + 1)
    obtain ⟨v, hv⟩ := rendering_take_prefix (fun j => j) msgs (2 ^ 31 - 1 + 1)
    rw [← hu, ← hv, rendering_take_succ hm, rendering_take_succ hm, List.append_assoc,
      List.append_assoc] at heq
    -- both begin with the same lines, and then the numbers differ in sign
    have hsame : rendering (fun j => int32 j) (msgs.take (2 ^ 31 - 1)) =
        rendering (fun j => j) (msgs.take (2 ^ 31 - 1)) := by
      apply rendering_congr
      intro i hi
      rw [List.length_take] at hi
      exact int32_of_range (by omega) (by omega)
    rw [hsame, List.append_cancel_left_eq] at heq
    simp only [line, List.append_assoc] at heq
    exact formatInt_append_ne (by decide +kernel) (Int.natCast_nonneg _) _ _ heq
  · intro hlen
    apply rendering_congr
    intro i hi
    exact int32_of_range (by omega) (by omega)

theorem handed_lmReadCopy {text : Bytes} (cnt room : Nat) (f : File) (pre : State) (e : Event)
    (htext : text.length < lineSize) (hpos : 0 < text.length) :
    let r : Record State Event Shown :=
      ⟨pre, e, .readReturned f (lmReadCopy text cnt room).1 (lmReadCopy text cnt room).2⟩
    (text.length ≤ cnt ∧ text.length ≤ room → handed f r = text) ∧
      (¬ (text.length ≤ cnt ∧ text.length ≤ room) → (handed f r).length < text.length) := by
  intro r
  by_cases hroom : min cnt text.length ≤ room
  · have hr : handed f r = text.take (min cnt text.length) := by
      simp only [r, handed, lmReadCopy_ok htext hroom, if_true]
    rw [hr]
    constructor
    · rintro ⟨hcnt, -⟩
      rw [Nat.min_eq_right hcnt, List.take_length]
    · intro hcut
      rw [List.length_take]
      omega
  · have hr : handed f r = [] := by
      simp only [r, handed, lmReadCopy_fault (Nat.lt_of_not_ge hroom)]
    rw [hr]
    exact ⟨fun hwhole => absurd (Nat.le_trans (Nat.min_le_right _ _) hwhole.2) hroom, fun _ => hpos⟩

theorem lmReadCopy_ne_zero {text : Bytes} {cnt room : Nat} (htext : text.length < lineSize)
    (hpos : 0 < text.length) (hcnt : 1 ≤ cnt) : (lmReadCopy text cnt room).1 ≠ .ok 0 := by
  intro h
  by_cases hroom : min cnt text.length ≤ room
  · rw [lmReadCopy_ok htext hroom] at h
    have := Except.ok.inj h
    omega
  · rw [lmReadCopy_fault (Nat.lt_of_not_ge hroom)] at h
    cases h

/-- No call is in flight on a file that was never opened. -/
def Unopened (s : State) : Prop :=
  ∀ f, s.files f = .no → ∀ t, (∀ cnt room, s.pc t ≠ .readTested f cnt room) ∧ s.pc t ≠ .clearDone f

theorem Unopened.frame (h : Unopened s) (hfiles : ∀ f, u.files f = .no → s.files f = .no)
    (htested : ∀ t f cnt room, u.pc t = .readTested f cnt room → s.pc t = .readTested f cnt room)
    (hclear : ∀ t f, u.pc t = .clearDone f → s.pc t = .clearDone f) : Unopened u := by
  intro f hf t
  obtain ⟨hread, hreset⟩ := h f (hfiles f hf) t
  exact ⟨fun cnt room ht => hread cnt room (htested t f cnt room ht), fun ht => hreset (hclear t f ht)⟩

theorem Unopened.goto {t : Task} {pc : Pc} (h : Unopened s) (hfiles : u.files = s.files)
    (hupc : u.pc = (s.goto t pc).pc) (hpc : pc.Aside) : Unopened u :=
  h.frame (fun _ hf => hfiles ▸ hf) (fun _ _ _ _ ht => goto_readTested hpc (hupc ▸ ht))
    fun _ _ ht => goto_clearDone hpc (hupc ▸ ht)

theorem Unopened.setFile {o : Opened} (h : Unopened s) (ho : o ≠ .no) :
    Unopened (s.setFile f o) := by
  apply h.frame
  · intro g hg
    by_cases heq : g = f
    · rw [heq, setFile_self] at hg
      exact absurd hg ho
    · rwa [setFile_other _ _ heq] at hg
  · exact fun _ _ _ _ ht => ht
  · exact fun _ _ ht => ht

theorem Unopened.enter {t : Task} {pc : Pc} {cur : Cursor} (h : Unopened s) (hf : s.files f = .yes cur)
    (hread : ∀ g cnt room, pc = .readTested g cnt room → g = f)
    (hclear : ∀ g, pc = .clearDone g → g = f) (hfiles : u.files = s.files)
    (hupc : u.pc = (s.goto t pc).pc) : Unopened u := by
  intro g hg t'
  rw [hfiles] at hg
  have hne : g ≠ f := by
    intro heq
    rw [heq, hf] at hg
    cases hg
  obtain ⟨hold, hreset⟩ := h g hg t'
  constructor
  · intro cnt room ht'
    rw [hupc] at ht'
    rcases goto_pc_cases ht' with ⟨-, hnew⟩ | ⟨-, hsame⟩
    · exact hne (hread g cnt room hnew)
    · exact hold cnt room hsame
  · intro ht'
    rw [hupc] at ht'
    rcases goto_pc_cases ht' with ⟨-, hnew⟩ | ⟨-, hsame⟩
    · exact hne (hclear g hnew)
    · exact hreset hsame

theorem unopened_step {e : Event} {o : Shown} (h : Unopened s) (hs : step s e = some (u, o)) :
    Unopened u := by
  cases step_move hs with
  | openFile => exact h.setFile Opened.noConfusion
  | release => exact h.setFile Opened.noConfusion
  | openFails => exact h
  | readEnd => exact h
  | count => exact h
  | ioctlOther => exact h
  | writeReturn => exact h
  | readTest _ hf =>
    refine h.enter hf (fun g cnt room heq => ?_) (fun g => Pc.noConfusion) rfl rfl
    exact (Pc.readTested.inj heq).1.symm
  | clear _ hf =>
    exact h.enter hf (fun _ _ _ => Pc.noConfusion) (fun g heq => (Pc.clearDone.inj heq).symm) rfl rfl
  | readLocked => exact (h.setFile Opened.noConfusion).goto rfl rfl trivial
  | clearReset => exact (h.setFile Opened.noConfusion).goto rfl rfl trivial
  | _ => exact h.goto rfl rfl trivial

theorem unopened_run {junk : Heap Msg} (h : Run step (State.init junk) tr s) : Unopened s :=
  h.invariant (fun _ _ _ => ⟨fun _ _ => Pc.noConfusion, Pc.noConfusion⟩)
    fun _ _ _ _ hI hs => unopened_step hI hs

/-- The bytes delivered so far are the lines passed so far if every read had room for its line, and
fewer otherwise. -/
def Tally (msgs : List Bytes) (f : File) (seg : List (Record State Event Shown)) : Prop :=
  (Each (TakesWhole msgs f) seg ∧
      delivered f seg = rendering (fun j => int32 j) (msgs.take (taken f seg))) ∨
    (¬ Each (TakesWhole msgs f) seg ∧
      (delivered f seg).length < (rendering (fun j => int32 j) (msgs.take (taken f seg))).length)

theorem taken_concat (f : File) (tr : List (Record State Event Shown))
    (r : Record State Event Shown) :
    taken f (tr ++ [r]) = taken f tr + if takes f r then 1 else 0 := by
  simp [taken, List.countP_append, List.countP_cons]

theorem begun_concat (f : File) (tr : List (Record State Event Shown))
    (r : Record State Event Shown) :
    begun f (tr ++ [r]) = begun f tr + if begins f r then 1 else 0 := by
  simp [begun, List.countP_append, List.countP_cons]

theorem delivered_concat (f : File) (tr : List (Record State Event Shown))
    (r : Record State Event Shown) : delivered f (tr ++ [r]) = delivered f tr ++ handed f r := by
  simp [delivered]

theorem takes_iff {t : Task} (he : r.event = .readLocked t) :
    takes f r = true ↔ ∃ cnt room, r.pre.pc t = .readTested f cnt room := by
  simp only [takes, he]
  constructor
  · intro h
    split at h
    · next g cnt room ht => exact ⟨cnt, room, (beq_iff_eq.mp h) ▸ ht⟩
    · cases h
  · rintro ⟨cnt, room, ht⟩
    simp [ht]

theorem takesWhole_of_not_takes (h : takes f r = false) : TakesWhole msgs f tr r := by
  intro t cnt room m he ht
  rw [(takes_iff he).mpr ⟨cnt, room, ht⟩] at h
  cases h

theorem Tally.same (h : Tally msgs f tr) (htakes : takes f r = false) (hhanded : handed f r = []) :
    Tally msgs f (tr ++ [r]) := by
  have hwhole : Each (TakesWhole msgs f) (tr ++ [r]) ↔ Each (TakesWhole msgs f) tr :=
    (each_concat tr r).trans (and_iff_left (takesWhole_of_not_takes htakes))
  unfold Tally
  rw [taken_concat, htakes, delivered_concat, hhanded, List.append_nil, hwhole]
  exact h

theorem Tally.next {t : Task} {cnt room : Nat} {m text : Bytes} (h : Tally msgs f tr)
    (he : r.event = .readLocked t) (ht : r.pre.pc t = .readTested f cnt room)
    (hm : msgs[taken f tr]? = some m) (htext : line (int32 (taken f tr + 1)) m = text)
    (hwhole : text.length ≤ cnt ∧ text.length ≤ room → handed f r = text)
    (hcut : ¬ (text.length ≤ cnt ∧ text.length ≤ room) → (handed f r).length < text.length) :
    Tally msgs f (tr ++ [r]) := by
  have htakes : takes f r = true := (takes_iff he).mpr ⟨cnt, room, ht⟩
  have hiff : TakesWhole msgs f tr r ↔ text.length ≤ cnt ∧ text.length ≤ room := by
    rw [← htext]
    constructor
    · intro hr
      exact hr t cnt room m he ht hm
    · intro hfit t' cnt' room' m' he' ht' hm'
      obtain rfl : t = t' := Event.readLocked.inj (he.symm.trans he')
      obtain ⟨-, rfl, rfl⟩ := Pc.readTested.inj (ht.symm.trans ht')
      rw [hm] at hm'
      rwa [← Option.some.inj hm']
  unfold Tally
  rw [taken_concat, htakes, if_pos rfl, delivered_concat, rendering_take_succ hm, Nat.cast_add,
    Nat.cast_one, htext, each_concat, hiff]
  by_cases hfit : text.length ≤ cnt ∧ text.length ≤ room
  · rw [hwhole hfit, and_iff_left hfit, List.append_cancel_right_eq, List.length_append,
      List.length_append, Nat.add_lt_add_iff_right]
    exact h
  · have hshort := hcut hfit
    refine .inr ⟨fun hboth => hfit hboth.2, ?_⟩
    rw [List.length_append, List.length_append]
    rcases h with ⟨-, heq⟩ | ⟨-, hlt⟩
    · rw [heq]
      omega
    · omega

/-- The file `f` and the reads on it, `seg` being the steps since it was opened. -/
structure Reader (xs : List Addr) (msgs : List Bytes) (f : File)
    (seg : List (Record State Event Shown)) (s : State) : Prop where
  holds : Holds xs msgs s
  opened : s.files f ≠ .no
  cursor : ∀ cur, s.files f = .yes cur →
    cur.pos = xs[taken f seg]? ∧ cur.idx = int32 (taken f seg + 1)
  tested : ∀ t cnt room, s.pc t = .readTested f cnt room →
    1 ≤ cnt ∧ ∀ cur, s.files f = .yes cur → cur.pos ≠ none
  alone : ∀ t t' cnt cnt' room room', s.pc t = .readTested f cnt room →
    s.pc t' = .readTested f cnt' room' → t = t'
  behind : ∀ t cnt room, s.pc t = .readTested f cnt room → begun f seg = taken f seg + 1
  noClear : ∀ t, s.pc t ≠ .clearDone f
  within : taken f seg ≤ msgs.length
  tally : Tally msgs f seg

variable {seg : List (Record State Event Shown)}

theorem Reader.frame (h : Reader xs msgs f seg s) (hholds : Holds xs msgs u)
    (hfile : u.files f = s.files f ∨ u.files f = .released) (htakes : takes f r = false)
    (hbegins : begins f r = false) (hhanded : handed f r = [])
    (htested : ∀ t cnt room, u.pc t = .readTested f cnt room → s.pc t = .readTested f cnt room)
    (hclear : ∀ t, u.pc t = .clearDone f → s.pc t = .clearDone f) :
    Reader xs msgs f (seg ++ [r]) u := by
  have htaken : taken f (seg ++ [r]) = taken f seg := by simp [taken_concat, htakes]
  have hbegun : begun f (seg ++ [r]) = begun f seg := by simp [begun_concat, hbegins]
  have hyes : ∀ cur, u.files f = .yes cur → s.files f = .yes cur := by
    intro cur hcur
    rcases hfile with hsame | hreleased
    · exact hsame ▸ hcur
    · rw [hreleased] at hcur
      cases hcur
  refine ⟨hholds, ?_, ?_, ?_, ?_, ?_, ?_, ?_, h.tally.same htakes hhanded⟩
  · rcases hfile with hsame | hreleased
    · rw [hsame]
      exact h.opened
    · rw [hreleased]
      exact Opened.noConfusion
  · rw [htaken]
    exact fun cur hcur => h.cursor cur (hyes cur hcur)
  · intro t cnt room ht
    obtain ⟨hcnt, hpos⟩ := h.tested t cnt room (htested t cnt room ht)
    exact ⟨hcnt, fun cur hcur => hpos cur (hyes cur hcur)⟩
  · exact fun t t' cnt cnt' room room' ht ht' =>
      h.alone t t' cnt cnt' room room' (htested _ _ _ ht) (htested _ _ _ ht')
  · rw [htaken, hbegun]
    exact fun t cnt room ht => h.behind t cnt room (htested t cnt room ht)
  · exact fun t ht => h.noClear t (hclear t ht)
  · rw [htaken]
    exact h.within

theorem Reader.quiet (h : Reader xs msgs f seg s) (hholds : Holds xs msgs u)
    (hfile : u.files f = s.files f ∨ u.files f = .released) (htakes : takes f r = false)
    (hbegins : begins f r = false) (hhanded : handed f r = []) (hpc : u.pc = s.pc) :
    Reader xs msgs f (seg ++ [r]) u :=
  h.frame hholds hfile htakes hbegins hhanded (fun _ _ _ ht => hpc ▸ ht) fun _ ht => hpc ▸ ht

theorem Reader.goto {t : Task} {pc : Pc} (h : Reader xs msgs f seg s) (hholds : Holds xs msgs u)
    (hfile : u.files f = s.files f) (htakes : takes f r = false) (hbegins : begins f r = false)
    (hhanded : handed f r = []) (hupc : u.pc = (s.goto t pc).pc) (hpc : pc.Aside) :
    Reader xs msgs f (seg ++ [r]) u :=
  h.frame hholds (.inl hfile) htakes hbegins hhanded
    (fun _ _ _ ht => goto_readTested hpc (hupc ▸ ht)) fun _ ht => goto_clearDone hpc (hupc ▸ ht)

theorem Reader.readTest {t : Task} {cnt room : Nat} {cur : Cursor} {a : Addr}
    (h : Reader xs msgs f seg s) (hholds : Holds xs msgs (s.goto t (.readTested f cnt room)))
    (hf : s.files f = .yes cur) (hpos : cur.pos = some a) (htakes : takes f r = false)
    (hbegins : begins f r = true) (hhanded : handed f r = []) (hcnt : 1 ≤ cnt)
    (halone : begun f seg = taken f seg) :
    Reader xs msgs f (seg ++ [r]) (s.goto t (.readTested f cnt room)) := by
  have htaken : taken f (seg ++ [r]) = taken f seg := by simp [taken_concat, htakes]
  have hbegun : begun f (seg ++ [r]) = begun f seg + 1 := by simp [begun_concat, hbegins]
  -- no other read on `f` is in flight
  have hnew : ∀ {t' c m}, (s.goto t (.readTested f cnt room)).pc t' = .readTested f c m →
      t' = t ∧ c = cnt := by
    intro t' c m ht'
    rcases goto_pc_cases ht' with ⟨heq, hnew⟩ | ⟨-, hold⟩
    · exact ⟨heq, (Pc.readTested.inj hnew).2.1.symm⟩
    · have := h.behind t' c m hold
      omega
  refine ⟨hholds, h.opened, ?_, ?_, ?_, ?_, ?_, ?_, h.tally.same htakes hhanded⟩
  · rw [htaken]
    exact h.cursor
  · intro t' c m ht'
    obtain ⟨-, rfl⟩ := hnew ht'
    refine ⟨hcnt, fun cur' hcur' => ?_⟩
    obtain rfl := Opened.yes.inj (hf.symm.trans hcur')
    rw [hpos]
    exact Option.some_ne_none a
  · intro t₁ t₂ c₁ c₂ m₁ m₂ h₁ h₂
    rw [(hnew h₁).1, (hnew h₂).1]
  · intro t' c m _
    omega
  · exact fun t' ht' => h.noClear t' (goto_pc_ne Pc.noConfusion ht').2
  · rw [htaken]
    exact h.within

theorem Reader.reads {t : Task} {cnt room : Nat} {cur : Cursor} (h : Reader xs msgs f seg s)
    (hplain : ∀ m ∈ msgs, (0 : UInt8) ∉ m) (ht : s.pc t = .readTested f cnt room)
    (hf : s.files f = .yes cur) :
    ∃ m, msgs[taken f seg]? = some m ∧
      lmReadLocked s.heap cur = some (line (int32 (taken f seg + 1)) m,
        ⟨xs[taken f seg + 1]?, int32 (taken f seg + 1 + 1)⟩) := by
  obtain ⟨hpos, hidx⟩ := h.cursor cur hf
  cases ha : xs[taken f seg]? with
  | none => exact absurd (hpos.trans ha) ((h.tested t cnt room ht).2 cur hf)
  | some a =>
    obtain ⟨m, hm, hval⟩ := h.holds.val ha
    refine ⟨m, hm, ?_⟩
    rw [lmReadLocked_ring h.holds.ring (hpos.trans ha) ha, hval,
      msgText_of _ (hplain m (List.mem_of_getElem? hm)), hidx, int32_add_int32]

theorem Reader.readLocked {t : Task} {cnt room : Nat} {cur cur' : Cursor} {text : Bytes}
    (h : Reader xs msgs f seg s)
    (hholds : Holds xs msgs ((s.setFile f (.yes cur')).goto t .idle))
    (hplain : ∀ m ∈ msgs, (0 : UInt8) ∉ m) (hshort : ∀ m ∈ msgs, m.length ≤ msgMax)
    (ht : s.pc t = .readTested f cnt room) (hf : s.files f = .yes cur)
    (hread : lmReadLocked s.heap cur = some (text, cur')) :
    Reader xs msgs f (seg ++ [⟨s, .readLocked t,
        .readReturned f (lmReadCopy text cnt room).1 (lmReadCopy text cnt room).2⟩])
      ((s.setFile f (.yes cur')).goto t .idle) := by
  obtain ⟨m, hm, hread'⟩ := h.reads hplain ht hf
  obtain ⟨htext, hcur⟩ := Prod.mk.inj (Option.some.inj (hread'.symm.trans hread))
  have hlt := (List.getElem?_eq_some_iff.mp hm).1
  have htakes : takes f ⟨s, .readLocked t,
      .readReturned f (lmReadCopy text cnt room).1 (lmReadCopy text cnt room).2⟩ = true :=
    (takes_iff rfl).mpr ⟨cnt, room, ht⟩
  have htaken : ∀ o, takes f ⟨s, .readLocked t, o⟩ = true →
      taken f (seg ++ [⟨s, .readLocked t, o⟩]) = taken f seg + 1 := by
    intro o ho
    simp [taken_concat, ho]
  -- the read that was in flight has ended
  have hnone : ∀ t' c m, ((s.setFile f (.yes cur')).goto t .idle).pc t' ≠ .readTested f c m := by
    intro t' c m ht'
    obtain ⟨hne, hold⟩ := goto_pc_ne Pc.noConfusion ht'
    exact hne (h.alone t' t c cnt m room hold ht)
  refine ⟨hholds, ?_, ?_, ?_, ?_, ?_, ?_, ?_, ?_⟩
  · rw [goto_files, setFile_self]
    exact Opened.noConfusion
  · intro c hc
    rw [goto_files, setFile_self] at hc
    obtain rfl := Opened.yes.inj hc
    rw [htaken _ htakes, ← hcur, Nat.cast_add, Nat.cast_one]
    dsimp only
    exact ⟨rfl, Eq.refl _⟩
  · exact fun t' c m ht' => absurd ht' (hnone t' c m)
  · exact fun t' _ c _ m _ ht' => absurd ht' (hnone t' c m)
  · exact fun t' c m ht' => absurd ht' (hnone t' c m)
  · exact fun t' ht' => h.noClear t' (goto_pc_ne Pc.noConfusion ht').2
  · rw [htaken _ htakes]
    exact hlt
  · have hfits : text.length < lineSize := by
      rw [← htext]
      exact line_length_lt _ (hshort m (List.mem_of_getElem? hm))
    have hpos : 0 < text.length := by
      rw [← htext]
      exact line_pos _ _
    obtain ⟨hwhole, hcut⟩ := handed_lmReadCopy cnt room f s (.readLocked t) hfits hpos
    exact h.tally.next rfl ht hm htext hwhole hcut

theorem Reader.holds_step {e : Event} {o : Shown} (h : Reader xs msgs f seg s)
    (hstill : listOp ⟨s, e, o⟩ = none) (hs : step s e = some (u, o)) : Holds xs msgs u := by
  obtain ⟨ys, hys, hgrow⟩ := ListMsg.holds_step h.holds hs
  have hafter : o.after msgs = msgs := by
    cases o with
    | written => cases hstill
    | cleared => cases hstill
    | _ => rfl
  have hkept : ∀ g, o ≠ .cleared g := by
    intro g ho
    subst ho
    cases hstill
  rw [hafter] at hys
  have hlen : xs.length = ys.length := h.holds.length.trans hys.length.symm
  rwa [(hgrow hkept).eq_of_length hlen]

theorem reader_step {e : Event} {o : Shown} (h : Reader xs msgs f seg s)
    (hplain : ∀ m ∈ msgs, (0 : UInt8) ∉ m) (hshort : ∀ m ∈ msgs, m.length ≤ msgMax)
    (hP : ReadsOn f seg ⟨s, e, o⟩) (hs : step s e = some (u, o)) :
    Reader xs msgs f (seg ++ [⟨s, e, o⟩]) u := by
  have hholds := h.holds_step hP.still hs
  cases step_move hs with
  | @openFile t g cur _ hg =>
    have hne : f ≠ g := fun heq => h.opened (heq ▸ hg)
    exact h.quiet hholds (.inl (setFile_other _ _ hne)) rfl rfl rfl rfl
  | openOops => exact h.goto hholds rfl rfl rfl rfl rfl trivial
  | openFails => exact h.quiet hholds (.inl rfl) rfl rfl rfl rfl
  | @release g =>
    by_cases heq : f = g
    · rw [← heq]
      exact h.quiet (heq ▸ hholds) (.inr (setFile_self _ _ _)) rfl rfl rfl rfl
    · exact h.quiet hholds (.inl (setFile_other _ _ heq)) rfl rfl rfl rfl
  | readEnd => exact h.quiet hholds (.inl rfl) rfl rfl (by simp [handed]) rfl
  | @readTest t g cnt room cur a _ hg hpos =>
    by_cases heq : g = f
    · subst heq
      exact h.readTest hholds hg hpos rfl (beq_self_eq_true g) rfl (hP.size _ _ _ rfl)
        (hP.alone _ _ _ rfl)
    · refine h.frame hholds (.inl rfl) rfl (beq_eq_false_iff_ne.mpr heq) rfl ?_ ?_
      · intro t' c m ht'
        rcases goto_pc_cases ht' with ⟨-, hnew⟩ | ⟨-, hold⟩
        · exact absurd (Pc.readTested.inj hnew).1 heq
        · exact hold
      · exact fun t' ht' => (goto_pc_ne Pc.noConfusion ht').2
  | @readLocked t g cnt room cur text cur' ht hg hread =>
    by_cases heq : g = f
    · subst heq
      exact h.readLocked hholds hplain hshort ht hg hread
    · refine h.goto hholds (setFile_other _ _ (Ne.symm heq)) ?_ rfl ?_ rfl trivial
      · simp [takes, ht, heq]
      · unfold handed
        split
        · next hout =>
          rw [if_neg ((Shown.readReturned.inj hout).1 ▸ heq)]
        · rfl
  | @readOops t g cnt room cur ht hg hread =>
    by_cases heq : g = f
    · subst heq
      obtain ⟨m, -, hread'⟩ := h.reads hplain ht hg
      rw [hread] at hread'
      cases hread'
    · refine h.goto hholds rfl ?_ rfl rfl rfl trivial
      simp [takes, ht, heq]
  | writeReturn => exact h.quiet hholds (.inl rfl) rfl rfl rfl rfl
  | writeReady => exact h.goto hholds rfl rfl rfl rfl rfl trivial
  | writeOops => exact h.goto hholds rfl rfl rfl rfl rfl trivial
  | writeLocked => cases hP.still
  | writeLockedOops => exact h.goto hholds rfl rfl rfl rfl rfl trivial
  | count => exact h.quiet hholds (.inl rfl) rfl rfl rfl rfl
  | clear => cases hP.still
  | clearOops => exact h.goto hholds rfl rfl rfl rfl rfl trivial
  | ioctlOther => exact h.quiet hholds (.inl rfl) rfl rfl rfl rfl
  | @clearReset t g cur ht hg =>
    have hne : f ≠ g := fun heq => h.noClear t (heq ▸ ht)
    exact h.goto hholds (setFile_other _ _ hne) rfl rfl rfl rfl trivial

theorem reader_open {junk : Heap Msg} {past : List (Record State Event Shown)}
    (h : Run step (State.init junk) past s) {e : Event} {o : Shown} (hopen : Opens f ⟨s, e, o⟩)
    (hs : step s e = some (u, o)) : ∃ xs, Reader xs (stored past) f [] u := by
  obtain ⟨xs, hholds⟩ := holds_run h
  refine ⟨xs, ?_⟩
  cases step_move hs with
  | @openFile t g cur _ hg hcur =>
    obtain rfl : g = f := hopen
    rw [lmOpenLocked, Heap.listFirstEntryOrNull_ring hholds.ring] at hcur
    obtain rfl : cur = ⟨xs.head?, 1⟩ := (Option.some.inj hcur).symm
    have hnone := unopened_run h g hg
    refine ⟨hholds.setFile _ _, ?_, ?_, ?_, ?_, ?_, fun t' => (hnone t').2, Nat.zero_le _,
      .inl ⟨each_nil, rfl⟩⟩
    · rw [setFile_self]
      exact Opened.noConfusion
    · intro cur hc
      rw [setFile_self] at hc
      obtain rfl := Opened.yes.inj hc
      have hone : (1 : Int) = int32 ((0 : Nat) + 1) := by decide
      exact ⟨List.head?_eq_getElem?, hone⟩
    · exact fun t' cnt room ht => absurd ht ((hnone t').1 cnt room)
    · exact fun t' _ cnt _ room _ ht => absurd ht ((hnone t').1 cnt room)
    · exact fun t' cnt room ht => absurd ht ((hnone t').1 cnt room)
  | openOops _ _ hcur =>
    rw [lmOpenLocked, Heap.listFirstEntryOrNull_ring hholds.ring] at hcur
    cases hcur
  | _ => exact hopen.elim

theorem reader_run (h : Run step s seg u) (hreader : Reader xs msgs f [] s)
    (hplain : ∀ m ∈ msgs, (0 : UInt8) ∉ m) (hshort : ∀ m ∈ msgs, m.length ≤ msgMax)
    (hP : Each (ReadsOn f) seg) : Reader xs msgs f seg u :=
  h.guarded (I := Reader xs msgs f) hP hreader
    fun _ _ _ _ _ _ hI hr hs => reader_step hI hplain hshort hr hs

/-- A read that returns 0 finds that all messages have been taken. -/
theorem Reader.ended {e : Event} {o : Shown} {data : Bytes} (h : Reader xs msgs f seg s)
    (hplain : ∀ m ∈ msgs, (0 : UInt8) ∉ m) (hshort : ∀ m ∈ msgs, m.length ≤ msgMax)
    (hs : step s e = some (u, o)) (ho : o = .readReturned f (.ok 0) data) :
    taken f seg = msgs.length := by
  subst ho
  generalize hout : Shown.readReturned f (.ok 0) data = o at hs
  cases step_move hs with
  | @readEnd t g cnt room cur ht hf hpos =>
    obtain ⟨rfl, -, -⟩ := Shown.readReturned.inj hout
    rw [(h.cursor cur hf).1, List.getElem?_eq_none_iff] at hpos
    have := h.holds.length
    have := h.within
    omega
  | @readLocked t g cnt room cur text cur' ht hf hread =>
    obtain ⟨rfl, hret, -⟩ := Shown.readReturned.inj hout
    obtain ⟨m, hm, hread'⟩ := h.reads hplain ht hf
    obtain ⟨htext, -⟩ := Prod.mk.inj (Option.some.inj (hread'.symm.trans hread))
    have hfits := line_length_lt (taken f seg + 1) (hshort m (List.mem_of_getElem? hm))
    rw [htext] at hfits
    exact absurd hret.symm (lmReadCopy_ne_zero hfits (htext ▸ line_pos _ _) (h.tested t cnt room ht).1)
  | _ => cases hout

/-- A file is opened and read to the end, in a run in which no write takes effect and nothing is
cleared since the open. The bytes delivered are the lines of all messages, with the numbers that an
`int` holds, exactly when each read that took a message had room for its line. They are the lines
with the numbers 1, 2, 3 and so on when moreover the messages are fewer than `2 ^ 31`, and if one of
these two conditions holds, only then. -/
theorem lmRead_lossless_iff (junk : Heap Msg) (past seg : List (Record State Event Shown))
    (opn last : Record State Event Shown) (s : State) (f : File) (data : Bytes)
    (h : Run step (State.init junk) (past ++ opn :: (seg ++ [last])) s) (hopen : Opens f opn)
    (hreads : Each (ReadsOn f) (seg ++ [last])) (hplain : ∀ m ∈ stored past, (0 : UInt8) ∉ m)
    (hend : last.out = .readReturned f (.ok 0) data) :
    (delivered f seg = rendering (fun j => int32 j) (stored past) ↔
      Each (TakesWhole (stored past) f) seg) ∧
    ((stored past).length < 2 ^ 31 ∨ Each (TakesWhole (stored past) f) seg →
      (delivered f seg = rendering (fun j => j) (stored past) ↔
        (stored past).length < 2 ^ 31 ∧ Each (TakesWhole (stored past) f) seg)) := by
  obtain ⟨hpast, u, hstep, hrest⟩ := h.split
  obtain ⟨xs, hfresh⟩ := reader_open hpast hopen hstep
  obtain ⟨hseg, hlast⟩ := hrest.concat_inv
  have hshort : ∀ m ∈ stored past, m.length ≤ msgMax := fun m hm => length_of_mem_stored hm
  have hreader := reader_run hseg hfresh hplain hshort hreads.prefix
  have htally := hreader.tally
  rw [Tally, hreader.ended hplain hshort hlast hend, List.take_length] at htally
  have hint : delivered f seg = rendering (fun j => int32 j) (stored past) ↔
      Each (TakesWhole (stored past) f) seg := by
    rcases htally with ⟨hall, heq⟩ | ⟨hnot, hlt⟩
    · exact iff_of_true heq hall
    · refine iff_of_false (fun heq => ?_) hnot
      rw [heq] at hlt
      exact Nat.lt_irrefl _ hlt
  refine ⟨hint, ?_⟩
  rintro (hfew | hall)
  · rw [and_iff_right hfew, ← rendering_int32_eq_iff.mpr hfew]
    exact hint
  · rw [hint.mpr hall, and_iff_left hall]
    exact rendering_int32_eq_iff

/-- `ReadsOn`, to be computed -/
def readsOn (f : File) (past : List (Record State Event Shown)) (r : Record State Event Shown) :
    Bool :=
  (listOp r).isNone &&
    match r.event with
    | .readTest _ g cnt _ => g != f || (decide (1 ≤ cnt) && begun f past == taken f past)
    | _ => true

theorem ReadsOn.of_readsOn (h : readsOn f tr r = true) : ReadsOn f tr r := by
  unfold readsOn at h
  rw [Bool.and_eq_true, Option.isNone_iff_eq_none] at h
  obtain ⟨hstill, hread⟩ := h
  have hcall : ∀ t cnt room, r.event = .readTest t f cnt room →
      1 ≤ cnt ∧ begun f tr = taken f tr := by
    intro t cnt room he
    simpa [he] using hread
  exact ⟨hstill, fun t cnt room he => (hcall t cnt room he).1,
    fun t cnt room he => (hcall t cnt room he).2⟩

def returnsZero (f : File) (r : Record State Event Shown) : Bool :=
  match r.out with
  | .readReturned g (.ok n) _ => g == f && n == 0
  | _ => false

theorem returnsZero_out (h : returnsZero f r = true) :
    ∃ data, r.out = .readReturned f (.ok 0) data := by
  unfold returnsZero at h
  split at h
  · next g n data hout =>
    obtain ⟨hg, hn⟩ := (Bool.and_eq_true _ _).mp h
    exact ⟨data, by rw [hout, beq_iff_eq.mp hg, beq_iff_eq.mp hn]⟩
  · cases h

theorem exists_session (before reads : List Event) (end_ : Event)
    (q : List (Record State Event Shown) → List (Record State Event Shown) → Bool)
    (h : (exec step (State.init blank) before).any (fun x =>
      (step x.2 (.openFile 1 1 true)).any fun y =>
        (exec step y.1 reads).any fun z => (step z.2 end_).any fun w =>
          checkEach (readsOn 1) [] (z.1 ++ [⟨z.2, end_, w.2⟩]) &&
            returnsZero 1 ⟨z.2, end_, w.2⟩ && q x.1 z.1) = true) :
    ∃ past seg opn last s data,
      Run step (State.init blank) (past ++ opn :: (seg ++ [last])) s ∧ Opens 1 opn ∧
      Each (ReadsOn 1) (seg ++ [last]) ∧ last.out = .readReturned 1 (.ok 0) data ∧
      q past seg = true := by
  obtain ⟨past, s₁, hpast, -, h⟩ := exists_exec step (State.init blank) before _ h
  obtain ⟨⟨s₂, o₂⟩, hopen, h⟩ := (Option.any_eq_true _ _).mp h
  obtain ⟨seg, s₃, hseg, -, h⟩ := exists_exec step s₂ reads _ h
  obtain ⟨⟨s₄, o₄⟩, hlast, h⟩ := (Option.any_eq_true _ _).mp h
  simp only [Bool.and_eq_true] at h
  obtain ⟨⟨hreads, hzero⟩, hq⟩ := h
  obtain ⟨data, hdata⟩ := returnsZero_out hzero
  have hrun := ((hpast.tail hopen).append hseg).tail hlast
  rw [List.append_assoc, List.append_assoc, List.singleton_append] at hrun
  exact ⟨past, seg, _, _, s₄, data, hrun, rfl, each_of_checkEach hreads fun _ _ => .of_readsOn,
    hdata, hq⟩

theorem lmRead_lossless_iff_whole : ∃ past seg opn last s data,
    Run step (State.init blank) (past ++ opn :: (seg ++ [last])) s ∧
    last.out = .readReturned 1 (.ok 0) data ∧
    stored past = [[104, 105]] ∧ delivered 1 seg = [49, 58, 32, 104, 105, 10] ∧
    (delivered 1 seg = rendering (fun j => int32 j) (stored past) ↔
      Each (TakesWhole (stored past) 1) seg) := by
  obtain ⟨past, seg, opn, last, s, data, hrun, hopen, hreads, hend, hq⟩ := exists_session
    [.openFile 0 0 true, .write 0 0 [104, 105] 2 (some 7), .writeLocked 0]
    [.readTest 1 1 152 152, .readLocked 1] (.readTest 1 1 152 152)
    (fun past seg => stored past == [[104, 105]] && delivered 1 seg == [49, 58, 32, 104, 105, 10])
    (by decide +kernel)
  simp only [Bool.and_eq_true, beq_iff_eq] at hq
  obtain ⟨hstored, hdelivered⟩ := hq
  have hplain : ∀ m ∈ stored past, (0 : UInt8) ∉ m := by
    rw [hstored]
    decide
  exact ⟨past, seg, opn, last, s, data, hrun, hend, hstored, hdelivered,
    (lmRead_lossless_iff blank past seg opn last s 1 data hrun hopen hreads hplain hend).1⟩

/-- A read of one byte takes the whole message and delivers `1`; the next read finds the end. -/
theorem lmRead_loses_short : ¬ ∀ junk past seg opn last s f data,
    Run step (State.init junk) (past ++ opn :: (seg ++ [last])) s → Opens f opn →
      Each (ReadsOn f) (seg ++ [last]) → (∀ m ∈ stored past, (0 : UInt8) ∉ m) →
      last.out = .readReturned f (.ok 0) data →
      delivered f seg = rendering (fun j => j) (stored past) := by
  intro hall
  obtain ⟨past, seg, opn, last, s, data, hrun, hopen, hreads, hend, hq⟩ := exists_session
    [.openFile 0 0 true, .write 0 0 [104, 105] 2 (some 7), .writeLocked 0]
    [.readTest 1 1 1 152, .readLocked 1] (.readTest 1 1 1 152)
    (fun past seg => stored past == [[104, 105]] && delivered 1 seg == [49]) (by decide +kernel)
  simp only [Bool.and_eq_true, beq_iff_eq] at hq
  obtain ⟨hstored, hdelivered⟩ := hq
  have hplain : ∀ m ∈ stored past, (0 : UInt8) ∉ m := by
    rw [hstored]
    decide
  have heq := hall blank past seg opn last s 1 data hrun hopen hreads hplain hend
  rw [hstored, hdelivered] at heq
  exact absurd heq (by decide +kernel)

end LinuxDriverLab.ListMsg
