import LinuxDriverLab.Framework.Pieces
import LinuxDriverLab.Irq.Driver
import LinuxDriverLab.Kernel.Printf

/-!
# Reading the counters

Every call of `qi_read` and `bh_read` prints the counters as they are and goes on at the position
where the last call ended, although the text before and behind it may have changed. A reader that
takes the line in parts gets a line of counters as they were as long as the parts of a number that it
has begun are parts of one number.
-/

namespace LinuxDriverLab.Irq

open Pieces (Keeps Carried)

/-! ## The read functions -/

def qiLine (hits : Int) : Bytes := literal "irq_count=" ++ formatInt hits ++ [10]

def modeName (mode : Int) : Bytes := if mode ≠ 0 then literal "threaded" else literal "workqueue"

def bhLine (mode hits done : Int) : Bytes :=
  literal "irq_hits=" ++ formatInt hits ++ literal " bh_done=" ++ formatInt done ++ literal " mode=" ++
    modeName mode ++ [10]

/-- What both functions do with the text that they print into `line`. -/
def readLine (size : Nat) (text : Bytes) (room cnt pos : Nat) : ReadResult :=
  let printed := snprintf size text
  if pos ≥ printed.ret then ⟨.ok 0, [], pos⟩
  else
    let cnt := if cnt > printed.ret - pos then printed.ret - pos else cnt
    let copy := copyToUser (printed.line.drop pos) cnt room
    if copy.left ≠ 0 then ⟨.error .efault, copy.stored, pos⟩
    else ⟨.ok cnt, copy.stored, pos + cnt⟩

def qiRead (hits : Int) (room cnt pos : Nat) : ReadResult := readLine 64 (qiLine hits) room cnt pos

def bhRead (mode hits done : Int) (room cnt pos : Nat) : ReadResult :=
  readLine 96 (bhLine mode hits done) room cnt pos

theorem readLine_eq {size : Nat} {text : Bytes} {room cnt pos : Nat} (hsize : text.length < size)
    (hroom : cnt ≤ room) :
    readLine size text room cnt pos =
      ⟨.ok (min cnt (text.length - pos)), (text.drop pos).take cnt,
        pos + min cnt (text.length - pos)⟩ := by
  have hret : (snprintf size text).ret = text.length := rfl
  have hline : (snprintf size text).line = text ++ [0] := by
    rw [snprintf, List.take_of_length_le (by omega)]
  simp only [readLine, hret, hline]
  split
  · next hpos =>
    rw [Nat.sub_eq_zero_of_le hpos, Nat.min_zero, List.drop_of_length_le hpos, List.take_nil]
    rfl
  · next hpos =>
    have hmin : (if cnt > text.length - pos then text.length - pos else cnt) =
        min cnt (text.length - pos) :=
      clamp_eq_min cnt (text.length - pos)
    have hcopy : copyToUser ((text ++ [0]).drop pos) (min cnt (text.length - pos)) room =
        ⟨(text.drop pos).take cnt, 0⟩ := by
      rw [copyToUser_of_le (by rw [List.length_drop, List.length_append]; omega) (by omega),
        List.drop_append_of_le_length (by omega),
        List.take_append_of_le_length (by rw [List.length_drop]; omega), ← List.length_drop,
        ← List.take_take, List.take_length]
    rw [hmin, hcopy]
    rfl

/-! ## A reader and the interrupts -/

/-- The module and an open file of its device: the file's position, and what a call under way has
read of the counters. -/
structure Session where
  irq : State
  pos : Nat
  hits : Option Int
  done : Option Int

def Session.fresh (irq : State) : Session := ⟨irq, 0, none, none⟩

/-- A read accesses the counters, in any order, and then prints them; the user's buffer has the
`cnt` bytes that it asks for. -/
inductive Access
  | irq (e : Event)
  | readHits
  | readDone
  | finish (cnt : Nat)

inductive Got
  | nothing
  | read (res : ReadResult)

/-- The arguments of `snprintf`, when both have been read. -/
def Session.args (m : Module) (s : Session) : Option (Int × Int) :=
  match m with
  | .gpioirq => s.hits.map fun hits => (hits, 0)
  | .irqbh _ =>
    match s.hits, s.done with
    | some hits, some done => some (hits, done)
    | _, _ => none

def Module.line (m : Module) (args : Int × Int) : Bytes :=
  match m with
  | .gpioirq => qiLine args.1
  | .irqbh mode => bhLine mode args.1 args.2

def Module.read (m : Module) (args : Int × Int) (room cnt pos : Nat) : ReadResult :=
  match m with
  | .gpioirq => qiRead args.1 room cnt pos
  | .irqbh mode => bhRead mode args.1 args.2 room cnt pos

/-- The open file keeps the module from being unloaded. -/
def sessionStep (m : Module) (s : Session) : Access → Option (Session × Got)
  | .irq e =>
    if e = .unload then none
    else
      match step m s.irq e with
      | some (irq, _) => some ({ s with irq }, .nothing)
      | none => none
  | .readHits =>
    match s.hits with
    | none => some ({ s with hits := some (int32 s.irq.irqHits) }, .nothing)
    | some _ => none
  | .readDone =>
    match m, s.done with
    | .irqbh _, none => some ({ s with done := some (int32 s.irq.bhDone) }, .nothing)
    | _, _ => none
  | .finish cnt =>
    match s.args m with
    | some args =>
      let res := m.read args cnt cnt s.pos
      some ({ s with pos := res.pos, hits := none, done := none }, .read res)
    | none => none

/-- The cases of `sessionStep`. -/
inductive SessionMove (m : Module) (s : Session) : Access → Session → Got → Prop
  | irq {e irq o} (h : step m s.irq e = some (irq, o)) :
      SessionMove m s (.irq e) { s with irq } .nothing
  | readHits (h : s.hits = none) :
      SessionMove m s .readHits { s with hits := some (int32 s.irq.irqHits) } .nothing
  | readDone (h : s.done = none) :
      SessionMove m s .readDone { s with done := some (int32 s.irq.bhDone) } .nothing
  | finish {cnt args res} (h : s.args m = some args) (hres : m.read args cnt cnt s.pos = res) :
      SessionMove m s (.finish cnt) { s with pos := res.pos, hits := none, done := none } (.read res)

theorem sessionStep_move {m : Module} {s u : Session} {e : Access} {o : Got}
    (h : sessionStep m s e = some (u, o)) : SessionMove m s e u o := by
  cases e with
  | irq e =>
    simp only [sessionStep] at h
    split at h
    · cases h
    · split at h
      · next hs =>
        cases h
        exact .irq hs
      · cases h
  | readHits =>
    simp only [sessionStep] at h
    split at h
    · next hs =>
      cases h
      exact .readHits hs
    · cases h
  | readDone =>
    simp only [sessionStep] at h
    split at h
    · next hs =>
      cases h
      exact .readDone hs
    · cases h
  | finish cnt =>
    simp only [sessionStep] at h
    split at h
    · next hs =>
      cases h
      exact .finish hs rfl
    · cases h

/-! ## The line in pieces -/

inductive Slot
  | lit (b : Bytes)
  | hits
  | done

def Module.slots : Module → List Slot
  | .gpioirq => [.lit (literal "irq_count="), .hits, .lit [10]]
  | .irqbh mode => [.lit (literal "irq_hits="), .hits, .lit (literal " bh_done="), .done,
      .lit (literal " mode=" ++ modeName mode ++ [10])]

def Slot.text (args : Int × Int) : Slot → Bytes
  | .lit b => b
  | .hits => formatInt args.1
  | .done => formatInt args.2

def Module.pieces (m : Module) (args : Int × Int) : List Bytes := m.slots.map (Slot.text args)

@[simp] theorem pieces_flatten (m : Module) (args : Int × Int) :
    (m.pieces args).flatten = m.line args := by
  cases m <;> simp [Module.pieces, Module.slots, Slot.text, Module.line, qiLine, bhLine]

theorem line_length_lt (m : Module) (x y : Int) :
    (m.line (int32 x, int32 y)).length < 64 := by
  obtain ⟨hxlo, hxhi⟩ := int32_range x
  obtain ⟨hylo, hyhi⟩ := int32_range y
  have hx := formatInt_length_le hxlo hxhi
  have hy := formatInt_length_le hylo hyhi
  cases m with
  | gpioirq =>
    have hlit : (literal "irq_count=").length = 10 := by decide
    simp only [Module.line, qiLine, List.length_append, hlit, List.length_singleton]
    omega
  | irqbh mode =>
    have hhits : (literal "irq_hits=").length = 9 := by decide
    have hdone : (literal " bh_done=").length = 9 := by decide
    have hmode : (literal " mode=").length = 6 := by decide
    have hname : (modeName mode).length ≤ 9 := by
      unfold modeName
      split <;> decide
    simp only [Module.line, bhLine, List.length_append, hhits, hdone, hmode, List.length_singleton]
    omega

theorem read_eq (m : Module) (x y : Int) (cnt pos : Nat) :
    m.read (int32 x, int32 y) cnt cnt pos =
      ⟨.ok (min cnt ((m.line (int32 x, int32 y)).length - pos)),
        ((m.line (int32 x, int32 y)).drop pos).take cnt,
        pos + min cnt ((m.line (int32 x, int32 y)).length - pos)⟩ := by
  have hlen := line_length_lt m x y
  cases m with
  | gpioirq => exact readLine_eq hlen (Nat.le_refl _)
  | irqbh mode => exact readLine_eq (hlen.trans (by decide)) (Nat.le_refl _)

/-! ## What the reader gets -/

abbrev Trail := List (Record Session Access Got)

/-- The bytes that a step hands to the reader. -/
def handed (r : Record Session Access Got) : Bytes :=
  match r.out with
  | .read res => res.data
  | .nothing => []

def delivered (tr : Trail) : Bytes := tr.flatMap handed

/-- The numbers that a read prints. -/
def printed (m : Module) (r : Record Session Access Got) : Option (Int × Int) :=
  match r.event with
  | .finish _ => r.pre.args m
  | _ => none

/-- Those of the last read. -/
def lastPrinted (m : Module) (tr : Trail) : Option (Int × Int) :=
  replay (fun _ args => some args) (printed m) none tr

/-- Every number that has been begun is printed as long as in the last read, and either with the same
digits from the position on or with those delivered before it. -/
def Continues (m : Module) (past : Trail) (r : Record Session Access Got) : Prop :=
  ∀ old new, lastPrinted m past = some old → printed m r = some new →
    Keeps r.pre.pos (delivered past) (m.pieces old) (m.pieces new)

/-- The bytes delivered are one line, of numbers that the counters had at some moments. -/
def DeliversLine (m : Module) (tr : Trail) : Prop :=
  ∃ hits done, delivered tr = m.line (hits, done) ∧ (∃ r ∈ tr, hits = int32 r.pre.irq.irqHits) ∧
    ∃ r ∈ tr, done = int32 r.pre.irq.bhDone

def Slot.Held (tr : Trail) : Slot → Bytes → Prop
  | .lit b, x => x = b
  | .hits, x => ∃ r ∈ tr, x = formatInt (int32 r.pre.irq.irqHits)
  | .done, x => ∃ r ∈ tr, x = formatInt (int32 r.pre.irq.bhDone)

theorem Slot.Held.mono {tr tr' : Trail} (h : ∀ r ∈ tr, r ∈ tr') (slot : Slot) (x : Bytes)
    (hx : slot.Held tr x) : slot.Held tr' x := by
  cases slot with
  | lit => exact hx
  | hits =>
    obtain ⟨r, hr, hx⟩ := hx
    exact ⟨r, h r hr, hx⟩
  | done =>
    obtain ⟨r, hr, hx⟩ := hx
    exact ⟨r, h r hr, hx⟩

/-- The counters that a call has read are as they were at a moment of the trail. -/
structure ReadFrom (m : Module) (tr : Trail) (args : Int × Int) : Prop where
  hits : ∃ r ∈ tr, args.1 = int32 r.pre.irq.irqHits
  done : (∃ mode, m = .irqbh mode) → ∃ r ∈ tr, args.2 = int32 r.pre.irq.bhDone

theorem ReadFrom.pieces {m : Module} {tr : Trail} {args : Int × Int} (h : ReadFrom m tr args) :
    List.Forall₂ (Slot.Held tr) m.slots (m.pieces args) := by
  obtain ⟨r, hr, hhits⟩ := h.hits
  cases m with
  | gpioirq =>
    refine .cons rfl (.cons ⟨r, hr, ?_⟩ (.cons rfl .nil))
    rw [← hhits]
    rfl
  | irqbh mode =>
    obtain ⟨q, hq, hdone⟩ := h.done ⟨mode, rfl⟩
    refine .cons rfl (.cons ⟨r, hr, ?_⟩ (.cons rfl (.cons ⟨q, hq, ?_⟩ (.cons rfl .nil))))
    · rw [← hhits]
      rfl
    · rw [← hdone]
      rfl

theorem line_of_held {m : Module} {tr : Trail} {ms : List Bytes}
    (h : List.Forall₂ (Slot.Held tr) m.slots ms) :
    ∃ hits done, ms.flatten = m.line (hits, done) ∧ (∃ r ∈ tr, hits = int32 r.pre.irq.irqHits) ∧
      ∃ r ∈ tr, done = int32 r.pre.irq.bhDone := by
  cases m with
  | gpioirq =>
    simp only [Module.slots] at h
    cases h with
    | cons hlabel h =>
      cases h with
      | cons hhits h =>
        cases h with
        | cons hend h =>
          cases h
          obtain ⟨r, hr, hhits⟩ := hhits
          refine ⟨int32 r.pre.irq.irqHits, int32 r.pre.irq.bhDone, ?_, ⟨r, hr, rfl⟩, r, hr, rfl⟩
          simp only [Slot.Held] at hlabel hend
          simp [Module.line, qiLine, hlabel, hhits, hend]
  | irqbh mode =>
    simp only [Module.slots] at h
    cases h with
    | cons hlabel h =>
      cases h with
      | cons hhits h =>
        cases h with
        | cons hmid h =>
          cases h with
          | cons hdone h =>
            cases h with
            | cons hend h =>
              cases h
              obtain ⟨r, hr, hhits⟩ := hhits
              obtain ⟨q, hq, hdone⟩ := hdone
              refine ⟨int32 r.pre.irq.irqHits, int32 q.pre.irq.bhDone, ?_, ⟨r, hr, rfl⟩, q, hq, rfl⟩
              simp only [Slot.Held] at hlabel hmid hend
              simp [Module.line, bhLine, hlabel, hhits, hmid, hdone, hend]

/-! ## The run of a reader -/

structure Reading (m : Module) (tr : Trail) (s : Session) : Prop where
  hits : ∀ x, s.hits = some x → ∃ r ∈ tr, x = int32 r.pre.irq.irqHits
  done : ∀ x, s.done = some x → ∃ r ∈ tr, x = int32 r.pre.irq.bhDone
  start : lastPrinted m tr = none → s.pos = 0 ∧ delivered tr = []
  carried : ∀ args, lastPrinted m tr = some args →
    Carried (Slot.Held tr) m.slots s.pos (delivered tr) (m.pieces args)

variable {m : Module} {tr : Trail} {s u : Session}

theorem reading_fresh (irq : State) : Reading m [] (Session.fresh irq) :=
  ⟨nofun, nofun, fun _ => ⟨rfl, rfl⟩, nofun⟩

theorem delivered_concat (tr : Trail) (r : Record Session Access Got) :
    delivered (tr ++ [r]) = delivered tr ++ handed r := by
  simp [delivered]

theorem exists_mem_concat {P : Record Session Access Got → Prop} (r : Record Session Access Got)
    (h : ∃ q ∈ tr, P q) : ∃ q ∈ tr ++ [r], P q := by
  obtain ⟨q, hq, hP⟩ := h
  exact ⟨q, List.mem_append_left _ hq, hP⟩

theorem Reading.aside {r : Record Session Access Got} (h : Reading m tr s) (hprinted : printed m r = none)
    (hhanded : handed r = []) (hpos : u.pos = s.pos)
    (hhits : ∀ x, u.hits = some x → s.hits = some x ∨ ∃ q ∈ tr ++ [r], x = int32 q.pre.irq.irqHits)
    (hdone : ∀ x, u.done = some x → s.done = some x ∨ ∃ q ∈ tr ++ [r], x = int32 q.pre.irq.bhDone) :
    Reading m (tr ++ [r]) u := by
  have hlast : lastPrinted m (tr ++ [r]) = lastPrinted m tr := by
    rw [lastPrinted, replay_concat, hprinted]
    rfl
  have hgot : delivered (tr ++ [r]) = delivered tr := by
    rw [delivered_concat, hhanded, List.append_nil]
  constructor
  · intro x hx
    rcases hhits x hx with hx | hx
    · exact exists_mem_concat r (h.hits x hx)
    · exact hx
  · intro x hx
    rcases hdone x hx with hx | hx
    · exact exists_mem_concat r (h.done x hx)
    · exact hx
  · rw [hlast, hgot, hpos]
    exact h.start
  · rw [hlast, hgot, hpos]
    intro args hargs
    exact (h.carried args hargs).mono (Slot.Held.mono fun q hq => List.mem_append_left _ hq)

theorem Reading.readFrom {args : Int × Int} (h : Reading m tr s) (hargs : s.args m = some args) :
    ReadFrom m tr args := by
  cases m with
  | gpioirq =>
    obtain ⟨x, hx, rfl⟩ := Option.map_eq_some_iff.mp hargs
    exact ⟨h.hits x hx, nofun⟩
  | irqbh mode =>
    simp only [Session.args] at hargs
    split at hargs
    · next x y hx hy =>
      cases hargs
      exact ⟨h.hits x hx, fun _ => h.done y hy⟩
    · cases hargs

theorem Reading.args_int {args : Int × Int} (h : Reading m tr s) (hargs : s.args m = some args) :
    ∃ x y, args = (int32 x, int32 y) := by
  have hfrom := h.readFrom hargs
  obtain ⟨r, -, hhits⟩ := hfrom.hits
  cases m with
  | gpioirq =>
    obtain ⟨x, -, hx⟩ := Option.map_eq_some_iff.mp hargs
    refine ⟨r.pre.irq.irqHits, 0, ?_⟩
    rw [← hhits, ← hx]
    rfl
  | irqbh mode =>
    obtain ⟨q, -, hdone⟩ := hfrom.done ⟨mode, rfl⟩
    exact ⟨r.pre.irq.irqHits, q.pre.irq.bhDone, by rw [← hhits, ← hdone]⟩

theorem lastPrinted_finish {args : Int × Int} {cnt : Nat} {o : Got} (hargs : s.args m = some args) :
    lastPrinted m (tr ++ [⟨s, .finish cnt, o⟩]) = some args := by
  rw [lastPrinted, replay_concat]
  simp only [printed, hargs]

/-- The end of a read: its text takes the place of the last one, and its bytes are delivered. -/
theorem Reading.finish {args : Int × Int} {cnt : Nat} {res : ReadResult} (h : Reading m tr s)
    (hargs : s.args m = some args) (hres : m.read args cnt cnt s.pos = res)
    (hcont : Continues m tr ⟨s, .finish cnt, .read res⟩) :
    Reading m (tr ++ [⟨s, .finish cnt, .read res⟩])
      { s with pos := res.pos, hits := none, done := none } := by
  have hlast : lastPrinted m (tr ++ [⟨s, .finish cnt, .read res⟩]) = some args :=
    lastPrinted_finish hargs
  have hpieces := (h.readFrom hargs).pieces
  have hnow : Carried (Slot.Held tr) m.slots s.pos (delivered tr) (m.pieces args) := by
    cases hold : lastPrinted m tr with
    | none =>
      obtain ⟨hpos, hgot⟩ := h.start hold
      rw [hpos, hgot]
      exact .start hpieces
    | some old => exact (h.carried old hold).change (hcont old args hold hargs) hpieces
  have hgrown : Carried (Slot.Held (tr ++ [⟨s, .finish cnt, .read res⟩])) m.slots s.pos (delivered tr)
      (m.pieces args) :=
    hnow.mono (Slot.Held.mono fun q hq => List.mem_append_left _ hq)
  refine ⟨nofun, nofun, ?_, ?_⟩
  · intro hnone
    rw [hlast] at hnone
    cases hnone
  · intro args' hargs'
    rw [hlast] at hargs'
    cases hargs'
    obtain ⟨x, y, rfl⟩ := h.args_int hargs
    have htake := hgrown.take (min cnt ((m.line (int32 x, int32 y)).length - s.pos))
    rw [pieces_flatten, ← List.length_drop, ← List.take_eq_take_min, List.length_drop] at htake
    rw [read_eq] at hres
    rw [delivered_concat, handed, ← hres]
    rw [← hres] at htake
    exact htake

theorem reading_step {e : Access} {o : Got} (h : Reading m tr s) (hcont : Continues m tr ⟨s, e, o⟩)
    (hs : sessionStep m s e = some (u, o)) : Reading m (tr ++ [⟨s, e, o⟩]) u := by
  have hself : ∀ r : Record Session Access Got, r ∈ tr ++ [r] := by simp
  cases sessionStep_move hs with
  | irq => exact h.aside rfl rfl rfl (fun _ hx => .inl hx) fun _ hx => .inl hx
  | readHits =>
    refine h.aside rfl rfl rfl ?_ fun _ hx => .inl hx
    intro x hx
    exact .inr ⟨_, hself _, (Option.some.inj hx).symm⟩
  | readDone =>
    refine h.aside rfl rfl rfl (fun _ hx => .inl hx) ?_
    intro x hx
    exact .inr ⟨_, hself _, (Option.some.inj hx).symm⟩
  | finish hargs hres => exact h.finish hargs hres hcont

theorem reading_run {irq : State} (h : Run (sessionStep m) (Session.fresh irq) tr s)
    (hcont : Each (Continues m) tr) : Reading m tr s := by
  apply h.guarded hcont (reading_fresh irq)
  intro tr t e u o _ hI hP hs
  exact reading_step hI hP hs

theorem Reading.ended {pre : Session} {cnt : Nat} {res : ReadResult} (h : Reading m tr pre)
    (hnow : Reading m (tr ++ [⟨pre, .finish cnt, .read res⟩]) s) (hcnt : 0 < cnt)
    (hs : sessionStep m pre (.finish cnt) = some (s, .read res)) (hzero : res.ret = .ok 0) :
    DeliversLine m (tr ++ [⟨pre, .finish cnt, .read res⟩]) := by
  cases sessionStep_move hs with
  | @finish _ args _ hargs hres =>
    obtain ⟨x, y, rfl⟩ := h.args_int hargs
    have hcarried := hnow.carried _ (lastPrinted_finish hargs)
    rw [read_eq] at hres
    rw [← hres, Except.ok.injEq] at hzero
    have hle : (m.pieces (int32 x, int32 y)).flatten.length ≤ res.pos := by
      rw [pieces_flatten, ← hres]
      dsimp only
      omega
    obtain ⟨ms, hheld, hgot⟩ := hcarried.whole hle
    rw [DeliversLine, hgot]
    exact line_of_held hheld

/-- The step is a read that returns 0. -/
def ReturnsZero (r : Record Session Access Got) : Prop := ∃ res, r.out = .read res ∧ res.ret = .ok 0

/-- Every read asks for a byte at least. -/
def Chunked (tr : Trail) : Prop := ∀ r ∈ tr, ∀ cnt, r.event = .finish cnt → 0 < cnt

/-- In every run of a reader beside the interrupts, from a freshly opened file to a read that returns
0, in which every read continues the numbers that have been begun, the bytes delivered are one line. -/
theorem reader_gets_line (m : Module) (irq : State) (tr : Trail) (r : Record Session Access Got)
    (s : Session) (h : Run (sessionStep m) (Session.fresh irq) (tr ++ [r]) s)
    (hchunks : Chunked (tr ++ [r])) (hcont : Each (Continues m) (tr ++ [r])) (hend : ReturnsZero r) :
    DeliversLine m (tr ++ [r]) := by
  have hnow := reading_run h hcont
  obtain ⟨hrun, hs⟩ := h.concat_inv
  have hbefore := reading_run hrun ((each_concat _ _).mp hcont).1
  obtain ⟨res, hout, hzero⟩ := hend
  obtain ⟨pre, e, o⟩ := r
  dsimp only at hout hs hbefore
  subst hout
  cases e with
  | finish cnt =>
    have hcnt := hchunks _ (List.mem_append_right _ (List.mem_singleton_self _)) cnt rfl
    exact hbefore.ended hnow hcnt hs hzero
  | _ => cases sessionStep_move hs

/-! ## Two readers -/

deriving instance DecidableEq for State

def chunk (r : Record Session Access Got) : Bool :=
  match r.event with
  | .finish cnt => 0 < cnt
  | _ => true

theorem chunked_of_all {tr : Trail} (h : tr.all chunk = true) : Chunked tr := by
  intro r hr cnt he
  have hchunk := List.all_eq_true.mp h r hr
  rw [chunk, he] at hchunk
  exact of_decide_eq_true hchunk

def returnsZero (r : Record Session Access Got) : Bool :=
  match r.out with
  | .read res =>
    match res.ret with
    | .ok n => n == 0
    | .error _ => false
  | .nothing => false

theorem returnsZero_spec {r : Record Session Access Got} (h : returnsZero r = true) : ReturnsZero r := by
  unfold returnsZero at h
  split at h
  · next res hout =>
    split at h
    · next n hret =>
      rw [beq_iff_eq.mp h] at hret
      exact ⟨res, hout, hret⟩
    · cases h
  · cases h

def continues (m : Module) (past : Trail) (r : Record Session Access Got) : Bool :=
  match lastPrinted m past, printed m r with
  | some old, some new => decide (Keeps r.pre.pos (delivered past) (m.pieces old) (m.pieces new))
  | _, _ => true

theorem continues_spec {past : Trail} {r : Record Session Access Got} (h : continues m past r = true) :
    Continues m past r := by
  intro old new hold hnew
  rw [continues, hold, hnew] at h
  exact of_decide_eq_true h

/-- Six interrupts, one of which the irq thread has yet to count. -/
def sixHits : State :=
  { State.init with
    stage := .live
    gpio := some false
    action := true
    thread := .started
    irqHits := 6
    bhDone := 5 }

/-- The reader stops before the second number; the irq thread counts before it goes on. -/
theorem reader_gets_line_threaded : ∃ tr r s,
    Run (sessionStep (.irqbh 1)) (Session.fresh sixHits) (tr ++ [r]) s ∧
    delivered (tr ++ [r]) = literal "irq_hits=6 bh_done=6 mode=threaded" ++ [10] ∧
    DeliversLine (.irqbh 1) (tr ++ [r]) := by
  obtain ⟨tr, r, s, hrun, -, hq⟩ := exists_exec_concat (sessionStep (.irqbh 1)) (Session.fresh sixHits)
    [.readHits, .readDone, .finish 19, .irq .threadCount, .readHits, .readDone, .finish 64, .readHits,
      .readDone] (.finish 64)
    (fun tr r => (tr ++ [r]).all chunk && checkEach (continues (.irqbh 1)) [] (tr ++ [r]) &&
      returnsZero r && delivered (tr ++ [r]) == literal "irq_hits=6 bh_done=6 mode=threaded" ++ [10])
    (by decide +kernel)
  simp only [Bool.and_eq_true, beq_iff_eq] at hq
  obtain ⟨⟨⟨hchunks, hcont⟩, hend⟩, hgot⟩ := hq
  have hcontinues := each_of_checkEach hcont fun _ _ h => continues_spec h
  exact ⟨tr, r, s, hrun, hgot, reader_gets_line (.irqbh 1) sixHits tr r s hrun (chunked_of_all hchunks)
    hcontinues (returnsZero_spec hend)⟩

def interrupt : List Event := [.hardEnter, .hardCount, .hardReturn]

/-- Loading, with an interrupt for each of the six edges, and three more edges. -/
def nineInterrupts : List Event :=
  [.load, .gpioRequestOne none, .requestIrq none] ++
    (List.replicate 6 (.gpioSetValue :: interrupt)).flatten ++ [.miscRegister none] ++
    (List.replicate 3 (.edge :: interrupt)).flatten

def nineHits : State :=
  { State.init with stage := .live, gpio := some false, action := true, irqHits := 9 }

/-- The reader takes all of `irq_count=9`; after the tenth interrupt the line is longer and its last
byte comes again. -/
theorem reader_gets_second_newline : ¬ ∀ (m : Module) (before : List (Record State Event Shown))
    (irq : State), Run (step m) State.init before irq →
      ∀ (tr : Trail) (r : Record Session Access Got) (s : Session),
        Run (sessionStep m) (Session.fresh irq) (tr ++ [r]) s → Chunked (tr ++ [r]) → ReturnsZero r →
          DeliversLine m (tr ++ [r]) := by
  intro hall
  obtain ⟨before, irq, hload, -, hirq⟩ := exists_exec (step .gpioirq) State.init nineInterrupts
    (fun x => x.2 == nineHits) (by decide +kernel)
  obtain rfl := beq_iff_eq.mp hirq
  obtain ⟨tr, r, s, hrun, -, hq⟩ := exists_exec_concat (sessionStep .gpioirq) (Session.fresh nineHits)
    [.readHits, .finish 64, .irq .edge, .irq .hardEnter, .irq .hardCount, .irq .hardReturn, .readHits,
      .finish 64, .readHits] (.finish 64)
    (fun tr r => (tr ++ [r]).all chunk && returnsZero r &&
      (tr ++ [r]).all fun q => delivered (tr ++ [r]) != qiLine (int32 q.pre.irq.irqHits))
    (by decide +kernel)
  simp only [Bool.and_eq_true] at hq
  obtain ⟨⟨hchunks, hend⟩, hno⟩ := hq
  obtain ⟨hits, done, hline, ⟨q, hq, hhits⟩, -⟩ := hall .gpioirq before nineHits hload tr r s hrun
    (chunked_of_all hchunks) (returnsZero_spec hend)
  have hne := List.all_eq_true.mp hno q hq
  rw [← hhits] at hne
  exact bne_iff_ne.mp hne hline

end LinuxDriverLab.Irq
