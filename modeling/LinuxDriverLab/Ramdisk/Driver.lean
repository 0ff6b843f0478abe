import LinuxDriverLab.Framework.Buffer
import LinuxDriverLab.Framework.Patch
import LinuxDriverLab.Framework.Run
import LinuxDriverLab.Framework.Words

/-!
# The ramdisk driver

`rb_transfer` copies the segments of a request one after the other, from a byte position that it
carries along. Requests in flight are told apart by their tags, and each copy of a segment is a step
of its own.
-/

namespace LinuxDriverLab.Ramdisk

def rbSectors : Nat := 8192
def sectorShift : Nat := 9

/-- The size of the memory behind the disk. -/
def rbBytes : Nat := rbSectors <<< sectorShift

/-- The memory from `rb_data` on -/
abbrev Image := Nat → UInt8

/-- `vzalloc` -/
def Image.zero : Image := fun _ => 0

/-- `memcpy` of `src` to offset `off` of a page -/
def memcpy (page : Bytes) (off : Nat) (src : Bytes) : Bytes :=
  page.take off ++ src ++ page.drop (off + src.length)

theorem memcpy_length_le (page : Bytes) {off : Nat} (src : Bytes) (h : off ≤ page.length) :
    page.length ≤ (memcpy page off src).length := by
  simp only [memcpy, List.length_append, List.length_take, List.length_drop]
  omega

/-- A segment of a request: a range of a page. -/
structure BioVec where
  page : Bytes
  offset : Nat
  len : Nat
  inPage : offset + len ≤ page.length

/-- The bytes of a segment. -/
def BioVec.data (bv : BioVec) : Bytes := slice bv.page bv.offset bv.len

/-- The segment after `memcpy` of `src` into it -/
def BioVec.fill (bv : BioVec) (src : Bytes) : BioVec where
  page := memcpy bv.page bv.offset src
  offset := bv.offset
  len := bv.len
  inPage := by
    have := bv.inPage
    exact Nat.le_trans bv.inPage (memcpy_length_le bv.page src (by omega))

inductive Op
  | read
  | write
deriving DecidableEq

def totalLen (segs : List BioVec) : Nat := (segs.map BioVec.len).sum

def payload (segs : List BioVec) : Bytes := segs.flatMap BioVec.data

/-- A request for `nrSectors` sectors from `pos` on, divided into segments. -/
structure Request where
  op : Op
  pos : Nat
  nrSectors : Nat
  segs : List BioVec
  total : totalLen segs = nrSectors <<< sectorShift

/-- `blk_rq_pos(rq) << SECTOR_SHIFT` -/
def Request.start (rq : Request) : Nat := rq.pos <<< sectorShift

/-- The disk and the segment after one turn of `rb_transfer`'s loop. -/
def rbSegment (op : Op) (disk : Image) (pos : Nat) (bv : BioVec) : Image × BioVec :=
  match op with
  | .write => (Patch.apply disk ⟨pos, bv.data⟩, bv)
  | .read => (disk, bv.fill ((List.range bv.len).map fun k => disk (pos + k)))

/-- A request in the loop of `rb_transfer`: the byte position, the segments copied and those still to
be copied. -/
structure Transfer where
  rq : Request
  pos : Nat
  copied : List BioVec
  rest : List BioVec

def Transfer.begin (rq : Request) : Transfer := ⟨rq, rq.start, [], rq.segs⟩

/-- One turn of the loop. -/
def Transfer.advance (x : Transfer) (bv : BioVec) (rest : List BioVec) : Transfer :=
  { x with pos := x.pos + bv.len, copied := x.copied ++ [bv], rest }

def rbTransferLoop (disk : Image) (x : Transfer) : List BioVec → Image × Transfer
  | [] => (disk, x)
  | bv :: rest =>
    let (disk', bv') := rbSegment x.rq.op disk x.pos bv
    rbTransferLoop disk' (x.advance bv' rest) rest

/-- `rb_transfer`: the disk after it, and the segments with what a READ left in them. -/
def rbTransfer (disk : Image) (rq : Request) : Image × List BioVec :=
  let (disk', x) := rbTransferLoop disk (Transfer.begin rq) rq.segs
  (disk', x.copied)

structure State where
  disk : Image
  flight : Nat → Option Transfer

def State.init : State := ⟨Image.zero, fun _ => none⟩

/-- `rb_queue_rq` of a request, a turn of its loop, and `blk_mq_end_request` -/
inductive Event
  | queue (tag : Nat) (rq : Request)
  | segment (tag : Nat)
  | complete (tag : Nat)

/-- What a step shows: a range of `rb_data` that `memcpy` is handed, or a completed request with its
segments. -/
inductive Shown
  | queued (rq : Request)
  | touched (pos len : Nat)
  | completed (rq : Request) (segs : List BioVec)

def State.setFlight (s : State) (tag : Nat) (x : Option Transfer) : State :=
  { s with flight := Function.update s.flight tag x }

def step (s : State) : Event → Option (State × Shown)
  | .queue tag rq =>
    match s.flight tag with
    | none => some (s.setFlight tag (some (.begin rq)), .queued rq)
    | some _ => none
  | .segment tag =>
    match s.flight tag with
    | some ⟨rq, pos, copied, bv :: rest⟩ =>
      let (disk, bv') := rbSegment rq.op s.disk pos bv
      let x : Transfer := Transfer.advance ⟨rq, pos, copied, bv :: rest⟩ bv' rest
      some ({ s with disk }.setFlight tag (some x), .touched pos bv.len)
    | _ => none
  | .complete tag =>
    match s.flight tag with
    | some ⟨rq, _, copied, []⟩ => some (s.setFlight tag none, .completed rq copied)
    | _ => none

/-- The cases of `step`. -/
inductive Move (s : State) : Event → State → Shown → Prop
  | queue {tag rq} (h : s.flight tag = none) :
      Move s (.queue tag rq) (s.setFlight tag (some (.begin rq))) (.queued rq)
  | segment {tag x bv rest} (h : s.flight tag = some x) (hrest : x.rest = bv :: rest) :
      Move s (.segment tag)
        ({ s with disk := (rbSegment x.rq.op s.disk x.pos bv).1 }.setFlight tag
          (some (x.advance (rbSegment x.rq.op s.disk x.pos bv).2 rest)))
        (.touched x.pos bv.len)
  | complete {tag x} (h : s.flight tag = some x) (hrest : x.rest = []) :
      Move s (.complete tag) (s.setFlight tag none) (.completed x.rq x.copied)

theorem step_move {s u : State} {e : Event} {o : Shown} (h : step s e = some (u, o)) :
    Move s e u o := by
  cases e with
  | queue tag rq =>
    simp only [step] at h
    split at h
    · next hf =>
      cases h
      exact .queue hf
    · cases h
  | segment tag =>
    simp only [step] at h
    split at h
    · next hf =>
      cases h
      exact .segment hf rfl
    · cases h
  | complete tag =>
    simp only [step] at h
    split at h
    · next hf =>
      cases h
      exact .complete hf rfl
    · cases h

@[simp] theorem setFlight_self (s : State) (tag : Nat) (y : Option Transfer) :
    (s.setFlight tag y).flight tag = y := by
  simp [State.setFlight]

theorem setFlight_other (s : State) {tag tag' : Nat} (y : Option Transfer) (h : tag' ≠ tag) :
    (s.setFlight tag y).flight tag' = s.flight tag' := by
  simp [State.setFlight, h]

@[simp] theorem setFlight_disk (s : State) (tag : Nat) (y : Option Transfer) :
    (s.setFlight tag y).disk = s.disk := rfl

@[simp] theorem setFlight_setFlight (s : State) (tag : Nat) (x y : Option Transfer) :
    (s.setFlight tag x).setFlight tag y = s.setFlight tag y := by
  simp [State.setFlight]

theorem setFlight_none (s : State) {tag : Nat} (h : s.flight tag = none) :
    s.setFlight tag none = s := by
  simp [State.setFlight, ← h]

theorem step_segment {s : State} {tag : Nat} {x : Transfer} {bv : BioVec} {rest : List BioVec}
    (h : s.flight tag = some x) (hrest : x.rest = bv :: rest) :
    step s (.segment tag) =
      some ({ s with disk := (rbSegment x.rq.op s.disk x.pos bv).1 }.setFlight tag
        (some (x.advance (rbSegment x.rq.op s.disk x.pos bv).2 rest)), .touched x.pos bv.len) := by
  obtain ⟨rq, pos, copied, rest'⟩ := x
  cases hrest
  simp only [step, h]

theorem step_complete {s : State} {tag : Nat} {x : Transfer} (h : s.flight tag = some x)
    (hrest : x.rest = []) :
    step s (.complete tag) = some (s.setFlight tag none, .completed x.rq x.copied) := by
  obtain ⟨rq, pos, copied, rest⟩ := x
  cases hrest
  simp only [step, h]

theorem rbTransferLoop_run {s : State} {tag : Nat} {x : Transfer} {segs : List BioVec}
    (h : s.flight tag = some x) (hrest : x.rest = segs) :
    (rbTransferLoop s.disk x segs).2.rq = x.rq ∧ (rbTransferLoop s.disk x segs).2.rest = [] ∧
      ∃ tr, Run step s tr
          ({ s with disk := (rbTransferLoop s.disk x segs).1 }.setFlight tag
            (some (rbTransferLoop s.disk x segs).2)) ∧
        tr.map Record.event = List.replicate segs.length (.segment tag) := by
  induction segs generalizing s x with
  | nil =>
    refine ⟨rfl, hrest, [], ?_, rfl⟩
    have hsame : s.setFlight tag (some x) = s := by simp [State.setFlight, ← h]
    simp only [rbTransferLoop, hsame]
    exact .refl
  | cons bv rest ih =>
    have hstep := step_segment h hrest
    obtain ⟨hrq, hdone, tr, hrun, hev⟩ := ih (setFlight_self
      { s with disk := (rbSegment x.rq.op s.disk x.pos bv).1 } tag
      (some (x.advance (rbSegment x.rq.op s.disk x.pos bv).2 rest))) rfl
    refine ⟨hrq, hdone, ⟨s, .segment tag, .touched x.pos bv.len⟩ :: tr, ?_, ?_⟩
    · have hall := (Run.tail .refl hstep).append hrun
      simpa [State.setFlight, rbTransferLoop] using hall
    · simp [hev, List.replicate_succ]

/-- With no other request in between, the steps of a request do what `rb_transfer` does. -/
theorem rbTransfer_run {s : State} {tag : Nat} (rq : Request) (h : s.flight tag = none) :
    ∃ tr pre, Run step s
        (⟨s, .queue tag rq, .queued rq⟩ :: tr ++
          [⟨pre, .complete tag, .completed rq (rbTransfer s.disk rq).2⟩])
        { s with disk := (rbTransfer s.disk rq).1 } ∧
      tr.map Record.event = List.replicate rq.segs.length (.segment tag) := by
  have hqueue : step s (.queue tag rq) =
      some (s.setFlight tag (some (.begin rq)), .queued rq) := by
    simp only [step, h]
  obtain ⟨hrq, hrest, tr, hrun, hev⟩ := rbTransferLoop_run
    (setFlight_self s tag (some (.begin rq))) (Eq.refl rq.segs)
  have hall := (Run.tail .refl hqueue).append hrun
  simp only [setFlight_disk] at hrq hrest hall
  have hdone := step_complete (setFlight_self
    { s with disk := (rbTransfer s.disk rq).1 } tag
    (some (rbTransferLoop s.disk (.begin rq) rq.segs).2)) hrest
  rw [setFlight_setFlight, setFlight_none _ (by exact h), hrq] at hdone
  refine ⟨tr, _, Run.tail ?_ hdone, hev⟩
  simpa [rbTransfer, State.setFlight] using hall

end LinuxDriverLab.Ramdisk
