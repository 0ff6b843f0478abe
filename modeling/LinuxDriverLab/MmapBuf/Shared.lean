import Mathlib.Algebra.Order.Ring.Nat
import LinuxDriverLab.MmapBuf.Lifetime

/-!
# Two paths to one buffer

The buffer is an array of bytes. A mapping is a window on it that starts at the mapping's page
offset, whatever has been cut off since, and a read on a file returns a slice of it. Neither reaches
anything else.
-/

namespace LinuxDriverLab.MmapBuf

variable {P : PageSize} {s u : State} {p : Nat} {x : Process}

/-- What happens to the buffer as an array of bytes -/
inductive BufOp
  | fill
  | store (off : Nat) (b : UInt8)

def BufOp.apply (buf : Buf (bufSize P)) : BufOp → Buf (bufSize P)
  | .fill => (Buf.zero (bufSize P)).store 0 (initText ++ [0])
  | .store off b => buf.store off [b]

def State.vma (s : State) (p i : Nat) : Option Vma := (s.proc p).bind fun x => x.vmas[i]?

/-- A store through a mapping goes to the byte that the page offset and the place in the mapping
name. -/
def bufOp (P : PageSize) (r : Record State Event Shown) : Option BufOp :=
  match r.event with
  | .insmod (some _) none => some .fill
  | .store p i k b => (r.pre.vma p i).map fun v => .store (v.pgoff * P.bytes + k) b
  | _ => none

/-- The bytes that the buffer holds -/
def content (P : PageSize) (tr : List (Record State Event Shown)) : Buf (bufSize P) :=
  replay BufOp.apply (bufOp P) (Buf.zero (bufSize P)) tr

/-- Physical memory holds the array from the buffer's address on. -/
def Shows (buf : Buf (bufSize P)) (s : State) : Prop :=
  ∀ kbuf, s.kbuf = some kbuf → ∀ k, k < bufSize P → buf.bytes[k]? = some (s.mem (kbuf + k))

/-- The frames of a mapping are those of the buffer's pages from its page offset on. -/
structure Window (P : PageSize) (kbuf : Nat) (v : Vma) : Prop where
  frames : v.frames = remapPfnRange (kbuf / P.bytes + v.pgoff) v.frames.length
  within : v.pgoff + v.frames.length ≤ bufPages

structure Windows (P : PageSize) (s : State) : Prop where
  aligned : ∀ kbuf, s.kbuf = some kbuf → P.bytes ∣ kbuf
  window : ∀ kbuf p x v, s.kbuf = some kbuf → s.proc p = some x → v ∈ x.vmas → Window P kbuf v

theorem remapPfnRange_length (pfn pages : Nat) : (remapPfnRange pfn pages).length = pages := by
  simp [remapPfnRange]

theorem remapPfnRange_getElem? (pfn pages j : Nat) :
    (remapPfnRange pfn pages)[j]? = if j < pages then some (pfn + j) else none := by
  rw [remapPfnRange, List.getElem?_map]
  by_cases hj : j < pages
  · rw [if_pos hj, List.getElem?_range hj, Option.map_some]
  · rw [if_neg hj, List.getElem?_eq_none (by rw [List.length_range]; omega), Option.map_none]

theorem remapPfnRange_take (pfn pages n : Nat) :
    (remapPfnRange pfn pages).take n = remapPfnRange pfn (min n pages) := by
  apply List.ext_getElem?
  intro j
  simp only [List.getElem?_take, remapPfnRange_getElem?, Nat.lt_min]
  by_cases hj : j < n
  · simp [hj]
  · simp [hj]

theorem remapPfnRange_drop (pfn pages n : Nat) :
    (remapPfnRange pfn pages).drop n = remapPfnRange (pfn + n) (pages - n) := by
  apply List.ext_getElem?
  intro j
  simp only [List.getElem?_drop, remapPfnRange_getElem?]
  have hiff : n + j < pages ↔ j < pages - n := by omega
  rw [Nat.add_assoc]
  simp only [hiff]

theorem Window.phys {kbuf : Nat} {v : Vma} (h : Window P kbuf v) (hal : P.bytes ∣ kbuf) (k : Nat) :
    v.phys P k = if k < v.frames.length * P.bytes then some (kbuf + (v.pgoff * P.bytes + k))
      else none := by
  have hpage : k / P.bytes < v.frames.length ↔ k < v.frames.length * P.bytes :=
    Nat.div_lt_iff_lt_mul P.pos
  rw [Vma.phys, h.frames, remapPfnRange_length, remapPfnRange_getElem?]
  by_cases hk : k < v.frames.length * P.bytes
  · rw [if_pos hk, if_pos (hpage.mpr hk), Option.map_some]
    have hdiv := Nat.div_mul_cancel hal
    have hmod := Nat.div_add_mod' k P.bytes
    congr 1
    calc (kbuf / P.bytes + v.pgoff + k / P.bytes) * P.bytes + k % P.bytes
        = kbuf / P.bytes * P.bytes + v.pgoff * P.bytes + (k / P.bytes * P.bytes + k % P.bytes) := by
          rw [Nat.add_mul, Nat.add_mul, Nat.add_assoc]
      _ = kbuf + (v.pgoff * P.bytes + k) := by rw [hdiv, hmod, Nat.add_assoc]
  · rw [if_neg hk, if_neg (fun hlt => hk (hpage.mp hlt)), Option.map_none]

theorem Window.lt_bufSize {kbuf k : Nat} {v : Vma} (h : Window P kbuf v)
    (hk : k < v.frames.length * P.bytes) : v.pgoff * P.bytes + k < bufSize P := by
  have hle : (v.pgoff + v.frames.length) * P.bytes ≤ bufPages * P.bytes :=
    Nat.mul_le_mul_right _ h.within
  rw [Nat.add_mul] at hle
  rw [bufSize, Nat.mul_comm P.bytes]
  omega

theorem Window.cut {kbuf first pages : Nat} {v w : Vma} (h : Window P kbuf v)
    (hw : w ∈ v.cut first pages) : Window P kbuf w := by
  have hlen := h.within
  rcases mem_cut hw with rfl | ⟨hlt, rfl⟩
  · constructor
    · dsimp only
      rw [h.frames, remapPfnRange_take, remapPfnRange_length]
    · dsimp only
      rw [List.length_take]
      omega
  · constructor
    · dsimp only
      rw [h.frames, remapPfnRange_drop, remapPfnRange_length, Nat.add_assoc]
    · dsimp only
      rw [List.length_drop]
      omega

theorem mbufMmap_ok {kbuf pages pgoff : Nat} {fails : Bool} {frames : List Nat} (f : File)
    (h : mbufMmap P kbuf (pages * P.bytes) pgoff fails = .ok frames) :
    pgoff = 0 ∧ frames.length = pages ∧ pages ≤ bufPages ∧ Window P kbuf ⟨f, pgoff, frames⟩ := by
  unfold mbufMmap at h
  split at h
  · cases h
  · next hok =>
    split at h
    · cases h
    · have hframes := Except.ok.inj h
      rw [Nat.mul_div_cancel _ P.pos] at hframes
      have hpgoff : pgoff = 0 := by omega
      have hsize : pages * P.bytes ≤ bufPages * P.bytes := by
        rw [bufSize, Nat.mul_comm P.bytes] at hok
        omega
      have hpages := Nat.le_of_mul_le_mul_right hsize P.pos
      have hlen : frames.length = pages := by rw [← hframes, remapPfnRange_length]
      refine ⟨hpgoff, hlen, hpages, ?_, ?_⟩
      · dsimp only
        rw [hlen, hpgoff, Nat.add_zero]
        exact hframes.symm
      · dsimp only
        omega

theorem proc_setProc {y : Option Process} {q : Nat} {z : Process}
    (h : (s.setProc p y).proc q = some z) : y = some z ∨ s.proc q = some z := by
  rw [proc_eq_some, setProc_procs, List.getElem?_set] at h
  split at h
  · split at h
    · exact .inl (Option.some.inj h)
    · cases h
  · exact .inr (proc_eq_some.mpr h)

theorem Windows.step (h : Windows P s) (hkbuf : u.kbuf = s.kbuf)
    (hvmas : ∀ q z v, u.proc q = some z → v ∈ z.vmas →
      (∃ q' z', s.proc q' = some z' ∧ v ∈ z'.vmas) ∨ ∀ kbuf, s.kbuf = some kbuf → Window P kbuf v) :
    Windows P u := by
  constructor
  · intro kbuf hk
    exact h.aligned kbuf (hkbuf ▸ hk)
  · intro kbuf q z v hk hz hv
    rw [hkbuf] at hk
    rcases hvmas q z v hz hv with ⟨q', z', hz', hv'⟩ | hwindow
    · exact h.window kbuf q' z' v hk hz' hv'
    · exact hwindow kbuf hk

theorem Windows.same (h : Windows P s) (hkbuf : u.kbuf = s.kbuf) (hprocs : u.procs = s.procs) :
    Windows P u := by
  apply h.step hkbuf
  intro q z v hz hv
  rw [State.proc, hprocs] at hz
  exact .inl ⟨q, z, hz, hv⟩

theorem Windows.setProc {y : Option Process} (h : Windows P s) (hp : s.proc p = some x)
    (hkbuf : u.kbuf = s.kbuf) (hprocs : u.procs = (s.setProc p y).procs)
    (hvmas : ∀ z v, y = some z → v ∈ z.vmas →
      v ∈ x.vmas ∨ ∀ kbuf, s.kbuf = some kbuf → Window P kbuf v) : Windows P u := by
  apply h.step hkbuf
  intro q z v hz hv
  rw [State.proc, hprocs] at hz
  rcases proc_setProc hz with hy | hold
  · rcases hvmas z v hy hv with hx | hwindow
    · exact .inl ⟨p, x, hp, hx⟩
    · exact .inr hwindow
  · exact .inl ⟨q, z, hold, hv⟩

theorem windows_init (mem : Memory) : Windows P (State.init mem) := ⟨nofun, nofun⟩

theorem windows_step {e : Event} {o : Shown} (hc : Counted s) (h : Windows P s)
    (hs : step P s e = some (u, o)) : Windows P u := by
  cases step_move hs with
  | insmodNoMemory => exact h
  | insmodFails => exact h.same rfl rfl
  | @insmod n hstage =>
    constructor
    · intro kbuf hk
      rw [← Option.some.inj hk]
      exact Nat.dvd_mul_left _ _
    · intro kbuf q z v _ hz hv
      have hnone : z.vmas = [] := hc.unmapped (hstage ▸ Stage.noConfusion) hz
      rw [hnone] at hv
      cases hv
  | openFile hp =>
    refine h.setProc hp rfl rfl fun z v hz hv => ?_
    obtain rfl := Option.some.inj hz
    exact .inl hv
  | openGoing => exact h
  | close hp =>
    refine h.setProc hp rfl rfl fun z v hz hv => ?_
    obtain rfl := Option.some.inj hz
    exact .inl hv
  | read => exact h.same rfl rfl
  | pread => exact h
  | mmapFails => exact h
  | @mmap q f pages pgoff fails x kbuf frames hp hkbuf hf _ hmmap =>
    refine h.setProc hp rfl rfl fun z v hz hv => ?_
    obtain rfl := Option.some.inj hz
    rcases List.mem_append.mp hv with hv | hv
    · exact .inl hv
    · rw [List.mem_singleton.mp hv]
      refine .inr fun kbuf' hk => ?_
      obtain rfl := Option.some.inj (hkbuf.symm.trans hk)
      exact (mbufMmap_ok f hmmap).2.2.2
  | @munmap q i first pages x v hp hv =>
    refine h.setProc hp rfl rfl fun z w hz hw => ?_
    obtain rfl := Option.some.inj hz
    rcases List.mem_append.mp hw with hw | hw
    · exact .inl (List.mem_of_mem_eraseIdx hw)
    · refine .inr fun kbuf hk => ?_
      exact (h.window kbuf q x v hk hp (List.mem_of_getElem? hv)).cut hw
  | load => exact h
  | store => exact h.same rfl rfl
  | @fork q x hp =>
    refine h.step rfl fun q' z v hz hv => ?_
    rw [proc_eq_some] at hz
    rcases List.mem_append.mp (List.mem_of_getElem? hz) with hmem | hmem
    · obtain ⟨q'', hlt, hq''⟩ := List.getElem_of_mem hmem
      exact .inl ⟨q'', z, proc_eq_some.mpr (by rw [List.getElem?_eq_getElem hlt, hq'']), hv⟩
    · obtain rfl := Option.some.inj (List.mem_singleton.mp hmem)
      exact .inl ⟨q, z, hp, hv⟩
  | exit hp => exact h.setProc hp rfl rfl nofun
  | rmmod => exact h.same rfl rfl
  | rmmodBusy => exact h
  | miscDeregister => exact h.same rfl rfl
  | kfree => exact ⟨nofun, nofun⟩

theorem store_shows {buf : Buf (bufSize P)} {mem : Memory} {kbuf : Nat} (off : Nat) (src : Bytes)
    (h : ∀ k, k < bufSize P → buf.bytes[k]? = some (mem (kbuf + k))) :
    ∀ k, k < bufSize P →
      (buf.store off src).bytes[k]? = some (writeMem mem (kbuf + off) src (kbuf + k)) := by
  intro k hk
  rw [buf.store_getElem?, writeMem]
  by_cases hin : off ≤ k ∧ k < off + src.length
  · have hsub : kbuf + k - (kbuf + off) = k - off := by omega
    rw [if_pos ⟨hin.1, hin.2, hk⟩, if_pos (by omega), hsub,
      List.getElem?_eq_getElem (by omega), List.getD_eq_getElem _ _ (by omega)]
  · rw [if_neg (by omega), if_neg (by omega)]
    exact h k hk

theorem fill_shows (mem : Memory) (kbuf : Nat) : ∀ k, k < bufSize P →
    (BufOp.fill.apply (Buf.zero (bufSize P))).bytes[k]? = some (mbufInitFill P mem kbuf (kbuf + k)) := by
  apply store_shows 0
  intro k hk
  have hzero : (Buf.zero (bufSize P)).bytes = List.replicate (bufSize P) 0 := rfl
  rw [hzero, writeMem, List.length_replicate, if_pos (by omega), List.getElem?_replicate, if_pos hk,
    List.getD_eq_getElem _ _ (by rw [List.length_replicate]; omega), List.getElem_replicate]

/-- What every state reached keeps, `buf` being the array as it stands. -/
structure Shared (P : PageSize) (buf : Buf (bufSize P)) (s : State) : Prop where
  counted : Counted s
  windows : Windows P s
  shows : Shows buf s

theorem shows_same {buf : Buf (bufSize P)} (h : Shows buf s) (hkbuf : u.kbuf = s.kbuf)
    (hmem : u.mem = s.mem) : Shows buf u := by
  intro kbuf hk
  rw [hmem]
  exact h kbuf (hkbuf ▸ hk)

theorem vma_of_proc {i : Nat} {v : Vma} (hp : s.proc p = some x) (hv : x.vmas[i]? = some v) :
    s.vma p i = some v := by
  rw [State.vma, hp, Option.bind_some, hv]

theorem shows_step {buf : Buf (bufSize P)} {e : Event} {o : Shown} (h : Shared P buf s)
    (hs : step P s e = some (u, o)) :
    Shows ((bufOp P ⟨s, e, o⟩).elim buf (BufOp.apply buf)) u := by
  cases step_move hs with
  | insmodFails hstage =>
    intro kbuf hk
    have hnone : s.kbuf = none := h.counted.kbuf.mpr hstage
    rw [hnone] at hk
    cases hk
  | insmod =>
    intro kbuf hk
    obtain rfl := Option.some.inj hk
    exact fill_shows _ _
  | @store p i k b x v a hp hv ha =>
    simp only [bufOp, vma_of_proc hp hv, Option.map_some, Option.elim_some]
    intro kbuf hk
    have hwindow := h.windows.window kbuf p x v hk hp (List.mem_of_getElem? hv)
    rw [hwindow.phys (h.windows.aligned kbuf hk)] at ha
    split at ha
    · rw [← Option.some.inj ha]
      exact store_shows _ [b] (h.shows kbuf hk)
    · cases ha
  | kfree => exact nofun
  | _ => exact shows_same h.shows rfl rfl

theorem shared_run {mem : Memory} {tr : List (Record State Event Shown)}
    (h : Run (step P) (State.init mem) tr s) : Shared P (content P tr) s := by
  refine h.simulates BufOp.apply (bufOp P) (Buf.zero (bufSize P)) (R := Shared P)
    ⟨counted_init mem, windows_init mem, nofun⟩ ?_
  intro b t e u o hb hs
  have hshows := shows_step hb hs
  have hcounted := counted_step hb.counted hs
  have hwindows := windows_step hb.counted hb.windows hs
  cases hop : bufOp P ⟨t, e, o⟩ with
  | none =>
    rw [hop] at hshows
    exact ⟨hcounted, hwindows, hshows⟩
  | some op =>
    rw [hop] at hshows
    exact ⟨hcounted, hwindows, hshows⟩

/-- What a read of `cnt` bytes at `pos` gives when the buffer holds `buf` -/
structure ReadsSlice (buf : Buf (bufSize P)) (pos cnt room : Nat) (res : ReadResult) : Prop where
  ok : min cnt (bufSize P - pos) ≤ room →
    res.ret = .ok (min cnt (bufSize P - pos)) ∧
      res.data = slice buf.bytes pos (min cnt (bufSize P - pos)) ∧
      res.pos = pos + min cnt (bufSize P - pos)
  fault : room < min cnt (bufSize P - pos) → res.ret = .error .efault ∧ res.pos = pos

theorem readMem_shows {buf : Buf (bufSize P)} {mem : Memory} {kbuf : Nat}
    (h : ∀ k, k < bufSize P → buf.bytes[k]? = some (mem (kbuf + k))) {pos n : Nat}
    (hn : pos + n ≤ bufSize P) :
    readMem mem (kbuf + pos) n = slice buf.bytes pos n := by
  apply List.ext_getElem?
  intro k
  rw [readMem, slice, List.getElem?_map, List.getElem?_take, List.getElem?_drop]
  by_cases hk : k < n
  · rw [List.getElem?_range hk, if_pos hk, h (pos + k) (by omega), Option.map_some, Nat.add_assoc]
  · rw [if_neg hk, List.getElem?_eq_none (by rw [List.length_range]; omega), Option.map_none]

theorem mbufRead_readsSlice {buf : Buf (bufSize P)} {mem : Memory} {kbuf : Nat}
    (h : ∀ k, k < bufSize P → buf.bytes[k]? = some (mem (kbuf + k))) (room cnt pos : Nat) :
    ReadsSlice buf pos cnt room (mbufRead P mem kbuf room cnt pos) := by
  by_cases hpos : pos ≥ bufSize P
  · have hread : mbufRead P mem kbuf room cnt pos = ⟨.ok 0, [], pos⟩ := if_pos hpos
    have hzero : min cnt (bufSize P - pos) = 0 := by omega
    rw [hread]
    constructor
    · intro _
      rw [hzero]
      exact ⟨rfl, rfl, rfl⟩
    · intro hroom
      omega
  · have hclamp : (if cnt > bufSize P - pos then bufSize P - pos else cnt) =
        min cnt (bufSize P - pos) :=
      clamp_eq_min cnt (bufSize P - pos)
    have hin : pos + min cnt (bufSize P - pos) ≤ bufSize P := by omega
    have hslice := readMem_shows h hin
    have hlen : (slice buf.bytes pos (min cnt (bufSize P - pos))).length =
        min cnt (bufSize P - pos) := by
      rw [← hslice, readMem, List.length_map, List.length_range]
    constructor
    · intro hroom
      have hcopy := copyToUser_of_le (Nat.le_of_eq hlen.symm) hroom
      have hwhole := List.take_of_length_le (Nat.le_of_eq hlen)
      simp only [mbufRead, if_neg hpos, hclamp, hslice, hcopy, hwhole]
      exact ⟨rfl, rfl, rfl⟩
    · intro hroom
      simp only [mbufRead, if_neg hpos, hclamp]
      rw [if_pos (copyToUser_left_pos hroom)]
      exact ⟨rfl, rfl⟩

/-- A mapping is established only at offset 0 and for at most four pages, and its bytes are those of
the buffer from the first one on. -/
def MapsBuffer (P : PageSize) (_ : List (Record State Event Shown))
    (r : Record State Event Shown) : Prop :=
  ∀ p f pages pgoff fails v, r.event = .mmap p f pages pgoff fails → r.out = .mapped v →
    pgoff = 0 ∧ pages * P.bytes ≤ bufSize P ∧ ∃ kbuf, r.pre.kbuf = some kbuf ∧
      ∀ k, v.phys P k = if k < pages * P.bytes then some (kbuf + k) else none

/-- A load through a mapping gives a byte that the buffer holds. -/
def LoadsBuffer (P : PageSize) (past : List (Record State Event Shown))
    (r : Record State Event Shown) : Prop :=
  ∀ p i k b, r.event = .load p i k → r.out = .loaded b →
    ∃ v, r.pre.vma p i = some v ∧ (content P past).bytes[v.pgoff * P.bytes + k]? = some b

/-- A read gives what the buffer holds at its position. It moves the position of its own file, by
what it read, or none. -/
def ReadsBuffer (P : PageSize) (past : List (Record State Event Shown))
    (r : Record State Event Shown) : Prop :=
  ∀ p f cnt room, r.event = .read p f cnt room → ∃ res, r.out = .readReturned res ∧
    ReadsSlice (content P past) (r.pre.pos f) cnt room res ∧
    ∀ u, step P r.pre r.event = some (u, r.out) → u.mem = r.pre.mem ∧
      (∀ n, res.ret = .ok n → u.pos = Function.update r.pre.pos f (r.pre.pos f + n)) ∧
      ∀ e, res.ret = .error e → u.pos = r.pre.pos

/-- So does a read at a position that the caller names, and it moves no position. -/
def PreadsBuffer (P : PageSize) (past : List (Record State Event Shown))
    (r : Record State Event Shown) : Prop :=
  ∀ p f pos cnt room, r.event = .pread p f pos cnt room → ∃ res, r.out = .readReturned res ∧
    ReadsSlice (content P past) pos cnt room res ∧
    ∀ u, step P r.pre r.event = some (u, r.out) → u.mem = r.pre.mem ∧ u.pos = r.pre.pos

/-- No process reaches anything but the buffer through a mapping. -/
def ReachesBuffer (P : PageSize) (s : State) : Prop :=
  ∀ p i k v a, s.vma p i = some v → v.phys P k = some a →
    ∃ kbuf, s.kbuf = some kbuf ∧ kbuf ≤ a ∧ a < kbuf + bufSize P

theorem vma_eq_some {i : Nat} {v : Vma} (h : s.vma p i = some v) :
    ∃ x, s.proc p = some x ∧ v ∈ x.vmas := by
  obtain ⟨x, hx, hv⟩ := Option.bind_eq_some_iff.mp h
  exact ⟨x, hx, List.mem_of_getElem? hv⟩

theorem Shared.reaches {buf : Buf (bufSize P)} (h : Shared P buf s) : ReachesBuffer P s := by
  intro p i k v a hv ha
  obtain ⟨x, hx, hmem⟩ := vma_eq_some hv
  cases hkbuf : s.kbuf with
  | none =>
    have hstage : s.stage ≠ .live := by
      rw [h.counted.kbuf.mp hkbuf]
      exact Stage.noConfusion
    rw [h.counted.unmapped hstage hx] at hmem
    cases hmem
  | some kbuf =>
    have hwindow := h.windows.window kbuf p x v hkbuf hx hmem
    rw [hwindow.phys (h.windows.aligned kbuf hkbuf)] at ha
    split at ha
    · next hk =>
      have := hwindow.lt_bufSize hk
      have := Option.some.inj ha
      exact ⟨kbuf, rfl, by omega, by omega⟩
    · cases ha

section

variable {past : List (Record State Event Shown)} {e : Event} {o : Shown}

theorem mapsBuffer_step (h : Windows P s) (hs : step P s e = some (u, o)) :
    MapsBuffer P past ⟨s, e, o⟩ := by
  intro p f pages pgoff fails v he ho
  dsimp only at he ho
  subst he ho
  cases step_move hs with
  | @mmap _ _ _ _ _ x kbuf frames hp hkbuf hf hpages hmmap =>
    obtain ⟨rfl, hlen, hle, hwindow⟩ := mbufMmap_ok f hmmap
    refine ⟨rfl, ?_, kbuf, hkbuf, fun k => ?_⟩
    · rw [bufSize, Nat.mul_comm P.bytes]
      exact Nat.mul_le_mul_right _ hle
    · rw [hwindow.phys (h.aligned kbuf hkbuf), hlen, Nat.zero_mul, Nat.zero_add]

theorem loadsBuffer_step (h : Shared P (content P past) s) (hs : step P s e = some (u, o)) :
    LoadsBuffer P past ⟨s, e, o⟩ := by
  intro p i k b he ho
  dsimp only at he ho
  subst he
  generalize hout : o = o' at hs
  subst hout
  cases step_move hs with
  | @load _ _ _ x v a hp hv ha =>
    obtain rfl := Shown.loaded.inj ho
    have hvma := vma_of_proc hp hv
    obtain ⟨kbuf, hkbuf, -, -⟩ := h.reaches p i k v a hvma ha
    have hwindow := h.windows.window kbuf p x v hkbuf hp (List.mem_of_getElem? hv)
    rw [hwindow.phys (h.windows.aligned kbuf hkbuf)] at ha
    split at ha
    · next hk =>
      refine ⟨v, hvma, ?_⟩
      rw [h.shows kbuf hkbuf _ (hwindow.lt_bufSize hk), Option.some.inj ha]
    · cases ha

theorem mbufRead_storePos {buf : Buf (bufSize P)} {posn cnt room : Nat} {res : ReadResult}
    (h : ReadsSlice buf posn cnt room res) (pos : File → Nat) (f : File) :
    (∀ n, res.ret = .ok n → storePos pos f res = Function.update pos f (posn + n)) ∧
      ∀ e, res.ret = .error e → storePos pos f res = pos := by
  constructor
  · intro n hret
    by_cases hroom : min cnt (bufSize P - posn) ≤ room
    · obtain ⟨hok, -, hpos⟩ := h.ok hroom
      rw [storePos, hret, hpos, Except.ok.inj (hret.symm.trans hok)]
    · have hfault := (h.fault (Nat.lt_of_not_ge hroom)).1
      rw [hret] at hfault
      cases hfault
  · intro e hret
    rw [storePos, hret]

theorem readsBuffer_step (h : Shared P (content P past) s) (hs : step P s e = some (u, o)) :
    ReadsBuffer P past ⟨s, e, o⟩ := by
  intro p f cnt room he
  dsimp only at he
  subst he
  cases step_move hs with
  | @read _ _ _ _ x kbuf hp hkbuf hf =>
    have hslice := mbufRead_readsSlice (h.shows kbuf hkbuf) room cnt (s.pos f)
    refine ⟨_, rfl, hslice, fun u' hs' => ?_⟩
    obtain ⟨rfl, -⟩ := Prod.mk.inj (Option.some.inj (hs'.symm.trans hs))
    exact ⟨rfl, mbufRead_storePos hslice s.pos f⟩

theorem preadsBuffer_step (h : Shared P (content P past) s) (hs : step P s e = some (u, o)) :
    PreadsBuffer P past ⟨s, e, o⟩ := by
  intro p f pos cnt room he
  dsimp only at he
  subst he
  cases step_move hs with
  | @pread _ _ _ _ _ x kbuf hp hkbuf hf =>
    refine ⟨_, rfl, mbufRead_readsSlice (h.shows kbuf hkbuf) room cnt pos, fun u' hs' => ?_⟩
    obtain ⟨rfl, -⟩ := Prod.mk.inj (Option.some.inj (hs'.symm.trans hs))
    exact ⟨rfl, rfl⟩

end

/-- For every page size and every order of opens, maps, stores and loads through mappings, reads,
forks and unmaps: a mapping is established only as a window on the first bytes of the buffer, no
process reaches anything else through one, and the two paths see one array of bytes. -/
theorem mbuf_two_paths (P : PageSize) (mem : Memory) (tr : List (Record State Event Shown))
    (s : State) (h : Run (step P) (State.init mem) tr s) :
    Each (MapsBuffer P) tr ∧ ReachesBuffer P s ∧ Each (LoadsBuffer P) tr ∧ Each (ReadsBuffer P) tr ∧
      Each (PreadsBuffer P) tr := by
  have hstep : ∀ past r rest, tr = past ++ r :: rest →
      Shared P (content P past) r.pre ∧ ∃ u, step P r.pre r.event = some (u, r.out) := by
    intro past r rest htr
    subst htr
    obtain ⟨hpast, u, hu, -⟩ := h.split
    exact ⟨shared_run hpast, u, hu⟩
  refine ⟨?_, (shared_run h).reaches, ?_, ?_, ?_⟩
  · intro past r rest htr
    obtain ⟨hshared, u, hu⟩ := hstep past r rest htr
    exact mapsBuffer_step hshared.windows hu
  · intro past r rest htr
    obtain ⟨hshared, u, hu⟩ := hstep past r rest htr
    exact loadsBuffer_step hshared hu
  · intro past r rest htr
    obtain ⟨hshared, u, hu⟩ := hstep past r rest htr
    exact readsBuffer_step hshared hu
  · intro past r rest htr
    obtain ⟨hshared, u, hu⟩ := hstep past r rest htr
    exact preadsBuffer_step hshared hu

/-- Two mappings of one page each, a store through one of them, and a read. -/
theorem mbuf_two_paths_store_read : ∃ tr s, Run (step ⟨16, by decide⟩) (State.init fun _ => 0) tr s ∧
    tr.map Record.event = [.insmod (some 9) none, .openFile 0 3, .mmap 0 3 1 0 false,
      .mmap 0 3 5 0 false, .mmap 0 3 1 1 false, .mmap 0 3 1 0 false, .store 0 1 2 74, .load 0 0 2,
      .read 0 3 5 5] ∧
    Each (MapsBuffer ⟨16, by decide⟩) tr ∧ ReachesBuffer ⟨16, by decide⟩ s ∧
      Each (ReadsBuffer ⟨16, by decide⟩) tr := by
  obtain ⟨tr, s, hrun, hev, -⟩ := exists_exec (step ⟨16, by decide⟩) (State.init fun _ => 0)
    [.insmod (some 9) none, .openFile 0 3, .mmap 0 3 1 0 false, .mmap 0 3 5 0 false,
      .mmap 0 3 1 1 false, .mmap 0 3 1 0 false, .store 0 1 2 74, .load 0 0 2, .read 0 3 5 5]
    (fun _ => true) (by decide +kernel)
  obtain ⟨hmaps, hreaches, -, hreads, -⟩ := mbuf_two_paths _ _ tr s hrun
  exact ⟨tr, s, hrun, hev, hmaps, hreaches, hreads⟩

end LinuxDriverLab.MmapBuf
