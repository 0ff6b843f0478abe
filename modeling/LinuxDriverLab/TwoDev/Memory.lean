import LinuxDriverLab.FailedWrite
import LinuxDriverLab.Framework.ByteNumber
import LinuxDriverLab.Framework.Patch

/-!
# twodev in memory

The array of instances as it lies in memory, and the file operations on the addresses that the
kernel hands them: `td_open` computes that of an instance from the address of its `cdev`, and the
other operations go through the pointer that it has stored.
-/

namespace LinuxDriverLab.TwoDev

/-! ## Memory -/

abbrev Memory := Nat → UInt8

/-- The `n` bytes from address `a` on. -/
def loadBytes (mem : Memory) (a n : Nat) : Bytes := (List.range n).map fun i => mem (a + i)

def storeBytes (mem : Memory) (a : Nat) (src : Bytes) : Memory := Patch.apply mem ⟨a, src⟩

/-- A `size_t` at address `a`. -/
def loadSize (mem : Memory) (a : Nat) : Nat := leNat (loadBytes mem a 8)

def storeSize (mem : Memory) (a v : Nat) : Memory := storeBytes mem a (leBytes 8 v)

section

variable (mem : Memory) (a n : Nat) (src : Bytes)

@[simp] theorem loadBytes_length : (loadBytes mem a n).length = n := by
  simp [loadBytes]

theorem loadBytes_getElem? (i : Nat) :
    (loadBytes mem a n)[i]? = if i < n then some (mem (a + i)) else none := by
  by_cases hi : i < n
  · simp [loadBytes, hi]
  · rw [if_neg hi, List.getElem?_eq_none]
    simpa using Nat.le_of_not_lt hi

theorem loadBytes_congr {mem mem' : Memory} (h : ∀ x, a ≤ x → x < a + n → mem x = mem' x) :
    loadBytes mem a n = loadBytes mem' a n := by
  apply List.map_congr_left
  intro i hi
  exact h _ (Nat.le_add_right a i) (Nat.add_lt_add_left (List.mem_range.mp hi) a)

theorem storeBytes_outside {x : Nat} (h : x < a ∨ a + src.length ≤ x) :
    storeBytes mem a src x = mem x :=
  Patch.apply_of_none mem (Patch.at?_eq_none.mpr h)

theorem storeBytes_inside {i : Nat} {b : UInt8} (h : src[i]? = some b) :
    storeBytes mem a src (a + i) = b :=
  Patch.apply_of_some mem (Patch.at?_eq_some.mpr ⟨Nat.le_add_right a i, by simpa using h⟩)

theorem storeBytes_congr {mem mem' : Memory} {x : Nat} (h : mem x = mem' x) :
    storeBytes mem a src x = storeBytes mem' a src x := by
  simp only [storeBytes, Patch.apply, Patch.at?, h]

theorem loadBytes_store : loadBytes (storeBytes mem a src) a src.length = src := by
  apply List.ext_getElem?
  intro i
  rw [loadBytes_getElem?]
  split
  · next hi =>
    rw [List.getElem?_eq_getElem hi]
    exact congrArg some (storeBytes_inside mem a src (List.getElem?_eq_getElem hi))
  · next hi => rw [List.getElem?_eq_none (Nat.le_of_not_lt hi)]

theorem loadBytes_store_other {b m : Nat} (h : b + m ≤ a ∨ a + src.length ≤ b) :
    loadBytes (storeBytes mem a src) b m = loadBytes mem b m := by
  apply loadBytes_congr
  intro x hlo hhi
  apply storeBytes_outside
  omega

theorem loadSize_store {v : Nat} (hv : v < 2 ^ 64) : loadSize (storeSize mem a v) a = v := by
  have hload := loadBytes_store mem a (leBytes 8 v)
  rw [leBytes_length] at hload
  rw [loadSize, storeSize, hload, leNat_leBytes (by omega)]

end

/-! ## The layout -/

/-- The offsets of `len` and `bufsz` in `struct twodev`; `buf` is its first member. -/
def lenOff : Nat := 256
def bufszOff : Nat := 264

/-- Where the array lies: `count` elements of `size` bytes from `base` on, with the `cdev` behind
the other members. -/
structure Layout where
  base : Nat
  size : Nat
  cdevOff : Nat
  count : Nat
  cdevOff_ge : bufszOff + 8 ≤ cdevOff
  cdevOff_lt : cdevOff < size
  fits : base + count * size ≤ 2 ^ 64

/-- `&devs[i]` -/
def Layout.inst (l : Layout) (i : Nat) : Nat := l.base + i * l.size

/-- `&devs[i].cdev` -/
def Layout.cdev (l : Layout) (i : Nat) : Nat := l.inst i + l.cdevOff

/-- `container_of(ptr, struct twodev, cdev)` -/
def Layout.containerOf (l : Layout) (ptr : Nat) : Nat := usub64 ptr l.cdevOff

theorem Layout.inst_add_size_le (l : Layout) {i j : Nat} (h : i < j) : l.inst i + l.size ≤ l.inst j := by
  have hmul := Nat.mul_le_mul_right l.size (Nat.succ_le_of_lt h)
  rw [Nat.succ_mul] at hmul
  unfold inst
  omega

/-- `container_of` finds the element that the `cdev` is part of. -/
theorem Layout.containerOf_cdev (l : Layout) {i : Nat} (h : i < l.count) :
    l.containerOf (l.cdev i) = l.inst i := by
  have hnext := l.inst_add_size_le h
  have hfits := l.fits
  have hlt := l.cdevOff_lt
  have hend : l.inst l.count = l.base + l.count * l.size := rfl
  rw [containerOf, cdev, usub64_of_le (Nat.le_add_left _ _) (by omega)]
  exact Nat.add_sub_cancel _ _

/-- The members of the instance at address `p`. -/
def instAt (mem : Memory) (p : Nat) : Twodev where
  buf := ⟨loadBytes mem p bufMax, loadBytes_length mem p bufMax⟩
  len := loadSize mem (p + lenOff)
  bufsz := loadSize mem (p + bufszOff)

/-! ## The file operations -/

/-- The locked section of `td_write`, `d` being the pointer in `private_data` -/
def tdWriteLockedAt (mem : Memory) (d : Nat) (u : Bytes) (cnt : Nat) : Memory × Except Errno Nat :=
  let copy := copyFromUser u cnt
  let mem := storeBytes mem d copy.stored
  if copy.left ≠ 0 then (mem, .error .efault)
  else (storeSize mem (d + lenOff) cnt, .ok cnt)

def tdWriteAt (mem : Memory) (d : Nat) (u : Bytes) (cnt : Nat) : Memory × Except Errno Nat :=
  let bufsz := loadSize mem (d + bufszOff)
  tdWriteLockedAt mem d u (if cnt > bufsz then bufsz else cnt)

def tdReadAt (mem : Memory) (d room cnt pos : Nat) : ReadResult :=
  let len := loadSize mem (d + lenOff)
  if pos ≥ len then ⟨.ok 0, [], pos⟩
  else
    let cnt := if cnt > usub64 len pos then usub64 len pos else cnt
    let copy := copyToUser (loadBytes mem (d + pos) cnt) cnt room
    if copy.left ≠ 0 then ⟨.error .efault, copy.stored, pos⟩
    else ⟨.ok cnt, copy.stored, (pos + cnt) % 2 ^ 64⟩

/-- `td_ioctl`; of the instance it uses `bufsz` only. -/
def tdIoctlAt (mem : Memory) (d cmd : Nat) (arg : UserInt) : Memory × IoctlResult :=
  match tdIoctlUnlocked (instAt mem d) cmd arg with
  | .inl res => (mem, res)
  | .inr val => (storeSize mem (d + bufszOff) val, ⟨.ok (), none⟩)

/-! ## They are those of an instance -/

theorem eq_of_fields {d e : Twodev} (hbuf : d.buf.bytes = e.buf.bytes) (hlen : d.len = e.len)
    (hbufsz : d.bufsz = e.bufsz) : d = e := by
  cases d
  cases e
  rw [Twodev.mk.injEq]
  exact ⟨Buf.eq_of_bytes hbuf, hlen, hbufsz⟩

theorem instAt_storeBytes (mem : Memory) (p : Nat) (src : Bytes) (h : src.length ≤ bufMax) :
    instAt (storeBytes mem p src) p = { instAt mem p with buf := (instAt mem p).buf.store 0 src } := by
  unfold bufMax at h
  apply eq_of_fields
  · apply List.ext_getElem?
    intro i
    simp only [instAt, loadBytes_getElem?, Buf.store_getElem?, Nat.zero_add, Nat.sub_zero, Nat.zero_le,
      true_and, bufMax]
    by_cases hi : i < src.length
    · rw [if_pos (by omega), if_pos ⟨hi, by omega⟩, List.getElem?_eq_getElem hi]
      exact congrArg some (storeBytes_inside mem p src (List.getElem?_eq_getElem hi))
    · rw [storeBytes_outside mem p src (by omega), if_neg (by omega : ¬ (i < src.length ∧ i < 256))]
  · simp only [instAt, loadSize]
    rw [loadBytes_store_other _ _ _ (by unfold lenOff; omega)]
  · simp only [instAt, loadSize]
    rw [loadBytes_store_other _ _ _ (by unfold bufszOff; omega)]

theorem instAt_storeLen (mem : Memory) (p : Nat) {v : Nat} (h : v < 2 ^ 64) :
    instAt (storeSize mem (p + lenOff) v) p = { instAt mem p with len := v } := by
  apply eq_of_fields
  · exact loadBytes_store_other _ _ _ (by simp [lenOff, bufMax])
  · exact loadSize_store _ _ h
  · exact congrArg leNat (loadBytes_store_other _ _ _ (by simp [lenOff, bufszOff]))

theorem instAt_storeBufsz (mem : Memory) (p : Nat) {v : Nat} (h : v < 2 ^ 64) :
    instAt (storeSize mem (p + bufszOff) v) p = { instAt mem p with bufsz := v } := by
  apply eq_of_fields
  · exact loadBytes_store_other _ _ _ (by simp [bufszOff, bufMax])
  · exact congrArg leNat (loadBytes_store_other _ _ _ (by simp [lenOff, bufszOff]))
  · exact loadSize_store _ _ h

theorem tdWriteAt_clamp (mem : Memory) (p : Nat) (u : Bytes) (cnt : Nat) :
    tdWriteAt mem p u cnt = tdWriteLockedAt mem p u (tdWriteClamp (instAt mem p) cnt) := rfl

theorem tdWriteAt_eq {mem : Memory} {p : Nat} (hv : Valid (instAt mem p)) (u : Bytes) (cnt : Nat) :
    (tdWriteAt mem p u cnt).2 = (tdWrite (instAt mem p) u cnt).2 ∧
      instAt (tdWriteAt mem p u cnt).1 p = (tdWrite (instAt mem p) u cnt).1 := by
  have hcnt := (tdWriteClamp_le (instAt mem p) cnt).trans hv.bufsz_le
  have hstore := instAt_storeBytes mem p
    (copyFromUser u (tdWriteClamp (instAt mem p) cnt)).stored (by rw [copyFromUser_length]; exact hcnt)
  rw [tdWriteAt_clamp, tdWrite, tdWriteLockedAt, tdWriteLocked]
  split
  · exact ⟨rfl, hstore⟩
  · refine ⟨rfl, ?_⟩
    rw [instAt_storeLen _ _ (by unfold bufMax at hcnt; omega), hstore]

theorem tdReadAt_eq {mem : Memory} {p : Nat} (hv : Valid (instAt mem p)) (room cnt pos : Nat) :
    tdReadAt mem p room cnt pos = tdRead (instAt mem p) [] room cnt pos := by
  have hlen : loadSize mem (p + lenOff) = (instAt mem p).len := rfl
  have hle := hv.len_le
  unfold bufMax at hle
  simp only [tdReadAt, hlen, tdRead]
  by_cases hpos : pos ≥ (instAt mem p).len
  · rw [if_pos hpos, if_pos hpos]
  · have hclamp : tdReadClamp (instAt mem p) cnt pos = min cnt ((instAt mem p).len - pos) :=
      tdReadClamp_eq hv.len_le (Nat.lt_of_not_ge hpos)
    have hmin : (if cnt > usub64 (instAt mem p).len pos then usub64 (instAt mem p).len pos else cnt) =
        tdReadClamp (instAt mem p) cnt pos := rfl
    have hcopy : copyToUser (loadBytes mem (p + pos) (tdReadClamp (instAt mem p) cnt pos))
          (tdReadClamp (instAt mem p) cnt pos) room =
        copyToUser (((instAt mem p).buf.bytes ++ []).drop pos) (tdReadClamp (instAt mem p) cnt pos)
          room := by
      rw [hclamp, copyToUser, copyToUser, Copy.mk.injEq]
      constructor
      · apply List.ext_getElem?
        intro i
        simp only [List.append_nil, List.getElem?_take, List.getElem?_drop, instAt, loadBytes_getElem?,
          Nat.add_assoc, bufMax]
        split_ifs <;> first | rfl | omega
      · simp only [loadBytes_length, List.length_drop, List.append_nil, Buf.length_eq, bufMax]
        omega
    rw [if_neg hpos, if_neg hpos, tdReadLocked, hmin, hcopy]

theorem tdIoctlAt_eq (mem : Memory) (p cmd : Nat) (arg : UserInt) :
    (tdIoctlAt mem p cmd arg).2 = (tdIoctl (instAt mem p) cmd arg).2 ∧
      instAt (tdIoctlAt mem p cmd arg).1 p = (tdIoctl (instAt mem p) cmd arg).1 := by
  unfold tdIoctlAt tdIoctl
  cases hval : tdIoctlUnlocked (instAt mem p) cmd arg with
  | inl res => exact ⟨rfl, rfl⟩
  | inr val =>
    obtain ⟨-, -, -, hle⟩ := tdIoctlUnlocked_inr hval
    have hlt : val < 2 ^ 64 := Nat.lt_of_le_of_lt hle (by decide)
    exact ⟨rfl, instAt_storeBufsz mem p hlt⟩

/-! ## They stay inside it -/

theorem tdWriteAt_outside {mem : Memory} {p : Nat} (hv : Valid (instAt mem p)) (u : Bytes) (cnt : Nat)
    {x : Nat} (hx : x < p ∨ p + bufszOff + 8 ≤ x) : (tdWriteAt mem p u cnt).1 x = mem x := by
  have hcnt := (tdWriteClamp_le (instAt mem p) cnt).trans hv.bufsz_le
  unfold bufMax at hcnt
  unfold bufszOff at hx
  have hbuf : storeBytes mem p (copyFromUser u (tdWriteClamp (instAt mem p) cnt)).stored x = mem x := by
    apply storeBytes_outside
    rw [copyFromUser_length]
    omega
  rw [tdWriteAt_clamp, tdWriteLockedAt]
  split
  · exact hbuf
  · rw [← hbuf]
    apply storeBytes_outside
    rw [leBytes_length, lenOff]
    omega

theorem tdIoctlAt_outside (mem : Memory) (p cmd : Nat) (arg : UserInt) {x : Nat}
    (hx : x < p ∨ p + bufszOff + 8 ≤ x) : (tdIoctlAt mem p cmd arg).1 x = mem x := by
  unfold tdIoctlAt
  split
  · rfl
  · apply storeBytes_outside
    rw [leBytes_length]
    omega

theorem tdWriteAt_congr {mem mem' : Memory} {p : Nat} (h : instAt mem p = instAt mem' p) (u : Bytes)
    (cnt : Nat) {x : Nat} (hx : mem x = mem' x) :
    (tdWriteAt mem p u cnt).1 x = (tdWriteAt mem' p u cnt).1 x := by
  rw [tdWriteAt_clamp, tdWriteAt_clamp, h, tdWriteLockedAt, tdWriteLockedAt]
  split
  · exact storeBytes_congr _ _ hx
  · exact storeBytes_congr _ _ (storeBytes_congr _ _ hx)

theorem tdIoctlAt_congr {mem mem' : Memory} {p : Nat} (h : instAt mem p = instAt mem' p) (cmd : Nat)
    (arg : UserInt) {x : Nat} (hx : mem x = mem' x) :
    (tdIoctlAt mem p cmd arg).1 x = (tdIoctlAt mem' p cmd arg).1 x := by
  unfold tdIoctlAt
  rw [h]
  cases tdIoctlUnlocked (instAt mem' p) cmd arg with
  | inl res => exact hx
  | inr val => exact storeBytes_congr _ _ hx

end LinuxDriverLab.TwoDev
