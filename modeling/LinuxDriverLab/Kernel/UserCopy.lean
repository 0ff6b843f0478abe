import Mathlib.Control.Monad.Basic
import Mathlib.Data.List.GetD
import Mathlib.Logic.Function.Basic
import LinuxDriverLab.Framework.Buffer

/-!
# Copies between kernel and user memory

User memory is what a call can reach of it: the readable bytes at a source address, the number of
writable bytes at a destination. A copy that needs more faults at that point.
-/

namespace LinuxDriverLab

/-- An error number of the kernel. -/
structure Errno where
  num : Nat
  pos : 1 ≤ num
  le_max : num ≤ 4095
deriving DecidableEq

namespace Errno

def enoent : Errno := ⟨2, by decide, by decide⟩
def eagain : Errno := ⟨11, by decide, by decide⟩
def enomem : Errno := ⟨12, by decide, by decide⟩
def eacces : Errno := ⟨13, by decide, by decide⟩
def efault : Errno := ⟨14, by decide, by decide⟩
def ebusy : Errno := ⟨16, by decide, by decide⟩
def enodev : Errno := ⟨19, by decide, by decide⟩
def einval : Errno := ⟨22, by decide, by decide⟩
def enospc : Errno := ⟨28, by decide, by decide⟩
def enotty : Errno := ⟨25, by decide, by decide⟩
def erange : Errno := ⟨34, by decide, by decide⟩

def ret (e : Errno) : Int := -(e.num : Int)

theorem ret_range (e : Errno) : -4095 ≤ e.ret ∧ e.ret ≤ -1 := by
  have := e.pos
  have := e.le_max
  unfold ret
  omega

end Errno

/-- What a copy leaves at its destination, and the number of bytes it did not copy. -/
structure Copy where
  stored : Bytes
  left : Nat
deriving DecidableEq

/-- `copy_from_user` of `n` bytes from an address with the bytes `u` readable. After a fault the
rest of the destination is zeroed. -/
def copyFromUser (u : Bytes) (n : Nat) : Copy :=
  ⟨u.take n ++ List.replicate (n - u.length) 0, n - u.length⟩

/-- `copy_to_user` of `n` bytes of the memory `src` to an address with `room` writable bytes -/
def copyToUser (src : Bytes) (n room : Nat) : Copy :=
  ⟨src.take (min n room), n - min src.length room⟩

@[simp] theorem copyFromUser_length (u : Bytes) (n : Nat) : (copyFromUser u n).stored.length = n := by
  simp only [copyFromUser, List.length_append, List.length_take, List.length_replicate]
  omega

theorem copyFromUser_getElem? (u : Bytes) {n i : Nat} (h : i < n) :
    (copyFromUser u n).stored[i]? = some (u.getD i 0) := by
  simp only [copyFromUser]
  by_cases hi : i < u.length
  · rw [List.getElem?_append_left (by rw [List.length_take]; omega), List.getElem?_take, if_pos h,
      List.getElem?_eq_getElem hi, List.getD_eq_getElem _ _ hi]
  · rw [List.getElem?_append_right (by rw [List.length_take]; omega), List.length_take,
      List.getElem?_replicate, if_pos (by omega), List.getD_eq_default _ _ (by omega)]

theorem copyFromUser_left (u : Bytes) (n : Nat) : (copyFromUser u n).left = n - u.length := rfl

theorem copyFromUser_of_le {u : Bytes} {n : Nat} (h : n ≤ u.length) :
    copyFromUser u n = ⟨u.take n, 0⟩ := by
  simp [copyFromUser, Nat.sub_eq_zero_of_le h]

theorem copyToUser_of_le {src : Bytes} {n room : Nat} (hsrc : n ≤ src.length) (hroom : n ≤ room) :
    copyToUser src n room = ⟨src.take n, 0⟩ := by
  simp only [copyToUser, Nat.min_eq_left hroom, Copy.mk.injEq, true_and]
  omega

theorem clamp_eq_min (cnt limit : Nat) : (if cnt > limit then limit else cnt) = min cnt limit := by
  split <;> omega

theorem copyToUser_congr {a b : Bytes} {n : Nat} (room : Nat) (hlen : a.length = b.length)
    (htake : a.take n = b.take n) : copyToUser a n room = copyToUser b n room := by
  have hmin : a.take (min n room) = b.take (min n room) := by
    rw [Nat.min_comm, ← List.take_take, ← List.take_take, htake]
  simp only [copyToUser, hlen, hmin]

theorem copyToUser_left_pos {src : Bytes} {n room : Nat} (hroom : room < n) :
    (copyToUser src n room).left ≠ 0 := by
  simp only [copyToUser]
  omega

/-- What a read hands back: its return value, the bytes left in the user's buffer, and the file
position it stores. -/
structure ReadResult where
  ret : Except Errno Nat
  data : Bytes
  pos : Nat
deriving DecidableEq

/-- Files and tasks are told apart by numbers. -/
abbrev File := Nat
abbrev Task := Nat

/-- The file positions after a call on `f`: the kernel stores the call's own one back when the call
succeeds. -/
def storePos (pos : File → Nat) (f : File) (res : ReadResult) : File → Nat :=
  match res.ret with
  | .ok _ => Function.update pos f res.pos
  | .error _ => pos

theorem storePos_other (pos : File → Nat) {f g : File} (res : ReadResult) (h : g ≠ f) :
    storePos pos f res g = pos g := by
  cases hret : res.ret <;> simp [storePos, hret, Function.update_of_ne h]

structure ReadCall where
  file : File
  room : Nat
  cnt : Nat

/-- The results of reads made one after the other, `read` being the driver's function on the device
as it stands. -/
def readSequence (read : Nat → Nat → Nat → ReadResult) :
    (File → Nat) → List ReadCall → List ReadResult
  | _, [] => []
  | pos, c :: cs =>
    let res := read c.room c.cnt (pos c.file)
    res :: readSequence read (storePos pos c.file res) cs

end LinuxDriverLab
