import LinuxDriverLab.Kernel.UserCopy

/-!
# Copies made byte by byte

A copy is a loop of single accesses, so that another task can run between any two of its bytes.
What it has moved when it ends is what the copy as a whole moves.
-/

namespace LinuxDriverLab

/-- What a copy to user memory does next, `data` being what it has moved. -/
inductive CopyOut
  | byte (b : UInt8)
  | finished
  | fault

/-- `copy_to_user` of `cnt` bytes at `pos` of the memory `mem`, to an address with `room` writable
bytes -/
def copyOutNext (mem : Bytes) (room cnt pos : Nat) (data : Bytes) : CopyOut :=
  if data.length = cnt then .finished
  else if data.length < room then
    match mem[pos + data.length]? with
    | some b => .byte b
    | none => .fault
  else .fault

/-- The bytes that `copy_from_user` stores: the rest after a fault is zeroed. -/
def copyInByte (u : Bytes) (k : Nat) : UInt8 := u.getD k 0

theorem copyToUser_stored_length (mem : Bytes) (room cnt pos : Nat) :
    (copyToUser (mem.drop pos) cnt room).stored.length = min (min cnt room) (mem.length - pos) := by
  simp [copyToUser]

theorem stored_take_succ {mem : Bytes} {room cnt pos k : Nat} {b : UInt8} (hcnt : k < cnt)
    (hroom : k < room) (hb : mem[pos + k]? = some b) :
    (copyToUser (mem.drop pos) cnt room).stored.take (k + 1) =
      (copyToUser (mem.drop pos) cnt room).stored.take k ++ [b] := by
  have hget : (copyToUser (mem.drop pos) cnt room).stored[k]? = some b := by
    simp only [copyToUser, List.getElem?_take, List.getElem?_drop]
    rw [if_pos (by omega), hb]
  obtain ⟨hk, hbk⟩ := List.getElem?_eq_some_iff.mp hget
  rw [List.take_succ_eq_append_getElem hk, hbk]

/-- To show something of a copy that has moved nothing yet, go back over its bytes from where it
ends. -/
theorem copyOut_induction (mem : Bytes) (room cnt pos : Nat) {motive : Bytes → Prop}
    (hbyte : ∀ data b, copyOutNext mem room cnt pos data = .byte b → motive (data ++ [b]) →
      motive data)
    (hfinished : ∀ data, copyOutNext mem room cnt pos data = .finished →
      data = (copyToUser (mem.drop pos) cnt room).stored →
      (copyToUser (mem.drop pos) cnt room).left = 0 → motive data)
    (hfault : ∀ data, copyOutNext mem room cnt pos data = .fault →
      data = (copyToUser (mem.drop pos) cnt room).stored →
      (copyToUser (mem.drop pos) cnt room).left ≠ 0 → motive data) : motive [] := by
  have hlen := copyToUser_stored_length mem room cnt pos
  -- every prefix of what the copy moves, the longest first
  have hall : ∀ n k, k + n = (copyToUser (mem.drop pos) cnt room).stored.length →
      motive ((copyToUser (mem.drop pos) cnt room).stored.take k) := by
    intro n
    induction n with
    | zero =>
      intro k hk
      rw [List.take_of_length_le (by omega)]
      by_cases hc : k = cnt
      · refine hfinished _ ?_ rfl ?_
        · rw [copyOutNext, if_pos (by omega)]
        · simp only [copyToUser, List.length_drop]
          omega
      · refine hfault _ ?_ rfl ?_
        · rw [copyOutNext, if_neg (by omega)]
          split_ifs with hroom
          · rw [List.getElem?_eq_none (by omega)]
          · rfl
        · simp only [copyToUser, List.length_drop]
          omega
    | succ n ih =>
      intro k hk
      have hmem : pos + k < mem.length := by omega
      have htake : ((copyToUser (mem.drop pos) cnt room).stored.take k).length = k :=
        List.length_take_of_le (by omega)
      have hb := List.getElem?_eq_getElem hmem
      refine hbyte _ mem[pos + k] ?_ ?_
      · rw [copyOutNext, htake, if_neg (by omega), if_pos (by omega), hb]
      · rw [← stored_take_succ (by omega) (by omega) hb]
        exact ih (k + 1) (by omega)
  simpa using hall _ 0 (Nat.zero_add _)

theorem store_take_succ {cap : Nat} (b : Buf cap) (u : Bytes) {cnt k : Nat} (hk : k < cnt) :
    (b.store 0 ((copyFromUser u cnt).stored.take k)).store k [copyInByte u k] =
      b.store 0 ((copyFromUser u cnt).stored.take (k + 1)) := by
  apply Buf.eq_of_bytes
  apply List.ext_getElem?
  intro i
  simp only [Buf.store_getElem?, List.length_singleton, List.length_take, copyFromUser_length,
    List.getElem?_take, Nat.zero_le, true_and, Nat.sub_zero, Nat.zero_add]
  by_cases hi : i = k
  · subst hi
    rw [copyFromUser_getElem? u hk, Nat.sub_self]
    simp only [copyInByte, List.getElem?_cons_zero]
    split_ifs <;> first | rfl | omega
  · rw [if_neg (by omega)]
    have hiff : (i < min k cnt ∧ i < cap) ↔ i < min (k + 1) cnt ∧ i < cap := by omega
    by_cases hlt : i < min k cnt ∧ i < cap
    · rw [if_pos hlt, if_pos (hiff.mp hlt), if_pos (by omega), if_pos (by omega)]
    · rw [if_neg hlt, if_neg (fun h => hlt (hiff.mpr h))]

/-- To show something of a buffer that a copy is about to fill, go back over its bytes from where it
is filled. -/
theorem copyIn_induction {cap : Nat} (b : Buf cap) (u : Bytes) (cnt : Nat)
    {motive : Nat → Buf cap → Prop}
    (hbyte : ∀ k c, k < cnt → motive (k + 1) (c.store k [copyInByte u k]) → motive k c)
    (hend : motive cnt (b.store 0 (copyFromUser u cnt).stored)) : motive 0 b := by
  have hall : ∀ n k, k + n = cnt → motive k (b.store 0 ((copyFromUser u cnt).stored.take k)) := by
    intro n
    induction n with
    | zero =>
      intro k hk
      obtain rfl : k = cnt := by omega
      rw [List.take_of_length_le (Nat.le_of_eq (copyFromUser_length u k))]
      exact hend
    | succ n ih =>
      intro k hk
      refine hbyte k _ (by omega) ?_
      rw [store_take_succ b u (by omega)]
      exact ih (k + 1) (by omega)
  have hnil : b.store 0 ((copyFromUser u cnt).stored.take 0) = b := by
    have hfit : ([] : Bytes).length ≤ cap := Nat.zero_le cap
    exact Buf.eq_of_bytes (b.store_start hfit)
  simpa only [hnil] using hall cnt 0 (Nat.zero_add cnt)

end LinuxDriverLab
