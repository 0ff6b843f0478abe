import LinuxDriverLab.MiscEcho.Register
import LinuxDriverLab.TwoDev.Limits

/-!
# Writes that fail

`ed_write` and `td_write` copy straight into the live buffer and keep the old length when the copy
faults, so a failed write leaves its first bytes, and zeros after them, in front of the old content.
-/

namespace LinuxDriverLab

theorem readSequence_eq_iff {read read' : Nat → Nat → Nat → ReadResult} {c c' : Bytes} {size : Nat}
    (hall : (read size size 0).data = c) (hall' : (read' size size 0).data = c')
    (hcongr : c' = c → read' = read) :
    (∀ pos calls, readSequence read' pos calls = readSequence read pos calls) ↔ c' = c := by
  constructor
  · intro h
    have hone := h (fun _ => 0) [⟨0, size, size⟩]
    simp only [readSequence, List.cons.injEq, and_true] at hone
    rw [← hall, ← hall', hone]
  · intro hc pos calls
    rw [hcongr hc]

theorem store_copyFromUser_take_eq_iff {cap : Nat} (b : Buf cap) (u : Bytes) (n : Nat) {len : Nat}
    (hlen : len ≤ cap) :
    (b.store 0 (copyFromUser u n).stored).bytes.take len = b.bytes.take len ↔
      ∀ i, i < len → i < n → b.bytes[i]? = some (u.getD i 0) := by
  rw [b.store_start_take_eq_iff hlen, copyFromUser_length]
  refine forall_congr' fun i => forall_congr' fun _ => forall_congr' fun hi => ?_
  rw [copyFromUser_getElem? u hi]
  exact eq_comm

namespace MiscEcho

/-- A device that some run of calls leaves behind. -/
def Reachable (d : Dev) : Prop := ∃ pos tr s, Run step (State.init pos) tr s ∧ s.dev = d

theorem edWriteLocked_len_le {d : Dev} {u : Bytes} {cnt : Nat} (hd : d.msgLen ≤ msgMax)
    (hcnt : cnt ≤ msgMax) : (edWriteLocked d u cnt).1.msgLen ≤ msgMax := by
  simp only [edWriteLocked]
  split
  · exact hd
  · exact hcnt

theorem msgLen_step {s u : State} {e : Event} {o : Shown}
    (h : s.dev.msgLen ≤ msgMax ∧ ∀ t, (s.pc t).Clamped) (hstep : step s e = some (u, o)) :
    u.dev.msgLen ≤ msgMax ∧ ∀ t, (u.pc t).Clamped := by
  refine ⟨?_, clamped_step h.2 hstep⟩
  cases step_move hstep with
  | @writeLocked t f w count cnt pos hpc =>
    have hcnt : cnt = min count msgMax := by
      have hc := h.2 t
      rw [hpc] at hc
      exact hc
    exact edWriteLocked_len_le h.1 (by omega)
  | _ => exact h.1

theorem Reachable.len_le {d : Dev} (h : Reachable d) : d.msgLen ≤ msgMax := by
  obtain ⟨pos, tr, s, hrun, rfl⟩ := h
  refine (hrun.invariant (I := fun s => s.dev.msgLen ≤ msgMax ∧ ∀ t, (s.pc t).Clamped) ?_ ?_).1
  · exact ⟨Nat.zero_le _, fun _ => trivial⟩
  · exact fun _ _ _ _ hI hs => msgLen_step hI hs

theorem edRead_congr {d d' : Dev} (hlen : d.msgLen ≤ msgMax) (heq : d'.msgLen = d.msgLen)
    (hcontent : d'.content = d.content) (room cnt pos : Nat) :
    edRead d' room cnt pos = edRead d room cnt pos := by
  simp only [edRead, heq]
  by_cases hpos : pos ≥ d.msgLen
  · simp only [hpos, if_true]
  · simp only [hpos, if_false, edRead_clamp _ hlen (Nat.lt_of_not_ge hpos)]
    have hend : pos + min cnt (d.msgLen - pos) ≤ d.msgLen := by omega
    have hslice : slice d'.msg.bytes pos (min cnt (d.msgLen - pos)) =
        slice d.msg.bytes pos (min cnt (d.msgLen - pos)) := by
      rw [← slice_take hend, ← slice_take (b := d.msg.bytes) hend]
      exact congrArg (slice · _ _) (by simpa only [Dev.content, heq] using hcontent)
    rw [copyToUser_congr room (by simp only [List.length_drop, Buf.length_eq]) hslice]

theorem edRead_all {d : Dev} (hlen : d.msgLen ≤ msgMax) :
    (edRead d msgMax msgMax 0).data = d.content := by
  have hc := content_length hlen
  rw [edRead_ok hlen (by omega), slice, List.drop_zero]
  exact List.take_of_length_le (by omega)

theorem edWrite_failed {d : Dev} {u : Bytes} {cnt : Nat} (h : (edWrite d u cnt).2 = .error .efault) :
    (edWrite d u cnt).1 = ⟨d.msg.store 0 (copyFromUser u (min cnt msgMax)).stored, d.msgLen⟩ := by
  simp only [edWrite, edWriteLocked, edWriteClamp_eq] at h ⊢
  split at h
  · next hleft => rw [if_pos hleft]
  · cases h

theorem edWrite_failed_invisible_iff {d : Dev} {u : Bytes} {cnt : Nat} (hlen : d.msgLen ≤ msgMax)
    (h : (edWrite d u cnt).2 = .error .efault) :
    (∀ pos calls, readSequence (edRead (edWrite d u cnt).1) pos calls =
        readSequence (edRead d) pos calls) ↔
      ∀ i, i < d.msgLen → i < min cnt msgMax → d.msg.bytes[i]? = some (u.getD i 0) := by
  have hfail := edWrite_failed h
  have hafter : (edRead (edWrite d u cnt).1 msgMax msgMax 0).data = (edWrite d u cnt).1.content :=
    edRead_all (by rw [hfail]; exact hlen)
  rw [readSequence_eq_iff (edRead_all hlen) hafter]
  · rw [hfail]
    exact store_copyFromUser_take_eq_iff d.msg u _ hlen
  · intro hcontent
    funext room c p
    exact edRead_congr hlen (by rw [hfail]) hcontent room c p

end MiscEcho

namespace TwoDev

def Reachable (d : Twodev) : Prop := ∃ pos tr s, Run step (State.init pos) tr s ∧ s.dev = d

theorem Reachable.len_le {d : Twodev} (h : Reachable d) : d.len ≤ bufMax := by
  obtain ⟨pos, tr, s, hrun, rfl⟩ := h
  exact (bounded_run hrun).len_le

/-- The readable bytes of the instance. -/
def Twodev.content (d : Twodev) : Bytes := d.buf.bytes.take d.len

theorem tdReadClamp_eq {d : Twodev} {cnt pos : Nat} (hlen : d.len ≤ bufMax) (hpos : pos < d.len) :
    tdReadClamp d cnt pos = min cnt (d.len - pos) := by
  rw [tdReadClamp, usub64_of_le hpos.le (by simp only [bufMax] at hlen; omega)]
  exact clamp_eq_min cnt (d.len - pos)

theorem content_eq_take (d : Twodev) (beyond : Bytes) (hlen : d.len ≤ bufMax) :
    (d.buf.bytes ++ beyond).take d.len = d.content := by
  rw [List.take_append_of_le_length (by rw [d.buf.length_eq]; exact hlen)]
  rfl

theorem tdRead_congr {d d' : Twodev} (beyond : Bytes) (hlen : d.len ≤ bufMax) (heq : d'.len = d.len)
    (hcontent : d'.content = d.content) (room cnt pos : Nat) :
    tdRead d' beyond room cnt pos = tdRead d beyond room cnt pos := by
  simp only [tdRead, heq]
  by_cases hpos : pos ≥ d.len
  · simp only [hpos, if_true]
  · have hlt : pos < d.len := Nat.lt_of_not_ge hpos
    simp only [hpos, if_false, tdReadLocked, tdReadClamp_eq hlen hlt,
      tdReadClamp_eq (d := d') (by omega) (heq ▸ hlt), heq]
    have hend : pos + min cnt (d.len - pos) ≤ d.len := by omega
    have hslice : slice (d'.buf.bytes ++ beyond) pos (min cnt (d.len - pos)) =
        slice (d.buf.bytes ++ beyond) pos (min cnt (d.len - pos)) := by
      rw [← slice_take hend, ← slice_take (b := d.buf.bytes ++ beyond) hend,
        content_eq_take d beyond hlen, ← heq, content_eq_take d' beyond (by omega), hcontent]
    rw [copyToUser_congr room (by simp only [List.length_drop, List.length_append, Buf.length_eq])
      hslice]

theorem tdRead_all {d : Twodev} (beyond : Bytes) (hlen : d.len ≤ bufMax) :
    (tdRead d beyond bufMax bufMax 0).data = d.content := by
  have hb := d.buf.length_eq
  by_cases hpos : 0 ≥ d.len
  · rw [tdRead, if_pos hpos, Twodev.content, Nat.le_zero.mp hpos, List.take_zero]
  · simp only [tdRead, hpos, if_false, tdReadLocked, tdReadClamp_eq hlen (Nat.lt_of_not_ge hpos)]
    have hmin : min bufMax (d.len - 0) = d.len := by omega
    rw [hmin, copyToUser_of_le (by simp only [List.length_drop, List.length_append]; omega) hlen,
      List.drop_zero, content_eq_take d beyond hlen]
    rfl

theorem tdWrite_failed {d : Twodev} {u : Bytes} {cnt : Nat}
    (h : (tdWrite d u cnt).2 = .error .efault) :
    (tdWrite d u cnt).1 =
      { d with buf := d.buf.store 0 (copyFromUser u (min cnt d.bufsz)).stored } := by
  simp only [tdWrite, tdWriteLocked, tdWriteClamp_eq_min] at h ⊢
  split at h
  · next hleft => rw [if_pos hleft]
  · cases h

theorem tdWrite_failed_invisible_iff {d : Twodev} {u : Bytes} {cnt : Nat} (beyond : Bytes)
    (hlen : d.len ≤ bufMax) (h : (tdWrite d u cnt).2 = .error .efault) :
    (∀ pos calls, readSequence (tdRead (tdWrite d u cnt).1 beyond) pos calls =
        readSequence (tdRead d beyond) pos calls) ↔
      ∀ i, i < d.len → i < min cnt d.bufsz → d.buf.bytes[i]? = some (u.getD i 0) := by
  have hfail := tdWrite_failed h
  have hafter : (tdRead (tdWrite d u cnt).1 beyond bufMax bufMax 0).data =
      (tdWrite d u cnt).1.content := tdRead_all beyond (by rw [hfail]; exact hlen)
  rw [readSequence_eq_iff (tdRead_all beyond hlen) hafter]
  · rw [hfail]
    exact store_copyFromUser_take_eq_iff d.buf u _ hlen
  · intro hcontent
    funext room c p
    exact tdRead_congr beyond hlen (by rw [hfail]) hcontent room c p

end TwoDev

/-- For both devices, in every reachable state: a write that fails with `-EFAULT` after copying the
bytes `u` leaves all later reads as they would have been exactly when `u`, with zeros after it,
repeats the part of the content that the write covers. -/
theorem failedWrite_invisible_iff (d : MiscEcho.Dev) (e : TwoDev.Twodev) (u : Bytes) (cnt : Nat)
    (beyond : Bytes) :
    (MiscEcho.Reachable d → (MiscEcho.edWrite d u cnt).2 = .error .efault →
      ((∀ pos calls, readSequence (MiscEcho.edRead (MiscEcho.edWrite d u cnt).1) pos calls =
          readSequence (MiscEcho.edRead d) pos calls) ↔
        ∀ i, i < d.msgLen → i < min cnt MiscEcho.msgMax →
          d.msg.bytes[i]? = some (u.getD i 0))) ∧
    (TwoDev.Reachable e → (TwoDev.tdWrite e u cnt).2 = .error .efault →
      ((∀ pos calls, readSequence (TwoDev.tdRead (TwoDev.tdWrite e u cnt).1 beyond) pos calls =
          readSequence (TwoDev.tdRead e beyond) pos calls) ↔
        ∀ i, i < e.len → i < min cnt e.bufsz → e.buf.bytes[i]? = some (u.getD i 0))) :=
  ⟨fun hd h => MiscEcho.edWrite_failed_invisible_iff hd.len_le h,
    fun he h => TwoDev.tdWrite_failed_invisible_iff beyond he.len_le h⟩

/-- Both devices hold "h" and a zero; a write of 2 bytes that faults after "h" shows nowhere. -/
theorem failedWrite_invisible_iff_same : ∃ d e,
    (MiscEcho.Reachable d ∧ d.content = [104, 0] ∧
      (MiscEcho.edWrite d [104] 2).2 = .error .efault) ∧
    (TwoDev.Reachable e ∧ e.content = [104, 0] ∧ (TwoDev.tdWrite e [104] 2).2 = .error .efault) ∧
    (∀ pos calls, readSequence (MiscEcho.edRead (MiscEcho.edWrite d [104] 2).1) pos calls =
      readSequence (MiscEcho.edRead d) pos calls) ∧
    (∀ pos calls, readSequence (TwoDev.tdRead (TwoDev.tdWrite e [104] 2).1 []) pos calls =
      readSequence (TwoDev.tdRead e []) pos calls) := by
  obtain ⟨tr, s, hrun, -, hq⟩ := exists_exec MiscEcho.step (MiscEcho.State.init fun _ => 0)
    [.writeEnter 0 0 [104, 0] 2, .writeLocked 0]
    (fun x => x.2.dev.content = [104, 0] ∧ (MiscEcho.edWrite x.2.dev [104] 2).2 = .error .efault ∧
      ∀ i, i < x.2.dev.msgLen → i < min 2 MiscEcho.msgMax →
        x.2.dev.msg.bytes[i]? = some (([104] : Bytes).getD i 0)) (by decide +kernel)
  obtain ⟨tr', s', hrun', -, hq'⟩ := exists_exec TwoDev.step (TwoDev.State.init fun _ => 0)
    [.writeEnter 0 0 [104, 0] 2, .writeLocked 0]
    (fun x => x.2.dev.content = [104, 0] ∧ (TwoDev.tdWrite x.2.dev [104] 2).2 = .error .efault ∧
      ∀ i, i < x.2.dev.len → i < min 2 x.2.dev.bufsz →
        x.2.dev.buf.bytes[i]? = some (([104] : Bytes).getD i 0)) (by decide +kernel)
  obtain ⟨hcontent, hfail, hsame⟩ := of_decide_eq_true hq
  obtain ⟨hcontent', hfail', hsame'⟩ := of_decide_eq_true hq'
  have hd : MiscEcho.Reachable s.dev := ⟨_, tr, s, hrun, rfl⟩
  have he : TwoDev.Reachable s'.dev := ⟨_, tr', s', hrun', rfl⟩
  obtain ⟨hecho, htwo⟩ := failedWrite_invisible_iff s.dev s'.dev [104] 2 []
  exact ⟨s.dev, s'.dev, ⟨hd, hcontent, hfail⟩, ⟨he, hcontent', hfail'⟩, (hecho hd hfail).mpr hsame,
    (htwo he hfail').mpr hsame'⟩

/-- misc_echo holds "hello"; a write of 3 bytes that faults after "X" leaves "X", two zeros, "lo". -/
theorem failedWrite_visible_after_hello : ¬ ∀ d, MiscEcho.Reachable d → ∀ u cnt,
    (MiscEcho.edWrite d u cnt).2 = .error .efault →
    ∀ pos calls, readSequence (MiscEcho.edRead (MiscEcho.edWrite d u cnt).1) pos calls =
      readSequence (MiscEcho.edRead d) pos calls := by
  intro hall
  obtain ⟨tr, s, hrun, _, hq⟩ := exists_exec MiscEcho.step
    (MiscEcho.State.init fun _ => 0)
    [.writeEnter 0 0 [104, 101, 108, 108, 111] 5, .writeLocked 0]
    (fun x => decide ((MiscEcho.edWrite x.2.dev [88] 3).2 = .error .efault) &&
      ((MiscEcho.edRead (MiscEcho.edWrite x.2.dev [88] 3).1 16 16 0).data == [88, 0, 0, 108, 111]) &&
      ((MiscEcho.edRead x.2.dev 16 16 0).data == [104, 101, 108, 108, 111])) (by decide +kernel)
  simp only [Bool.and_eq_true, beq_iff_eq, decide_eq_true_eq] at hq
  have hsame := hall s.dev ⟨_, tr, s, hrun, rfl⟩ [88] 3 hq.1.1 (fun _ => 0) [⟨0, 16, 16⟩]
  simp only [readSequence, List.cons.injEq, and_true] at hsame
  have hdata := congrArg ReadResult.data hsame
  rw [hq.1.2, hq.2] at hdata
  exact absurd hdata (by decide)

end LinuxDriverLab
