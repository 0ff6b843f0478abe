import LinuxDriverLab.FailedWrite
import LinuxDriverLab.Kernel.LastWrite

/-!
# User loops on misc_echo and twodev

Both drivers keep the last write, so what loops of writes and reads make of them is settled by
their limits: 256 bytes, and what `TWODEV_SET_BUFSZ` has set.
-/

namespace LinuxDriverLab

namespace MiscEcho

/-- The calls of a user whose buffers are as large as the counts passed. -/
def userWrite (d : Dev) (s : Bytes) : Dev × Except Errno Nat := edWrite d s s.length

def userRead (d : Dev) (cnt pos : Nat) : ReadResult := edRead d cnt cnt pos

theorem userRead_eq {d : Dev} (hlen : d.msgLen ≤ msgMax) (cnt pos : Nat) :
    userRead d cnt pos = ⟨.ok (slice d.content pos cnt).length, slice d.content pos cnt,
      pos + (slice d.content pos cnt).length⟩ :=
  edRead_ok hlen (Nat.min_le_left _ _)

theorem userWrite_eq (d : Dev) (s : Bytes) :
    (userWrite d s).2 = .ok (min s.length msgMax) ∧
      (userWrite d s).1.msgLen = min s.length msgMax ∧
      (userWrite d s).1.content = s.take msgMax := by
  obtain ⟨hlen, hcontent, hret⟩ :=
    edWriteLocked_ok (d := d) (Nat.min_le_right s.length msgMax) (Nat.min_le_left s.length msgMax)
  rw [userWrite, edWrite, edWriteClamp_eq]
  refine ⟨hret, hlen, ?_⟩
  rw [hcontent, List.take_eq_take_iff]
  omega

/-- misc_echo keeps the last write, up to 256 bytes of it. -/
def keepsLast : LastWrite userWrite userRead where
  Valid d := d.msgLen ≤ msgMax
  content := Dev.content
  limit _ := msgMax
  limit_pos _ := by decide
  write_ret {d} s _ := (userWrite_eq d s).1
  write_valid {d} s _ := (userWrite_eq d s).2.1.trans_le (Nat.min_le_right _ _)
  write_content {d} s _ := (userWrite_eq d s).2.2
  write_limit _ _ := rfl
  read_eq cnt pos h := userRead_eq h cnt pos

end MiscEcho

namespace TwoDev

def userWrite (d : Twodev) (s : Bytes) : Twodev × Except Errno Nat := tdWrite d s s.length

def userRead (beyond : Bytes) (d : Twodev) (cnt pos : Nat) : ReadResult := tdRead d beyond cnt cnt pos

theorem content_length {d : Twodev} (h : d.len ≤ bufMax) : d.content.length = d.len := by
  have := d.buf.length_eq
  rw [Twodev.content, List.length_take]
  omega

theorem userRead_eq {d : Twodev} (beyond : Bytes) (hlen : d.len ≤ bufMax) (cnt pos : Nat) :
    userRead beyond d cnt pos = ⟨.ok (slice d.content pos cnt).length, slice d.content pos cnt,
      pos + (slice d.content pos cnt).length⟩ := by
  have hb := d.buf.length_eq
  have hc := content_length hlen
  rw [userRead, tdRead]
  by_cases hpos : pos ≥ d.len
  · rw [if_pos hpos, slice_of_length_le (by omega)]
    rfl
  · have hlt := Nat.lt_of_not_ge hpos
    have hn : (slice d.content pos cnt).length = min cnt (d.len - pos) := by
      rw [slice_length, hc]
    have hslice : slice d.content pos cnt =
        ((d.buf.bytes ++ beyond).drop pos).take (min cnt (d.len - pos)) := by
      rw [← content_eq_take d beyond hlen, slice, List.drop_take, List.take_take, Nat.min_comm]
    simp only [if_neg hpos, tdReadLocked, tdReadClamp_eq hlen hlt]
    rw [copyToUser_of_le (by simp only [List.length_drop, List.length_append]; omega) (by omega),
      if_neg (by simp), hn, hslice, Nat.mod_eq_of_lt]
    simp only [bufMax] at hlen
    omega

theorem userWrite_eq {d : Twodev} (hbufsz : d.bufsz ≤ bufMax) (s : Bytes) :
    (userWrite d s).2 = .ok (min s.length d.bufsz) ∧
      (userWrite d s).1.len = min s.length d.bufsz ∧
      (userWrite d s).1.bufsz = d.bufsz ∧
      (userWrite d s).1.content = s.take d.bufsz := by
  have htake : (s.take (min s.length d.bufsz)).length = min s.length d.bufsz := by
    rw [List.length_take]
    omega
  have hstore := d.buf.store_start (show (s.take (min s.length d.bufsz)).length ≤ bufMax by omega)
  have hval : userWrite d s = ({ d with
      buf := d.buf.store 0 (s.take (min s.length d.bufsz))
      len := min s.length d.bufsz }, .ok (min s.length d.bufsz)) := by
    rw [userWrite, tdWrite, tdWriteClamp_eq_min]
    simp [tdWriteLocked, copyFromUser_of_le (Nat.min_le_left s.length d.bufsz)]
  rw [hval]
  refine ⟨rfl, rfl, rfl, ?_⟩
  rw [Twodev.content, hstore, List.take_left' htake, List.take_eq_take_iff]
  omega

/-- An instance of twodev keeps the last write, up to its limit. -/
def keepsLast (beyond : Bytes) : LastWrite userWrite (userRead beyond) where
  Valid := Valid
  content := Twodev.content
  limit := Twodev.bufsz
  limit_pos h := h.bufsz_pos
  write_ret s h := (userWrite_eq h.bufsz_le s).1
  write_valid s h := tdWrite_valid h s s.length
  write_content s h := (userWrite_eq h.bufsz_le s).2.2.2
  write_limit s h := (userWrite_eq h.bufsz_le s).2.2.1
  read_eq cnt pos h := userRead_eq beyond h.len_le cnt pos

theorem Reachable.valid {d : Twodev} (h : Reachable d) : Valid d := by
  obtain ⟨pos, tr, s, hrun, rfl⟩ := h
  have hb := bounded_run hrun
  exact ⟨hb.len_le, hb.bufsz_pos, hb.bufsz_le⟩

end TwoDev

/-! ## Rounds on one descriptor -/

/-- For both devices, in every reachable state, with any texts within the limit and any sizes: on a
new descriptor every round reads back what was left of its text by the rounds before it, and so all
of them their whole texts exactly when there is at most one. -/
theorem echo_whole_iff_one_round (d : MiscEcho.Dev) (e : TwoDev.Twodev) (beyond : Bytes)
    (rounds : List Round) (hd : MiscEcho.Reachable d) (he : TwoDev.Reachable e)
    (hrounds : ∀ r ∈ rounds, r.text ≠ [] ∧ ∀ i, 0 < r.sizes i) :
    ((∀ r ∈ rounds, r.text.length ≤ MiscEcho.msgMax) → ∃ outs,
      (∀ fuel, MiscEcho.msgMax < fuel →
        echoRounds MiscEcho.userWrite MiscEcho.userRead fuel d 0 rounds = some outs) ∧
      outs = LastWrite.remainders 0 (rounds.map Round.text) ∧
      (outs = rounds.map Round.text ↔ rounds.length ≤ 1)) ∧
    ((∀ r ∈ rounds, r.text.length ≤ e.bufsz) → ∃ outs,
      (∀ fuel, TwoDev.bufMax < fuel →
        echoRounds TwoDev.userWrite (TwoDev.userRead beyond) fuel e 0 rounds = some outs) ∧
      outs = LastWrite.remainders 0 (rounds.map Round.text) ∧
      (outs = rounds.map Round.text ↔ rounds.length ≤ 1)) := by
  have hiff : LastWrite.remainders 0 (rounds.map Round.text) = rounds.map Round.text ↔ rounds.length ≤ 1 := by
    rw [LastWrite.remainders_eq_iff, List.length_map]
    intro s hs
    obtain ⟨r, hr, rfl⟩ := List.mem_map.mp hs
    exact (hrounds r hr).1
  constructor
  · intro hlimit
    refine ⟨_, ?_, rfl, hiff⟩
    intro fuel hfuel
    apply MiscEcho.keepsLast.echoRounds_eq hd.len_le hfuel
    exact fun r hr => ⟨hlimit r hr, (hrounds r hr).2⟩
  · intro hlimit
    refine ⟨_, ?_, rfl, hiff⟩
    intro fuel hfuel
    apply (TwoDev.keepsLast beyond).echoRounds_eq he.valid
    · exact Nat.lt_of_le_of_lt he.valid.bufsz_le hfuel
    · exact fun r hr => ⟨hlimit r hr, (hrounds r hr).2⟩

/-- One round with "hi" on each device as it is when the module is loaded. -/
theorem echo_whole_iff_one_round_hi : ∃ outs, outs = [[104, 105]] ∧ ∀ fuel, 256 < fuel →
    echoRounds MiscEcho.userWrite MiscEcho.userRead fuel MiscEcho.Dev.init 0
      [⟨[104, 105], fun _ => 1⟩] = some outs := by
  obtain ⟨hecho, -⟩ := echo_whole_iff_one_round MiscEcho.Dev.init TwoDev.Twodev.init []
    [⟨[104, 105], fun _ => 1⟩] ⟨fun _ => 0, [], _, .refl, rfl⟩ ⟨fun _ => 0, [], _, .refl, rfl⟩
    (by simp)
  obtain ⟨outs, hrun, -, hiff⟩ := hecho (by simp [MiscEcho.msgMax])
  exact ⟨outs, hiff.mpr (by simp), hrun⟩

/-- The second round reads nothing back: "yo" lies in front of the position that reading "hi" has
left. -/
theorem echo_second_round_empty : ¬ ∀ (d : MiscEcho.Dev) (rounds : List Round),
    MiscEcho.Reachable d →
    (∀ r ∈ rounds, r.text ≠ [] ∧ r.text.length ≤ MiscEcho.msgMax ∧ ∀ i, 0 < r.sizes i) →
    echoRounds MiscEcho.userWrite MiscEcho.userRead 300 d 0 rounds =
      some (rounds.map Round.text) := by
  intro hall
  have hround := hall MiscEcho.Dev.init [⟨[104, 105], fun _ => 64⟩, ⟨[121, 111], fun _ => 64⟩]
    ⟨fun _ => 0, [], _, .refl, rfl⟩ (by simp [MiscEcho.msgMax])
  exact absurd hround (by decide +kernel)

/-! ## Writing all, then reading all -/

theorem TwoDev.tdIoctl_set {d : Twodev} {arg : UserInt} {b : Nat} (harg : arg.value = some (b : Int))
    (hok : (tdIoctl d twodevSetBufsz arg).2.ret = .ok ()) :
    (tdIoctl d twodevSetBufsz arg).1 = { d with bufsz := b } ∧ 1 ≤ b ∧ b ≤ bufMax := by
  have hget : twodevSetBufsz ≠ twodevGetBufsz := by decide
  have hunlocked : tdIoctlUnlocked d twodevSetBufsz arg =
      if (b : Int) < 1 ∨ (b : Int) > bufMax then .inl ⟨.error .einval, none⟩ else .inr b := by
    simp only [tdIoctlUnlocked, if_neg hget, if_true, harg, Int.toNat_natCast]
  unfold tdIoctl at hok ⊢
  rw [hunlocked] at hok ⊢
  split_ifs at hok ⊢ with hrange
  exact ⟨rfl, by omega, by omega⟩

/-- For misc_echo, and for twodev after any `TWODEV_SET_BUFSZ` that succeeds, in every reachable
state: writing the rest until all is accepted takes as many calls as the text has chunks of the
limit's length, and reading on a new descriptor gives the last of these, then 0 for good. -/
theorem writeAll_readAll_lastChunk (d : MiscEcho.Dev) (e : TwoDev.Twodev) (beyond s : Bytes)
    (sizes : Nat → Nat) (arg : UserInt) (b : Nat) (hd : MiscEcho.Reachable d) (he : TwoDev.Reachable e)
    (hs : s ≠ []) (hsizes : ∀ i, 0 < sizes i) (harg : arg.value = some (b : Int))
    (hset : (TwoDev.tdIoctl e TwoDev.twodevSetBufsz arg).2.ret = .ok ()) :
    (∃ d', (∀ fuel, s.length < fuel →
        writeAll MiscEcho.userWrite fuel d s = some (d', (s.length + 256 - 1) / 256)) ∧
      (∀ fuel, 256 < fuel → readAll (MiscEcho.userRead d') fuel sizes 0 =
        some (LastWrite.lastChunk 256 s, (s.length - 1) % 256 + 1)) ∧
      ∀ cnt, MiscEcho.userRead d' cnt ((s.length - 1) % 256 + 1) =
        ⟨.ok 0, [], (s.length - 1) % 256 + 1⟩) ∧
    (∃ e', (∀ fuel, s.length < fuel →
        writeAll TwoDev.userWrite fuel (TwoDev.tdIoctl e TwoDev.twodevSetBufsz arg).1 s =
          some (e', (s.length + b - 1) / b)) ∧
      (∀ fuel, b < fuel → readAll (TwoDev.userRead beyond e') fuel sizes 0 =
        some (LastWrite.lastChunk b s, (s.length - 1) % b + 1)) ∧
      ∀ cnt, TwoDev.userRead beyond e' cnt ((s.length - 1) % b + 1) =
        ⟨.ok 0, [], (s.length - 1) % b + 1⟩) := by
  constructor
  · exact MiscEcho.keepsLast.writeAll_readAll hd.len_le hs hsizes
  · obtain ⟨hdev, hpos, hle⟩ := TwoDev.tdIoctl_set harg hset
    have hvalid : TwoDev.Valid { e with bufsz := b } := ⟨he.valid.len_le, hpos, hle⟩
    rw [hdev]
    exact (TwoDev.keepsLast beyond).writeAll_readAll hvalid hs hsizes

/-- Five bytes with a limit of two: three calls, the last one with one byte. -/
theorem writeAll_readAll_lastChunk_five : ∃ e', ∀ fuel, 5 < fuel →
    writeAll TwoDev.userWrite fuel
        (TwoDev.tdIoctl TwoDev.Twodev.init TwoDev.twodevSetBufsz ⟨some 2, true⟩).1 [1, 2, 3, 4, 5] =
      some (e', 3) ∧
    readAll (TwoDev.userRead [] e') fuel (fun _ => 1) 0 = some ([5], 1) := by
  obtain ⟨-, e', hwrite, hread, -⟩ := writeAll_readAll_lastChunk MiscEcho.Dev.init
    TwoDev.Twodev.init [] [1, 2, 3, 4, 5] (fun _ => 1) ⟨some 2, true⟩ 2
    ⟨fun _ => 0, [], _, .refl, rfl⟩ ⟨fun _ => 0, [], _, .refl, rfl⟩ (by simp) (by simp) rfl (by decide)
  exact ⟨e', fun fuel hfuel => ⟨hwrite fuel hfuel, hread fuel (by omega)⟩⟩

end LinuxDriverLab
