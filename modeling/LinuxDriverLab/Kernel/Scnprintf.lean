import LinuxDriverLab.Kernel.CString

/-!
# A line put together by truncating writes

`off += scnprintf(buf + off, sizeof(buf) - off, ...)`, once for every piece of the line. Whatever
the pieces, the buffer holds as much of the line as there is room for.
-/

namespace LinuxDriverLab

/-- `scnprintf` returns the number of characters that it stores, the NUL not counted. -/
def scnprintf (size : Nat) (text : Bytes) : Printed :=
  if size = 0 then ⟨[], 0⟩ else ⟨(snprintf size text).line, min text.length (size - 1)⟩

/-- A buffer and the offset of the next write. -/
structure Filling (cap : Nat) where
  buf : Buf cap
  off : Nat

namespace Filling

variable {cap : Nat} {o : Filling cap} {text : Bytes}

/-- The call of `scnprintf` at the offset. -/
def printed (o : Filling cap) (text : Bytes) : Printed := scnprintf (usub64 cap o.off) text

def emit (o : Filling cap) (text : Bytes) : Filling cap :=
  ⟨o.buf.store o.off (o.printed text).line, o.off + (o.printed text).ret⟩

/-- The write of `text` lies inside the buffer. -/
def Fits (o : Filling cap) (text : Bytes) : Prop := o.off + (o.printed text).line.length ≤ cap

/-- The offset is behind as much of `text` as there is room for. -/
structure Begins (o : Filling cap) (text : Bytes) : Prop where
  off : o.off = min text.length (cap - 1)
  bytes : o.buf.bytes.take o.off = text.take (cap - 1)

/-- A NUL stands at the offset. -/
structure Holds (o : Filling cap) (text : Bytes) : Prop extends Begins o text where
  nul : o.buf.bytes.take (o.off + 1) = text.take (cap - 1) ++ [0]

theorem begins_nil (buf : Buf cap) : Begins ⟨buf, 0⟩ [] :=
  ⟨(Nat.zero_min _).symm, List.take_nil.symm⟩

theorem printed_eq (hcap : cap < 2 ^ 64) (ho : o.off < cap) (text : Bytes) :
    o.printed text = ⟨text.take (cap - 1 - o.off) ++ [0], min text.length (cap - 1 - o.off)⟩ := by
  rw [printed, usub64_of_le ho.le hcap, scnprintf, if_neg (by omega), snprintf, Nat.sub_right_comm]

theorem fits_of_lt (hcap : cap < 2 ^ 64) (ho : o.off < cap) (text : Bytes) : o.Fits text := by
  rw [Fits, printed_eq hcap ho, List.length_append, List.length_take, List.length_singleton]
  omega

theorem take_append_room (text piece : Bytes) (n : Nat) :
    text.take n ++ piece.take (n - min text.length n) = (text ++ piece).take n := by
  rw [List.take_append]
  congr 2
  omega

theorem Begins.lt (h : o.Begins text) (hpos : 0 < cap) : o.off < cap := by
  have := h.off
  omega

theorem Begins.emit (h : o.Begins text) (hpos : 0 < cap) (hcap : cap < 2 ^ 64) (piece : Bytes) :
    (o.emit piece).Holds (text ++ piece) := by
  have hlt := h.lt hpos
  have hfit := fits_of_lt hcap hlt piece
  have hprinted := printed_eq hcap hlt piece
  have hoff : (o.emit piece).off = min (text ++ piece).length (cap - 1) := by
    rw [Filling.emit, hprinted, h.off, List.length_append]
    simp only
    omega
  have hline : (o.printed piece).line.length = (o.printed piece).ret + 1 := by
    rw [hprinted, List.length_append, List.length_take, List.length_singleton, Nat.min_comm]
  have hnul : (o.emit piece).buf.bytes.take ((o.emit piece).off + 1) = (text ++ piece).take (cap - 1) ++ [0] := by
    have hstore := o.buf.take_store hfit
    rw [hline, h.bytes, hprinted, ← List.append_assoc, h.off, take_append_room] at hstore
    rw [Filling.emit, hprinted, h.off]
    exact hstore
  refine ⟨⟨hoff, ?_⟩, hnul⟩
  have hlen : ((text ++ piece).take (cap - 1)).length = (o.emit piece).off := by
    rw [List.length_take, hoff, Nat.min_comm]
  have htake := congrArg (List.take (o.emit piece).off) hnul
  rwa [List.take_take, Nat.min_eq_left (Nat.le_succ _), ← hlen, List.take_left, hlen] at htake

theorem Begins.emits {pieces : List Bytes} (h : o.Begins text) (hpos : 0 < cap) (hcap : cap < 2 ^ 64) :
    (pieces.foldl Filling.emit o).Begins (text ++ pieces.flatten) := by
  induction pieces generalizing o text with
  | nil => simpa using h
  | cons piece pieces ih =>
    have hnext := ih (h.emit hpos hcap piece).toBegins
    rwa [List.append_assoc] at hnext

theorem Holds.cString (h : o.Holds text) (hnul : (0 : UInt8) ∉ text) :
    cString o.buf.bytes = text.take (cap - 1) := by
  have hsplit : o.buf.bytes = text.take (cap - 1) ++ 0 :: o.buf.bytes.drop (o.off + 1) := by
    conv_lhs => rw [← List.take_append_drop (o.off + 1) o.buf.bytes, h.nul, List.append_assoc]
    rfl
  rw [hsplit]
  exact cString_append_nul (fun hmem => hnul (List.mem_of_mem_take hmem)) _

end Filling

end LinuxDriverLab
