import LinuxDriverLab.TwoDev.Limits

/-!
# The range that td_read copies

`td_read` looks at the length twice before it takes the lock. A writer that shortens the content in
between can make the copy leave the content, and, when the length falls below the position, make the
subtraction wrap and the copy leave the buffer.
-/

namespace LinuxDriverLab.TwoDev

/-- The range that a locked section of `td_read` hands to `copy_to_user` lies in the content, and so
in the buffer. -/
def CopyInside (_ : List (Record State Event Shown)) (r : Record State Event Shown) : Prop :=
  ∀ pos cnt res, r.out = .copied pos cnt res →
    ∀ i, pos ≤ i → i < pos + cnt → i < r.pre.dev.len ∧ i < bufMax

/-- Between the clamp of a `td_read` and its copy the content was not cut below what the clamp saw,
and before that not below the position; or the bytes asked for are there all the same. -/
def NotCutShort (_ : List (Record State Event Shown)) (r : Record State Event Shown) : Prop :=
  ∀ t beyond f room req pos seen cnt, r.event = .readLocked t beyond →
    r.pre.pc t = .readClamped f room req pos seen cnt →
    (pos < seen ∧ seen ≤ r.pre.dev.len) ∨ pos + req ≤ r.pre.dev.len ∨ req = 0 ∨ pos = seen

/-- What a read in flight carries from its clamp. -/
def Pc.ReadOk : Pc → Prop
  | .readTested _ _ _ pos => pos < 2 ^ 63
  | .readClamped _ _ req pos seen cnt =>
    pos < 2 ^ 63 ∧ seen ≤ bufMax ∧ cnt = if req > usub64 seen pos then usub64 seen pos else req
  | _ => True

theorem readOk_goto {s : State} {t : Task} {pc : Pc} (h : ∀ t, (s.pc t).ReadOk) (hpc : pc.ReadOk) :
    ∀ t', ((s.goto t pc).pc t').ReadOk :=
  (Function.forall_update_iff _ fun _ q => Pc.ReadOk q).mpr ⟨hpc, fun t' _ => h t'⟩

theorem readOk_step {s u : State} {e : Event} {o : Shown} (hb : Bounded s)
    (h : ∀ t, (s.pc t).ReadOk) (hstep : step s e = some (u, o)) : ∀ t, (u.pc t).ReadOk := by
  cases step_move hstep with
  | readEnd => exact readOk_goto h trivial
  | readEnter _ hpos _ => exact readOk_goto h hpos
  | @readClamp t f room req pos hpc =>
    have hpos : pos < 2 ^ 63 := by
      have ht := h t
      rw [hpc] at ht
      exact ht
    exact readOk_goto h ⟨hpos, hb.len_le, rfl⟩
  | readLocked => exact readOk_goto h trivial
  | writeEnter => exact readOk_goto h trivial
  | writeLocked => exact readOk_goto (s := { s with dev := _ }) h trivial
  | ioctlAnswer => exact readOk_goto h trivial
  | ioctlEnter => exact readOk_goto h trivial
  | ioctlLocked => exact readOk_goto (s := { s with dev := _ }) h trivial
  | ret => exact readOk_goto (s := { s with pos := _ }) h trivial
  | ioctlRet => exact readOk_goto h trivial

theorem readOk_run {pos : File → Nat} {tr : List (Record State Event Shown)} {s : State}
    (h : Run step (State.init pos) tr s) : ∀ t, (s.pc t).ReadOk := by
  refine (h.invariant (I := fun s => Bounded s ∧ ∀ t, (s.pc t).ReadOk) ?_ ?_).2
  · exact ⟨bounded_init pos, fun _ => trivial⟩
  · intro s e u o hI hs
    exact ⟨bounded_step hI.1 hs, readOk_step hI.1 hI.2 hs⟩

theorem range_below_iff {pos cnt len : Nat} :
    (∀ i, pos ≤ i → i < pos + cnt → i < len) ↔ cnt = 0 ∨ pos + cnt ≤ len := by
  constructor
  · intro h
    by_cases hc : cnt = 0
    · exact .inl hc
    · have := h (pos + cnt - 1) (by omega) (by omega)
      omega
  · intro h i hlo hhi
    omega

theorem clamped_range_iff {req pos seen len : Nat} (hpos : pos < 2 ^ 63) (hseen : seen ≤ bufMax)
    (hlen : len ≤ bufMax) :
    (∀ i, pos ≤ i → i < pos + (if req > usub64 seen pos then usub64 seen pos else req) → i < len) ↔
      (pos < seen ∧ seen ≤ len) ∨ pos + req ≤ len ∨ req = 0 ∨ pos = seen := by
  simp only [bufMax] at hseen hlen
  rw [range_below_iff]
  by_cases hle : pos ≤ seen
  · rw [usub64_of_le hle (by omega)]
    split <;> omega
  · -- the length had fallen below the position: the difference wraps to at least `2 ^ 63`
    rw [usub64_of_lt (by omega) (by omega)]
    split <;> omega

theorem copyInside_step_iff {past : List (Record State Event Shown)} {s u : State} {e : Event}
    {o : Shown} (hb : Bounded s) (hok : ∀ t, (s.pc t).ReadOk) (hstep : step s e = some (u, o)) :
    CopyInside past ⟨s, e, o⟩ ↔ NotCutShort past ⟨s, e, o⟩ := by
  constructor
  · intro hin t beyond f room req pos seen cnt heq hpc
    subst heq
    have ht := hok t
    rw [show s.pc t = _ from hpc] at ht
    obtain ⟨hpos, hseen, rfl⟩ := ht
    cases step_move hstep with
    | readLocked hpc' =>
      cases hpc.symm.trans hpc'
      exact (clamped_range_iff hpos hseen hb.len_le).mp fun i hlo hhi =>
        (hin _ _ _ rfl i hlo hhi).1
  · intro hcut pos cnt res heq
    subst heq
    cases step_move hstep with
    | @readLocked t f room req _ seen _ beyond hpc =>
      have ht := hok t
      rw [hpc] at ht
      obtain ⟨hpos, hseen, rfl⟩ := ht
      have hlt := (clamped_range_iff hpos hseen hb.len_le).mpr
        (hcut t beyond f room req pos seen _ rfl hpc)
      exact fun i hlo hhi => ⟨hlt i hlo hhi, lt_of_lt_of_le (hlt i hlo hhi) hb.len_le⟩

/-- In every run, every copy of `td_read` stays inside the content and the buffer exactly when no
copy finds the content cut short. -/
theorem tdRead_inside_iff_notCutShort (pos : File → Nat) (tr : List (Record State Event Shown))
    (s : State) (h : Run step (State.init pos) tr s) :
    Each CopyInside tr ↔ Each NotCutShort tr := by
  have key : ∀ past r rest, tr = past ++ r :: rest → (CopyInside past r ↔ NotCutShort past r) := by
    intro past r rest htr
    subst htr
    obtain ⟨hpast, u, hu, _⟩ := h.split
    exact copyInside_step_iff (bounded_run hpast) (readOk_run hpast) hu
  constructor
  · exact fun hin past r rest htr => (key past r rest htr).mp (hin past r rest htr)
  · exact fun hcut past r rest htr => (key past r rest htr).mpr (hcut past r rest htr)

theorem tdRead_inside_iff_notCutShort_echo : ∃ tr s,
    Run step (State.init fun _ => 0) tr s ∧
    tr.map Record.event = [.writeEnter 0 0 [65, 66] 2, .writeLocked 0, .readEnter 1 1 16 16,
      .readClamp 1, .readLocked 1 []] ∧
    (Each CopyInside tr ↔ Each NotCutShort tr) := by
  obtain ⟨tr, s, hrun, hev, _⟩ := exists_exec step (State.init fun _ => 0)
    [.writeEnter 0 0 [65, 66] 2, .writeLocked 0, .readEnter 1 1 16 16, .readClamp 1,
      .readLocked 1 []] (fun _ => true) (by decide +kernel)
  exact ⟨tr, s, hrun, hev, tdRead_inside_iff_notCutShort _ tr s hrun⟩

/-- A write of 2 bytes between the test and the clamp of a read at position 5 of 10 bytes makes the
difference wrap: the copy is handed 300 bytes from offset 5 of the buffer. -/
theorem tdRead_outside_after_short_write : ¬ ∀ pos tr s,
    Run step (State.init pos) tr s → Each CopyInside tr := by
  intro hall
  obtain ⟨tr, s, hrun, _, hq⟩ := exists_exec step
    (State.init fun f => if f = 1 then 5 else 0)
    [.writeEnter 0 0 (List.replicate 10 65) 10, .writeLocked 0, .ret 0, .readEnter 1 1 512 300,
      .writeEnter 0 0 [66, 66] 2, .writeLocked 0, .readClamp 1, .readLocked 1 (List.replicate 49 0)]
    (fun x => x.1.any fun r => match r.out with
      | .copied pos cnt _ => pos == 5 && cnt == 300 && r.pre.dev.len == 2
      | _ => false) (by decide +kernel)
  refine not_each_of_any _ hq ?_ (hall _ tr s hrun)
  intro past r hr hin
  split at hr
  · next pos cnt res ho =>
    simp only [Bool.and_eq_true, beq_iff_eq] at hr
    have := hin pos cnt res ho 5 (by omega) (by omega)
    omega
  · cases hr

end LinuxDriverLab.TwoDev
