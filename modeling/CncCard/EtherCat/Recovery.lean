import CncCard.EtherCat.Consistency

/-!
The status code after errors. `nAlStatusFailed` keeps the status byte of the last failed
transition, and a later transition clears the code only if its state is above that byte;
the byte carries the error bit when the failure before it had not been acknowledged.
-/

namespace CncCard.EtherCat

theorem code_le_status (x y : AlState) (err : Bool) :
    y.code ≤ x.status err ↔ err = true ∨ y.code ≤ x.code := by
  cases x <;> cases y <;> cases err <;> decide

section Step

variable {s : Slave} {a : Al} {c : Call}

theorem Slave.Shows.call_refused (h : s.Shows a.state a.error) {code : BitVec 8}
    (hanswer : a.answer c.alcontrol = .refused code) :
    (s.call c).nAlStatusFailed = a.state.status (pending a.error c.alcontrol) := by
  rw [h.call_eq, hanswer]
  rfl

theorem Slave.Shows.call_moved (h : s.Shows a.state a.error) {y : AlState}
    (hanswer : a.answer c.alcontrol = .moved y) :
    (s.call c).alStatusCode = if y.code ≤ s.nAlStatusFailed then s.alStatusCode else 0 := by
  rw [h.call_eq, hanswer]
  rfl

/-- While the code stays, so does the byte of the last failure. -/
theorem Slave.Shows.call_kept (h : s.Shows a.state a.error)
    (hanswer : ∀ code, a.answer c.alcontrol ≠ .refused code)
    (hcode : (s.call c).alStatusCode ≠ 0) : (s.call c).nAlStatusFailed = s.nAlStatusFailed := by
  rw [h.call_eq] at hcode ⊢
  cases hv : a.answer c.alcontrol with
  | ignored | same => rfl
  | moved y =>
      rw [hv] at hcode
      have hle : y.code ≤ s.nAlStatusFailed := by
        by_contra hgt
        exact hcode (if_neg hgt)
      exact if_pos hle
  | refused code => exact absurd hv (hanswer code)

end Step

/-- The request is refused. -/
def Fails (calls : Nat → Call) (k : Nat) : Prop :=
  ∃ code, (alRun calls k).answer (calls k).alcontrol = .refused code

/-- Request `n` is the successful one: the code has been up since request `z`, the last
failure was `last`, an acknowledge has come since, and `y` is above every state in which
a transition failed in that time. -/
structure Recovers (maxsyncman : BitVec 8) (pdictl : Fin 4 → BitVec 8) (calls : Nat → Call)
    (n z last : Nat) (y : AlState) : Prop where
  moved : (alRun calls n).answer (calls n).alcontrol = .moved y
  zero : (run maxsyncman pdictl calls z).alStatusCode = 0
  since : ∀ t, z < t → t ≤ n → (run maxsyncman pdictl calls t).alStatusCode ≠ 0
  order : z ≤ last ∧ last < n
  fails : Fails calls last
  latest : ∀ k, last < k → k < n → ¬ Fails calls k
  acknowledged : ∃ k, last < k ∧ k ≤ n ∧ (calls k).alcontrol &&& stateErrack ≠ 0
  above : ∀ k, z ≤ k → k < n → Fails calls k → (alRun calls k).state.code < y.code

section Run

variable {maxsyncman : BitVec 8} {pdictl : Fin 4 → BitVec 8} {calls : Nat → Call}
  {n z last : Nat} {y : AlState}

theorem Recovers.failed (h : Recovers maxsyncman pdictl calls n z last y) {t : Nat}
    (hlast : last < t) (htn : t ≤ n) :
    (run maxsyncman pdictl calls t).nAlStatusFailed =
      (alRun calls last).state.status
        (pending (alRun calls last).error (calls last).alcontrol) := by
  induction t, hlast using Nat.le_induction with
  | base =>
      obtain ⟨code, hcode⟩ := h.fails
      exact (run_consistent maxsyncman pdictl calls last).shows.call_refused hcode
  | succ t hlast ih =>
      have hzero := h.since (t + 1) (Nat.lt_of_le_of_lt h.order.1 (by omega)) htn
      rw [← ih (Nat.le_of_succ_le htn)]
      exact (run_consistent maxsyncman pdictl calls t).shows.call_kept
        (fun code hcode => h.latest t hlast htn ⟨code, hcode⟩) hzero

/-- The recovery clears the code if and only if no error was pending at the last failure. -/
theorem Recovers.cleared_iff (h : Recovers maxsyncman pdictl calls n z last y) :
    (run maxsyncman pdictl calls (n + 1)).alStatusCode = 0 ↔
      pending (alRun calls last).error (calls last).alcontrol = false := by
  have hmoved := (run_consistent maxsyncman pdictl calls n).shows.call_moved h.moved
  have hnonzero := h.since n (Nat.lt_of_le_of_lt h.order.1 h.order.2) (Nat.le_refl n)
  have habove := h.above last h.order.1 h.order.2 h.fails
  rw [run_succ, hmoved, h.failed h.order.2 (Nat.le_refl n), ← Bool.not_eq_true]
  simp only [code_le_status, BitVec.not_le.mpr habove, or_false]
  split
  · next hpending => exact iff_of_false hnonzero (not_not_intro hpending)
  · next hpending => exact iff_of_true rfl hpending

theorem run_unacknowledged_iff (k : Nat) :
    pending (alRun calls k).error (calls k).alcontrol = true ↔
      (run maxsyncman pdictl calls k).nAlStatus &&& stateError ≠ 0 ∧
        (calls k).alcontrol &&& stateErrack = 0 := by
  rw [(run_consistent maxsyncman pdictl calls k).shows.status, AlState.status_error, pending,
    Bool.and_eq_true, beq_iff_eq]

end Run

/-- Every recovery clears the code if and only if the last failed transition before each
met no error that was still to be acknowledged. -/
theorem recovered_iff (maxsyncman : BitVec 8) (pdictl : Fin 4 → BitVec 8)
    (calls : Nat → Call) :
    (∀ n z last y, Recovers maxsyncman pdictl calls n z last y →
        (run maxsyncman pdictl calls (n + 1)).alStatusCode = 0) ↔
      ∀ n z last y, Recovers maxsyncman pdictl calls n z last y →
        ¬ ((run maxsyncman pdictl calls last).nAlStatus &&& stateError ≠ 0 ∧
          (calls last).alcontrol &&& stateErrack = 0) := by
  refine forall_congr' fun n => forall_congr' fun z => forall_congr' fun last =>
    forall_congr' fun y => forall_congr' fun h => ?_
  rw [h.cleared_iff, ← run_unacknowledged_iff, Bool.not_eq_true]

/-- OP asked for in INIT, then a state that does not exist, an acknowledge, and PREOP. -/
theorem recovered_twice_false :
    ¬ ∀ n z last y,
      Recovers 8 (fun _ => 0) (asked ⟨⟨0, 0⟩, ⟨0, 0⟩, 0⟩ [0x08, 0x00, 0x11, 0x02]) n z last y →
        (run 8 (fun _ => 0) (asked ⟨⟨0, 0⟩, ⟨0, 0⟩, 0⟩ [0x08, 0x00, 0x11, 0x02])
          (n + 1)).alStatusCode = 0 := by
  intro h
  refine absurd (h 3 0 1 .preop ⟨by decide +kernel, by decide +kernel, ?_, by decide,
    ⟨0x12, by decide +kernel⟩, ?_, ⟨2, by decide⟩, ?_⟩) (by decide +kernel)
  · intro t ht htn
    interval_cases t <;> decide +kernel
  · rintro k hk hkn ⟨code, hcode⟩
    interval_cases k
    cases hcode
  · intro k _ hkn _
    interval_cases k <;> decide +kernel

end CncCard.EtherCat
