import CncCard.Handwheel.FsmHw

/-!
The entries of the period measurement. Between two edges `t0` is the number of the cycles
spent in `M1`, as far as it goes. The flag comes one cycle behind the limit, so an edge in the
cycle in which it is seen finds one more measuring cycle than the entry says.
-/

namespace CncCard
open Clocked
namespace FsmHw

/-- Unless the machine has given up, `t0` and the flag are those of `n` measuring cycles. -/
def Elapsed (s : FsmHw) (n : Nat) : Prop :=
  s.currStateM = .m0 ∨ s.t0.toNat = min n 2500000 ∧ s.sTimer = decide (2500000 < n)

theorem Inv.elapsed_edge {s : FsmHw} (h : Inv s) (hedge : s.dealSign = true) (i : FsmHwInput) :
    Elapsed (s.clock i) ((s.clock i).currStateM == .m1).toNat := by
  change Elapsed (s.clock i) (s.nextStateM == .m1).toNat
  refine .inr ?_
  by_cases hnext : s.nextStateM = .m1
  · have hidle : s.currStateM = .m0 := by
      cases hstate : s.currStateM with
      | m0 => rfl
      | m1 => rw [nextStateM_m2.mpr ⟨hedge, .inl hstate⟩] at hnext; cases hnext
      | m2 => rw [nextStateM_m2.mpr ⟨hedge, .inr hstate⟩] at hnext; cases hnext
      | unused => exact absurd hstate h.used
    rw [(clock_m1 hnext i).1, (clock_m1 hnext i).2, h.idle hidle, hnext]
    exact ⟨rfl, rfl⟩
  · rw [(clock_t0 hnext i).1, (clock_t0 hnext i).2, beq_eq_false_iff_ne.mpr hnext]
    exact ⟨rfl, rfl⟩

theorem Inv.quiet {s : FsmHw} (h : Inv s) (hquiet : s.dealSign = false) :
    s.nextStateM = .m0 ∨ s.nextStateM = .m1 ∧ s.currStateM ≠ .m0 ∧ s.sTimer = false := by
  unfold nextStateM
  rw [hquiet]
  cases hstate : s.currStateM with
  | m0 => exact .inl rfl
  | m1 =>
      cases htimer : s.sTimer with
      | true => exact .inl rfl
      | false => exact .inr ⟨rfl, by decide, rfl⟩
  | m2 => exact .inr ⟨rfl, by decide, h.written hstate⟩
  | unused => exact absurd hstate h.used

theorem Inv.elapsed_quiet {s : FsmHw} {n : Nat} (h : Inv s) (hquiet : s.dealSign = false)
    (helapsed : Elapsed s n) (i : FsmHwInput) :
    Elapsed (s.clock i) (n + ((s.clock i).currStateM == .m1).toNat) := by
  change Elapsed (s.clock i) (n + (s.nextStateM == .m1).toNat)
  rcases h.quiet hquiet with hidle | ⟨hnext, hbusy, hrunning⟩
  · exact .inl hidle
  · obtain ⟨ht0, htimer⟩ := helapsed.resolve_left hbusy
    have hle : n ≤ 2500000 := Nat.le_of_not_lt (of_decide_eq_false (htimer ▸ hrunning))
    rw [Nat.min_eq_left hle] at ht0
    refine .inr ?_
    rw [(clock_m1 hnext i).1, (clock_m1 hnext i).2, hnext, ht0]
    change _ = min (n + 1) 2500000 ∧ _ = decide (2500000 < n + 1)
    refine ⟨?_, decide_eq_decide.mpr Nat.lt_succ_iff.symm⟩
    split <;> omega

variable (inp : Nat → FsmHwInput)

def edge (t : Nat) : Bool := (run inp t).dealSign

/-- The cycles spent in `M1` behind `e` and up to `t`. -/
def measuring (e t : Nat) : Nat := during (fun k => (run inp k).currStateM == .m1) (e + 1) (t + 1)

variable {inp}

theorem measuring_succ {e t : Nat} (h : e ≤ t) : measuring inp e (t + 1) =
    measuring inp e t + ((run inp (t + 1)).currStateM == .m1).toNat :=
  during_succ _ (Nat.succ_le_succ h)

theorem measuring_self (e : Nat) : measuring inp e e = 0 := during_self _ _

/-- From an edge on, as long as there is no other. -/
theorem run_elapsed {e t : Nat} (he : edge inp e = true) (h : e < t)
    (hsilent : Silent (edge inp) e t) : Elapsed (run inp t) (measuring inp e t) := by
  induction t, h using Nat.le_induction with
  | base =>
      rw [measuring_succ (Nat.le_refl e), measuring_self, Nat.zero_add]
      exact (run_inv inp e).elapsed_edge he (inp e)
  | succ t h ih =>
      obtain ⟨hbefore, hquiet⟩ := (silent_succ h).mp hsilent
      rw [measuring_succ (Nat.le_of_succ_le h)]
      exact (run_inv inp t).elapsed_quiet hquiet (ih hbefore) (inp t)

theorem run_wrreq (t : Nat) : (run inp (t + 1)).wrreq = true ↔
    edge inp t = true ∧ Underway inp t ∧ (inp t).full = false := by
  rw [run_succ, clock_wrreq, Bool.and_eq_true, beq_iff_eq, Bool.not_eq_true', nextStateM_m2,
    and_assoc, ← run_underway]
  refine and_congr_right fun _ => and_congr_left fun _ => ?_
  have hused := (run_inv inp t).used
  cases hstate : (run inp t).currStateM with
  | unused => exact absurd hstate hused
  | m0 | m1 | m2 => simp

theorem run_entry {e t : Nat} (h : e < t) (he : edge inp e = true)
    (hsilent : Silent (edge inp) e t) (hwrite : (run inp (t + 1)).wrreq = true) :
    (run inp (t + 1)).data.toNat = min (measuring inp e t) 2500000 := by
  have hbusy := (run_underway inp t).mpr ((run_wrreq t).mp hwrite).2.1
  have helapsed := (run_elapsed he h hsilent).resolve_left hbusy
  have hdata : (run inp (t + 1)).data = (run inp t).t0 := clock_data hwrite
  rw [hdata, helapsed.1]

variable (inp) in
/-- What the measurement hands to the queue. An edge is written if the queue has room when it
is seen, unless it is the first one behind a reset or a timeout. The entry is the number of
the measuring cycles since the edge before, as far as `t0` goes. -/
structure Records : Prop where
  bounded : ∀ t, (run inp t).t0.toNat ≤ 2500000
  used : ∀ t, (run inp t).currStateM ≠ .unused
  writes : ∀ t, (run inp (t + 1)).wrreq = true ↔
    edge inp t = true ∧ Underway inp t ∧ (inp t).full = false
  entry : ∀ e t, e < t → edge inp e = true → Silent (edge inp) e t →
    (run inp (t + 1)).wrreq = true →
      (run inp (t + 1)).data.toNat = min (measuring inp e t) 2500000

theorem run_records (inp : Nat → FsmHwInput) : Records inp where
  bounded t := (run_inv inp t).bounded
  used t := (run_inv inp t).used
  writes := run_wrreq
  entry _ _ h he hsilent hwrite := run_entry h he hsilent hwrite

/-- A measurement that starts in `M0` goes on until the flag is seen. -/
theorem run_measuring {e n : Nat} (hidle : (run inp e).currStateM = .m0)
    (he : edge inp e = true) (hle : n ≤ 2500000) (hsilent : Silent (edge inp) e (e + n + 1)) :
    (run inp (e + n + 1)).currStateM = .m1 ∧ measuring inp e (e + n + 1) = n + 1 := by
  induction n with
  | zero =>
      have hnext : (run inp (e + 1)).currStateM = .m1 := by
        change (run inp e).nextStateM = .m1
        rw [nextStateM, hidle, show (run inp e).dealSign = true from he]
        rfl
      rw [measuring_succ (Nat.le_refl e), measuring_self, hnext]
      exact ⟨rfl, rfl⟩
  | succ n ih =>
      rw [← Nat.add_assoc] at hsilent ⊢
      obtain ⟨hbefore, hquiet⟩ := (silent_succ (by omega)).mp hsilent
      obtain ⟨hstate, hcount⟩ := ih (Nat.le_of_succ_le hle) hbefore
      have helapsed := (run_elapsed he (by omega) hbefore).resolve_left (by rw [hstate]; decide)
      have htimer : (run inp (e + n + 1)).sTimer = false := by
        rw [helapsed.2, hcount]
        exact decide_eq_false (by omega)
      have hnext : (run inp (e + n + 1 + 1)).currStateM = .m1 := by
        change (run inp (e + n + 1)).nextStateM = .m1
        rw [nextStateM, hstate, htimer, show (run inp (e + n + 1)).dealSign = false from hquiet]
        rfl
      rw [measuring_succ (by omega), hcount, hnext]
      exact ⟨rfl, rfl⟩

/-- Phase A is high for `n` cycles, and the queue is never full. -/
def turn (n t : Nat) : FsmHwInput := ⟨decide (t < n), false, false⟩

theorem edge_turn (n t : Nat) :
    edge (turn n) (t + 3) = (decide (t < n) ^^ decide (t + 1 < n)) := by
  rw [edge, run_dealSign]
  exact Bool.or_false _

/-- The two edges of a turn that does not last longer than the timeout. -/
theorem turn_entry {n : Nat} (hle : n ≤ 2500000) :
    edge (turn (n + 1)) 2 = true ∧ Silent (edge (turn (n + 1))) 2 (2 + n + 1) ∧
      (run (turn (n + 1)) (2 + n + 1 + 1)).wrreq = true ∧
        measuring (turn (n + 1)) 2 (2 + n + 1) = n + 1 := by
  have hrise : edge (turn (n + 1)) 2 = true := by
    change ((false ^^ decide (0 < n + 1)) || (false ^^ false)) = true
    rw [decide_eq_true (Nat.succ_pos n)]
    rfl
  have hsilent : Silent (edge (turn (n + 1))) 2 (2 + n + 1) := by
    intro k hk hkn
    obtain ⟨j, rfl⟩ := Nat.exists_eq_add_of_le' hk
    rw [edge_turn, decide_eq_true (by omega), decide_eq_true (by omega)]
    rfl
  have hfall : edge (turn (n + 1)) (2 + n + 1) = true := by
    rw [show 2 + n + 1 = n + 3 by omega, edge_turn, decide_eq_true (Nat.lt_succ_self n),
      decide_eq_false (Nat.lt_irrefl _)]
    rfl
  obtain ⟨hstate, hcount⟩ := run_measuring rfl hrise hle hsilent
  have hbusy : (run (turn (n + 1)) (2 + n + 1)).currStateM ≠ .m0 := by
    rw [hstate]
    decide
  exact ⟨hrise, hsilent, (run_wrreq _).mpr ⟨hfall, (run_underway _ _).mp hbusy, rfl⟩, hcount⟩

/-- Two edges one behind the other, and a queue that is full when the request is up. -/
def bounce (t : Nat) : FsmHwInput := ⟨t == 0, false, t == 4⟩

/-- There are 2500001 measuring cycles between the two edges of the one run, and the other
requests a write while the queue is full. -/
theorem late_entry :
    (¬ ∀ e t, e < t → edge (turn 2500001) e = true → Silent (edge (turn 2500001)) e t →
      (run (turn 2500001) (t + 1)).wrreq = true →
        (run (turn 2500001) (t + 1)).data.toNat = measuring (turn 2500001) e t) ∧
    ¬ ∀ t, (run bounce t).wrreq = true → (bounce t).full = false := by
  constructor
  · intro hentry
    obtain ⟨hedge, hsilent, hwrite, hcount⟩ := turn_entry (Nat.le_refl 2500000)
    have hdata := hentry 2 _ (by decide) hedge hsilent hwrite
    rw [run_entry (by decide) hedge hsilent hwrite, hcount] at hdata
    exact absurd hdata (by decide)
  · intro hroom
    exact absurd (hroom 4 rfl) (by decide)

end FsmHw

end CncCard
