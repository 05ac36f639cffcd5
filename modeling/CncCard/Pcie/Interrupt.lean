import CncCard.Clocked.Last
import CncCard.Pcie.Txproc

/-!
The interrupt line of `txproc`. The card asks for an interrupt while the two low bits of
`intreg` are up: the request of `ext_inf`, sampled in each cycle, and the bit with which the
driver enables it. `app_int_sts` is a level for the hard IP, which sends a message for each of
its changes and acknowledges it; no change comes before the one before it has been
acknowledged.
-/

namespace CncCard.Pcie
open Clocked
namespace Txproc

section Line

variable (r : Nat → Txproc) (inp : Nat → TxInput)

def pending (t : Nat) : Bool := ((r t).regs .intreg).getLsbD 0

def enabled (t : Nat) : Bool := ((r t).regs .intreg).getLsbD 1

/-- The level has been acknowledged and has not changed since. -/
def Acked (v : Bool) (t : Nat) : Prop :=
  ∃ a < t, (inp a).appIntAck = true ∧ ∀ k, a < k → k ≤ t + 1 → (r k).appIntSts = v

/-- What the hard IP and the driver can rely on. -/
structure Signals : Prop where
  /-- The request bit is that of the cycle before, but for a write of the driver. -/
  pending : ∀ t, pending r (t + 1) = if (r t).written (inp t) .intreg then
    (inp t).extdq.getLsbD 0 else (inp t).regs.extIntReq
  /-- The driver enables and disables; the reset enables. -/
  enabled : ∀ t, ((∀ k < t, (r k).written (inp k) .intreg = false) ∧ enabled r t = true) ∨
    ∃ a < t, (r a).written (inp a) .intreg = true ∧
      Silent (fun k => (r k).written (inp k) .intreg) a t ∧
      enabled r t = (inp a).extdq.getLsbD 1
  rises : ∀ t, (r (t + 1)).appIntSts = false → (r (t + 2)).appIntSts = true →
    Txproc.pending r t = true ∧ Txproc.enabled r t = true ∧
      ((∀ k, 0 < k → k ≤ t + 1 → (r k).appIntSts = false) ∨ Acked r inp false t)
  falls : ∀ t, (r (t + 1)).appIntSts = true → (r (t + 2)).appIntSts = false →
    Txproc.pending r t = false ∧ Acked r inp true t
  raised : ∀ t, (∀ u, ∃ a, u ≤ a ∧ (inp a).appIntAck = true) →
    (∀ k, t ≤ k → Txproc.pending r k = true ∧ Txproc.enabled r k = true) →
    ∃ u, t ≤ u ∧ ∀ k, u ≤ k → (r k).appIntSts = true
  lowered : ∀ t, (∀ u, ∃ a, u ≤ a ∧ (inp a).appIntAck = true) →
    (∀ k, t ≤ k → Txproc.pending r k = false) →
    ∃ u, t ≤ u ∧ ∀ k, u ≤ k → (r k).appIntSts = false

end Line

section Run

variable (s : Txproc) (inp : Nat → TxInput)

theorem run_appIntSts (t : Nat) : (run s inp (t + 1)).appIntSts =
    ((run s inp t).preState1 == .intEn || (run s inp t).preState1 == .intAck1) := rfl

theorem run_intreg (t : Nat) : (run s inp (t + 1)).regs .intreg =
    if (run s inp t).written (inp t) .intreg then (inp t).extdq
    else ((run s inp t).regs .intreg).extractLsb 31 1 ++ BitVec.ofBool (inp t).regs.extIntReq := rfl

theorem run_pending (t : Nat) : pending (run s inp) (t + 1) =
    if (run s inp t).written (inp t) .intreg then (inp t).extdq.getLsbD 0
    else (inp t).regs.extIntReq := by
  rw [pending, run_intreg]
  split
  · rfl
  · rw [BitVec.getLsbD_append]
    simp

theorem run_enabled (t : Nat) : enabled (run s inp) (t + 1) =
    if (run s inp t).written (inp t) .intreg then (inp t).extdq.getLsbD 1
    else enabled (run s inp) t := by
  rw [enabled, run_intreg]
  split
  · rfl
  · rw [BitVec.getLsbD_append, enabled]
    simp

/-- The step of the interrupt machine, by the two bits of `intreg`. -/
theorem run_preState1 (t : Nat) : (run s inp (t + 1)).preState1 =
    match (run s inp t).preState1 with
    | .intIdle => if pending (run s inp) t && enabled (run s inp) t then .intEn else .intIdle
    | .intEn => if (inp t).appIntAck then .intAck1 else .intEn
    | .intAck1 => if pending (run s inp) t then .intAck1 else .intDisable
    | .intDisable => if (inp t).appIntAck then .intAck2 else .intDisable
    | .intAck2 => .intIdle := rfl

theorem enabled_of_last (t : Nat) :
    ((∀ k < t, (run s inp k).written (inp k) .intreg = false) ∧ enabled (run s inp) t = true) ∨
      ∃ a < t, (run s inp a).written (inp a) .intreg = true ∧
        Silent (fun k => (run s inp k).written (inp k) .intreg) a t ∧
        enabled (run s inp) t = (inp a).extdq.getLsbD 1 := by
  obtain ⟨hnone, hkept⟩ | hlast := register_eq (run_enabled s inp) t
  · have hreset : (run s inp 0).regs .intreg = 0x00000002 := rfl
    refine .inl ⟨hnone, ?_⟩
    rw [hkept, enabled, hreset]
    decide
  · exact .inr hlast

/-- In which states a change of the level has been acknowledged. -/
theorem acked_of_state (t : Nat) :
    match (run s inp t).preState1 with
    | .intAck1 => Acked (run s inp) inp true t
    | .intAck2 => Acked (run s inp) inp false t
    | .intIdle => (∀ k, 0 < k → k ≤ t + 1 → (run s inp k).appIntSts = false) ∨
        Acked (run s inp) inp false t
    | .intEn | .intDisable => True := by
  have hlast {t : Nat} {v : Bool} (hack : Acked (run s inp) inp v t)
      (hnow : (run s inp (t + 2)).appIntSts = v) : Acked (run s inp) inp v (t + 1) := by
    obtain ⟨a, hat, hat', hsame⟩ := hack
    refine ⟨a, Nat.lt_succ_of_lt hat, hat', fun k hak hk => ?_⟩
    cases Nat.lt_or_eq_of_le hk with
    | inl hlt => exact hsame k hak (Nat.le_of_lt_succ hlt)
    | inr heq => rw [heq, hnow]
  have hfirst {t : Nat} {v : Bool} (hack : (inp t).appIntAck = true)
      (hsts : (run s inp (t + 1)).appIntSts = v) (hsts' : (run s inp (t + 2)).appIntSts = v) :
      Acked (run s inp) inp v (t + 1) := by
    refine ⟨t, Nat.lt_succ_self t, hack, fun k htk hk => ?_⟩
    obtain rfl | rfl : k = t + 1 ∨ k = t + 2 := by omega
    · exact hsts
    · exact hsts'
  induction t with
  | zero =>
      refine .inl fun k hk hk' => ?_
      obtain rfl : k = 1 := by omega
      rfl
  | succ t ih =>
      have hstep := run_preState1 s inp t
      have hsts := run_appIntSts s inp t
      have hsts' := run_appIntSts s inp (t + 1)
      cases hstate : (run s inp t).preState1 with
      | intIdle =>
          simp only [hstate] at ih hstep hsts
          split at hstep
          · simp only [hstep]
          · simp only [hstep] at hsts' ⊢
            refine ih.imp (fun hnone k hk hk' => ?_) fun hack => hlast hack hsts'
            cases Nat.lt_or_eq_of_le hk' with
            | inl hlt => exact hnone k hk (Nat.le_of_lt_succ hlt)
            | inr heq => rw [heq, hsts']; rfl
      | intEn =>
          simp only [hstate] at hstep hsts
          split at hstep
          · next hack =>
              simp only [hstep] at hsts' ⊢
              exact hfirst hack hsts hsts'
          · simp only [hstep]
      | intAck1 =>
          simp only [hstate] at ih hstep hsts
          split at hstep
          · simp only [hstep] at hsts' ⊢
            exact hlast ih hsts'
          · simp only [hstep]
      | intDisable =>
          simp only [hstate] at hstep hsts
          split at hstep
          · next hack =>
              simp only [hstep] at hsts' ⊢
              exact hfirst hack hsts hsts'
          · simp only [hstep]
      | intAck2 =>
          simp only [hstate] at ih hstep
          simp only [hstep] at hsts' ⊢
          exact .inr (hlast ih hsts')

/-- The line once the request and the enable bit stay. -/
theorem stays_raised {t : Nat}
    (hup : ∀ k, t ≤ k → pending (run s inp) k = true ∧ enabled (run s inp) k = true)
    (hstate : (run s inp t).preState1 = .intEn ∨ (run s inp t).preState1 = .intAck1) :
    ∀ k, t + 1 ≤ k → (run s inp k).appIntSts = true := by
  have hstay (k : Nat) (hk : t ≤ k) :
      (run s inp k).preState1 = .intEn ∨ (run s inp k).preState1 = .intAck1 := by
    induction k, hk using Nat.le_induction with
    | base => exact hstate
    | succ k hk ih =>
        rw [run_preState1, (hup k hk).1]
        cases ih with
        | inl hen =>
            rw [hen]
            cases (inp k).appIntAck with
            | true => exact .inr rfl
            | false => exact .inl rfl
        | inr hack =>
            rw [hack]
            exact .inr rfl
  intro k hk
  obtain ⟨j, rfl⟩ := Nat.exists_eq_add_of_le' (Nat.lt_of_lt_of_le (Nat.succ_pos t) hk)
  rw [run_appIntSts]
  cases hstay j (by omega) with
  | inl hen => rw [hen]; rfl
  | inr hack => rw [hack]; rfl

variable (hfair : ∀ u, ∃ a, u ≤ a ∧ (inp a).appIntAck = true)
include hfair

/-- A state that only an acknowledgement leaves is left. -/
theorem exists_leave (x y : IntState) {t : Nat} (hstate : (run s inp t).preState1 = x)
    (hwait : ∀ k, (run s inp k).preState1 = x →
      (run s inp (k + 1)).preState1 = if (inp k).appIntAck then y else x) :
    ∃ u, t ≤ u ∧ (run s inp (u + 1)).preState1 = y := by
  obtain ⟨u, htu, hall, hack⟩ := exists_event (p := fun k => (run s inp k).preState1 = x)
    (e := fun k => (inp k).appIntAck = true) hstate
    (fun k _ hk hno => by rw [hwait k hk, if_neg hno]) (hfair t)
  refine ⟨u, htu, ?_⟩
  rw [hwait u (hall u htu (Nat.le_refl u)), if_pos hack]

theorem eventually_raised {t : Nat}
    (hup : ∀ k, t ≤ k → pending (run s inp) k = true ∧ enabled (run s inp) k = true) :
    ∃ u, t ≤ u ∧ ∀ k, u ≤ k → (run s inp k).appIntSts = true := by
  have hidle (u : Nat) (htu : t ≤ u) (hstate : (run s inp u).preState1 = .intIdle) :
      ∃ v, t ≤ v ∧ ∀ k, v ≤ k → (run s inp k).appIntSts = true := by
    refine ⟨u + 2, by omega, stays_raised s inp (fun k hk => hup k (by omega)) (.inl ?_)⟩
    rw [run_preState1, hstate, (hup u htu).1, (hup u htu).2]
    rfl
  have hack2 (u : Nat) (htu : t ≤ u) (hstate : (run s inp u).preState1 = .intAck2) :
      ∃ v, t ≤ v ∧ ∀ k, v ≤ k → (run s inp k).appIntSts = true := by
    refine hidle (u + 1) (by omega) ?_
    rw [run_preState1, hstate]
  cases hstate : (run s inp t).preState1 with
  | intIdle => exact hidle t (Nat.le_refl t) hstate
  | intEn => exact ⟨t + 1, Nat.le_succ t, stays_raised s inp hup (.inl hstate)⟩
  | intAck1 => exact ⟨t + 1, Nat.le_succ t, stays_raised s inp hup (.inr hstate)⟩
  | intDisable =>
      obtain ⟨u, htu, hnext⟩ := exists_leave s inp hfair .intDisable .intAck2 hstate
        fun k hk => by rw [run_preState1, hk]
      exact hack2 (u + 1) (by omega) hnext
  | intAck2 => exact hack2 t (Nat.le_refl t) hstate

theorem eventually_lowered {t : Nat} (hdown : ∀ k, t ≤ k → pending (run s inp) k = false) :
    ∃ u, t ≤ u ∧ ∀ k, u ≤ k → (run s inp k).appIntSts = false := by
  have hidle (u : Nat) (htu : t ≤ u) (hstate : (run s inp u).preState1 = .intIdle) :
      ∃ v, t ≤ v ∧ ∀ k, v ≤ k → (run s inp k).appIntSts = false := by
    have hstay (k : Nat) (hk : u ≤ k) : (run s inp k).preState1 = .intIdle := by
      induction k, hk using Nat.le_induction with
      | base => exact hstate
      | succ k hk ih =>
          rw [run_preState1, ih, hdown k (by omega)]
          rfl
    refine ⟨u + 1, by omega, fun k hk => ?_⟩
    obtain ⟨j, rfl⟩ := Nat.exists_eq_add_of_le' (Nat.lt_of_lt_of_le (Nat.succ_pos u) hk)
    rw [run_appIntSts, hstay j (by omega)]
    rfl
  have hack2 (u : Nat) (htu : t ≤ u) (hstate : (run s inp u).preState1 = .intAck2) :
      ∃ v, t ≤ v ∧ ∀ k, v ≤ k → (run s inp k).appIntSts = false := by
    refine hidle (u + 1) (by omega) ?_
    rw [run_preState1, hstate]
  have hdisable (u : Nat) (htu : t ≤ u) (hstate : (run s inp u).preState1 = .intDisable) :
      ∃ v, t ≤ v ∧ ∀ k, v ≤ k → (run s inp k).appIntSts = false := by
    obtain ⟨v, huv, hnext⟩ := exists_leave s inp hfair .intDisable .intAck2 hstate
      fun k hk => by rw [run_preState1, hk]
    exact hack2 (v + 1) (by omega) hnext
  have hack1 (u : Nat) (htu : t ≤ u) (hstate : (run s inp u).preState1 = .intAck1) :
      ∃ v, t ≤ v ∧ ∀ k, v ≤ k → (run s inp k).appIntSts = false := by
    refine hdisable (u + 1) (by omega) ?_
    rw [run_preState1, hstate, hdown u htu]
    rfl
  cases hstate : (run s inp t).preState1 with
  | intIdle => exact hidle t (Nat.le_refl t) hstate
  | intEn =>
      obtain ⟨u, htu, hnext⟩ := exists_leave s inp hfair .intEn .intAck1 hstate
        fun k hk => by rw [run_preState1, hk]
      exact hack1 (u + 1) (by omega) hnext
  | intAck1 => exact hack1 t (Nat.le_refl t) hstate
  | intDisable => exact hdisable t (Nat.le_refl t) hstate
  | intAck2 => exact hack2 t (Nat.le_refl t) hstate

end Run

/-- The interrupt line in every run, whatever the driver writes and whenever the hard IP
acknowledges. -/
theorem signals (s : Txproc) (inp : Nat → TxInput) : Signals (run s inp) inp where
  pending := run_pending s inp
  enabled := enabled_of_last s inp
  rises t hlow hhigh := by
    have hacked := acked_of_state s inp t
    rw [run_appIntSts] at hlow hhigh
    rw [run_preState1] at hhigh
    cases hstate : (run s inp t).preState1 with
    | intIdle =>
        simp only [hstate] at hacked hhigh
        split at hhigh
        · next hbits =>
            rw [Bool.and_eq_true] at hbits
            exact ⟨hbits.1, hbits.2, hacked⟩
        · cases hhigh
    | intEn | intAck1 => rw [hstate] at hlow; cases hlow
    | intDisable =>
        simp only [hstate] at hhigh
        split at hhigh <;> cases hhigh
    | intAck2 => simp only [hstate] at hhigh; cases hhigh
  falls t hhigh hlow := by
    have hacked := acked_of_state s inp t
    rw [run_appIntSts] at hlow hhigh
    rw [run_preState1] at hlow
    cases hstate : (run s inp t).preState1 with
    | intIdle | intDisable | intAck2 => rw [hstate] at hhigh; cases hhigh
    | intEn =>
        simp only [hstate] at hlow
        split at hlow <;> cases hlow
    | intAck1 =>
        simp only [hstate] at hacked hlow
        split at hlow
        · cases hlow
        · next hbit => exact ⟨Bool.eq_false_iff.mpr hbit, hacked⟩
  raised _ hfair hup := eventually_raised s inp hfair hup
  lowered _ hfair hdown := eventually_lowered s inp hfair hdown

end Txproc

end CncCard.Pcie
