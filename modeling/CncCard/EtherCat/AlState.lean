import CncCard.EtherCat.Slave
import Mathlib.Tactic.Cases
import Mathlib.Tactic.IntervalCases

/-!
The states of the application layer and what a request asks of them. `al_statemachine`
does what the verdict on its request says: it ignores it, stays, moves and runs the
handlers of the move, or refuses with a status code.
-/

namespace CncCard.EtherCat

inductive AlState
  | init | preop | safeop | op
deriving DecidableEq

namespace AlState

def code : AlState → BitVec 8
  | init => stateInit
  | preop => statePreop
  | safeop => stateSafeop
  | op => stateOp

def ofCode (c : BitVec 8) : Option AlState :=
  if c = stateInit then some init
  else if c = statePreop then some preop
  else if c = stateSafeop then some safeop
  else if c = stateOp then some op
  else none

def rank : AlState → Nat
  | init => 0
  | preop => 1
  | safeop => 2
  | op => 3

/-- The status byte of a state, with or without the error indication. -/
def status (x : AlState) (err : Bool) : BitVec 8 :=
  if err then x.code ||| stateError else x.code

@[simp] theorem ofCode_code (x : AlState) : ofCode x.code = some x := by
  cases x <;> rfl

theorem code_of_ofCode {c : BitVec 8} {x : AlState} (h : ofCode c = some x) : c = x.code := by
  unfold ofCode at h
  split at h
  · next hc => cases h; exact hc
  split at h
  · next hc => cases h; exact hc
  split at h
  · next hc => cases h; exact hc
  split at h
  · next hc => cases h; exact hc
  · cases h

theorem code_lt_code {x y : AlState} : x.code < y.code ↔ x.rank < y.rank := by
  cases x <;> cases y <;> decide

theorem code_injective {x y : AlState} (h : x.code = y.code) : x = y :=
  Option.some.inj (by rw [← ofCode_code, h, ofCode_code])

@[simp] theorem status_mask (x : AlState) (err : Bool) :
    x.status err &&& stateMask = x.code := by
  cases x <;> cases err <;> rfl

theorem status_error (x : AlState) (err : Bool) :
    x.status err &&& stateError ≠ 0 ↔ err = true := by
  cases x <;> cases err <;> decide

theorem status_clear (x : AlState) (err : Bool) :
    x.status err &&& ~~~stateError = x.status false := by
  cases x <;> cases err <;> rfl

theorem status_set (x : AlState) (err : Bool) :
    x.status err ||| stateError = x.status true := by
  cases x <;> cases err <;> rfl

theorem status_shift (x : AlState) (err : Bool) : x.status err <<< 4 = x.code <<< 4 := by
  cases x <;> cases err <;> rfl

end AlState

inductive Verdict
  | ignored
  | same
  | moved (y : AlState)
  | refused (alstatuscode : BitVec 8)
deriving DecidableEq

/-- The error indication that is left when the request has been looked at. -/
def pending (err : Bool) (alcontrol : BitVec 16) : Bool :=
  err && alcontrol &&& stateErrack == 0

/-- The state that is asked for. -/
def requested (alcontrol : BitVec 16) : BitVec 8 := alcontrol.setWidth 8 &&& stateMask

def verdict (x : AlState) (err : Bool) (al : BitVec 8) : Verdict :=
  if err = true ∧ x.code < al then .ignored
  else
    match AlState.ofCode al with
    | none => .refused alstatuscodeUnknownalcontrol
    | some y =>
        if y = x then .same
        else if y.rank ≤ x.rank + 1 then .moved y
        else .refused alstatuscodeInvalidalcontrol

theorem verdict_ignored_iff {x : AlState} {err : Bool} {al : BitVec 8} :
    verdict x err al = .ignored ↔ err = true ∧ x.code < al := by
  unfold verdict
  split
  · next hign => exact ⟨fun _ => hign, fun _ => rfl⟩
  · next hheard =>
      refine ⟨fun h => ?_, fun hign => absurd hign hheard⟩
      split at h
      · cases h
      · split at h
        · cases h
        · split at h <;> cases h

theorem verdict_moved {x y : AlState} {err : Bool} {al : BitVec 8}
    (h : verdict x err al = .moved y) :
    al = y.code ∧ y ≠ x ∧ y.rank ≤ x.rank + 1 ∧ (x.rank < y.rank → err = false) := by
  unfold verdict at h
  split at h
  · cases h
  next hheard =>
  split at h
  · cases h
  next y' hof =>
  split at h
  · cases h
  next hne =>
  split at h
  · next hrank =>
      cases h
      have hcode := AlState.code_of_ofCode hof
      refine ⟨hcode, hne, hrank, fun hup => Bool.eq_false_iff.mpr fun herr => hheard ⟨herr, ?_⟩⟩
      rw [hcode]
      exact AlState.code_lt_code.mpr hup
  · cases h

/-- The handlers of a move, with what they leave in the slave. -/
def handlers (r : EscRegs) (x y : AlState) (s : Slave) : Slave :=
  match y with
  | .init => s.mbxStopmailboxhandler.stopInput.2
  | .preop => if x = .init then s.mbxStartmailboxhandler.2 else s.stopInput.2
  | .safeop => if x = .preop then (s.pdoStartinputhandler r).2 else s.pdoStopoutputhandler.2
  | .op => s.pdoStartoutputhandler.2

theorem requested_lt (alcontrol : BitVec 16) : requested alcontrol < 16#8 := by
  simp only [requested, stateMask, BitVec.lt_def, BitVec.toNat_and]
  exact Nat.lt_succ_of_le Nat.and_le_right

namespace Slave

/-- What the status byte says of the state between two calls. -/
structure Shows (s : Slave) (x : AlState) (err : Bool) : Prop where
  status : s.nAlStatus = x.status err
  code : s.nAlStatusCode = 0

@[simp] theorem checkTransition_eq (s : Slave) (statetrans : BitVec 8) :
    s.checkTransition statetrans = 0 := by
  unfold checkTransition
  split <;> rfl

theorem changeState_same (r : EscRegs) (s : Slave) (x : AlState) :
    s.changeState r (x.code <<< 4 + x.code) = (noerrorNostatechange, s) := by
  cases x <;> rfl

theorem changeState_moved (r : EscRegs) (s : Slave) {x y : AlState} (hne : y ≠ x)
    (hrank : y.rank ≤ x.rank + 1) :
    s.changeState r (x.code <<< 4 + y.code) = (0, handlers r x y s) := by
  cases x with
  | init =>
      cases y with
      | init => exact absurd rfl hne
      | preop => rfl
      | safeop | op => exact absurd hrank (by decide)
  | preop =>
      cases y with
      | init => rfl
      | preop => exact absurd rfl hne
      | safeop =>
          change s.pdoStartinputhandler r = (0, (s.pdoStartinputhandler r).2)
          unfold pdoStartinputhandler
          split <;> rfl
      | op => exact absurd hrank (by decide)
  | safeop =>
      cases y with
      | safeop => exact absurd rfl hne
      | _ => rfl
  | op =>
      cases y with
      | op => exact absurd rfl hne
      | _ => rfl

theorem changeState_refused (r : EscRegs) (s : Slave) {x y : AlState}
    (hrank : x.rank + 1 < y.rank) :
    s.changeState r (x.code <<< 4 + y.code) = (alstatuscodeInvalidalcontrol, s) := by
  cases x <;> cases y <;> first | rfl | exact absurd hrank (by decide)

theorem changeState_unknown (r : EscRegs) (s : Slave) (x : AlState) {c : BitVec 8}
    (hc : c < 16#8) (hnone : AlState.ofCode c = none) :
    s.changeState r (x.code <<< 4 + c) = (alstatuscodeUnknownalcontrol, s) := by
  obtain ⟨c⟩ := c
  obtain ⟨c, hlt⟩ := c
  change c < 16 at hc
  interval_cases c <;> first | (cases x <;> rfl) | cases hnone

/-- The handlers leave the status of the slave to the state machine. -/
theorem handlers_frame (r : EscRegs) (x y : AlState) (s : Slave) :
    (handlers r x y s).nAlStatus = s.nAlStatus ∧
      (handlers r x y s).nAlStatusFailed = s.nAlStatusFailed ∧
      (handlers r x y s).nAlStatusCode = s.nAlStatusCode ∧
      (handlers r x y s).alStatusCode = s.alStatusCode := by
  cases y <;> cases x <;> simp [handlers]

/-- What a call leaves for each verdict. -/
def outcome (r : EscRegs) (x : AlState) (err : Bool) (s : Slave) : Verdict → Slave
  | .ignored => s
  | .same => { s with
      nAlStatus := x.status err
      alStatus := (x.status err).setWidth 16 }
  | .moved y => { handlers r x y { s with nAlStatus := x.status err } with
      nAlStatus := y.status false
      nAlStatusFailed := if y.code ≤ s.nAlStatusFailed then s.nAlStatusFailed else 0
      alStatus := (y.status false).setWidth 16
      alStatusCode := if y.code ≤ s.nAlStatusFailed then s.alStatusCode else 0 }
  | .refused alstatuscode => { s with
      nAlStatusFailed := x.status err
      nAlStatus := x.status true
      alStatus := (x.status true).setWidth 16
      alStatusCode := alstatuscode.setWidth 16 }

variable {s : Slave} {x : AlState} {err : Bool} {r : EscRegs}

theorem updateStatus_same (h : s.Shows x err) (result : BitVec 8) :
    s.updateStatus result x.code = outcome r x err s .same := by
  simp [updateStatus, setAlStatus, outcome, h.status]

theorem updateStatus_refused (h : s.Shows x err) {result c : BitVec 8} (hc : c ≠ x.code)
    (hresult : result ≠ 0) (hcode : result ≠ 0xFF) :
    s.updateStatus result c = outcome r x err s (.refused result) := by
  simp only [updateStatus, h.status, AlState.status_mask, AlState.status_set]
  rw [if_pos hc, if_pos hresult]
  simp only [setAlStatus, if_neg hcode]
  simp [outcome, h.code]

theorem updateStatus_moved (h : s.Shows x err) {y : AlState} (hne : y.code ≠ x.code) :
    s.updateStatus 0 y.code =
      { s with
        nAlStatus := y.status false
        nAlStatusFailed := if y.code ≤ s.nAlStatusFailed then s.nAlStatusFailed else 0
        alStatus := (y.status false).setWidth 16
        alStatusCode := if y.code ≤ s.nAlStatusFailed then s.alStatusCode else 0 } := by
  simp only [updateStatus, h.status, h.code, AlState.status_mask]
  rw [if_pos hne, if_neg (by decide), if_neg (by decide)]
  split <;> simp [setAlStatus, AlState.status]

theorem request_eq (h : s.Shows x err) {al : BitVec 8} (hal : al < 16#8)
    (hheard : ¬ (err = true ∧ x.code < al)) :
    s.request r al = outcome r x err s (verdict x err al) := by
  simp only [request, h.status, AlState.status_shift, checkTransition_eq, if_true, verdict,
    if_neg hheard]
  cases hof : AlState.ofCode al with
  | none =>
      have hne : al ≠ x.code := fun heq => by simp [heq] at hof
      simp only [changeState_unknown r s x hal hof]
      exact updateStatus_refused h hne (by decide) (by decide)
  | some y =>
      obtain rfl := AlState.code_of_ofCode hof
      by_cases hsame : y = x
      · subst hsame
        simp only [changeState_same, if_true]
        exact updateStatus_same h _
      have hne : y.code ≠ x.code := fun heq => hsame (AlState.code_injective heq)
      simp only [if_neg hsame]
      split
      · next hrank =>
          obtain ⟨hstatus, hfailed, hcode, hreg⟩ := handlers_frame r x y s
          have hshows : (handlers r x y s).Shows x err :=
            ⟨hstatus.trans h.status, hcode.trans h.code⟩
          simp only [changeState_moved r s hsame hrank, updateStatus_moved hshows hne, hfailed,
            hreg, outcome, ← h.status]
      · next hrank =>
          simp only [changeState_refused r s (Nat.lt_of_not_le hrank)]
          exact updateStatus_refused h hne (by decide) (by decide)

/-- A call does what the verdict on its request says. -/
theorem alStatemachine_eq (h : s.Shows x err) (r : EscRegs) (alcontrol : BitVec 16) :
    s.alStatemachine r alcontrol =
      outcome r x (pending err alcontrol) s
        (verdict x (pending err alcontrol) (requested alcontrol)) := by
  have hal := requested_lt alcontrol
  unfold alStatemachine
  change (if alcontrol &&& stateErrack ≠ 0 then
      { s with nAlStatus := s.nAlStatus &&& ~~~stateError }.request r (requested alcontrol)
    else if s.nAlStatus &&& stateError ≠ 0 ∧ s.nAlStatus &&& stateMask < requested alcontrol
      then s
    else s.request r (requested alcontrol)) = _
  by_cases hack : alcontrol &&& stateErrack = 0
  · have hpending : pending err alcontrol = err := by
      simp only [pending, hack, beq_self_eq_true, Bool.and_true]
    rw [if_neg (not_not_intro hack), hpending]
    simp only [h.status, AlState.status_error, AlState.status_mask]
    split
    · next hign => rw [verdict, if_pos hign, outcome]
    · next hheard => exact request_eq h hal hheard
  · have hpending : pending err alcontrol = false := by
      simp only [pending, beq_eq_false_iff_ne.mpr hack, Bool.and_false]
    have hcleared : { s with nAlStatus := s.nAlStatus &&& ~~~stateError }.Shows x false :=
      ⟨by rw [h.status, AlState.status_clear], h.code⟩
    rw [if_pos hack, hpending, request_eq hcleared hal (by simp), h.status,
      AlState.status_clear]
    cases hv : verdict x false (requested alcontrol) with
    | ignored => exact absurd (verdict_ignored_iff.mp hv).1 Bool.false_ne_true
    | _ => rfl

end Slave
end CncCard.EtherCat
