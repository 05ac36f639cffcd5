import CncCard.Clocked.Last
import CncCard.EtherCat.ProcessData
import CncCard.EtherCat.Teardown

/-!
Whether the output data are looked after in OP. The step to SAFEOP sets their flag, enables
their sync manager and lets their event through, but its handler returns before it does so
when there are no input data. The step to OP sets the flag again. It enables the sync manager
as well, the first time only, since the local error flag that asks for it is cleared
for good; the event it leaves as it is.
-/

namespace CncCard.EtherCat
open Clocked

namespace Slave

/-- The output data are looked after. -/
structure Serviced (s : Slave) : Prop where
  pdooutrun : s.pdooutrun = true
  enabled : s.pdictl EtherCat.processDataOut &&& smPdidisable = 0
  event : s.alEventMask &&& processOutputEvent ≠ 0

/-- What `pdo_startinputhandler` leaves for the output data. -/
def Opened (s : Slave) : Prop :=
  if s.nPdInputSize = 0 then s.alEventMask &&& processOutputEvent = 0
  else
    s.alEventMask &&& processOutputEvent ≠ 0 ∧ s.pdooutrun = true ∧
      (s.bEcatLocalError = true ∨ s.pdictl EtherCat.processDataOut &&& smPdidisable = 0)

/-- What has been done for the output data in each state. -/
def Prepared (s : Slave) : AlState → Prop
  | .init | .preop => s.alEventMask &&& processOutputEvent = 0
  | .safeop => s.nPdOutputSize ≠ 0 → s.Opened
  | .op => s.nPdOutputSize ≠ 0 → s.Opened ∧ s.bEcatLocalError = false

theorem Prepared.serviced_iff {s : Slave} (h : s.Prepared .op) (hout : s.nPdOutputSize ≠ 0) :
    s.Serviced ↔ s.nPdInputSize ≠ 0 := by
  obtain ⟨hopened, hlocal⟩ := h hout
  unfold Opened at hopened
  split at hopened
  · next hin => exact ⟨fun hserviced => absurd hopened hserviced.event, fun hne => absurd hin hne⟩
  · next hin =>
      obtain ⟨hevent, hrun, henabled⟩ := hopened
      refine ⟨fun _ => hin, fun _ => ⟨hrun, henabled.resolve_left ?_, hevent⟩⟩
      rw [hlocal]
      exact Bool.false_ne_true

end Slave

theorem startMask_output {r : EscRegs} (hout : r.processDataOut.smLength ≠ 0) :
    r.startMask &&& processOutputEvent ≠ 0 := by
  rw [EscRegs.startMask, if_pos hout]
  split <;> decide

theorem enabled_eq_zero (b : BitVec 8) : b &&& ~~~smPdidisable &&& smPdidisable = 0 := by
  rw [BitVec.and_assoc]
  exact BitVec.and_zero

theorem Slave.Parked.output_event {s : Slave} (h : s.Parked) :
    s.alEventMask &&& processOutputEvent = 0 := by
  have hevents := congrArg (· &&& processOutputEvent) h.events
  simp only [BitVec.and_assoc] at hevents
  exact hevents

/-- The step to SAFEOP opens the output data, out of a mask without their event. -/
theorem opened_startinput (r : EscRegs) {s : Slave}
    (hidle : s.alEventMask &&& processOutputEvent = 0)
    (hout : r.processDataOut.smLength ≠ 0) : (s.pdoStartinputhandler r).2.Opened := by
  rw [Slave.pdoStartinputhandler_eq, Slave.Opened]
  by_cases hin : r.processDataIn.smLength = 0
  · simpa only [if_pos hin] using hidle
  · simp only [if_neg hin]
    refine ⟨?_, Bool.or_eq_true_iff.mpr (.inr ?_), ?_⟩
    · rw [BitVec.and_or_distrib_right, hidle]
      exact fun hzero => startMask_output hout (BitVec.zero_or.symm.trans hzero)
    · rw [bne_iff_ne.mpr hin, bne_iff_ne.mpr hout]
      rfl
    · cases hlocal : s.bEcatLocalError with
      | true => exact .inl rfl
      | false =>
          refine .inr ?_
          rw [if_neg (not_or.mpr ⟨hout, Bool.false_ne_true⟩)]
          exact enabled_eq_zero _

/-- The step to OP enables the sync manager where the step to SAFEOP has left that to it. -/
theorem opened_startoutput {s : Slave} (hout : s.nPdOutputSize ≠ 0) (h : s.Opened) :
    s.pdoStartoutputhandler.2.Opened ∧ s.pdoStartoutputhandler.2.bEcatLocalError = false := by
  rw [Slave.pdoStartoutputhandler_eq]
  refine ⟨?_, by simpa using fun _ => hout⟩
  unfold Slave.Opened at h ⊢
  split at h
  · next hin => rwa [if_pos hin]
  · next hin =>
      obtain ⟨hevent, hrun, henabled⟩ := h
      refine (if_neg hin).mpr ⟨hevent, Bool.or_eq_true_iff.mpr (.inl hrun), .inr ?_⟩
      cases hlocal : s.bEcatLocalError with
      | true =>
          rw [if_pos ⟨hout, rfl⟩]
          exact enabled_eq_zero _
      | false =>
          rw [if_neg fun hboth => Bool.false_ne_true hboth.2]
          exact henabled.resolve_left fun herr => Bool.false_ne_true (hlocal.symm.trans herr)

theorem handlers_prepared {s : Slave} (r : EscRegs) {x y : AlState} (h : s.Prepared x)
    (hne : y ≠ x) (hrank : y.rank ≤ x.rank + 1) : (handlers r x y s).Prepared y := by
  cases y with
  | init => exact (parked_stopInput _).output_event
  | preop =>
      cases x with
      | init => exact h
      | preop => exact absurd rfl hne
      | safeop | op => exact (parked_stopInput s).output_event
  | safeop =>
      cases x with
      | init => exact absurd hrank (by decide)
      | preop =>
          intro hout
          refine opened_startinput r h ?_
          simpa [handlers] using hout
      | safeop => exact absurd rfl hne
      | op => exact fun hout => (h hout).1
  | op =>
      cases x with
      | safeop =>
          intro hout
          have hsize : s.nPdOutputSize ≠ 0 := by simpa [handlers] using hout
          exact opened_startoutput hsize (h hsize)
      | op => exact absurd rfl hne
      | init | preop => exact absurd hrank (by decide)

theorem Consistent.call_prepared {s : Slave} {a : Al} (h : Consistent s a)
    (hprepared : s.Prepared a.state) (c : Call) :
    (s.call c).Prepared (a.step c.alcontrol).state := by
  cases h.shows.call_cases c with
  | inl hstay =>
      obtain ⟨hsame, _, _, _, _, hcall⟩ := hstay
      rw [hcall, hsame]
      exact hprepared
  | inr hmove =>
      obtain ⟨y, hne, hrank, hy, shown, _, _, _, _, hcall⟩ := hmove
      rw [hcall, hy]
      exact handlers_prepared (s := { s with nAlStatus := shown }) c.regs hprepared hne hrank

section Run

variable (maxsyncman : BitVec 8) (pdictl : Fin 4 → BitVec 8) (calls : Nat → Call)

theorem run_prepared (n : Nat) :
    (run maxsyncman pdictl calls n).Prepared (alRun calls n).state := by
  induction n with
  | zero => exact BitVec.zero_and
  | succ n ih => exact (run_consistent maxsyncman pdictl calls n).call_prepared ih (calls n)

/-- The request starts a session: it takes the state machine from PREOP to SAFEOP. -/
def starts (n : Nat) : Bool :=
  decide ((alRun calls n).state = .preop ∧ (alRun calls (n + 1)).state = .safeop)

theorem run_area_succ (n : Nat) : (run maxsyncman pdictl calls (n + 1)).area =
    if starts calls n then (calls n).regs.area else (run maxsyncman pdictl calls n).area := by
  simp only [starts, decide_eq_true_eq]
  exact (run_consistent maxsyncman pdictl calls n).call_area (calls n)

/-- The sizes are those of the session that is on. -/
theorem run_sizes {m n : Nat} (hmn : m < n) (hstarts : starts calls m = true)
    (hsilent : Silent (starts calls) m n) :
    (run maxsyncman pdictl calls n).nPdOutputSize = (calls m).regs.processDataOut.smLength ∧
      (run maxsyncman pdictl calls n).nPdInputSize = (calls m).regs.processDataIn.smLength := by
  have harea : (run maxsyncman pdictl calls n).area = (calls m).regs.area :=
    register_of_last (x := fun n => (run maxsyncman pdictl calls n).area)
      (run_area_succ maxsyncman pdictl calls) hmn hstarts hsilent
  exact ⟨congrArg (fun area => area.1.smLength) harea,
    congrArg (fun area => area.2.smLength) harea⟩

theorem run_exists_session (n : Nat) (hout : (run maxsyncman pdictl calls n).nPdOutputSize ≠ 0) :
    ∃ m, m < n ∧ starts calls m = true ∧ Silent (starts calls) m n := by
  rcases register_eq (x := fun n => (run maxsyncman pdictl calls n).area)
    (run_area_succ maxsyncman pdictl calls) n with ⟨-, hnone⟩ | ⟨m, hmn, hstarts, hsilent, -⟩
  · exact absurd (congrArg (fun area => area.1.smLength) hnone) hout
  · exact ⟨m, hmn, hstarts, hsilent⟩

/-- No session that comes to OP has output data and no input data. -/
def NoneOutputOnly : Prop :=
  ∀ m n, m < n → starts calls m = true → Silent (starts calls) m n →
    (alRun calls n).state = .op →
    (calls m).regs.processDataOut.smLength ≠ 0 → (calls m).regs.processDataIn.smLength ≠ 0

end Run

/-- The output data are looked after in OP, in every session, if and only if no session has
output data alone. -/
theorem serviced_iff_noneOutputOnly (maxsyncman : BitVec 8) (pdictl : Fin 4 → BitVec 8)
    (calls : Nat → Call) :
    (∀ n, (run maxsyncman pdictl calls n).In .op →
        0 < (run maxsyncman pdictl calls n).nPdOutputSize →
        (run maxsyncman pdictl calls n).Serviced) ↔
      NoneOutputOnly calls := by
  have hshows (n : Nat) := (run_consistent maxsyncman pdictl calls n).shows
  have hserviced {n : Nat} (hop : (alRun calls n).state = .op) :=
    Slave.Prepared.serviced_iff (hop ▸ run_prepared maxsyncman pdictl calls n)
  have hpos (n : Nat) : 0 < (run maxsyncman pdictl calls n).nPdOutputSize ↔
      (run maxsyncman pdictl calls n).nPdOutputSize ≠ 0 := BitVec.pos_iff_ne_zero _
  simp only [hpos]
  constructor
  · intro h m n hmn hstarts hsilent hop hout
    obtain ⟨hsizeOut, hsizeIn⟩ := run_sizes maxsyncman pdictl calls hmn hstarts hsilent
    rw [← hsizeOut] at hout
    rw [← hsizeIn]
    exact (hserviced hop hout).mp (h n ((hshows n).in_iff.mpr hop) hout)
  · intro h n hin hout
    have hop := (hshows n).in_iff.mp hin
    obtain ⟨m, hmn, hstarts, hsilent⟩ := run_exists_session maxsyncman pdictl calls n hout
    obtain ⟨hsizeOut, hsizeIn⟩ := run_sizes maxsyncman pdictl calls hmn hstarts hsilent
    refine (hserviced hop hout).mpr ?_
    rw [hsizeIn]
    exact h m n hmn hstarts hsilent hop (hsizeOut ▸ hout)

/-- Four bytes out and none in, up to OP. -/
theorem serviced_outputOnly_false :
    ¬ ∀ n, (run 8 (fun _ => 0) (asked ⟨⟨0x1000, 4⟩, ⟨0x1400, 0⟩, 0⟩ [2, 4, 8]) n).In .op →
      0 < (run 8 (fun _ => 0) (asked ⟨⟨0x1000, 4⟩, ⟨0x1400, 0⟩, 0⟩ [2, 4, 8]) n).nPdOutputSize →
      (run 8 (fun _ => 0) (asked ⟨⟨0x1000, 4⟩, ⟨0x1400, 0⟩, 0⟩ [2, 4, 8]) n).Serviced := by
  intro h
  exact absurd (h 3 (by decide +kernel) (by decide +kernel)).event (by decide +kernel)

end CncCard.EtherCat
