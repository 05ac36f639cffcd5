import CncCard.EtherCat.Consistency

/-!
What is left of the process data when the slave goes back to PREOP or INIT. The input
side is taken down completely; the output flag, the flag of the clock unit and its event
mask bit are set by the start handlers and cleared by none.
-/

namespace CncCard.EtherCat

namespace Slave

def Idle (s : Slave) : Prop := s.In .init ∨ s.In .preop

def Active (s : Slave) : Prop := s.In .safeop ∨ s.In .op

/-- The parts of the process data that the stop handlers look after. -/
structure Parked (s : Slave) : Prop where
  events : s.alEventMask &&& (processOutputEvent ||| processInputEvent) = 0
  output : s.pdictl processDataOut &&& smPdidisable ≠ 0
  input : s.pdictl processDataIn &&& smPdidisable ≠ 0

/-- The parts that they forget. -/
structure Quiet (s : Slave) : Prop where
  pdooutrun : s.pdooutrun = false
  bDcSyncActive : s.bDcSyncActive = false
  events : s.alEventMask &&& dcEventMask = 0

/-- All process data activity is released. -/
structure Released (s : Slave) : Prop where
  parked : s.Parked
  quiet : s.Quiet
  pdoinrun : s.pdoinrun = false
  outputUpdate : s.bEcatOutputUpdateRunning = false

end Slave

theorem disabled_ne_zero (b : BitVec 8) : (b ||| smPdidisable) &&& smPdidisable ≠ 0 := by
  rw [BitVec.and_or_distrib_right, BitVec.and_self]
  intro h
  exact absurd (BitVec.or_eq_zero_iff.mp h).2 (by decide)

theorem parked_stopInput (s : Slave) : s.stopInput.2.Parked := by
  rw [Slave.stopInput_eq]
  refine ⟨?_, ?_, ?_⟩
  · rw [BitVec.and_assoc]
    exact BitVec.and_zero
  · exact disabled_ne_zero _
  · exact disabled_ne_zero _

/-- Going down to PREOP or INIT parks the process data, and going up to PREOP leaves it. -/
theorem handlers_parked {s : Slave} (r : EscRegs) {x y : AlState} (hne : y ≠ x)
    (hy : y = .init ∨ y = .preop) (h : x = .init → s.Parked) : (handlers r x y s).Parked := by
  cases hy with
  | inl hinit =>
      subst hinit
      exact parked_stopInput _
  | inr hpreop =>
      subst hpreop
      cases x with
      | init => exact ⟨(h rfl).events, (h rfl).output, (h rfl).input⟩
      | preop => exact absurd rfl hne
      | safeop | op => exact parked_stopInput _

/-- The move sets the output flag. -/
def StartsOutput (r : EscRegs) (x y : AlState) (s : Slave) : Prop :=
  x = .preop ∧ y = .safeop ∧ r.processDataIn.smLength ≠ 0 ∧ r.processDataOut.smLength ≠ 0 ∨
    x = .safeop ∧ y = .op ∧ s.nPdOutputSize ≠ 0

/-- The move takes up the signals of the clock unit. -/
def StartsSync (r : EscRegs) (x y : AlState) : Prop :=
  x = .preop ∧ y = .safeop ∧ r.processDataIn.smLength ≠ 0 ∧ r.syncs = true

theorem handlers_pdooutrun (r : EscRegs) {x y : AlState} (s : Slave) (hne : y ≠ x)
    (hrank : y.rank ≤ x.rank + 1) :
    (handlers r x y s).pdooutrun = true ↔ s.pdooutrun = true ∨ StartsOutput r x y s := by
  cases x <;> cases y <;> simp_all [AlState.rank, StartsOutput, handlers]

theorem handlers_bDcSyncActive (r : EscRegs) {x y : AlState} (s : Slave) (hne : y ≠ x)
    (hrank : y.rank ≤ x.rank + 1) :
    (handlers r x y s).bDcSyncActive = true ↔ s.bDcSyncActive = true ∨ StartsSync r x y := by
  cases x <;> cases y <;> simp_all [AlState.rank, StartsSync, handlers]

theorem startMask_dc (r : EscRegs) (h : r.syncs = false) :
    r.startMask &&& dcEventMask = 0 := by
  by_cases hout : r.processDataOut.smLength = 0#16 <;>
    simp [EscRegs.startMask, h, hout, processOutputEvent, processInputEvent, dcEventMask]

theorem handlers_dcEvents {s : Slave} (h : s.alEventMask &&& dcEventMask = 0) (r : EscRegs)
    {x y : AlState} (hsync : ¬ StartsSync r x y) :
    (handlers r x y s).alEventMask &&& dcEventMask = 0 := by
  have hstop (k : BitVec 16) : s.alEventMask &&& k &&& dcEventMask = 0 := by
    rw [BitVec.and_assoc, BitVec.and_comm k, ← BitVec.and_assoc, h]
    exact BitVec.zero_and
  have hinput (heq : x = .preop ∧ y = .safeop) :
      (s.pdoStartinputhandler r).2.alEventMask &&& dcEventMask = 0 := by
    rw [Slave.pdoStartinputhandler_eq]
    by_cases hin : r.processDataIn.smLength = 0
    · simpa only [if_pos hin] using h
    · have hoff : r.syncs = false :=
        Bool.eq_false_iff.mpr fun hon => hsync ⟨heq.1, heq.2, hin, hon⟩
      simp only [if_neg hin]
      rw [BitVec.and_or_distrib_right, h, startMask_dc r hoff]
      rfl
  cases y with
  | init => simpa [handlers] using hstop _
  | preop =>
      cases x with
      | init => simpa [handlers] using h
      | _ => simpa [handlers] using hstop _
  | safeop =>
      cases x with
      | preop => exact hinput ⟨rfl, rfl⟩
      | _ => simpa [handlers] using h
  | op => simpa [handlers] using h

theorem not_starts_self (r : EscRegs) (x : AlState) (s : Slave) :
    ¬ (StartsOutput r x x s ∨ StartsSync r x x) := by
  cases x <;> simp [StartsOutput, StartsSync]

/-- The step starts something that no stop handler takes back. -/
def Leaks (s : Slave) (c : Call) : Prop :=
  ∃ x y, s.In x ∧ (s.call c).In y ∧ (StartsOutput c.regs x y s ∨ StartsSync c.regs x y)

section Step

variable {s : Slave} {a : Al}

theorem Consistent.leaks_iff (h : Consistent s a) (c : Call) :
    Leaks s c ↔ StartsOutput c.regs a.state (a.step c.alcontrol).state s ∨
      StartsSync c.regs a.state (a.step c.alcontrol).state := by
  constructor
  · rintro ⟨x, y, hx, hy, hstarts⟩
    obtain rfl := h.shows.in_iff.mp hx
    obtain rfl := (h.call c).shows.in_iff.mp hy
    exact hstarts
  · intro hstarts
    exact ⟨_, _, h.shows.in_iff.mpr rfl, (h.call c).shows.in_iff.mpr rfl, hstarts⟩

/-- The two flags after a call say whether they were set before or the call has set one. -/
theorem Consistent.call_leaked (h : Consistent s a) (c : Call) :
    ((s.call c).pdooutrun = true ∨ (s.call c).bDcSyncActive = true) ↔
      (s.pdooutrun = true ∨ s.bDcSyncActive = true) ∨ Leaks s c := by
  rw [h.leaks_iff c]
  cases h.shows.call_cases c with
  | inl hstay =>
      obtain ⟨hsame, _, _, _, _, hcall⟩ := hstay
      rw [hcall, hsame]
      exact ⟨.inl, fun hor => hor.resolve_right (not_starts_self _ _ _)⟩
  | inr hmove =>
      obtain ⟨y, hne, hrank, hy, _, _, _, _, _, hcall⟩ := hmove
      rw [hcall, hy]
      simp only [handlers_pdooutrun _ _ hne hrank, handlers_bDcSyncActive _ _ hne hrank]
      exact or_or_or_comm

theorem Consistent.call_dcEvents (h : Consistent s a) (hmask : s.alEventMask &&& dcEventMask = 0)
    (c : Call) (hno : ¬ Leaks s c) : (s.call c).alEventMask &&& dcEventMask = 0 := by
  rw [h.leaks_iff c] at hno
  cases h.shows.call_cases c with
  | inl hstay =>
      obtain ⟨-, _, _, _, _, hcall⟩ := hstay
      rw [hcall]
      exact hmask
  | inr hmove =>
      obtain ⟨y, -, -, hy, shown, _, _, _, _, hcall⟩ := hmove
      rw [hcall]
      exact handlers_dcEvents (s := { s with nAlStatus := shown }) hmask c.regs
        (hy ▸ fun hsync => hno (.inr hsync))

/-- In PREOP and INIT the process data stay parked. -/
theorem Consistent.call_parked (h : Consistent s a)
    (hparked : a.state = .init ∨ a.state = .preop → s.Parked) (c : Call)
    (hidle : (a.step c.alcontrol).state = .init ∨ (a.step c.alcontrol).state = .preop) :
    (s.call c).Parked := by
  cases h.shows.call_cases c with
  | inl hstay =>
      obtain ⟨hsame, _, _, _, _, hcall⟩ := hstay
      have hp := hparked (hsame ▸ hidle)
      rw [hcall]
      exact ⟨hp.events, hp.output, hp.input⟩
  | inr hmove =>
      obtain ⟨y, hne, -, hy, shown, _, _, _, _, hcall⟩ := hmove
      have hp : (handlers c.regs a.state y { s with nAlStatus := shown }).Parked :=
        handlers_parked c.regs hne (hy ▸ hidle) fun hinit =>
          have hp := hparked (.inl hinit)
          ⟨hp.events, hp.output, hp.input⟩
      rw [hcall]
      exact ⟨hp.events, hp.output, hp.input⟩

end Step

theorem Consistent.of_idle {s : Slave} {a : Al} (h : Consistent s a)
    (hidle : a.state = .init ∨ a.state = .preop) :
    s.pdoinrun = false ∧ s.bEcatOutputUpdateRunning = false := by
  constructor
  · refine Bool.eq_false_iff.mpr fun hpdo => ?_
    have hactive := h.pdoinrun hpdo
    cases hidle with
    | inl hx => simp [hx] at hactive
    | inr hx => simp [hx] at hactive
  · refine Bool.eq_false_iff.mpr fun hout => ?_
    have hop := h.outputUpdate.mp hout
    cases hidle with
    | inl hx => cases hx.symm.trans hop
    | inr hx => cases hx.symm.trans hop

theorem leaks_active {s : Slave} {c : Call} (h : Leaks s c) : (s.call c).Active := by
  obtain ⟨x, y, -, hy, hout | hsync⟩ := h
  · cases hout with
    | inl h => exact .inl (h.2.1 ▸ hy)
    | inr h => exact .inr (h.2.1 ▸ hy)
  · exact .inl (hsync.2.1 ▸ hy)

section Run

variable {maxsyncman : BitVec 8} {pdictl : Fin 4 → BitVec 8} {calls : Nat → Call}

theorem run_idle_iff (n : Nat) :
    (run maxsyncman pdictl calls n).Idle ↔
      (alRun calls n).state = .init ∨ (alRun calls n).state = .preop := by
  have h := (run_consistent maxsyncman pdictl calls n).shows
  rw [Slave.Idle, h.in_iff, h.in_iff]

theorem Slave.not_in_of_code {s : Slave} {x y : AlState} (h : s.In x) (hne : x.code ≠ y.code) :
    ¬ s.In y :=
  fun hy => hne (h.symm.trans hy)

theorem not_idle_of_active {s : Slave} (h : s.Active) : ¬ s.Idle := by
  rw [Slave.Idle, not_or]
  cases h with
  | inl hsafeop =>
      exact ⟨Slave.not_in_of_code hsafeop (by decide), Slave.not_in_of_code hsafeop (by decide)⟩
  | inr hop => exact ⟨Slave.not_in_of_code hop (by decide), Slave.not_in_of_code hop (by decide)⟩

theorem run_parked {m n : Nat} (hmn : m ≤ n)
    (hactive : (run maxsyncman pdictl calls m).Active)
    (hidle : (run maxsyncman pdictl calls n).Idle) :
    (run maxsyncman pdictl calls n).Parked := by
  induction n, hmn using Nat.le_induction with
  | base => exact absurd hidle (not_idle_of_active hactive)
  | succ n hmn ih =>
      exact (run_consistent maxsyncman pdictl calls n).call_parked
        (fun h => ih ((run_idle_iff n).mpr h)) (calls n) ((run_idle_iff (n + 1)).mp hidle)

theorem run_leaked_iff (n : Nat) :
    ((run maxsyncman pdictl calls n).pdooutrun = true ∨
        (run maxsyncman pdictl calls n).bDcSyncActive = true) ↔
      ∃ m < n, Leaks (run maxsyncman pdictl calls m) (calls m) := by
  induction n with
  | zero => simp [run, start, Slave.ecatInit, Slave.powerOn, Slave.setAlStatus]
  | succ n ih =>
      refine ((run_consistent maxsyncman pdictl calls n).call_leaked (calls n)).trans ?_
      rw [ih]
      simp only [Nat.lt_succ_iff_lt_or_eq, or_and_right, exists_or, exists_eq_left]

theorem run_dcEvents {n : Nat} (hno : ∀ m < n, ¬ Leaks (run maxsyncman pdictl calls m) (calls m)) :
    (run maxsyncman pdictl calls n).alEventMask &&& dcEventMask = 0 := by
  induction n with
  | zero => exact BitVec.zero_and
  | succ n ih =>
      exact (run_consistent maxsyncman pdictl calls n).call_dcEvents
        (ih fun m hm => hno m (Nat.lt_succ_of_lt hm)) (calls n) (hno n (Nat.lt_succ_self n))

end Run

/-- Everything is released whenever the slave has come back to PREOP or INIT if and only
if it never comes back there after a step that starts what is not taken back. -/
theorem released_iff_noLeak (maxsyncman : BitVec 8) (pdictl : Fin 4 → BitVec 8)
    (calls : Nat → Call) :
    (∀ m n, m < n → (run maxsyncman pdictl calls m).Active →
        (run maxsyncman pdictl calls n).Idle → (run maxsyncman pdictl calls n).Released) ↔
      ∀ m n, m < n → Leaks (run maxsyncman pdictl calls m) (calls m) →
        ¬ (run maxsyncman pdictl calls n).Idle := by
  constructor
  · intro hreleased m n hmn hleaks hidle
    have hactive : (run maxsyncman pdictl calls (m + 1)).Active := leaks_active hleaks
    have hlt : m + 1 < n :=
      Nat.lt_of_le_of_ne hmn fun heq => not_idle_of_active hactive (heq ▸ hidle)
    obtain ⟨-, hquiet, -, -⟩ := hreleased (m + 1) n hlt hactive hidle
    cases (run_leaked_iff n).mpr ⟨m, hmn, hleaks⟩ with
    | inl hout => exact absurd (hquiet.pdooutrun.symm.trans hout) Bool.false_ne_true
    | inr hdc => exact absurd (hquiet.bDcSyncActive.symm.trans hdc) Bool.false_ne_true
  · intro hno m n hmn hactive hidle
    have hclean : ∀ k < n, ¬ Leaks (run maxsyncman pdictl calls k) (calls k) :=
      fun k hk hleaks => hno k n hk hleaks hidle
    have hflags : ¬ ((run maxsyncman pdictl calls n).pdooutrun = true ∨
        (run maxsyncman pdictl calls n).bDcSyncActive = true) :=
      mt (run_leaked_iff n).mp fun ⟨k, hk, hleaks⟩ => hclean k hk hleaks
    rw [not_or, Bool.not_eq_true, Bool.not_eq_true] at hflags
    obtain ⟨hpdo, hupdate⟩ := (run_consistent maxsyncman pdictl calls n).of_idle
      ((run_idle_iff n).mp hidle)
    exact ⟨run_parked (Nat.le_of_lt hmn) hactive hidle,
      ⟨hflags.1, hflags.2, run_dcEvents hclean⟩, hpdo, hupdate⟩

/-- Four bytes out and four in, up to SAFEOP and back to PREOP. -/
theorem released_upDown_false :
    ¬ ∀ m n, m < n → (run 8 (fun _ => 0) (asked ⟨⟨0x1000, 4⟩, ⟨0x1400, 4⟩, 0⟩ [2, 4, 2]) m).Active →
        (run 8 (fun _ => 0) (asked ⟨⟨0x1000, 4⟩, ⟨0x1400, 4⟩, 0⟩ [2, 4, 2]) n).Idle →
        (run 8 (fun _ => 0) (asked ⟨⟨0x1000, 4⟩, ⟨0x1400, 4⟩, 0⟩ [2, 4, 2]) n).Released := by
  intro h
  have hreleased := h 2 3 (by decide) (.inl (by decide +kernel)) (.inr (by decide +kernel))
  exact absurd hreleased.quiet.pdooutrun (by decide +kernel)

end CncCard.EtherCat
