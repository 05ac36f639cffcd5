import CncCard.Tool.MagCtrl

/-!
The feedback of the tool changer to the host. `tool_mag_ctrl` sends one word in each
cycle: 0x40 if the magazine is back and not enabled, else 0x08 if it does not turn, else
0. `aux_fbac` sets one bit on each of the two words and takes both back on 0 only, so
that a bit outlives its word while the other word is sent.
-/

namespace CncCard
open Clocked

structure AuxFbacInput where
  rst : Bool
  data : BitVec 32
  trigger : Bool
  outRange : Bool
  breakdown : Bool
  aheFin : Bool
  backFin : Bool
  loosFin : Bool

structure AuxFbac where
  dataPara : BitVec 32
  auxIntrupt : Bool

/-- A bit that one word sets and the word 0 clears. -/
def AuxFbac.bit (word data : BitVec 32) (old : Bool) : Bool :=
  if data = word then true else if data = 0 then false else old

def auxFbac (s : AuxFbac) (i : AuxFbacInput) : AuxFbac :=
  if !i.rst then ⟨0, false⟩
  else
    { dataPara :=
        s.dataPara.extractLsb 31 8 ++ BitVec.ofBool (!i.loosFin) ++
          BitVec.ofBool (AuxFbac.bit 0x40 i.data (s.dataPara.getLsbD 6)) ++
          BitVec.ofBool (!i.backFin) ++ BitVec.ofBool (!i.aheFin) ++
          BitVec.ofBool (AuxFbac.bit 0x08 i.data (s.dataPara.getLsbD 3)) ++
          BitVec.ofBool (!i.breakdown) ++ BitVec.ofBool i.outRange ++ BitVec.ofBool i.trigger
      auxIntrupt := i.trigger }

namespace AuxFbac

/-- The magazine has finished its rotation. -/
def finished (s : AuxFbac) : Bool := s.dataPara.getLsbD 3

/-- The magazine is back and not enabled. -/
def retracted (s : AuxFbac) : Bool := s.dataPara.getLsbD 6

variable (s : AuxFbac) (i : AuxFbacInput)

/-- Out of the reset, either bit is the one that its word sets. -/
theorem running_bits (h : i.rst = true) :
    (auxFbac s i).finished = bit 0x08 i.data s.finished ∧
      (auxFbac s i).retracted = bit 0x40 i.data s.retracted := by
  simp only [auxFbac, finished, retracted, h, Bool.not_true, Bool.false_eq_true, if_false]
  repeat rw [BitVec.getLsbD_append]
  simp

theorem reset_bits (h : i.rst = false) :
    (auxFbac s i).finished = false ∧ (auxFbac s i).retracted = false := by
  simp [auxFbac, finished, retracted, h]

theorem step_finished :
    (auxFbac s i).finished = (i.rst && bit 0x08 i.data s.finished) := by
  cases h : i.rst with
  | false => exact (reset_bits s i h).1
  | true => rw [(running_bits s i h).1, Bool.true_and]

theorem step_retracted :
    (auxFbac s i).retracted = (i.rst && bit 0x40 i.data s.retracted) := by
  cases h : i.rst with
  | false => exact (reset_bits s i h).2
  | true => rw [(running_bits s i h).2, Bool.true_and]

end AuxFbac

/-- The magazine control and the feedback behind it. -/
structure ToolFeedback where
  tool : ToolMagCtrl
  fbac : AuxFbac

structure ToolFeedbackInput where
  tool : ToolMagInput
  rst : Bool
  trigger : Bool
  outRange : Bool
  breakdown : Bool
  loosFin : Bool

def toolFeedback (s : ToolFeedback) (i : ToolFeedbackInput) : ToolFeedback where
  tool := toolMagCtrl s.tool i.tool
  fbac := auxFbac s.fbac
    ⟨i.rst, s.tool.auxFeedback, i.trigger, i.outRange, i.breakdown, i.tool.aheFin,
      i.tool.backFin, i.loosFin⟩

namespace ToolFeedback

/-- A run from the reset of both. -/
def run (s : ToolMagCtrl) (inp : Nat → ToolFeedbackInput) : Nat → ToolFeedback :=
  trace toolFeedback ⟨s.reset, 0, false⟩ inp

/-- Back, as its end switch says, and not enabled. -/
def Back (r : Nat → ToolFeedback) (inp : Nat → ToolFeedbackInput) (t : Nat) : Prop :=
  (inp t).tool.backFin = false ∧ (r t).tool.enableTlmag = false

/-- Nothing that the host reads is older than three cycles: the rotation was over, and
the magazine back and not enabled, at most three cycles ago. -/
structure Fresh (r : Nat → ToolFeedback) (inp : Nat → ToolFeedbackInput) : Prop where
  finished : ∀ t, (r t).fbac.finished = true →
    ∃ k ≤ t, t ≤ k + 3 ∧ (r k).tool.rotState = false
  retracted : ∀ t, (r t).fbac.retracted = true → ∃ k ≤ t, t ≤ k + 3 ∧ Back r inp k

/-- The cycle sends 0x40. -/
def SendsBack (r : Nat → ToolFeedback) (inp : Nat → ToolFeedbackInput) (t : Nat) : Prop :=
  (inp t).tool.rstTm = true ∧ Back r inp t

/-- The cycle sends 0x08. -/
def SendsFinished (r : Nat → ToolFeedback) (inp : Nat → ToolFeedbackInput) (t : Nat) : Prop :=
  (inp t).tool.rstTm = true ∧ ¬ Back r inp t ∧ (r t).tool.rotState = false

section Run

variable (s : ToolMagCtrl) (inp : Nat → ToolFeedbackInput)

theorem run_tool_succ (t : Nat) :
    (run s inp (t + 1)).tool = toolMagCtrl (run s inp t).tool (inp t).tool := rfl

theorem auxFeedback_succ (t : Nat) :
    (run s inp (t + 1)).tool.auxFeedback =
      if (inp t).tool.rstTm then (run s inp t).tool.feedback (inp t).tool else 0 := by
  rw [run_tool_succ, toolMagCtrl]
  cases (inp t).tool.rstTm <;> rfl

/-- What a cycle sends. -/
theorem auxFeedback_cases (t : Nat) :
    (SendsBack (run s inp) inp t ∧ ¬ SendsFinished (run s inp) inp t ∧
      (run s inp (t + 1)).tool.auxFeedback = 0x40) ∨
    (¬ SendsBack (run s inp) inp t ∧ SendsFinished (run s inp) inp t ∧
      (run s inp (t + 1)).tool.auxFeedback = 0x08) ∨
    (¬ SendsBack (run s inp) inp t ∧ ¬ SendsFinished (run s inp) inp t ∧
      (run s inp (t + 1)).tool.auxFeedback = 0) := by
  rw [auxFeedback_succ, SendsBack, SendsFinished, Back, ToolMagCtrl.feedback]
  cases (inp t).tool.rstTm <;> cases (inp t).tool.backFin <;>
    cases (run s inp t).tool.enableTlmag <;> cases (run s inp t).tool.rotState <;> simp

theorem sendsBack_iff (t : Nat) :
    SendsBack (run s inp) inp t ↔ (run s inp (t + 1)).tool.auxFeedback = 0x40 := by
  obtain ⟨hback, -, hword⟩ | ⟨hback, -, hword⟩ | ⟨hback, -, hword⟩ := auxFeedback_cases s inp t
  all_goals simp [hback, hword]

theorem sendsFinished_iff (t : Nat) :
    SendsFinished (run s inp) inp t ↔ (run s inp (t + 1)).tool.auxFeedback = 0x08 := by
  obtain ⟨-, hfin, hword⟩ | ⟨-, hfin, hword⟩ | ⟨-, hfin, hword⟩ := auxFeedback_cases s inp t
  all_goals simp [hfin, hword]

theorem other_of_sendsBack (t : Nat) :
    SendsBack (run s inp) inp t ↔ (run s inp (t + 1)).tool.auxFeedback ≠ 0 ∧
      (run s inp (t + 1)).tool.auxFeedback ≠ 0x08 := by
  obtain ⟨hback, -, hword⟩ | ⟨hback, -, hword⟩ | ⟨hback, -, hword⟩ := auxFeedback_cases s inp t
  all_goals simp [hback, hword]

theorem other_of_sendsFinished (t : Nat) :
    SendsFinished (run s inp) inp t ↔ (run s inp (t + 1)).tool.auxFeedback ≠ 0 ∧
      (run s inp (t + 1)).tool.auxFeedback ≠ 0x40 := by
  obtain ⟨-, hfin, hword⟩ | ⟨-, hfin, hword⟩ | ⟨-, hfin, hword⟩ := auxFeedback_cases s inp t
  all_goals simp [hfin, hword]

variable {s inp}

/-- A bit of the feedback is up if and only if its word was sent two cycles ago or
earlier, and since then the other word, with no reset of `aux_fbac`. -/
theorem bit_iff {q : Nat → Bool} {word : BitVec 32} {Sends Other : Nat → Prop} (hword : word ≠ 0)
    (hsends : ∀ t, Sends t ↔ (run s inp (t + 1)).tool.auxFeedback = word)
    (hother : ∀ t, Other t ↔ (run s inp (t + 1)).tool.auxFeedback ≠ 0 ∧
      (run s inp (t + 1)).tool.auxFeedback ≠ word)
    (hstart : q 0 = false)
    (hstep : ∀ t, q (t + 1) =
      ((inp t).rst && AuxFbac.bit word (run s inp t).tool.auxFeedback (q t))) (t : Nat) :
    q t = true ↔ ∃ b, b + 2 ≤ t ∧ Sends b ∧ (∀ k, b < k → k + 1 < t → Other k) ∧
      ∀ k, b < k → k < t → (inp k).rst = true := by
  have hsince (t : Nat) : q (t + 1) =
      (((inp t).rst && decide ((run s inp t).tool.auxFeedback = word)) ||
        (((inp t).rst && decide ((run s inp t).tool.auxFeedback ≠ 0 ∧
          (run s inp t).tool.auxFeedback ≠ word)) && q t)) := by
    rw [hstep, AuxFbac.bit]
    cases (inp t).rst with
    | false => rfl
    | true =>
        by_cases hw : (run s inp t).tool.auxFeedback = word
        · simp [hw]
        · by_cases hz : (run s inp t).tool.auxFeedback = 0
          · simp [hz]
          · simp [hw]
  rw [since_iff hstart hsince]
  simp only [Bool.and_eq_true, decide_eq_true_iff]
  constructor
  · rintro ⟨a, hat, ⟨hrst, hset⟩, hall⟩
    obtain ⟨b, rfl⟩ : ∃ b, a = b + 1 := by
      cases a with
      | zero => exact absurd hset.symm hword
      | succ b => exact ⟨b, rfl⟩
    refine ⟨b, hat, (hsends b).mpr hset, fun k hk hkt => ?_, fun k hk hkt => ?_⟩
    · exact (hother k).mpr (hall (k + 1) (by omega) hkt).2
    · cases Nat.lt_or_eq_of_le (Nat.succ_le_of_lt hk) with
      | inl hlt => exact (hall k hlt hkt).1
      | inr heq => rw [← heq, ← hrst]
  · rintro ⟨b, hbt, hsent, hkept, hrst⟩
    refine ⟨b + 1, hbt, ⟨hrst (b + 1) (by omega) hbt, (hsends b).mp hsent⟩, fun k hk hkt => ?_⟩
    obtain ⟨j, rfl⟩ : ∃ j, k = j + 1 := ⟨k - 1, by omega⟩
    exact ⟨hrst (j + 1) (by omega) hkt, (hother j).mp (hkept j (by omega) hkt)⟩

theorem finished_iff (t : Nat) :
    (run s inp t).fbac.finished = true ↔ ∃ b, b + 2 ≤ t ∧ SendsFinished (run s inp) inp b ∧
      (∀ k, b < k → k + 1 < t → SendsBack (run s inp) inp k) ∧
      ∀ k, b < k → k < t → (inp k).rst = true :=
  bit_iff (q := fun t => (run s inp t).fbac.finished) (by decide) (sendsFinished_iff s inp)
    (other_of_sendsBack s inp) (show (0#32).getLsbD 3 = false by decide)
    (fun t => AuxFbac.step_finished _ _) t

theorem retracted_iff (t : Nat) :
    (run s inp t).fbac.retracted = true ↔ ∃ b, b + 2 ≤ t ∧ SendsBack (run s inp) inp b ∧
      (∀ k, b < k → k + 1 < t → SendsFinished (run s inp) inp k) ∧
      ∀ k, b < k → k < t → (inp k).rst = true :=
  bit_iff (q := fun t => (run s inp t).fbac.retracted) (by decide) (sendsBack_iff s inp)
    (other_of_sendsFinished s inp) (show (0#32).getLsbD 6 = false by decide)
    (fun t => AuxFbac.step_retracted _ _) t

theorem finished_fresh_iff :
    (∀ t, (run s inp t).fbac.finished = true →
        ∃ k ≤ t, t ≤ k + 3 ∧ (run s inp k).tool.rotState = false) ↔
      ∀ b c, b ≤ c → SendsFinished (run s inp) inp b →
        (∀ k, b < k → k ≤ c + 2 → SendsBack (run s inp) inp k) →
        (∀ k, b < k → k ≤ c + 3 → (inp k).rst = true) →
        ∃ k, c < k ∧ k ≤ c + 4 ∧ (run s inp k).tool.rotState = false := by
  constructor
  · intro h b c hbc hsent hback hrst
    have hup : (run s inp (c + 4)).fbac.finished = true := by
      rw [finished_iff]
      exact ⟨b, by omega, hsent, fun k hk hkc => hback k hk (by omega),
        fun k hk hkc => hrst k hk (by omega)⟩
    obtain ⟨k, hk, hck, hlow⟩ := h (c + 4) hup
    exact ⟨k, by omega, hk, hlow⟩
  · intro hturn t hup
    obtain ⟨b, hbt, hsent, hback, hrst⟩ := finished_iff t |>.mp hup
    cases Nat.lt_or_ge t (b + 4) with
    | inl hnear => exact ⟨b, by omega, by omega, hsent.2.2⟩
    | inr hfar =>
        obtain ⟨c, rfl⟩ : ∃ c, t = c + 4 := ⟨t - 4, by omega⟩
        obtain ⟨k, hck, hk, hlow⟩ := hturn b c (by omega) hsent
          (fun k hk hkc => hback k hk (by omega)) fun k hk hkc => hrst k hk (by omega)
        exact ⟨k, hk, by omega, hlow⟩

/-- A cycle that finds the magazine back, behind ones that send 0x08, lies behind them all. -/
theorem after_sendsFinished {b n k : Nat}
    (hstill : ∀ j, b < j → j ≤ n → SendsFinished (run s inp) inp j) (hbk : b < k)
    (hback : Back (run s inp) inp k) : n < k := by
  by_contra hearly
  exact (hstill k hbk (by omega)).2.1 hback

theorem retracted_fresh_iff :
    (∀ t, (run s inp t).fbac.retracted = true → ∃ k ≤ t, t ≤ k + 3 ∧ Back (run s inp) inp k) ↔
      ∀ b, SendsBack (run s inp) inp b →
        (∀ k, b < k → k ≤ b + 2 → SendsFinished (run s inp) inp k) →
        (∀ k, b < k → k ≤ b + 3 → (inp k).rst = true) →
        Back (run s inp) inp (b + 3) ∨ Back (run s inp) inp (b + 4) := by
  constructor
  · intro h b hsent hstill hrst
    have hup : (run s inp (b + 4)).fbac.retracted = true := by
      rw [retracted_iff]
      exact ⟨b, by omega, hsent, fun k hk hkc => hstill k hk (by omega),
        fun k hk hkc => hrst k hk (by omega)⟩
    obtain ⟨k, hk, hbk, hback⟩ := h (b + 4) hup
    have hlate := after_sendsFinished hstill (by omega) hback
    obtain rfl | rfl : k = b + 3 ∨ k = b + 4 := by omega
    · exact .inl hback
    · exact .inr hback
  · intro hleave t hup
    obtain ⟨b, hbt, hsent, hstill, hrst⟩ := retracted_iff t |>.mp hup
    have hstill' (j : Nat) (hj : b < j) (hjt : j ≤ t - 2) : SendsFinished (run s inp) inp j :=
      hstill j hj (by omega)
    cases Nat.lt_or_ge t (b + 4) with
    | inl hnear => exact ⟨b, by omega, by omega, hsent.2⟩
    | inr hfar =>
        have hback := hleave b hsent (fun k hk hkb => hstill k hk (by omega))
          fun k hk hkb => hrst k hk (by omega)
        cases hback with
        | inl hback =>
            have := after_sendsFinished hstill' (by omega) hback
            exact ⟨b + 3, by omega, by omega, hback⟩
        | inr hback =>
            have := after_sendsFinished hstill' (by omega) hback
            exact ⟨b + 4, hfar, by omega, hback⟩

end Run

/-- The feedback is fresh in a run if and only if
* the magazine does not turn for four cycles while it has been back, and not enabled, in
  every cycle since one in which it stood still elsewhere, and
* it does not stand still elsewhere for two cycles from being back and not enabled, and
  stay elsewhere for two more. -/
theorem fresh_iff (s : ToolMagCtrl) (inp : Nat → ToolFeedbackInput) :
    Fresh (run s inp) inp ↔
      (∀ b c, b ≤ c → SendsFinished (run s inp) inp b →
        (∀ k, b < k → k ≤ c + 2 → SendsBack (run s inp) inp k) →
        (∀ k, b < k → k ≤ c + 3 → (inp k).rst = true) →
        ∃ k, c < k ∧ k ≤ c + 4 ∧ (run s inp k).tool.rotState = false) ∧
      ∀ b, SendsBack (run s inp) inp b →
        (∀ k, b < k → k ≤ b + 2 → SendsFinished (run s inp) inp k) →
        (∀ k, b < k → k ≤ b + 3 → (inp k).rst = true) →
        Back (run s inp) inp (b + 3) ∨ Back (run s inp) inp (b + 4) :=
  ⟨fun h => ⟨finished_fresh_iff.mp h.finished, retracted_fresh_iff.mp h.retracted⟩,
    fun h => ⟨finished_fresh_iff.mpr h.1, retracted_fresh_iff.mpr h.2⟩⟩

/-- The magazine stands still in front, goes back, and then is turned. -/
def turnedBack (t : Nat) : ToolFeedbackInput where
  tool := ⟨true, if t = 6 then 0x8A else 0, true, t < 3, true, false⟩
  rst := true
  trigger := false
  outRange := false
  breakdown := true
  loosFin := true

theorem fresh_turnedBack_false : ¬ Fresh (run .powerUp turnedBack) turnedBack := by
  intro h
  obtain ⟨k, hk, hlate, hlow⟩ := h.finished 10 (by decide +kernel)
  have hearly : 7 ≤ k := by omega
  have hturns : ∀ k < 11, 7 ≤ k → (run .powerUp turnedBack k).tool.rotState = true := by
    decide +kernel
  rw [hturns k (by omega) hearly] at hlow
  cases hlow

end ToolFeedback

end CncCard
