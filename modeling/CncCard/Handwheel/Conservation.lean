import CncCard.Handwheel.Drain

/-!
Whether the hand wheel makes `c0 / 2` pulses for every period written. It does if and only if
every visit finds one word waiting, nothing is written while its `F1` is still reading, and
its period is not between 2 and `c0`: a second word that `F1` reads is lost for good, and a
visit with such a period does not come out of `F2` again.
-/

namespace CncCard
open Clocked

namespace HandWheel

section Run

variable (s : HandWheel) (inp : Nat → HandWheelInput)

/-- The pulses at the output. -/
def pulses (t : Nat) : Nat := edges (fun k => (run s inp k).puls.pulsOut) (fun _ => true) 0 (t + 1)

/-- Every word written has been read, and `c0` toggles and half as many pulses have been made
for each. -/
def Conserved (m : Nat) : Prop :=
  ∃ n, ∀ t, n ≤ t → popped s inp t = written s inp t ∧
    made s inp t = m * written s inp t ∧ 2 * pulses s inp t = m * written s inp t

variable {s inp} {m : Nat}

/-- The output follows `p` by a cycle. -/
theorem Session.pulses_succ (h : Session m s inp) (t : Nat) :
    2 * pulses s inp (t + 1) = made s inp t + (run s inp t).puls.p.toNat := by
  have hlow : (run s inp 0).puls.pulsOut = false := h.idle.pulsOut
  rw [pulses, two_mul_edges hlow, pulsOut_succ, Nat.add_right_cancel_iff, made, toggles,
    toggles, Finset.sum_range_succ']
  have hfirst : ((run s inp 0).puls.pulsOut ^^ (run s inp (0 + 1)).puls.pulsOut).toNat = 0 := by
    rw [hlow, pulsOut_succ, Bool.false_xor]
    exact congrArg Bool.toNat h.idle.p
  rw [hfirst, Nat.add_zero]
  simp only [pulsOut_succ]

/-- Without writes the machine stays at rest. -/
theorem Session.rest (h : Session m s inp) {n : Nat}
    (hstop : ∀ t, n ≤ t → (inp t).wrreq = none) (hstate : (run s inp n).puls.currStateF = .f0)
    (hwords : (run s inp n).queue.words = []) {t : Nat} (hnt : n ≤ t) :
    (run s inp t).puls.currStateF = .f0 ∧ (run s inp t).queue.words = [] := by
  induction t, hnt using Nat.le_induction with
  | base => exact ⟨hstate, hwords⟩
  | succ t hnt ih =>
      obtain ⟨hcurr, hempty⟩ := ih
      constructor
      · rw [currStateF_succ, PulsHw.nextStateF_f0]
        exact ⟨List.isEmpty_iff.mpr hempty, .inl hcurr⟩
      · rw [h.words_succ_none (hstop t hnt), hcurr, hempty]
        rfl

/-- What has come to rest without a loss has made all its toggles. -/
theorem Session.conserved_of_served (h : Session m s inp)
    (hserved : ∀ t, Served (run s inp t) (inp t)) {n : Nat}
    (hstop : ∀ t, n ≤ t → (inp t).wrreq = none) : Conserved s inp m := by
  obtain ⟨k, hnk, hstate, hwords⟩ := h.drained hserved hstop
  have hrest {t : Nat} (hkt : k ≤ t) :=
    h.rest (fun u hu => hstop u (Nat.le_trans hnk hu)) hstate hwords hkt
  have hmade {t : Nat} (hkt : k ≤ t) :
      popped s inp t = written s inp t ∧ made s inp t = m * written s inp t := by
    obtain ⟨hcurr, hempty⟩ := hrest hkt
    have hledger := h.ledger t
    have hlength := popped_add_length s inp t
    rw [hempty, h.idle.queue, List.length_nil, Nat.add_zero, Nat.zero_add] at hlength
    simp only [owed, hcurr, h.lost_eq_zero hserved, Nat.mul_zero, Nat.add_zero] at hledger
    exact ⟨hlength, hlength ▸ hledger⟩
  have hwritten {t : Nat} (hkt : k ≤ t) : written s inp (t + 1) = written s inp t := by
    rw [written, Finset.sum_range_succ, hstop t (Nat.le_trans hnk hkt), Fifo.accepted_none]
    rfl
  refine ⟨k + 1, fun t hkt => ?_⟩
  obtain ⟨t, rfl⟩ : ∃ u, t = u + 1 := ⟨t - 1, by omega⟩
  have hk : k ≤ t := Nat.le_of_succ_le_succ hkt
  obtain ⟨hread, hall⟩ := hmade (Nat.le_succ_of_le hk)
  refine ⟨hread, hall, ?_⟩
  have hphase := (h.inv t).phase
  simp only [PulsHw.Phase, (hrest hk).1] at hphase
  rw [h.pulses_succ, hphase.2.2.1, (hmade hk).2, hwritten hk]
  rfl

theorem lost_mono {t u : Nat} (htu : t ≤ u) : lost s inp t ≤ lost s inp u := by
  induction u, htu using Nat.le_induction with
  | base => exact Nat.le_refl _
  | succ u _ ih =>
      rw [lost, lost, Finset.sum_range_succ]
      exact Nat.le_add_right_of_le ih

/-- Where everything is accounted for, nothing has been lost and nothing is owed. -/
theorem Session.balanced (h : Session m s inp) (hall : Conserved s inp m) :
    (∀ t, lost s inp t = 0) ∧ ∃ n, ∀ t, n ≤ t → owed s inp m t = 0 := by
  obtain ⟨n, hn⟩ := hall
  have hzero {t : Nat} (hnt : n ≤ t) : owed s inp m t = 0 ∧ m * lost s inp t = 0 := by
    obtain ⟨hread, hmade, -⟩ := hn t hnt
    have hledger := h.ledger t
    rw [hread, hmade] at hledger
    omega
  refine ⟨fun t => ?_, n, fun t hnt => (hzero hnt).1⟩
  have hlost := (Nat.mul_eq_zero.mp (hzero (Nat.le_max_left n t)).2).resolve_left
    (Nat.ne_of_gt h.pos)
  exact Nat.eq_zero_of_le_zero (hlost ▸ lost_mono (Nat.le_max_right n t))

/-- A further cycle of `F1` that loses nothing finds the queue empty. -/
theorem Session.words_again (h : Session m s inp) (hlost : ∀ t, lost s inp t = 0) {t : Nat}
    (hagain : again s inp (t + 1) = true) : (run s inp (t + 1)).queue.words = [] := by
  have hnone := hlost (t + 2)
  rw [lost, Finset.sum_range_succ, Nat.add_eq_zero_iff, if_pos hagain, h.rdreq,
    ((again_succ t).mp hagain).2] at hnone
  cases hwords : (run s inp (t + 1)).queue.words with
  | nil => rfl
  | cons e es => simp [Fifo.taken, hwords] at hnone

/-- A visit whose period is at least 2 and at most `m` does not come to its second toggle. -/
structure Stuck (m : Nat) (s : PulsHw) : Prop where
  period : 2 ≤ s.qIn ∧ s.qIn ≤ m
  same : s.qOut = s.qIn
  toggled : s.c1 ≤ 1
  state : (s.currStateF = .f2 ∧ s.c1 = 0 ∧ s.fTimer = true) ∨ (s.currStateF = .f3 ∧ s.sum = 0) ∨
    (s.currStateF = .f2 ∧ s.fTimer = false ∧ (s.sum = 0 ∨ s.sum = m))

/-- From 0 the accumulator steps over both halves of such a period, and from there back. -/
theorem count_stuck {s : PulsHw} {i : PulsInput} (hm : IsMultiplier m) (hc0 : s.c0 = m)
    (hnext : s.nextStateF i.empty = .f2) (hout : 2 ≤ s.qOut ∧ s.qOut ≤ m)
    (hsum : s.sum = 0 ∨ s.sum = m) :
    (s.clock i).fTimer = false ∧ ((s.clock i).sum = 0 ∨ (s.clock i).sum = m) := by
  simp only [PulsHw.clock, hnext, PulsHw.drive, hc0, ge_iff_le]
  obtain hsum | hsum := hsum
  · rw [hsum, if_neg (by omega), if_neg (by omega), if_neg (by omega),
      hm.sum_add (Nat.zero_le _), Nat.zero_add]
    exact ⟨rfl, .inr rfl⟩
  · rw [hsum, if_pos hout.2, if_pos hout.2]
    exact ⟨rfl, .inl rfl⟩

theorem Stuck.clock {s : PulsHw} (h : Stuck m s) (hm : IsMultiplier m) (hc0 : s.c0 = m)
    (i : PulsInput) : Stuck m (s.clock i) := by
  have hout : 2 ≤ s.qOut ∧ s.qOut ≤ m := h.same ▸ h.period
  have hcount (hnext : s.nextStateF i.empty = .f2) (hsum : s.sum = 0 ∨ s.sum = m) :
      Stuck m (s.clock i) := by
    obtain ⟨htimer, hsum'⟩ := count_stuck hm hc0 hnext hout hsum
    have hstate : (s.clock i).currStateF = .f2 := hnext
    refine ⟨?_, ?_, ?_, .inr (.inr ⟨hstate, htimer, hsum'⟩)⟩
    · simpa only [PulsHw.clock, hnext, PulsHw.drive] using h.period
    · simp only [PulsHw.clock, hnext, PulsHw.drive]
    · simpa only [PulsHw.clock, hnext, PulsHw.drive] using h.toggled
  obtain ⟨hcurr, hc1, htimer⟩ | ⟨hcurr, hsum⟩ | ⟨hcurr, htimer, hsum⟩ := h.state
  · have hnext : s.nextStateF i.empty = .f3 := PulsHw.nextStateF_f3.mpr ⟨hcurr, htimer⟩
    refine ⟨?_, ?_, ?_, .inr (.inl ⟨hnext, ?_⟩)⟩
    · simpa only [PulsHw.clock, hnext, PulsHw.drive] using h.period
    · simpa only [PulsHw.clock, hnext, PulsHw.drive] using h.same
    · simp only [PulsHw.clock, hnext, PulsHw.drive, hc1]
      decide
    · simp only [PulsHw.clock, hnext, PulsHw.drive]
  · have hmore : s.c1 ≠ s.c0 := by
      have htoggled := h.toggled
      omega
    exact hcount (PulsHw.nextStateF_f2.mpr (.inr (.inr ⟨hcurr, hmore⟩))) (.inl hsum)
  · exact hcount (PulsHw.nextStateF_f2.mpr (.inr (.inl ⟨hcurr, htimer⟩))) hsum

/-- The first count of a visit runs with the period of the visit before. -/
theorem Session.stuck_of_period (h : Session m s inp) {t : Nat}
    (hcurr : (run s inp t).puls.currStateF = .f1) (hsign : (run s inp t).puls.qSign = true)
    (hperiod : 2 ≤ (run s inp t).puls.qIn ∧ (run s inp t).puls.qIn ≤ m) {u : Nat}
    (htu : t < u) : Stuck m (run s inp u).puls := by
  induction u, htu using Nat.le_induction with
  | base =>
      have hnext : (run s inp t).puls.nextStateF (run s inp t).queue.isEmpty = .f2 :=
        PulsHw.nextStateF_f2.mpr (.inl ⟨hcurr, hsign⟩)
      have hphase := (h.inv t).phase
      simp only [PulsHw.Phase, hcurr] at hphase
      obtain ⟨-, hc1, -, hsum, -⟩ := hphase
      have hadded : (run s inp (t + 1)).puls.sum = 0 ∨ (run s inp (t + 1)).puls.sum = m := by
        have hadd := h.isMultiplier.sum_add (Nat.zero_le _)
        rw [Nat.zero_add] at hadd
        simp only [puls_succ, PulsHw.clock, hnext, PulsHw.drive, hsum, h.selected, hadd,
          Nat.zero_add]
        exact ite_eq_or_eq _ _ _
      have hzero : (run s inp (t + 1)).puls.c1 = 0 := by
        simp only [puls_succ, PulsHw.clock, hnext, PulsHw.drive, hc1]
      refine ⟨?_, ?_, hzero.le.trans (Nat.zero_le 1), ?_⟩
      · simpa only [puls_succ, PulsHw.clock, hnext, PulsHw.drive] using hperiod
      · simp only [puls_succ, PulsHw.clock, hnext, PulsHw.drive]
      · cases htimer : (run s inp (t + 1)).puls.fTimer with
        | true => exact .inl ⟨hnext, hzero, rfl⟩
        | false => exact .inr (.inr ⟨hnext, rfl, hadded⟩)
  | succ u _ ih => exact ih.clock h.isMultiplier (h.selected u) _

/-- A visit that is stuck owes toggles for ever. -/
theorem owed_of_stuck {t : Nat} (h : Stuck m (run s inp t).puls) : owed s inp m t ≠ 0 := by
  have hperiod := h.period
  have htoggled := h.toggled
  have hstate : (run s inp t).puls.currStateF = .f2 ∨ (run s inp t).puls.currStateF = .f3 := by
    obtain hstate | hstate | hstate := h.state
    · exact .inl hstate.1
    · exact .inr hstate.1
    · exact .inl hstate.1
  obtain hstate | hstate := hstate <;> simp only [owed, hstate] <;> omega

/-- A cycle of `F1` that is followed by another has one word to read at most, and none that
is written beside it. -/
theorem Session.read_one (h : Session m s inp) (hlost : ∀ t, lost s inp t = 0) {t : Nat}
    (hcurr : (run s inp t).puls.currStateF = .f1) (hsign : (run s inp t).puls.qSign = false) :
    (run s inp t).queue.words.length ≤ 1 ∧ (inp t).wrreq = none := by
  have hnext : (run s inp (t + 1)).puls.currStateF = .f1 :=
    PulsHw.nextStateF_f1.mpr (.inl ⟨hcurr, hsign⟩)
  have hwords := h.words_again hlost ((again_succ t).mpr ⟨hcurr, hnext⟩)
  rw [words_succ, h.rdreq, hcurr, List.append_eq_nil_iff] at hwords
  obtain ⟨hread, hwritten⟩ := hwords
  have hone : (run s inp t).queue.words.length ≤ 1 := List.drop_eq_nil_iff.mp hread
  rw [Fifo.accepted_of_lt (by omega), Option.toList_eq_nil_iff] at hwritten
  exact ⟨hone, hwritten⟩

/-- Every visit of a run that accounts for everything is served. -/
theorem Session.served_of_conserved (h : Session m s inp) (hall : Conserved s inp m) (t : Nat) :
    Served (run s inp t) (inp t) := by
  obtain ⟨hlost, n, howed⟩ := h.balanced hall
  refine ⟨fun hcurr hwords => ?_, fun hcurr hsign => (h.read_one hlost hcurr hsign).2,
    fun hcurr hsign hperiod => ?_⟩
  · have hnext : (run s inp (t + 1)).puls.currStateF = .f1 :=
      PulsHw.nextStateF_f1.mpr (.inr ⟨Fifo.isEmpty_eq_false.mpr hwords, .inl hcurr⟩)
    have hphase := (h.inv t).phase
    simp only [PulsHw.Phase, hcurr] at hphase
    have hsign : (run s inp (t + 1)).puls.qSign = false :=
      decide_eq_false (not_not.mpr hphase.2.2.2)
    have hone := (h.read_one hlost hnext hsign).1
    rw [words_succ, h.rdreq, hcurr, List.length_append] at hone
    simp only [reduceCtorEq, decide_false, Bool.false_eq_true, if_false] at hone
    have hpos := List.length_pos_of_ne_nil hwords
    have hnone : (run s inp t).queue.accepted (inp t).wrreq = [] :=
      List.eq_nil_of_length_eq_zero (by omega)
    rw [Fifo.accepted_of_lt (by omega), Option.toList_eq_nil_iff] at hnone
    exact ⟨by omega, hnone⟩
  · rw [h.selected] at hperiod
    have hstuck : Stuck m (run s inp (max t n + 1)).puls :=
      h.stuck_of_period hcurr hsign hperiod (Nat.lt_succ_of_le (Nat.le_max_left t n))
    exact owed_of_stuck hstuck (howed _ (Nat.le_succ_of_le (Nat.le_max_right t n)))

/-- The hand wheel makes its pulses for every period written if and only if every visit is
served. -/
theorem conserved_iff_served (h : Session m s inp) {n : Nat}
    (hstop : ∀ t, n ≤ t → (inp t).wrreq = none) :
    Conserved s inp m ↔ ∀ t, Served (run s inp t) (inp t) :=
  ⟨h.served_of_conserved, fun hserved => h.conserved_of_served hserved hstop⟩

end Run

section Held

variable {s : HandWheel} {inp : Nat → HandWheelInput}

/-- Switches that stay as they have been debounced leave the selection alone. -/
theorem run_held (hc0 : s.puls.c0 = s.puls.multiplier)
    (hx1 : ∀ t, (inp t).iX1 = !s.puls.x1.flag) (hx10 : ∀ t, (inp t).iX10 = !s.puls.x10.flag)
    (hx100 : ∀ t, (inp t).iX100 = !s.puls.x100.flag) (t : Nat) :
    (run s inp t).puls.c0 = s.puls.c0 ∧ (run s inp t).puls.x1.flag = s.puls.x1.flag ∧
      (run s inp t).puls.x10.flag = s.puls.x10.flag ∧
      (run s inp t).puls.x100.flag = s.puls.x100.flag := by
  induction t with
  | zero => exact ⟨rfl, rfl, rfl, rfl⟩
  | succ t ih =>
      obtain ⟨-, h1, h10, h100⟩ := ih
      rw [puls_succ, PulsHw.clock, hx1, hx10, hx100, ← h1, ← h10, ← h100]
      simp only [Bool.not_not, Debouncer.clock_flag_self]
      refine ⟨?_, trivial, trivial, trivial⟩
      rw [hc0, PulsHw.multiplier, PulsHw.multiplier, h1, h10, h100]

theorem session_held (hidle : Idle s) (hc0 : s.puls.c0 = s.puls.multiplier)
    (hpos : 0 < s.puls.c0) (hx1 : ∀ t, (inp t).iX1 = !s.puls.x1.flag)
    (hx10 : ∀ t, (inp t).iX10 = !s.puls.x10.flag)
    (hx100 : ∀ t, (inp t).iX100 = !s.puls.x100.flag)
    (hentries : ∀ t e, (inp t).wrreq = some e → s.puls.c0 ≤ e.toNat) :
    Session s.puls.c0 s inp :=
  ⟨hidle, hpos, fun t => (run_held hc0 hx1 hx10 hx100 t).1, hentries⟩

end Held

/-- Behind the reset, with the switch `X1` debounced. -/
def resetX1 : HandWheel where
  puls := ⟨.f0, false, 2, 0, 0, false, 0, 0, false, ⟨0, true⟩, .powerUp, .powerUp, false, false⟩
  queue := ⟨.empty, 0⟩

/-- The words are written in successive cycles, with `X1` held. -/
def writesX1 (words : List (BitVec 22)) (t : Nat) : HandWheelInput := ⟨words[t]?, false, true, true⟩

theorem session_writesX1 {words : List (BitVec 22)} (h : ∀ e ∈ words, 2 ≤ e.toNat) :
    Session 2 resetX1 (writesX1 words) :=
  session_held (s := resetX1) ⟨rfl, rfl, rfl, rfl, rfl, rfl, rfl, rfl⟩ rfl Nat.two_pos
    (fun _ => rfl) (fun _ => rfl) (fun _ => rfl) fun _ e he => h e (List.mem_of_getElem? he)

instance (s : HandWheel) (i : HandWheelInput) : Decidable (Served s i) :=
  decidable_of_iff
    ((s.puls.currStateF = .f0 → s.queue.words ≠ [] →
        s.queue.words.length = 1 ∧ i.wrreq = none) ∧
      (s.puls.currStateF = .f1 → s.puls.qSign = false → i.wrreq = none) ∧
      (s.puls.currStateF = .f1 → s.puls.qSign = true →
        ¬ (2 ≤ s.puls.qIn ∧ s.puls.qIn ≤ s.puls.c0)))
    ⟨fun h => ⟨h.1, h.2.1, h.2.2⟩, fun h => ⟨h.entry, h.reading, h.period⟩⟩

/-- A word in the first cycle, and another one behind the visit of the first. -/
def spacedX1 (t : Nat) : HandWheelInput :=
  ⟨if t = 0 then some 6 else if t = 20 then some 9 else none, false, true, true⟩

theorem session_spacedX1 : Session 2 resetX1 spacedX1 := by
  refine session_held (s := resetX1) ⟨rfl, rfl, rfl, rfl, rfl, rfl, rfl, rfl⟩ rfl Nat.two_pos
    (fun _ => rfl) (fun _ => rfl) (fun _ => rfl) fun t e he => ?_
  simp only [spacedX1] at he
  split at he
  · cases he
    decide
  · split at he
    · cases he
      decide
    · cases he

theorem conserved_iff_served_spaced : Conserved resetX1 spacedX1 2 := by
  have hstop (t : Nat) (ht : 21 ≤ t) : (spacedX1 t).wrreq = none := by
    simp only [spacedX1]
    rw [if_neg (by omega), if_neg (by omega)]
  refine (conserved_iff_served session_spacedX1 hstop).mpr fun t => ?_
  cases Nat.lt_or_ge t 40 with
  | inl hlt =>
      have hfirst : ∀ t, t < 40 → Served (run resetX1 spacedX1 t) (spacedX1 t) := by
        decide +kernel
      exact hfirst t hlt
  | inr hle =>
      obtain ⟨hstate, hwords⟩ := session_spacedX1.rest (n := 40) (fun t ht => hstop t (by omega))
        (by decide +kernel) (by decide +kernel) hle
      have hout : (run resetX1 spacedX1 t).puls.currStateF ≠ .f1 := by
        rw [hstate]
        decide
      exact ⟨fun _ hne => absurd hwords hne, fun hcurr => absurd hcurr hout,
        fun hcurr => absurd hcurr hout⟩

/-- Two words in successive cycles: the second is in the queue before the first is read. -/
theorem conserved_two_false : ¬ Conserved resetX1 (writesX1 [6, 6]) 2 := by
  intro hall
  have hsession : Session 2 resetX1 (writesX1 [6, 6]) := session_writesX1 (by simp)
  exact absurd (hsession.served_of_conserved hall 1) (by decide)

end HandWheel

end CncCard
