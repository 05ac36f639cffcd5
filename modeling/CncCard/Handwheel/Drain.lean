import CncCard.Handwheel.Ledger

/-!
Runs in which every visit reads one word and its count in `F2` comes to an end. Nothing is
lost in them, and once nothing more is written the machine makes all its toggles and returns
to `F0` with the queue empty.
-/

namespace CncCard
open Clocked

namespace HandWheel

/-- What a cycle has to keep to so that every visit reads one word and ends: `F0` is left with
one word in the queue and none on its way, none comes while `F1` waits for `q_sign`, and the
accumulator does not step over both halves of the period. -/
structure Served (s : HandWheel) (i : HandWheelInput) : Prop where
  entry : s.puls.currStateF = .f0 → s.queue.words ≠ [] →
    s.queue.words.length = 1 ∧ i.wrreq = none
  reading : s.puls.currStateF = .f1 → s.puls.qSign = false → i.wrreq = none
  period : s.puls.currStateF = .f1 → s.puls.qSign = true →
    ¬ (2 ≤ s.puls.qIn ∧ s.puls.qIn ≤ s.puls.c0)

section Run

variable {s : HandWheel} {inp : Nat → HandWheelInput} {m : Nat}

theorem Session.words_succ_none (h : Session m s inp) {t : Nat} (hnone : (inp t).wrreq = none) :
    (run s inp (t + 1)).queue.words =
      if (run s inp t).puls.currStateF = .f1 then (run s inp t).queue.words.drop 1
      else (run s inp t).queue.words := by
  rw [words_succ, hnone, Fifo.accepted_none, List.append_nil, h.rdreq]
  simp only [decide_eq_true_eq]

/-- In `F1` there is one word until it has been read, and none from then on. -/
theorem Session.words_f1 (h : Session m s inp)
    (hserved : ∀ t, Served (run s inp t) (inp t)) (t : Nat)
    (hcurr : (run s inp t).puls.currStateF = .f1) :
    (again s inp t = true → (run s inp t).queue.words = []) ∧
      (again s inp t = false → (run s inp t).puls.qSign = false →
        (run s inp t).queue.words.length = 1) := by
  induction t with
  | zero => rw [run, trace_zero, h.idle.state] at hcurr; cases hcurr
  | succ t ih =>
      have hfrom := hcurr
      rw [currStateF_succ, PulsHw.nextStateF_f1] at hfrom
      obtain ⟨hstay, hsign⟩ | ⟨hwaiting, hidle | ⟨hend, -⟩⟩ := hfrom
      · have hnone := (hserved t).reading hstay hsign
        have hagain := (again_succ t).mpr ⟨hstay, hcurr⟩
        refine ⟨fun _ => ?_, fun hfirst => by rw [hagain] at hfirst; cases hfirst⟩
        rw [h.words_succ_none hnone, if_pos hstay]
        cases hbefore : again s inp t with
        | true => rw [(ih hstay).1 hbefore]; rfl
        | false => exact List.drop_eq_nil_of_le (Nat.le_of_eq ((ih hstay).2 hbefore hsign))
      · obtain ⟨hone, hnone⟩ := (hserved t).entry hidle (Fifo.isEmpty_eq_false.mp hwaiting)
        refine ⟨fun hagain => ?_, fun _ _ => ?_⟩
        · rw [again_succ, hidle] at hagain
          cases hagain.1
        · rw [h.words_succ_none hnone, hidle]
          exact hone
      · have hphase := (h.inv t).phase
        simp only [PulsHw.Phase, hend] at hphase
        refine ⟨fun hagain => ?_, fun _ hsign => ?_⟩
        · rw [again_succ, hend] at hagain
          cases hagain.1
        · rw [qSign_succ, decide_eq_false_iff_not] at hsign
          exact absurd hphase.2.2.2.2.1 hsign

theorem Session.lost_eq_zero (h : Session m s inp)
    (hserved : ∀ t, Served (run s inp t) (inp t)) (t : Nat) : lost s inp t = 0 := by
  refine Finset.sum_eq_zero fun k _ => ?_
  cases hagain : again s inp k with
  | false => rfl
  | true =>
      have hcurr : (run s inp k).puls.currStateF = .f1 := by
        cases k with
        | zero => cases hagain
        | succ k => exact ((again_succ k).mp hagain).2
      have hwords := (h.words_f1 hserved k hcurr).1 hagain
      simp [Fifo.taken, hwords]

/-- The period stays over a visit. -/
theorem qIn_succ {t : Nat} (hnext : (run s inp (t + 1)).puls.currStateF = .f2 ∨
    (run s inp (t + 1)).puls.currStateF = .f3) :
    (run s inp (t + 1)).puls.qIn = (run s inp t).puls.qIn := by
  rw [currStateF_succ] at hnext
  rw [puls_succ, PulsHw.clock]
  obtain hnext | hnext := hnext <;> simp only [hnext, PulsHw.drive]

/-- The period of a visit is one that the count in `F2` comes to the half of. -/
theorem Session.period (h : Session m s inp) (hserved : ∀ t, Served (run s inp t) (inp t))
    (t : Nat) (hcurr : (run s inp t).puls.currStateF = .f2 ∨
      (run s inp t).puls.currStateF = .f3) :
    (run s inp t).puls.qIn = 1 ∨ m < (run s inp t).puls.qIn := by
  induction t with
  | zero =>
      rw [run, trace_zero, h.idle.state] at hcurr
      obtain hcurr | hcurr := hcurr <;> cases hcurr
  | succ t ih =>
      rw [qIn_succ hcurr]
      rw [currStateF_succ, PulsHw.nextStateF_f2, PulsHw.nextStateF_f3] at hcurr
      have hphase := (h.inv t).phase
      obtain (⟨hread, hsign⟩ | ⟨hcount, -⟩ | ⟨htoggled, -⟩) | ⟨hcount, -⟩ := hcurr
      · have hgood := (hserved t).period hread hsign
        rw [h.selected] at hgood
        simp only [PulsHw.Phase, hread] at hphase
        have hin := hphase.2.2.2.2 hsign
        omega
      · exact ih (.inl hcount)
      · exact ih (.inr htoggled)
      · exact ih (.inl hcount)

/-- From the second cycle of `F1` on the queue shows a word it has been given. -/
theorem Session.le_q_of_again (h : Session m s inp) (t : Nat) (hagain : again s inp t = true) :
    m ≤ (run s inp t).queue.q.toNat := by
  induction t with
  | zero => cases hagain
  | succ t ih =>
      have hcurr := ((again_succ t).mp hagain).1
      have hq : (run s inp (t + 1)).queue.q =
          (run s inp t).queue.words.headD (run s inp t).queue.q := by
        rw [run_succ, step, RegFifo.clock, h.rdreq, hcurr]
        rfl
      rw [hq]
      cases hwords : (run s inp t).queue.words with
      | cons e es => exact (h.inv t).words e (by simp [hwords])
      | nil =>
          cases hbefore : again s inp t with
          | true => exact ih hbefore
          | false =>
              have hone := h.taken_first hcurr hbefore
              rw [h.rdreq, hcurr, Fifo.taken, hwords] at hone
              cases hone

/-- The cycles until `q_sign` is up. -/
def wait (m : Nat) (s : HandWheel) : Nat :=
  if s.puls.qSign then 0 else if s.puls.qIn ≠ 0 then 1 else if m ≤ s.queue.q.toNat then 2 else 3

/-- The additions until the timer runs out. -/
def count (s : HandWheel) : Nat :=
  if s.puls.fTimer then 0 else if s.puls.qOut ≤ s.puls.sum then s.puls.qOut + 1
  else s.puls.qOut - s.puls.sum

/-- How far the machine is from having made its toggles: the visits to come, the state within
a visit, and the cycles within that state. -/
def rank (m : Nat) (s : HandWheel) : Nat × Nat × Nat :=
  match s.puls.currStateF with
  | .f0 => (s.queue.words.length, 2 * m + 2, 0)
  | .f1 => (max 1 s.queue.words.length, 2 * m + 1, wait m s)
  | .f2 => (s.queue.words.length + 1, 2 * (m - s.puls.c1), count s)
  | .f3 => (s.queue.words.length + 1, 2 * (m - s.puls.c1) + 1, 0)

theorem Session.wait_lower (h : Session m s inp) {t : Nat}
    (hcurr : (run s inp t).puls.currStateF = .f1) (hsign : (run s inp t).puls.qSign = false) :
    wait m (run s inp (t + 1)) < wait m (run s inp t) := by
  have hnext : (run s inp t).puls.nextStateF (run s inp t).queue.isEmpty = .f1 :=
    PulsHw.nextStateF_f1.mpr (.inl ⟨hcurr, hsign⟩)
  have hin : (run s inp (t + 1)).puls.qIn = (run s inp t).queue.q.toNat / m := by
    rw [puls_succ, PulsHw.clock, hnext, ← h.selected t]
    rfl
  have hpos := h.pos
  by_cases hout : (run s inp t).puls.qIn ≠ 0
  · have hup : (run s inp (t + 1)).puls.qSign = true := decide_eq_true hout
    simp [wait, hup, hsign, hout]
  · have hdown : (run s inp (t + 1)).puls.qSign = false := decide_eq_false hout
    by_cases hq : m ≤ (run s inp t).queue.q.toNat
    · have hquot : (run s inp t).queue.q.toNat / m ≠ 0 :=
        Nat.pos_iff_ne_zero.mp (Nat.div_pos hq hpos)
      simp only [wait, hdown, hsign, hin, hquot, hout, hq, Bool.false_eq_true, if_false, if_true,
        ne_eq, not_false_eq_true]
      decide
    · have hshown := h.le_q_of_again (t + 1) ((again_succ t).mpr ⟨hcurr, hnext⟩)
      have hbefore : wait m (run s inp t) = 3 := by
        simp only [wait, hsign, hout, hq, Bool.false_eq_true, if_false]
      rw [hbefore, wait, hdown, if_pos hshown]
      simp only [Bool.false_eq_true, if_false]
      split <;> decide

/-- Short of its half the accumulator does not step over the period, unless this is as
small as the step. -/
theorem add_lt_of_below_half {sum period : Nat} (hperiod : period = 1 ∨ m < period)
    (hdvd : m ∣ sum) (hhalf : ¬ period / 2 ≤ sum) : sum + m < period := by
  obtain ⟨k, rfl⟩ := hdvd
  cases k with
  | zero => omega
  | succ k =>
      have hstep : m ≤ m * (k + 1) := Nat.le_mul_of_pos_right m (Nat.succ_pos k)
      omega

theorem Session.count_lower (h : Session m s inp) {t : Nat}
    (hcurr : (run s inp t).puls.currStateF = .f2) (htimer : (run s inp t).puls.fTimer = false)
    (hperiod : (run s inp t).puls.qIn = 1 ∨ m < (run s inp t).puls.qIn) :
    count (run s inp (t + 1)) < count (run s inp t) := by
  have hnext : (run s inp t).puls.nextStateF (run s inp t).queue.isEmpty = .f2 :=
    PulsHw.nextStateF_f2.mpr (.inr (.inl ⟨hcurr, htimer⟩))
  have hphase := (h.inv t).phase
  have hbound := (h.inv t).bound.2
  simp only [PulsHw.Phase, hcurr] at hphase
  obtain ⟨-, -, -, hdvd, hin, heq⟩ := hphase
  rw [← heq] at hperiod hin
  have hqOut : (run s inp (t + 1)).puls.qOut = (run s inp t).puls.qOut := by
    simp only [puls_succ, PulsHw.clock, hnext, PulsHw.drive, heq]
  have hregs : (run s inp (t + 1)).puls.fTimer =
        (if (run s inp t).puls.qOut ≤ (run s inp t).puls.sum then false
        else if (run s inp t).puls.qOut / 2 ≤ (run s inp t).puls.sum ∧
          (run s inp t).puls.sum < (run s inp t).puls.qOut then true else false) ∧
      (run s inp (t + 1)).puls.sum =
        if (run s inp t).puls.qOut ≤ (run s inp t).puls.sum then 0
        else ((run s inp t).puls.sum + m) % 2 ^ 22 := by
    rw [puls_succ, PulsHw.clock, hnext, ← h.selected t]
    exact ⟨rfl, rfl⟩
  obtain ⟨htimer', hsum'⟩ := hregs
  rw [count, count, hqOut, htimer, if_neg Bool.false_ne_true]
  by_cases hover : (run s inp t).puls.qOut ≤ (run s inp t).puls.sum
  · rw [if_pos hover] at htimer' hsum' ⊢
    rw [htimer', hsum', if_neg Bool.false_ne_true, if_neg (by omega)]
    omega
  · rw [if_neg hover] at htimer' hsum' ⊢
    by_cases hhalf : (run s inp t).puls.qOut / 2 ≤ (run s inp t).puls.sum
    · rw [if_pos ⟨hhalf, Nat.lt_of_not_le hover⟩] at htimer'
      rw [htimer', if_pos rfl]
      omega
    · have hroom := add_lt_of_below_half hperiod hdvd hhalf
      have hpos := h.pos
      rw [if_neg fun hboth => hhalf hboth.1] at htimer'
      rw [h.isMultiplier.sum_add (by omega)] at hsum'
      rw [htimer', hsum', if_neg Bool.false_ne_true, if_neg (by omega)]
      omega

/-- The order of ranks. -/
def Lower : Nat × Nat × Nat → Nat × Nat × Nat → Prop :=
  Prod.Lex (· < ·) (Prod.Lex (· < ·) (· < ·))

theorem lower_iff (x y : Nat × Nat × Nat) : Lower x y ↔
    x.1 < y.1 ∨ x.1 = y.1 ∧ (x.2.1 < y.2.1 ∨ x.2.1 = y.2.1 ∧ x.2.2 < y.2.2) := by
  rw [Lower, Prod.lex_def, Prod.lex_def]

theorem lower_wf : WellFounded Lower :=
  WellFounded.prod_lex wellFounded_lt (WellFounded.prod_lex wellFounded_lt wellFounded_lt)

theorem Session.lower_f0 (h : Session m s inp) {t : Nat} (hnone : (inp t).wrreq = none)
    (hcurr : (run s inp t).puls.currStateF = .f0) (hwords : (run s inp t).queue.words ≠ []) :
    Lower (rank m (run s inp (t + 1))) (rank m (run s inp t)) := by
  have hnext : (run s inp (t + 1)).puls.currStateF = .f1 := by
    rw [currStateF_succ, PulsHw.nextStateF_f1]
    exact .inr ⟨Fifo.isEmpty_eq_false.mpr hwords, .inl hcurr⟩
  have hsame := h.words_succ_none hnone
  rw [hcurr, if_neg (by decide)] at hsame
  have hlen := List.length_pos_of_ne_nil hwords
  rw [lower_iff]
  simp only [rank, hcurr, hnext, hsame]
  omega

theorem Session.lower_f1 (h : Session m s inp) (hserved : ∀ t, Served (run s inp t) (inp t))
    {t : Nat} (hnone : (inp t).wrreq = none) (hcurr : (run s inp t).puls.currStateF = .f1) :
    Lower (rank m (run s inp (t + 1))) (rank m (run s inp t)) := by
  have hlen := congrArg List.length (h.words_succ_none hnone)
  rw [if_pos hcurr, List.length_drop] at hlen
  have hone := h.words_f1 hserved t hcurr
  rw [lower_iff]
  cases hsign : (run s inp t).puls.qSign with
  | true =>
      have hnext : (run s inp (t + 1)).puls.currStateF = .f2 :=
        PulsHw.nextStateF_f2.mpr (.inl ⟨hcurr, hsign⟩)
      simp only [rank, hcurr, hnext]
      omega
  | false =>
      have hnext : (run s inp (t + 1)).puls.currStateF = .f1 :=
        PulsHw.nextStateF_f1.mpr (.inl ⟨hcurr, hsign⟩)
      have hwait := h.wait_lower hcurr hsign
      have hvisits : max 1 (run s inp (t + 1)).queue.words.length =
          max 1 (run s inp t).queue.words.length := by
        cases hagain : again s inp t with
        | true => rw [hlen, hone.1 hagain]; rfl
        | false => rw [hlen, hone.2 hagain hsign]; rfl
      simp only [rank, hcurr, hnext]
      exact .inr ⟨hvisits, .inr ⟨trivial, hwait⟩⟩

theorem Session.lower_f2 (h : Session m s inp) (hserved : ∀ t, Served (run s inp t) (inp t))
    {t : Nat} (hnone : (inp t).wrreq = none) (hcurr : (run s inp t).puls.currStateF = .f2) :
    Lower (rank m (run s inp (t + 1))) (rank m (run s inp t)) := by
  have hsame := h.words_succ_none hnone
  rw [hcurr, if_neg (by decide)] at hsame
  have hperiod := h.period hserved t (.inl hcurr)
  have hregs := h.p_c1_succ t
  rw [lower_iff]
  cases htimer : (run s inp t).puls.fTimer with
  | true =>
      have hnext : (run s inp (t + 1)).puls.currStateF = .f3 :=
        PulsHw.nextStateF_f3.mpr ⟨hcurr, htimer⟩
      simp only [hnext] at hregs
      obtain ⟨-, hlt, hc1⟩ := hregs
      simp only [rank, hcurr, hnext, hsame]
      exact .inr ⟨trivial, .inl (by omega)⟩
  | false =>
      have hnext : (run s inp (t + 1)).puls.currStateF = .f2 :=
        PulsHw.nextStateF_f2.mpr (.inr (.inl ⟨hcurr, htimer⟩))
      simp only [hnext] at hregs
      obtain ⟨-, hc1⟩ := hregs
      simp only [rank, hcurr, hnext, hsame, hc1]
      exact .inr ⟨trivial, .inr ⟨trivial, h.count_lower hcurr htimer hperiod⟩⟩

theorem Session.lower_f3 (h : Session m s inp) {t : Nat} (hnone : (inp t).wrreq = none)
    (hcurr : (run s inp t).puls.currStateF = .f3) :
    Lower (rank m (run s inp (t + 1))) (rank m (run s inp t)) := by
  have hsame := h.words_succ_none hnone
  rw [hcurr, if_neg (by decide)] at hsame
  have hregs := h.p_c1_succ t
  have hfrom := currStateF_succ s inp t
  rw [lower_iff]
  cases hnext : (run s inp (t + 1)).puls.currStateF with
  | f0 =>
      simp only [rank, hcurr, hnext, hsame]
      omega
  | f1 =>
      rw [hnext, eq_comm, PulsHw.nextStateF_f1, hcurr] at hfrom
      have hwords : (run s inp t).queue.words ≠ [] :=
        Fifo.isEmpty_eq_false.mp (hfrom.resolve_left fun hstay => nomatch hstay.1).1
      have hlen := List.length_pos_of_ne_nil hwords
      simp only [rank, hcurr, hnext, hsame]
      omega
  | f2 =>
      simp only [hnext] at hregs
      obtain ⟨-, hc1⟩ := hregs
      simp only [rank, hcurr, hnext, hsame]
      exact .inr ⟨trivial, .inl (by omega)⟩
  | f3 =>
      rw [hnext, eq_comm, PulsHw.nextStateF_f3, hcurr] at hfrom
      cases hfrom.1

theorem Session.rank_lower (h : Session m s inp) (hserved : ∀ t, Served (run s inp t) (inp t))
    {t : Nat} (hnone : (inp t).wrreq = none)
    (hbusy : ¬ ((run s inp t).puls.currStateF = .f0 ∧ (run s inp t).queue.words = [])) :
    Lower (rank m (run s inp (t + 1))) (rank m (run s inp t)) := by
  cases hcurr : (run s inp t).puls.currStateF with
  | f0 => exact h.lower_f0 hnone hcurr fun hwords => hbusy ⟨hcurr, hwords⟩
  | f1 => exact h.lower_f1 hserved hnone hcurr
  | f2 => exact h.lower_f2 hserved hnone hcurr
  | f3 => exact h.lower_f3 hnone hcurr

/-- Once nothing more is written, the machine comes to rest with the queue empty. -/
theorem Session.drained (h : Session m s inp) (hserved : ∀ t, Served (run s inp t) (inp t))
    {n : Nat} (hstop : ∀ t, n ≤ t → (inp t).wrreq = none) :
    ∃ t, n ≤ t ∧ (run s inp t).puls.currStateF = .f0 ∧ (run s inp t).queue.words = [] :=
  exists_of_lower lower_wf (fun t => rank m (run s inp t))
    fun t ht => h.rank_lower hserved (hstop t ht)

end Run

end HandWheel

end CncCard
