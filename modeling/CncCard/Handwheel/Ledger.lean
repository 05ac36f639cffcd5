import CncCard.Handwheel.Visit

/-!
What becomes of the words of the queue. Each visit makes `c0` toggles for the first word that
its `F1` reads; the words read in further cycles of the same `F1` are lost. Together this
accounts for every word that has been taken out of the queue, in every run.
-/

namespace CncCard
open Clocked

namespace HandWheel

/-- The registers and the queue behind a reset, with whatever the switches have selected. -/
structure Idle (s : HandWheel) : Prop where
  state : s.puls.currStateF = .f0
  rdreq : s.puls.rdreq = false
  c1 : s.puls.c1 = 0
  p : s.puls.p = false
  qIn : s.puls.qIn = 0
  qOut : s.puls.qOut = 0
  pulsOut : s.puls.pulsOut = false
  queue : s.queue.words = []

/-- A run behind a reset in which one multiplier stays selected and every period written is
at least as large. -/
structure Session (m : Nat) (s : HandWheel) (inp : Nat → HandWheelInput) : Prop where
  idle : Idle s
  pos : 0 < m
  selected : ∀ t, (run s inp t).puls.c0 = m
  entries : ∀ t e, (inp t).wrreq = some e → m ≤ e.toNat

section Run

variable (s : HandWheel) (inp : Nat → HandWheelInput)

/-- The words that the queue has accepted. -/
def written (t : Nat) : Nat :=
  ∑ k ∈ Finset.range t, ((run s inp k).queue.accepted (inp k).wrreq).length

/-- The words that have been read from the queue. -/
def popped (t : Nat) : Nat :=
  ∑ k ∈ Finset.range t, ((run s inp k).queue.taken (run s inp k).puls.rdreq).length

/-- The cycle is a further one of a stay in `F1`. -/
def again : Nat → Bool
  | 0 => false
  | t + 1 => (run s inp t).puls.currStateF == .f1 && (run s inp (t + 1)).puls.currStateF == .f1

/-- The words that further cycles of `F1` have read. -/
def lost (t : Nat) : Nat :=
  ∑ k ∈ Finset.range t,
    if again s inp k then ((run s inp k).queue.taken (run s inp k).puls.rdreq).length else 0

/-- The toggles still to be made for the word that the visit has read. -/
def owed (m t : Nat) : Nat :=
  match (run s inp t).puls.currStateF with
  | .f0 => 0
  | .f1 => if again s inp t then m else 0
  | .f2 | .f3 => m - (run s inp t).puls.c1

def made (t : Nat) : Nat := toggles (fun k => (run s inp k).puls.p) t

theorem popped_add_length (t : Nat) : popped s inp t + (run s inp t).queue.words.length =
    s.queue.words.length + written s inp t := by
  induction t with
  | zero => simp [popped, written, run]
  | succ t ih =>
      have hstep := congrArg List.length ((run s inp t).queue.taken_append_clock
        (inp t).wrreq (run s inp t).puls.rdreq)
      simp only [List.length_append] at hstep
      rw [popped, written, Finset.sum_range_succ, Finset.sum_range_succ]
      simp only [popped, written] at ih
      have hnext : (run s inp (t + 1)).queue.words =
        ((run s inp t).queue.toFifo.clock (inp t).wrreq (run s inp t).puls.rdreq).words := rfl
      rw [hnext]
      omega

variable {s inp} {m : Nat}

theorem Session.isMultiplier (h : Session m s inp) : IsMultiplier m := by
  have hfirst : (run s inp 0).puls.multiplier = m := h.selected 1
  rw [← hfirst]
  exact PulsHw.isMultiplier_of_pos (hfirst ▸ h.pos)

theorem Session.inv (h : Session m s inp) (t : Nat) : Inv m (run s inp t) := by
  induction t with
  | zero =>
      refine ⟨?_, ?_, ?_, ?_⟩
      · intro e he
        rw [run, trace_zero, h.idle.queue] at he
        cases he
      · exact fun hin => absurd h.idle.qIn hin
      · simp [run, h.idle.qIn, h.idle.qOut]
      · simp only [run, trace_zero, PulsHw.Phase, h.idle.state]
        exact ⟨h.idle.rdreq, h.idle.c1, h.idle.p, h.idle.qIn⟩
  | succ t ih => exact ih.step h.isMultiplier (h.selected t) (h.entries t)

theorem Session.rdreq (h : Session m s inp) (t : Nat) :
    (run s inp t).puls.rdreq = decide ((run s inp t).puls.currStateF = .f1) := by
  have hphase := (h.inv t).phase
  cases hcurr : (run s inp t).puls.currStateF <;> simp only [PulsHw.Phase, hcurr] at hphase <;>
    exact hphase.1

theorem Session.taken_quiet (h : Session m s inp) {t : Nat}
    (hcurr : (run s inp t).puls.currStateF ≠ .f1) :
    (run s inp t).queue.taken (run s inp t).puls.rdreq = [] := by
  rw [h.rdreq, decide_eq_false hcurr]
  rfl

/-- `F1` is entered when a word is waiting. -/
theorem Session.words_of_fresh (h : Session m s inp) {t : Nat}
    (hnext : (run s inp (t + 1)).puls.currStateF = .f1)
    (hcurr : (run s inp t).puls.currStateF ≠ .f1) : (run s inp (t + 1)).queue.words ≠ [] := by
  have hwaiting : (run s inp t).queue.isEmpty = false := by
    rw [currStateF_succ, PulsHw.nextStateF_f1] at hnext
    exact (hnext.resolve_left fun hstay => hcurr hstay.1).1
  have hrdreq : (run s inp t).puls.rdreq = false := by
    rw [h.rdreq, decide_eq_false hcurr]
  rw [run_succ, step, hrdreq]
  exact Fifo.clock_words_ne_nil (Fifo.isEmpty_eq_false.mp hwaiting) _

/-- The level `p` is down at the end of a visit and outside of one. -/
theorem Session.p_low (h : Session m s inp) {t : Nat}
    (hnext : (run s inp (t + 1)).puls.currStateF = .f0 ∨
      (run s inp (t + 1)).puls.currStateF = .f1) : (run s inp t).puls.p = false := by
  have hphase := (h.inv t).phase
  rw [currStateF_succ, PulsHw.nextStateF_f0, PulsHw.nextStateF_f1, h.selected] at hnext
  have hcurr : (run s inp t).puls.currStateF = .f1 ∨ (run s inp t).puls.currStateF = .f0 ∨
      (run s inp t).puls.currStateF = .f3 ∧ (run s inp t).puls.c1 = m := by
    obtain hnext | ⟨hin, -⟩ | hnext := hnext
    · exact .inr hnext.2
    · exact .inl hin
    · exact .inr hnext.2
  obtain hcurr | hcurr | ⟨hcurr, hlast⟩ := hcurr <;>
    simp only [PulsHw.Phase, hcurr] at hphase
  · exact hphase.2.2.1
  · exact hphase.2.2.1
  · rw [hphase.2.2.1, hlast, h.isMultiplier.even]
    rfl

/-- What a step does to the toggles made and to those owed before a read is counted. -/
theorem Session.p_c1_succ (h : Session m s inp) (t : Nat) :
    match (run s inp (t + 1)).puls.currStateF with
    | .f0 | .f1 => (run s inp t).puls.p = false ∧ (run s inp (t + 1)).puls.p = false
    | .f2 =>
        (run s inp (t + 1)).puls.p = (run s inp t).puls.p ∧
          (run s inp (t + 1)).puls.c1 = (run s inp t).puls.c1
    | .f3 =>
        (run s inp (t + 1)).puls.p = !(run s inp t).puls.p ∧
          (run s inp t).puls.c1 < m ∧
          (run s inp (t + 1)).puls.c1 = (run s inp t).puls.c1 + 1 := by
  have hnext := currStateF_succ s inp t
  cases hcurr : (run s inp (t + 1)).puls.currStateF with
  | f0 =>
      refine ⟨h.p_low (.inl hcurr), ?_⟩
      rw [puls_succ, PulsHw.clock, ← hnext, hcurr]
      rfl
  | f1 =>
      refine ⟨h.p_low (.inr hcurr), ?_⟩
      rw [puls_succ, PulsHw.clock, ← hnext, hcurr]
      rfl
  | f2 =>
      rw [puls_succ, PulsHw.clock, ← hnext, hcurr]
      exact ⟨rfl, rfl⟩
  | f3 =>
      have hlt : (run s inp t).puls.c1 < m := by
        have hphase := (h.inv t).phase
        rw [currStateF_succ, PulsHw.nextStateF_f3] at hcurr
        simp only [PulsHw.Phase, hcurr.1] at hphase
        exact hphase.2.1
      rw [puls_succ, PulsHw.clock, ← hnext, hcurr]
      exact ⟨rfl, hlt, h.isMultiplier.c1_succ hlt⟩

theorem again_succ (t : Nat) : again s inp (t + 1) = true ↔
    (run s inp t).puls.currStateF = .f1 ∧ (run s inp (t + 1)).puls.currStateF = .f1 := by
  simp [again]

/-- The first cycle of `F1` reads a word. -/
theorem Session.taken_first (h : Session m s inp) {t : Nat}
    (hcurr : (run s inp t).puls.currStateF = .f1) (hfirst : again s inp t = false) :
    ((run s inp t).queue.taken (run s inp t).puls.rdreq).length = 1 := by
  cases t with
  | zero => rw [run, trace_zero, h.idle.state] at hcurr; cases hcurr
  | succ t =>
      have hbefore : (run s inp t).puls.currStateF ≠ .f1 := by
        intro hstay
        rw [(again_succ t).mpr ⟨hstay, hcurr⟩] at hfirst
        cases hfirst
      have hwords := h.words_of_fresh hcurr hbefore
      rw [h.rdreq, hcurr, Fifo.taken]
      exact List.length_take_of_le (List.length_pos_of_ne_nil hwords)

/-- A cycle of `F1` leaves the visit owing its toggles, whether they were owed before or the
word has just been read. -/
theorem Session.read_f1 (h : Session m s inp) {t : Nat}
    (hcurr : (run s inp t).puls.currStateF = .f1) :
    m + m * (if again s inp t then
      ((run s inp t).queue.taken (run s inp t).puls.rdreq).length else 0) =
    owed s inp m t + m * ((run s inp t).queue.taken (run s inp t).puls.rdreq).length := by
  simp only [owed, hcurr]
  cases hagain : again s inp t with
  | false => simp [h.taken_first hcurr hagain]
  | true => simp

theorem Session.owed_after_f1 (h : Session m s inp) {t : Nat}
    (hcurr : (run s inp t).puls.currStateF = .f1) :
    (run s inp (t + 1)).puls.p = (run s inp t).puls.p ∧ owed s inp m (t + 1) = m := by
  have hregs := h.p_c1_succ t
  have hphase := (h.inv t).phase
  simp only [PulsHw.Phase, hcurr] at hphase
  cases hnext : (run s inp (t + 1)).puls.currStateF with
  | f0 =>
      rw [currStateF_succ, PulsHw.nextStateF_f0, hcurr] at hnext
      simp at hnext
  | f1 =>
      simp only [hnext] at hregs
      refine ⟨hregs.2.trans hregs.1.symm, ?_⟩
      simp only [owed, hnext, (again_succ t).mpr ⟨hcurr, hnext⟩, if_true]
  | f2 =>
      simp only [hnext] at hregs
      refine ⟨hregs.1, ?_⟩
      simp only [owed, hnext, hregs.2, hphase.2.1, Nat.sub_zero]
  | f3 =>
      rw [currStateF_succ, PulsHw.nextStateF_f3, hcurr] at hnext
      cases hnext.1

/-- Outside of `F1` each toggle is one that was owed. -/
theorem Session.owed_after (h : Session m s inp) {t : Nat}
    (hcurr : (run s inp t).puls.currStateF ≠ .f1) :
    ((run s inp t).puls.p ^^ (run s inp (t + 1)).puls.p).toNat + owed s inp m (t + 1) =
      owed s inp m t := by
  have hregs := h.p_c1_succ t
  have hagain : again s inp (t + 1) = false := by
    simp [again, hcurr]
  have hfrom := currStateF_succ s inp t
  cases hnext : (run s inp (t + 1)).puls.currStateF with
  | f0 =>
      rw [hnext, eq_comm, PulsHw.nextStateF_f0, h.selected] at hfrom
      simp only [hnext] at hregs
      obtain ⟨-, hidle | ⟨hend, hlast⟩⟩ := hfrom
      · simp [owed, hnext, hregs, hidle]
      · simp [owed, hnext, hregs, hend, hlast]
  | f1 =>
      rw [hnext, eq_comm, PulsHw.nextStateF_f1, h.selected] at hfrom
      simp only [hnext] at hregs
      obtain ⟨hstay, -⟩ | ⟨-, hidle | ⟨hend, hlast⟩⟩ := hfrom
      · exact absurd hstay hcurr
      · simp [owed, hnext, hregs, hidle, hagain]
      · simp [owed, hnext, hregs, hend, hlast, hagain]
  | f2 =>
      rw [hnext, eq_comm, PulsHw.nextStateF_f2] at hfrom
      simp only [hnext] at hregs
      obtain ⟨hread, -⟩ | ⟨hcount, -⟩ | ⟨htoggled, -⟩ := hfrom
      · exact absurd hread hcurr
      · simp [owed, hnext, hregs, hcount]
      · simp [owed, hnext, hregs, htoggled]
  | f3 =>
      rw [hnext, eq_comm, PulsHw.nextStateF_f3] at hfrom
      simp only [hnext] at hregs
      obtain ⟨hp, hlt, hc1⟩ := hregs
      simp only [owed, hnext, hfrom.1, hp, hc1, Bool.xor_not_self, Bool.toNat_true]
      omega

theorem Session.ledger_step (h : Session m s inp) (t : Nat) :
    ((run s inp t).puls.p ^^ (run s inp (t + 1)).puls.p).toNat + owed s inp m (t + 1) +
      m * (if again s inp t then
        ((run s inp t).queue.taken (run s inp t).puls.rdreq).length else 0) =
    owed s inp m t + m * ((run s inp t).queue.taken (run s inp t).puls.rdreq).length := by
  by_cases hcurr : (run s inp t).puls.currStateF = .f1
  · obtain ⟨hp, howed⟩ := h.owed_after_f1 hcurr
    rw [← h.read_f1 hcurr, hp, howed, Bool.xor_self, Bool.toNat_false, Nat.zero_add]
  · rw [h.owed_after hcurr, h.taken_quiet hcurr, List.length_nil, ite_self]

/-- Every word read has been turned into toggles, is owed them by the visit under way, or is
lost. -/
theorem Session.ledger (h : Session m s inp) (t : Nat) :
    made s inp t + owed s inp m t + m * lost s inp t = m * popped s inp t := by
  induction t with
  | zero => simp [made, toggles, owed, lost, popped, run, h.idle.state]
  | succ t ih =>
      have hstep := h.ledger_step t
      rw [made, toggles_succ, lost, popped, Finset.sum_range_succ, Finset.sum_range_succ,
        Nat.mul_add, Nat.mul_add]
      simp only [made, lost, popped] at ih
      omega

end Run

end HandWheel

end CncCard
