import CncCard.Clocked.Level
import CncCard.Handwheel.Ledger

/-!
How many pulses the multiplier makes at most, whatever periods the queue holds: a visit
makes no more toggles than the selected multiplier, and there is a word in the queue for
each visit. Unlike in the ledger, no period has to be as large as the multiplier.
-/

namespace CncCard
open Clocked

namespace PulsHw

variable {m : Nat} {s : PulsHw} {i : PulsInput}

/-- The registers in each state, whatever has been read. -/
def Counting (m : Nat) (s : PulsHw) : Prop :=
  match s.currStateF with
  | .f0 => s.rdreq = false ∧ s.c1 = 0 ∧ s.p = false
  | .f1 => s.rdreq = true ∧ s.c1 = 0 ∧ s.p = false
  | .f2 => s.rdreq = false ∧ s.c1 < m ∧ s.p = decide (s.c1 % 2 = 1)
  | .f3 => s.rdreq = false ∧ s.c1 ≤ m ∧ s.p = decide (s.c1 % 2 = 1)

/-- The toggles that the visit may still make. -/
def credit (m : Nat) (s : PulsHw) : Nat :=
  match s.currStateF with
  | .f0 => 0
  | .f1 => m
  | .f2 | .f3 => m - s.c1

/-- The cycle ends with the entry of `F1`. -/
def enters (s : PulsHw) (empty : Bool) : Bool :=
  s.currStateF != .f1 && s.nextStateF empty == .f1

theorem Counting.rdreq (h : s.Counting m) : s.rdreq = decide (s.currStateF = .f1) := by
  cases hcurr : s.currStateF <;> simp only [Counting, hcurr] at h <;> exact h.1

/-- At the end of a visit an even number of toggles has been made. -/
theorem Counting.p_low (h : s.Counting m) (hm : IsMultiplier m)
    (hend : s.currStateF = .f0 ∨ s.currStateF = .f1 ∨ s.currStateF = .f3 ∧ s.c1 = m) :
    s.p = false := by
  obtain hcurr | hcurr | ⟨hcurr, hlast⟩ := hend <;> simp only [Counting, hcurr] at h
  · exact h.2.2
  · exact h.2.2
  · rw [h.2.2, hlast, hm.even]
    rfl

/-- A level that is high has a toggle to come. -/
theorem Counting.p_le (h : s.Counting m) (hm : IsMultiplier m) : s.p.toNat ≤ s.credit m := by
  have heven := hm.even
  cases hcurr : s.currStateF <;> simp only [Counting, hcurr] at h <;> rw [h.2.2] <;>
    simp only [credit, hcurr]
  · exact Nat.zero_le _
  · exact Nat.zero_le _
  · by_cases hodd : s.c1 % 2 = 1
    · simp only [hodd, decide_true, Bool.toNat_true]
      omega
    · simp [hodd]
  · by_cases hodd : s.c1 % 2 = 1
    · simp only [hodd, decide_true, Bool.toNat_true]
      omega
    · simp [hodd]

/-- A step keeps the registers in order, and each toggle is paid for: by the credit of the
visit, which its entry gives. -/
theorem Counting.clock (h : s.Counting m) (hm : IsMultiplier m)
    (hc0 : s.currStateF ≠ .f0 → s.c0 = m) :
    (s.clock i).Counting m ∧
      (s.p ^^ (s.clock i).p).toNat + (s.clock i).credit m ≤
        s.credit m + m * (s.enters i.empty).toNat := by
  have hpos : 0 < m := Nat.lt_of_lt_of_le Nat.two_pos hm.two_le
  have hlast (hcurr : s.currStateF = .f3) (hc1 : s.c1 = s.c0) : s.c1 = m := by
    rw [hc1, hc0 (by rw [hcurr]; decide)]
  cases hnext : s.nextStateF i.empty with
  | f0 =>
      have hlow : s.p = false := h.p_low hm (by
        obtain ⟨-, hcurr | ⟨hcurr, hc1⟩⟩ := nextStateF_f0.mp hnext
        · exact .inl hcurr
        · exact .inr (.inr ⟨hcurr, hlast hcurr hc1⟩))
      simp [Counting, credit, PulsHw.clock, hnext, drive, hlow]
  | f1 =>
      have hlow : s.p = false := h.p_low hm (by
        obtain ⟨hcurr, -⟩ | ⟨-, hcurr | ⟨hcurr, hc1⟩⟩ := nextStateF_f1.mp hnext
        · exact .inr (.inl hcurr)
        · exact .inl hcurr
        · exact .inr (.inr ⟨hcurr, hlast hcurr hc1⟩))
      refine ⟨by simp [Counting, PulsHw.clock, hnext, drive], ?_⟩
      by_cases hcurr : s.currStateF = .f1
      · simp [credit, PulsHw.clock, hnext, drive, hlow, hcurr]
      · have henters : s.enters i.empty = true := by
          rw [enters, hnext, bne_iff_ne.mpr hcurr]
          rfl
        rw [henters, Bool.toNat_true, Nat.mul_one]
        simp [credit, PulsHw.clock, hnext, drive, hlow]
  | f2 =>
      have hkept : s.c1 < m ∧ s.p = decide (s.c1 % 2 = 1) ∧ m - s.c1 ≤ s.credit m := by
        obtain ⟨hcurr, -⟩ | ⟨hcurr, -⟩ | ⟨hcurr, hmore⟩ := nextStateF_f2.mp hnext <;>
          simp only [Counting, hcurr] at h <;> simp only [credit, hcurr]
        · exact ⟨by omega, by rw [h.2.2, h.2.1]; rfl, Nat.sub_le _ _⟩
        · exact ⟨h.2.1, h.2.2, Nat.le_refl _⟩
        · rw [hc0 (by rw [hcurr]; decide)] at hmore
          exact ⟨Nat.lt_of_le_of_ne h.2.1 hmore, h.2.2, Nat.le_refl _⟩
      obtain ⟨hc1, hp, hcredit⟩ := hkept
      refine ⟨?_, ?_⟩
      · simp only [Counting, PulsHw.clock, hnext, drive]
        exact ⟨trivial, hc1, hp⟩
      · simp only [PulsHw.clock, hnext, drive, Bool.xor_self, Bool.toNat_false, Nat.zero_add]
        exact Nat.le_trans hcredit (Nat.le_add_right _ _)
  | f3 =>
      have hcurr := (nextStateF_f3.mp hnext).1
      simp only [Counting, hcurr] at h
      refine ⟨?_, ?_⟩
      · simp only [Counting, PulsHw.clock, hnext, drive, hm.c1_succ h.2.1]
        refine ⟨trivial, h.2.1, ?_⟩
        rw [h.2.2, ← decide_not]
        exact decide_eq_decide.mpr (by omega)
      · simp only [credit, PulsHw.clock, hnext, drive, hm.c1_succ h.2.1, hcurr,
          Bool.xor_not_self, Bool.toNat_true]
        omega

end PulsHw

namespace HandWheel

/-- A run behind the reset in which one multiplier is selected whenever a word is worked on. -/
structure Selected (m : Nat) (s : HandWheel) (inp : Nat → HandWheelInput) : Prop where
  idle : Idle s
  multiplier : IsMultiplier m
  selected : ∀ t, (run s inp t).puls.currStateF ≠ .f0 → (run s inp t).puls.c0 = m

variable {s : HandWheel} {inp : Nat → HandWheelInput} {m : Nat}

/-- The visits that have begun. -/
def visits (s : HandWheel) (inp : Nat → HandWheelInput) (t : Nat) : Nat :=
  during (fun k => (run s inp k).puls.enters (run s inp k).queue.isEmpty) 0 t

namespace Selected

theorem counting (h : Selected m s inp) (t : Nat) : (run s inp t).puls.Counting m := by
  induction t with
  | zero =>
      simp only [run, trace_zero, PulsHw.Counting, h.idle.state]
      exact ⟨h.idle.rdreq, h.idle.c1, h.idle.p⟩
  | succ t ih => exact (ih.clock h.multiplier (h.selected t)).1

theorem made_le (h : Selected m s inp) (t : Nat) :
    made s inp t + (run s inp t).puls.credit m ≤ m * visits s inp t := by
  induction t with
  | zero => simp [made, toggles, run, PulsHw.credit, h.idle.state]
  | succ t ih =>
      have hstep : ((run s inp t).puls.p ^^ (run s inp (t + 1)).puls.p).toNat +
          (run s inp (t + 1)).puls.credit m ≤ (run s inp t).puls.credit m +
            m * ((run s inp t).puls.enters (run s inp t).queue.isEmpty).toNat :=
        ((h.counting t).clock h.multiplier (h.selected t)).2
      rw [made, toggles_succ, visits, during_succ _ (Nat.zero_le t), Nat.mul_add]
      simp only [made, visits] at ih
      omega

/-- Each visit finds a word in the queue and takes it in its first cycle. -/
theorem visits_le_popped (h : Selected m s inp) (t : Nat) :
    visits s inp (t + 1) ≤ popped s inp (t + 1) +
      ((run s inp t).puls.enters (run s inp t).queue.isEmpty).toNat ∧
    ((run s inp t).puls.enters (run s inp t).queue.isEmpty = true →
      (run s inp (t + 1)).queue.words ≠ []) := by
  have hwords (t : Nat)
      (henters : (run s inp t).puls.enters (run s inp t).queue.isEmpty = true) :
      (run s inp (t + 1)).puls.currStateF = .f1 ∧ (run s inp (t + 1)).queue.words ≠ [] := by
    simp only [PulsHw.enters, Bool.and_eq_true, bne_iff_ne, ne_eq, beq_iff_eq] at henters
    obtain ⟨hcurr, hnext⟩ := henters
    refine ⟨hnext, ?_⟩
    have hrdreq := (h.counting t).rdreq
    rw [decide_eq_false hcurr] at hrdreq
    have hwaiting := (PulsHw.nextStateF_f1.mp hnext).resolve_left fun hstay => hcurr hstay.1
    rw [run_succ, step, hrdreq]
    exact Fifo.clock_words_ne_nil (Fifo.isEmpty_eq_false.mp hwaiting.1) _
  refine ⟨?_, fun henters => (hwords t henters).2⟩
  induction t with
  | zero =>
      rw [visits, during_succ _ (Nat.zero_le 0), during_self]
      omega
  | succ t ih =>
      have htaken : ((run s inp t).puls.enters (run s inp t).queue.isEmpty).toNat ≤
          ((run s inp (t + 1)).queue.taken (run s inp (t + 1)).puls.rdreq).length := by
        cases henters : (run s inp t).puls.enters (run s inp t).queue.isEmpty with
        | false => exact Nat.zero_le _
        | true =>
            obtain ⟨hcurr, hne⟩ := hwords t henters
            rw [(h.counting (t + 1)).rdreq, hcurr, Fifo.taken]
            exact Nat.le_of_eq (List.length_take_of_le (List.length_pos_of_ne_nil hne)).symm
      rw [visits, during_succ _ (Nat.zero_le _), popped, Finset.sum_range_succ]
      simp only [visits, popped] at ih
      omega

theorem visits_le_written (h : Selected m s inp) (t : Nat) :
    visits s inp t ≤ written s inp t := by
  cases t with
  | zero => rw [visits, during_self]; exact Nat.zero_le _
  | succ t =>
      obtain ⟨hle, hwords⟩ := h.visits_le_popped t
      have hpopped := popped_add_length s inp (t + 1)
      rw [h.idle.queue, List.length_nil, Nat.zero_add] at hpopped
      cases henters : (run s inp t).puls.enters (run s inp t).queue.isEmpty with
      | false =>
          rw [henters, Bool.toNat_false] at hle
          omega
      | true =>
          have hpos := List.length_pos_of_ne_nil (hwords henters)
          rw [henters, Bool.toNat_true] at hle
          omega

theorem written_le_succ (s : HandWheel) (inp : Nat → HandWheelInput) (t : Nat) :
    written s inp t ≤ written s inp (t + 1) := by
  rw [written, written, Finset.sum_range_succ]
  exact Nat.le_add_right _ _

/-- The pulses of the output so far are at most half the multiplier for each word. -/
theorem pulses_le (h : Selected m s inp) (t : Nat) :
    2 * edges (fun k => (run s inp k).puls.pulsOut) (fun _ => true) 0 (t + 1) ≤
      m * written s inp t := by
  have hlow : (run s inp 0).puls.pulsOut = false := h.idle.pulsOut
  rw [two_mul_edges hlow]
  cases t with
  | zero => simp [toggles, hlow]
  | succ t =>
      -- the output is the level `p` of the cycle before
      have hout : toggles (fun k => (run s inp k).puls.pulsOut) (t + 1) = made s inp t := by
        have hp : (run s inp 0).puls.p = false := h.idle.p
        rw [toggles, Finset.sum_range_succ']
        simp only [pulsOut_succ, hlow, hp]
        rfl
      rw [hout, pulsOut_succ]
      calc made s inp t + (run s inp t).puls.p.toNat
          ≤ made s inp t + (run s inp t).puls.credit m :=
            Nat.add_le_add_left ((h.counting t).p_le h.multiplier) _
        _ ≤ m * visits s inp t := h.made_le t
        _ ≤ m * written s inp (t + 1) := Nat.mul_le_mul_left m
            (Nat.le_trans (h.visits_le_written t) (written_le_succ s inp t))

end Selected

end HandWheel

end CncCard
