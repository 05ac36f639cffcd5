import CncCard.Handwheel.PulsHw

/-!
What the registers of the multiplier hold in each of its states, while a multiplier is
selected. A visit is a stay in `F2` and `F3` from the read in `F1` to the last toggle; `c1`
counts its toggles and `q_in` is its period.
-/

namespace CncCard
open Clocked

/-- The multipliers that the switches can select. -/
def IsMultiplier (m : Nat) : Prop := m = 2 ∨ m = 12 ∨ m = 32

namespace IsMultiplier

variable {m : Nat}

theorem two_le (h : IsMultiplier m) : 2 ≤ m := by
  obtain rfl | rfl | rfl := h <;> decide

theorem le (h : IsMultiplier m) : m ≤ 32 := by
  obtain rfl | rfl | rfl := h <;> decide

theorem even (h : IsMultiplier m) : m % 2 = 0 := by
  obtain rfl | rfl | rfl := h <;> rfl

/-- The counter of the toggles does not wrap. -/
theorem c1_succ (h : IsMultiplier m) {c1 : Nat} (hlt : c1 < m) : (c1 + 1) % 2 ^ 8 = c1 + 1 :=
  Nat.mod_eq_of_lt (by have hle := h.le; omega)

/-- Nor does the accumulator. -/
theorem sum_add (h : IsMultiplier m) {sum : Nat} (hlt : sum ≤ 2 ^ 21) :
    (sum + m) % 2 ^ 22 = sum + m :=
  Nat.mod_eq_of_lt (by have hle := h.le; omega)

end IsMultiplier

namespace PulsHw

variable {m : Nat} {s : PulsHw}

theorem isMultiplier_of_pos (h : 0 < s.multiplier) : IsMultiplier s.multiplier := by
  simp only [multiplier] at h ⊢
  split
  · exact .inl rfl
  · split
    · exact .inr (.inl rfl)
    · split
      · exact .inr (.inr rfl)
      · simp_all

/-- The registers in each state. -/
def Phase (m : Nat) (s : PulsHw) : Prop :=
  match s.currStateF with
  | .f0 => s.rdreq = false ∧ s.c1 = 0 ∧ s.p = false ∧ s.qIn = 0
  | .f1 => s.rdreq = true ∧ s.c1 = 0 ∧ s.p = false ∧ s.sum = 0 ∧ (s.qSign = true → s.qIn ≠ 0)
  | .f2 =>
      s.rdreq = false ∧ s.c1 < m ∧ s.p = decide (s.c1 % 2 = 1) ∧ m ∣ s.sum ∧ s.qIn ≠ 0 ∧
        s.qOut = s.qIn
  | .f3 =>
      s.rdreq = false ∧ s.c1 ≤ m ∧ s.p = decide (s.c1 % 2 = 1) ∧ s.sum = 0 ∧ s.qIn ≠ 0 ∧
        s.qOut = s.qIn

section Enter

variable {i : PulsInput}

theorem phase_f0 (h : s.nextStateF i.empty = .f0) : (s.clock i).Phase m := by
  simp [Phase, clock, h, drive]

theorem phase_f1 (h : s.nextStateF i.empty = .f1) (hin : s.qIn ≠ 0 → i.q.toNat / s.c0 ≠ 0) :
    (s.clock i).Phase m := by
  simp only [Phase, clock, h, drive]
  exact ⟨trivial, trivial, trivial, trivial, fun hsign => hin (of_decide_eq_true hsign)⟩

theorem phase_f2 (hm : IsMultiplier m) (hc0 : s.c0 = m) (hout : s.qOut ≤ 2 ^ 21)
    (h : s.nextStateF i.empty = .f2) (hc1 : s.c1 < m) (hp : s.p = decide (s.c1 % 2 = 1))
    (hsum : m ∣ s.sum) (hin : s.qIn ≠ 0) : (s.clock i).Phase m := by
  simp only [Phase, clock, h, drive]
  refine ⟨trivial, hc1, hp, ?_, hin, trivial⟩
  split
  · exact Nat.dvd_zero m
  · next hlt =>
      rw [hc0, hm.sum_add (by omega)]
      exact Nat.dvd_add hsum (Nat.dvd_refl m)

theorem phase_f3 (hm : IsMultiplier m) (h : s.nextStateF i.empty = .f3) (hc1 : s.c1 < m)
    (hp : s.p = decide (s.c1 % 2 = 1)) (hin : s.qIn ≠ 0) (heq : s.qOut = s.qIn) :
    (s.clock i).Phase m := by
  simp only [Phase, clock, h, drive, hm.c1_succ hc1]
  refine ⟨trivial, hc1, ?_, trivial, hin, heq⟩
  rw [hp, ← decide_not]
  exact decide_eq_decide.mpr (by omega)

end Enter

theorem Phase.clock (hm : IsMultiplier m) (hc0 : s.c0 = m) (hout : s.qOut ≤ 2 ^ 21)
    (i : PulsInput) (hread : s.qIn ≠ 0 → m ≤ i.q.toNat) (h : s.Phase m) :
    (s.clock i).Phase m := by
  have hpos : 0 < m := Nat.lt_of_lt_of_le Nat.two_pos hm.two_le
  have hperiod (hin : s.qIn ≠ 0) : i.q.toNat / s.c0 ≠ 0 :=
    Nat.pos_iff_ne_zero.mp (Nat.div_pos (hc0 ▸ hread hin) (hc0 ▸ hpos))
  cases hnext : s.nextStateF i.empty with
  | f0 => exact phase_f0 hnext
  | f1 => exact phase_f1 hnext hperiod
  | f2 =>
      obtain ⟨hcurr, hsign⟩ | ⟨hcurr, -⟩ | ⟨hcurr, hmore⟩ := nextStateF_f2.mp hnext
      · simp only [Phase, hcurr] at h
        obtain ⟨-, hc1, hp, hsum, hin⟩ := h
        exact phase_f2 hm hc0 hout hnext (hc1 ▸ hpos) (by rw [hp, hc1]; rfl)
          (hsum ▸ Nat.dvd_zero m) (hin hsign)
      · simp only [Phase, hcurr] at h
        obtain ⟨-, hc1, hp, hsum, hin, -⟩ := h
        exact phase_f2 hm hc0 hout hnext hc1 hp hsum hin
      · simp only [Phase, hcurr] at h
        obtain ⟨-, hc1, hp, hsum, hin, -⟩ := h
        exact phase_f2 hm hc0 hout hnext (Nat.lt_of_le_of_ne hc1 (hc0 ▸ hmore)) hp
          (hsum ▸ Nat.dvd_zero m) hin
  | f3 =>
      simp only [Phase, (nextStateF_f3.mp hnext).1] at h
      obtain ⟨-, hc1, hp, -, hin, heq⟩ := h
      exact phase_f3 hm hnext hc1 hp hin heq

/-- The periods fit their registers with room for the accumulator. -/
theorem bound_clock (hm : IsMultiplier m) (hc0 : s.c0 = m) (i : PulsInput)
    (h : s.qIn ≤ 2 ^ 21 ∧ s.qOut ≤ 2 ^ 21) :
    (s.clock i).qIn ≤ 2 ^ 21 ∧ (s.clock i).qOut ≤ 2 ^ 21 := by
  have hperiod : i.q.toNat / s.c0 ≤ 2 ^ 21 := by
    have hq := i.q.isLt
    have hhalf : i.q.toNat / m ≤ i.q.toNat / 2 := Nat.div_le_div_left hm.two_le Nat.two_pos
    rw [hc0]
    omega
  cases hnext : s.nextStateF i.empty with
  | f0 => simp [clock, hnext, drive]
  | f1 => simpa only [clock, hnext, drive] using ⟨hperiod, h.1⟩
  | f2 => simpa only [clock, hnext, drive] using ⟨h.1, h.1⟩
  | f3 => simpa only [clock, hnext, drive] using h

/-- A period in use is that of a word that has been read. -/
theorem read_of_clock (i : PulsInput) (h : s.qIn ≠ 0 → m ≤ i.q.toNat) (hc0 : s.c0 = m) :
    (s.clock i).qIn ≠ 0 → m ≤ i.q.toNat := by
  cases hnext : s.nextStateF i.empty with
  | f0 => simp [clock, hnext, drive]
  | f1 =>
      simp only [clock, hnext, drive, hc0]
      exact fun hin => Nat.le_of_not_lt fun hlt => hin (Nat.div_eq_of_lt hlt)
  | f2 => simpa only [clock, hnext, drive] using h
  | f3 => simpa only [clock, hnext, drive] using h

end PulsHw

namespace HandWheel

variable {m : Nat} {s : HandWheel}

/-- Every word in the queue or behind a period in use is one that the multiplier divides at
least once. -/
structure Inv (m : Nat) (s : HandWheel) : Prop where
  words : ∀ e ∈ s.queue.words, m ≤ e.toNat
  read : s.puls.qIn ≠ 0 → m ≤ s.queue.q.toNat
  bound : s.puls.qIn ≤ 2 ^ 21 ∧ s.puls.qOut ≤ 2 ^ 21
  phase : s.puls.Phase m

theorem Inv.step (h : Inv m s) (hm : IsMultiplier m) (hc0 : s.puls.c0 = m)
    {i : HandWheelInput} (hentry : ∀ e, i.wrreq = some e → m ≤ e.toNat) :
    Inv m (s.step i) where
  words := Fifo.forall_clock h.words hentry _
  read := by
    intro hin
    have hq := PulsHw.read_of_clock ⟨s.queue.isEmpty, s.queue.q, i.iX1, i.iX10, i.iX100⟩ h.read hc0
      hin
    exact RegFifo.clock_q_of_forall (P := fun w : BitVec 22 => m ≤ w.toNat) h.words hq _ _
  bound := PulsHw.bound_clock hm hc0 _ h.bound
  phase := h.phase.clock hm hc0 h.bound.2 _ h.read

end HandWheel

end CncCard
