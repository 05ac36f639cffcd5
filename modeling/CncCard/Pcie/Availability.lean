import CncCard.Clocked.Level
import CncCard.Pcie.Requests

/-!
What `rxproc` may count on in its queue. `IDLE` looks for two words and `CPLDDATAST1` for
four, and the states behind them live on that reserve. `UNSP2`, `MEMWRST4`, `CPLDWAITST1`
and `CPLDWAITST9` have none and do not look either: the words they need have arrived, or
the next state reads an empty queue.
-/

namespace CncCard.Pcie
open Clocked

/-- The words that must be in the queue when `rxproc` comes to a state. -/
def RxState.reserve : RxState → Nat
  | rdhead1 => 2
  | headpro1 | rdhead2 | headpro2 | waitst1 | datast1 => 1
  | memrdst1 | memrdst2 | memrdst3 | memrdst4 => 1
  | cpldwaitst1 | cplddatast1 | unsp1 => 1
  | _ => 0

namespace Rxproc

/-- The state makes use of `rxdata`, as a word of the header or of the payload. -/
def sampled (s : Rxproc) : Bool :=
  s.preState == .rdhead1 || s.preState == .rdhead2 || s.preState == .datast2 ||
    s.preState == .cplddatast1

end Rxproc

/-- `rxproc` reads a word only if the queue has one, and takes a word from `rxdata` only
if the queue has shown one. -/
structure Available (r : Nat → RxPath) : Prop where
  read : ∀ t, (r t).core.fiford = true → (r t).fifo.words ≠ []
  sampled : ∀ t, (r (t + 1)).core.sampled = true → (r t).fifo.words ≠ []

namespace RxPath

/-- The cycle goes on to a state for whose words it has not waited. -/
def Starved (s : RxPath) (i : RxPathInput) : Prop :=
  match s.core.preState with
  | .unsp2 | .memwrst4 => s.fifo.words = [] ∧ i.arrival = none
  | .cpldwaitst1 => s.fifo.words.length < 2 ∧ i.arrival = none
  | .cpldwaitst9 => s.fifo.words = [] ∧ i.dmardfifodw ≤ 0x1FC
  | _ => False

variable {s : RxPath} {i : RxPathInput}

theorem length_of_quiet (i : RxPathInput) (h : s.core.fiford = false) :
    (rxPath s i).fifo.words.length =
      s.fifo.words.length + (s.fifo.accepted i.arrival).length := by
  simp only [rxPath, h, Fifo.length_clock, Bool.toNat_false, Nat.sub_zero]

theorem length_of_read (i : RxPathInput) (h : s.core.fiford = true) :
    (rxPath s i).fifo.words.length =
      s.fifo.words.length - 1 + (s.fifo.accepted i.arrival).length := by
  simp only [rxPath, h, Fifo.length_clock, Bool.toNat_true]

/-- A short queue takes what arrives. -/
theorem length_accepted (h : s.fifo.words.length < 2) (harrival : i.arrival ≠ none) :
    (s.fifo.accepted i.arrival).length = 1 := by
  rw [Fifo.accepted_of_lt (by omega)]
  cases hword : i.arrival with
  | none => exact absurd hword harrival
  | some w => rfl

theorem four_le_of_rxdw (h : ¬ (s.rxInput i).rxdw < 0x004) : 4 ≤ s.fifo.words.length := by
  rw [BitVec.lt_def, rxInput, BitVec.toNat_ofNat] at h
  have hmod := Nat.mod_le s.fifo.words.length (2 ^ 10)
  simp only [BitVec.reduceToNat] at h
  omega

/-- The reserve is kept by every cycle that does not starve. -/
theorem reserve_rxPath (hfed : ¬ s.Starved i)
    (h : s.core.preState.reserve ≤ s.fifo.words.length) :
    (rxPath s i).core.preState.reserve ≤ (rxPath s i).fifo.words.length := by
  have hnext : (rxPath s i).core.preState = s.core.nxtState (s.rxInput i) := rfl
  have hquiet := length_of_quiet (s := s) i
  have hread := length_of_read (s := s) i
  rw [hnext]
  simp only [Starved] at hfed
  simp only [Rxproc.fiford] at hquiet hread
  simp only [Rxproc.nxtState]
  cases hs : s.core.preState with
  | idle =>
      rw [hquiet (by rw [hs]; rfl)]
      simp only
      split
      · next hgo =>
          have htwo := two_le_of_rxen (Bool.and_eq_true_iff.mp hgo).1
          exact Nat.le_add_right_of_le htwo
      · exact Nat.zero_le _
  | rdhead1 =>
      rw [hs] at h
      rw [hread (by rw [hs]; rfl)]
      simp only [RxState.reserve] at h ⊢
      omega
  | headpro1 | rdhead2 | headpro2 | memrdst1 | memrdst2 | memrdst4 =>
      rw [hs] at h
      rw [hquiet (by rw [hs]; rfl)]
      exact Nat.le_add_right_of_le h
  | waitst1 =>
      rw [hs] at h
      rw [hquiet (by rw [hs]; rfl)]
      simp only [RxState.reserve] at h
      simp only
      repeat' split
      all_goals
        simp only [RxState.reserve]
        omega
  | memrdst3 =>
      rw [hs] at h
      rw [hquiet (by rw [hs]; rfl)]
      simp only
      split <;> exact Nat.le_add_right_of_le h
  | unsp2 | memwrst4 =>
      rw [hs] at hfed
      rw [hquiet (by rw [hs]; rfl)]
      simp only [RxState.reserve]
      by_cases hempty : s.fifo.words = []
      · have hone := length_accepted (i := i) (by rw [hempty]; decide)
          fun hnone => hfed ⟨hempty, hnone⟩
        omega
      · have := List.length_pos_iff.mpr hempty
        omega
  | cpldwaitst1 =>
      rw [hs] at h hfed
      rw [hread (by rw [hs]; rfl)]
      simp only [RxState.reserve] at h ⊢
      by_cases hshort : s.fifo.words.length < 2
      · have hone := length_accepted hshort fun hnone => hfed ⟨hshort, hnone⟩
        omega
      · omega
  | cplddatast1 =>
      rw [hread (by rw [hs]; rfl)]
      simp only
      split
      · exact Nat.zero_le _
      · split
        · exact Nat.zero_le _
        · next hgo =>
            simp only [Bool.or_eq_true, decide_eq_true_eq, not_or] at hgo
            have hfour := four_le_of_rxdw hgo.1
            simp only [RxState.reserve]
            omega
  | cpldwaitst9 =>
      rw [hs] at hfed
      rw [hquiet (by rw [hs]; rfl)]
      simp only
      split
      · exact Nat.zero_le _
      · next hgo =>
          have hne : s.fifo.words ≠ [] := fun hempty => hfed ⟨hempty, BitVec.not_lt.mp hgo⟩
          exact Nat.le_add_right_of_le (List.length_pos_iff.mpr hne)
  | memwrst3 | unsp1 =>
      simp only
      split <;> exact Nat.zero_le _
  | _ => exact Nat.zero_le _

theorem reserve_of_fiford (h : s.core.fiford = true) : 1 ≤ s.core.preState.reserve := by
  unfold Rxproc.fiford at h
  cases hs : s.core.preState with
  | rdhead1 | datast1 | unsp1 | cpldwaitst1 | cplddatast1 => decide
  | _ => rw [hs] at h; cases h

/-- What the next state takes from `rxdata` is at the head of the queue. -/
theorem shown_of_sampled (hfed : ¬ s.Starved i)
    (h : s.core.preState.reserve ≤ s.fifo.words.length)
    (hsampled : (rxPath s i).core.sampled = true) : s.fifo.words ≠ [] := by
  have hnext : (rxPath s i).core.preState = s.core.nxtState (s.rxInput i) := rfl
  rw [Rxproc.sampled, hnext] at hsampled
  simp only [Rxproc.nxtState] at hsampled
  rw [← List.length_pos_iff]
  cases hs : s.core.preState with
  | idle =>
      rw [hs] at hsampled
      simp only at hsampled
      split at hsampled
      · next hgo => exact Nat.lt_of_succ_lt (two_le_of_rxen (Bool.and_eq_true_iff.mp hgo).1)
      · cases hsampled
  | headpro1 | waitst1 | datast1 | cpldwaitst1 | cplddatast1 =>
      rw [hs] at h
      exact h
  | cpldwaitst9 =>
      rw [hs] at hsampled
      simp only [Starved, hs] at hfed
      simp only at hsampled
      split at hsampled
      · cases hsampled
      · next hgo =>
          rw [List.length_pos_iff]
          exact fun hempty => hfed ⟨hempty, BitVec.not_lt.mp hgo⟩
  | unsp1 | memwrst3 | memrdst3 =>
      rw [hs] at hsampled
      simp only at hsampled
      split at hsampled <;> cases hsampled
  | _ =>
      rw [hs] at hsampled
      cases hsampled

/-- A cycle that starves is followed by a read of the empty queue, or by a word that the
queue has not shown. -/
theorem not_available_of_starved (hstarved : s.Starved i)
    (hread : (rxPath s i).core.fiford = true → (rxPath s i).fifo.words ≠ [])
    (hshown : (rxPath s i).core.sampled = true → s.fifo.words ≠ []) : False := by
  have hnext : (rxPath s i).core.preState = s.core.nxtState (s.rxInput i) := rfl
  have hquiet := length_of_quiet (s := s) i
  have hpop := length_of_read (s := s) i
  rw [Rxproc.fiford, hnext, ← List.length_pos_iff] at hread
  rw [Rxproc.sampled, hnext] at hshown
  simp only [Rxproc.fiford] at hquiet hpop
  simp only [Rxproc.nxtState] at hread hshown
  unfold Starved at hstarved
  cases hs : s.core.preState with
  | unsp2 | memwrst4 =>
      rw [hs] at hstarved hread
      obtain ⟨hempty, hnone⟩ := hstarved
      rw [hquiet (by rw [hs]; rfl), hempty, hnone, Fifo.accepted_none] at hread
      exact absurd (hread rfl) (Nat.lt_irrefl 0)
  | cpldwaitst1 =>
      rw [hs] at hstarved hread
      obtain ⟨hshort, hnone⟩ := hstarved
      rw [hpop (by rw [hs]; rfl), hnone, Fifo.accepted_none, List.length_nil] at hread
      have := hread rfl
      omega
  | cpldwaitst9 =>
      rw [hs] at hstarved hshown
      obtain ⟨hempty, hroom⟩ := hstarved
      have hgo : ¬ 0x1FC < (s.rxInput i).dmardfifodw := BitVec.not_lt.mpr hroom
      simp only [if_neg hgo] at hshown
      exact hshown rfl hempty
  | _ =>
      rw [hs] at hstarved
      exact hstarved

end RxPath

/-- Every word is there when it is read and when it is used, if and only if no cycle
starves. -/
theorem Feed.available_iff (f : Feed) :
    Available f.run ↔ ∀ t, ¬ (f.run t).Starved (f.inp t) := by
  constructor
  · intro h t hstarved
    exact RxPath.not_available_of_starved hstarved (h.read (t + 1)) (h.sampled t)
  · intro hfed
    have hreserve (t : Nat) :
        (f.run t).core.preState.reserve ≤ (f.run t).fifo.words.length := by
      induction t with
      | zero =>
          have hidle : (f.run 0).core.preState = .idle := f.idle
          rw [hidle]
          exact Nat.zero_le _
      | succ t ih => exact RxPath.reserve_rxPath (hfed t) ih
    constructor
    · intro t hread
      rw [← List.length_pos_iff]
      exact Nat.le_trans (RxPath.reserve_of_fiford hread) (hreserve t)
    · intro t hsampled
      exact RxPath.shown_of_sampled (hfed t) (hreserve t) hsampled

/-- `UNSP1` reads the queue before the last word of the write has come. -/
theorem Feed.available_lateBeat_false : ¬ Available Requests.lateBeat.run := by
  intro h
  have hpop : ∃ t < 20, (Requests.lateBeat.run t).core.fiford = true ∧
      (Requests.lateBeat.run t).fifo.words = [] := by
    decide +kernel
  obtain ⟨t, -, hread, hempty⟩ := hpop
  exact h.read t hread hempty

end CncCard.Pcie
