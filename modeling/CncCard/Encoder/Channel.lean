import CncCard.Clocked.Edges
import CncCard.Encoder.FilterEncode
import CncCard.Encoder.Reversal

/-!
An encoder from its lines to the published position: `filter_encode` for each of the two
lines and the counter behind them, `encode_pd` or for A `encode_pd_a`. Lines that change
slowly enough come through the filters unchanged, 23 cycles later, so that the position is
that of the lines as they were 26 cycles before the last publication.
-/

namespace CncCard
open Clocked

namespace FilterEncode

/-- Every change, the level at the reset among them, leaves the filter the time to take it
over. -/
def Slow (puls : Nat → Bool) : Prop :=
  ∀ s t, s < t → changes puls s = true → changes puls t = true → s + 22 ≤ t

variable {puls : Nat → Bool}

theorem filter_early {t : Nat} (h : t < 23) : (run puls t).filter = false := by
  induction t with
  | zero => rfl
  | succ t ih =>
      cases t with
      | zero => rfl
      | succ t =>
          have hrun : oneShot 20 (changes puls) t ≠ some 20 := fun hend => by
            obtain ⟨-, a, hat, -, -, -⟩ := oneShot_eq_some_iff.mp hend
            omega
          rw [run_filter, if_neg hrun]
          exact ih (Nat.lt_of_succ_lt h)

/-- Every change of the output stands for one of the input, 23 cycles before. -/
theorem toggles_filter_le (puls : Nat → Bool) (n : Nat) :
    toggles (fun t => (run puls t).filter) n ≤ toggles puls (n - 23) := by
  induction n with
  | zero => exact Nat.le_refl 0
  | succ n ih =>
      rw [toggles_succ]
      by_cases hsame : (run puls (n + 1)).filter = (run puls n).filter
      · rw [hsame, Bool.xor_self, Bool.toNat_false, Nat.add_zero]
        exact Nat.le_trans ih (toggles_mono puls (by omega))
      · obtain ⟨c, rfl, hend, -, hlevel⟩ := switches_cases hsame
        obtain ⟨-, a, hac, hchange, -, -⟩ := oneShot_eq_some_iff.mp hend
        obtain rfl : a = c := by omega
        cases a with
        | zero =>
            -- the level at the reset is no change of the output
            have hlow : puls 0 = false := by
              simpa [changes, before] using hchange
            have hearly : (run puls (0 + 22)).filter = false := filter_early (by omega)
            exact absurd (hlevel.trans (hlow.trans hearly.symm)) hsame
        | succ j =>
            have hindex : j + 1 + 22 - 23 = j := by omega
            have hindex' : j + 1 + 22 + 1 - 23 = j + 1 := by omega
            rw [hindex] at ih
            rw [hindex', toggles_succ puls j]
            refine Nat.add_le_add ih ?_
            simp only [changes, before, bne_iff_ne] at hchange
            have hdiff : (puls j ^^ puls (j + 1)) = true := by
              revert hchange
              cases puls j <;> cases puls (j + 1) <;> decide
            rw [hdiff]
            exact Bool.toNat_le _

/-- A slow input that starts low is in the output 23 cycles later. -/
theorem filter_late (hlow : puls 0 = false) (hslow : Slow puls) (t : Nat) :
    (run puls (23 + t)).filter = puls t := by
  have hend (t : Nat) : oneShot 20 (changes puls) (t + 1 + 20) = some 20 ↔
      changes puls t = true := oneShot_end_iff_of_spaced hslow t
  induction t with
  | zero =>
      have hchange : changes puls 0 = true := by
        rw [changes, hlow]
        rfl
      have hstill := level_of_silent (a := 0) (k := 20) (Nat.zero_le _) fun k hk hk' => by
        by_contra hnext
        have := hslow 0 k hk hchange (eq_true_of_ne_false hnext)
        omega
      have hout := run_filter puls 21
      rw [if_pos ((hend 0).mpr hchange)] at hout
      exact hout.trans hstill
  | succ t ih =>
      have hindex : 23 + (t + 1) = t + 1 + 1 + 20 + 2 := by omega
      have hindex' : t + 1 + 1 + 20 + 1 = 23 + t := by omega
      rw [hindex, run_filter, hindex']
      cases hchange : changes puls (t + 1) with
      | true =>
          rw [if_pos ((hend (t + 1)).mpr hchange)]
          refine level_of_silent (a := t + 1) (k := t + 21) (by omega) fun k hk hk' => ?_
          by_contra hnext
          have := hslow (t + 1) k hk hchange (eq_true_of_ne_false hnext)
          omega
      | false =>
          rw [if_neg fun h => Bool.false_ne_true (hchange.symm.trans ((hend (t + 1)).mp h)), ih]
          rw [changes, bne_eq_false_iff_eq] at hchange
          exact hchange.symm

theorem filter_slow (hlow : puls 0 = false) (hslow : Slow puls) (t : Nat) :
    (run puls t).filter = (decide (23 ≤ t) && puls (t - 23)) := by
  cases Nat.lt_or_ge t 23 with
  | inl hlt => rw [filter_early hlt, decide_eq_false (Nat.not_le_of_lt hlt), Bool.false_and]
  | inr hge =>
      obtain ⟨k, rfl⟩ := Nat.exists_eq_add_of_le hge
      rw [filter_late hlow hslow, decide_eq_true hge, Nat.add_sub_cancel_left, Bool.true_and]

end FilterEncode

/-- The filters of the lines A and B of an axis and its counter. -/
structure EncoderChannel where
  encA : FilterEncode
  encB : FilterEncode
  encode : EncodePd

namespace EncoderChannel

def reset : EncoderChannel := ⟨.reset, .reset, .reset⟩

def clock (combine : BitVec 32 → BitVec 32 → BitVec 32) (s : EncoderChannel)
    (i : EncoderInput) : EncoderChannel where
  encA := filterEncode s.encA i.plusA
  encB := filterEncode s.encB i.plusB
  encode := s.encode.clock combine ⟨s.encA.filter, s.encB.filter, i.renew⟩

/-- A run from the reset without `renew`, with the lines in quadrature. -/
def run (combine : BitVec 32 → BitVec 32 → BitVec 32) (q : Quadrature) :
    Nat → EncoderChannel := trace (clock combine) reset (EncodePd.channels q)

/-- What the last publication before cycle `t` has seen of the lines. -/
def seen (t : Nat) : Nat := EncodePd.published t - 26

/-- The published position: of X, Y and Z the distance travelled, of A the displacement, two
more after a backward transition. -/
structure Shows (q : Quadrature) : Prop where
  travelled : ∀ t, (run (· + ·) q t).encode.totalCount = BitVec.ofNat 32 (q.travelled (seen t))
  net : (∀ s t, s < t → q.moved s = true → q.moved t = true → s + 3 ≤ t) →
    ∀ t, (run (· - ·) q t).encode.totalCount =
      BitVec.ofInt 32 (q.net (seen t) + if q.lastBackward (seen t) then 2 else 0)

section Run

variable (combine : BitVec 32 → BitVec 32 → BitVec 32) {q : Quadrature}

theorem run_encA (t : Nat) : (run combine q t).encA = FilterEncode.run q.a t := by
  have hstep (s : EncoderChannel) (i : EncoderInput) :
      (s.clock combine i).encA = filterEncode s.encA i.plusA := rfl
  exact trace_part (p := encA) hstep t

theorem run_encB (t : Nat) : (run combine q t).encB = FilterEncode.run q.b t := by
  have hstep (s : EncoderChannel) (i : EncoderInput) :
      (s.clock combine i).encB = filterEncode s.encB i.plusB := rfl
  exact trace_part (p := encB) hstep t

/-- Behind slow lines the counter runs as behind lines that come 23 cycles later. -/
theorem run_encode (hA : FilterEncode.Slow q.a) (hB : FilterEncode.Slow q.b) (t : Nat) :
    (run combine q t).encode = EncodePd.run combine (q.delay 23) t := by
  induction t with
  | zero => rfl
  | succ t ih =>
      have hstep : (run combine q (t + 1)).encode = (run combine q t).encode.clock combine
          ⟨(run combine q t).encA.filter, (run combine q t).encB.filter, false⟩ := rfl
      rw [hstep, ih, run_encA, run_encB, FilterEncode.filter_slow q.low_a hA,
        FilterEncode.filter_slow q.low_b hB]
      rfl

end Run

theorem seen_eq (t : Nat) : EncodePd.published t - 3 - 23 = seen t := by
  rw [Nat.sub_sub]
  rfl

theorem delay_spaced {q : Quadrature} {d n : Nat}
    (hspaced : ∀ s t, s < t → q.moved s = true → q.moved t = true → s + n ≤ t) (s t : Nat)
    (hst : s < t) (hs : (q.delay d).moved s = true) (ht : (q.delay d).moved t = true) :
    s + n ≤ t := by
  have hlate (k : Nat) (hk : (q.delay d).moved k = true) : d ≤ k := by
    by_contra hearly
    rw [q.delay_moved_early d (Nat.lt_of_not_le hearly)] at hk
    cases hk
  obtain ⟨s, rfl⟩ := Nat.exists_eq_add_of_le (hlate s hs)
  obtain ⟨t, rfl⟩ := Nat.exists_eq_add_of_le (hlate t ht)
  rw [Quadrature.delay_moved_late] at hs ht
  have := hspaced s t (by omega) hs ht
  omega

/-- From the lines to the published position, for lines that change slowly. -/
theorem shows_of_slow (q : Quadrature) (hA : FilterEncode.Slow q.a) (hB : FilterEncode.Slow q.b) :
    Shows q where
  travelled t := by
    rw [run_encode _ hA hB, EncodePd.run_totalCount _ _ rfl, EncodePd.run_sum,
      (q.delay_counts 23 _).1, seen_eq]
  net hspaced t := by
    obtain ⟨-, hnet, hlast⟩ := q.delay_counts 23 (EncodePd.published t - 3)
    have hsub := EncodePd.counters_sub (· - ·)
      ⟨q.delay 23, delay_spaced hspaced⟩ (EncodePd.published t)
    rw [run_encode _ hA hB, EncodePd.run_totalCount _ _ rfl, hsub, hnet, hlast, seen_eq]

/-- One step forward, seen by the filter and the counter. -/
def once : Quadrature where
  a t := decide (30 ≤ t)
  b _ := false
  low_a := rfl
  low_b := rfl
  single _ := .inr rfl

theorem shows_once : Shows once := by
  refine shows_of_slow once ?_ ?_
  · intro s t hst hs ht
    have hchange (k : Nat) (hk : FilterEncode.changes once.a k = true) : k = 0 ∨ k = 30 := by
      cases k with
      | zero => exact .inl rfl
      | succ k =>
          simp only [FilterEncode.changes, FilterEncode.before, once, bne_iff_ne, ne_eq,
            decide_eq_decide] at hk
          omega
    have hs := hchange s hs
    have ht := hchange t ht
    omega
  · intro s t hst _ ht
    cases t with
    | zero => exact absurd hst (Nat.not_lt_zero s)
    | succ t => exact absurd ht Bool.false_ne_true

end EncoderChannel

end CncCard
