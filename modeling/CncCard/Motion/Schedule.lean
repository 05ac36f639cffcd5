import CncCard.Motion.Path
import Mathlib.Data.List.GetD
import Mathlib.Data.List.Infix

/-!
When words leave `fifo33`. The output register always holds the last word read,
and while the path is enabled and the queue does not run empty one word leaves
every 250001 cycles.
-/

namespace CncCard.MotionPath
open Clocked

variable {fifo33 : RegFifo Command 2048} {fifo31 : RegFifo (BitVec 64) 2048}
  {inp : Nat → MotionInput}

theorem run_succ (t : Nat) :
    run fifo33 fifo31 inp (t + 1) = (run fifo33 fifo31 inp t).clock (inp t) := rfl

theorem popped_grows (r : Nat → MotionPath) {s t : Nat} (h : s ≤ t) :
    popped r s <+: popped r t := by
  induction t, h using Nat.le_induction with
  | base => exact List.prefix_rfl
  | succ t _ ih => exact ih.trans (List.prefix_append _ _)

theorem popped_length_mono (r : Nat → MotionPath) {s t : Nat} (h : s ≤ t) :
    (popped r s).length ≤ (popped r t).length :=
  (popped_grows r h).length_le

theorem popped_length_lt {r : Nat → MotionPath} {s t : Nat} (hs : (r s).pop ≠ [])
    (hst : s < t) : (popped r s).length < (popped r t).length := by
  have hmono := popped_length_mono r (Nat.succ_le_of_lt hst)
  have hpos := List.length_pos_iff.mpr hs
  simp only [popped, List.length_append] at hmono
  omega

theorem run_q (t : Nat) :
    (run fifo33 fifo31 inp t).fifo33.q =
      (popped (run fifo33 fifo31 inp) t).getLastD fifo33.q := by
  induction t with
  | zero => rfl
  | succ t ih =>
      rw [run_succ]
      simp only [clock, RegFifo.clock_q, ih, popped, pop]
      cases h : Fifo.taken _ _ with
      | nil => simp
      | cons w ws => simp [List.getLastD_eq_getLast?]

/-- The words that `fifo33` has taken in the first `t` cycles. -/
def written (r : Nat → MotionPath) (inp : Nat → MotionInput) : Nat → List Command
  | 0 => []
  | t + 1 => written r inp t ++ (r t).fifo33.accepted (inp t).fifo33Write

variable (fifo33 fifo31 inp) in
/-- What has been read, followed by what waits, is what was queued. -/
theorem popped_append_words (t : Nat) :
    popped (run fifo33 fifo31 inp) t ++ (run fifo33 fifo31 inp t).fifo33.words =
      fifo33.words ++ written (run fifo33 fifo31 inp) inp t := by
  induction t with
  | zero => simp [popped, written, run, start]
  | succ t ih =>
      rw [run_succ, popped, written, List.append_assoc, ← List.append_assoc fifo33.words, ← ih,
        List.append_assoc]
      congr 1
      exact Fifo.taken_append_clock _ _ _

variable (fifo33 fifo31 inp) in
theorem ddaDatain_run (h31 : fifo31.words ≠ []) (t : Nat) :
    (run fifo33 fifo31 inp t).ddaDatain = (run fifo33 fifo31 inp t).fifo33.q := by
  have hne : (run fifo33 fifo31 inp t).fifo31.words ≠ [] :=
    trace_invariant (P := fun s : MotionPath => s.fifo31.words ≠ []) h31
      (fun s i h => fifo31_ne_nil h i) t
  simp [ddaDatain, SelAssign.dataout, Fifo.isEmpty_eq_false.mpr hne]

section Spacing

theorem counter_of_clkout {t : Nat} (h : (run fifo33 fifo31 inp (t + 1)).clk2ms.clkout = true) :
    (run fifo33 fifo31 inp t).clk2ms.counter = 250000 ∧
      (run fifo33 fifo31 inp (t + 1)).clk2ms.counter = 0 := by
  rw [run_succ] at h ⊢
  simp only [clock, CncCard.clk2ms] at h ⊢
  split at h
  · split at h
    · next hvalid hend => simp [hvalid, hend]
    · simp at h
  · simp at h

theorem counter_succ_le (t : Nat) :
    (run fifo33 fifo31 inp (t + 1)).clk2ms.counter ≤
      (run fifo33 fifo31 inp t).clk2ms.counter + 1 := by
  rw [run_succ]
  simp only [clock, CncCard.clk2ms]
  split
  · split
    · exact Nat.zero_le _
    · exact Nat.mod_le _ _
  · exact Nat.zero_le _

/-- Two read requests are at least 250001 cycles apart. -/
theorem clkout_spaced {p p' : Nat} (hlt : p < p')
    (h : (run fifo33 fifo31 inp p).clk2ms.clkout = true)
    (h' : (run fifo33 fifo31 inp p').clk2ms.clkout = true) : p + 250001 ≤ p' := by
  obtain ⟨k, rfl⟩ : ∃ k, p' = p + k + 1 := ⟨p' - p - 1, by omega⟩
  have hzero : (run fifo33 fifo31 inp p).clk2ms.counter = 0 := by
    cases p with
    | zero => rfl
    | succ p => exact (counter_of_clkout h).2
  have hle (i : Nat) : (run fifo33 fifo31 inp (p + i)).clk2ms.counter ≤ i := by
    induction i with
    | zero => simp [hzero]
    | succ i ih => exact (counter_succ_le (p + i)).trans (by omega)
  have hfull := (counter_of_clkout h').1
  have := hle k
  omega

theorem clkout_start {t : Nat} (ht : t < 250001) :
    (run fifo33 fifo31 inp t).clk2ms.clkout = false := by
  have hle (i : Nat) : (run fifo33 fifo31 inp i).clk2ms.counter ≤ i := by
    induction i with
    | zero => exact le_refl 0
    | succ i ih => exact (counter_succ_le i).trans (by omega)
  cases t with
  | zero => rfl
  | succ t =>
      cases h : (run fifo33 fifo31 inp (t + 1)).clk2ms.clkout with
      | false => rfl
      | true =>
          have := (counter_of_clkout h).1
          have := hle t
          omega

theorem q_start {t : Nat} (ht : t ≤ 250001) :
    (run fifo33 fifo31 inp t).fifo33.q = fifo33.q := by
  induction t with
  | zero => rfl
  | succ t ih =>
      rw [run_succ]
      simp only [clock, RegFifo.clock, clkout_start (t := t) (by omega), Bool.false_eq_true,
        if_false]
      exact ih (by omega)

variable (fifo33 fifo31 inp) in
theorem pop_eq_nil_or (t : Nat) :
    (run fifo33 fifo31 inp t).pop = [] ∨
      ∃ w, (run fifo33 fifo31 inp t).pop = [w] ∧
        (run fifo33 fifo31 inp t).clk2ms.clkout = true := by
  simp only [pop, Fifo.taken]
  cases (run fifo33 fifo31 inp t).clk2ms.clkout with
  | false => exact .inl rfl
  | true =>
      cases (run fifo33 fifo31 inp t).fifo33.words with
      | nil => exact .inl rfl
      | cons w ws => exact .inr ⟨w, rfl, rfl⟩

theorem clkout_of_pop {t : Nat} (h : (run fifo33 fifo31 inp t).pop ≠ []) :
    (run fifo33 fifo31 inp t).clk2ms.clkout = true := by
  rcases pop_eq_nil_or fifo33 fifo31 inp t with hn | ⟨_, _, hc⟩
  · exact absurd hn h
  · exact hc

theorem q_after_pop {p : Nat} {w : Command} (h : (run fifo33 fifo31 inp p).pop = [w])
    {t : Nat} (ht : p < t)
    (hnone : ∀ s, p < s → s < t → (run fifo33 fifo31 inp s).pop = []) :
    (run fifo33 fifo31 inp t).fifo33.q = w := by
  induction t, ht using Nat.le_induction with
  | base =>
      rw [run_succ]
      simp only [clock, RegFifo.clock_q]
      simp only [pop] at h
      simp [h]
  | succ t ht ih =>
      rw [run_succ]
      simp only [clock, RegFifo.clock_q]
      have hidle := hnone t ht (Nat.lt_succ_self t)
      simp only [pop] at hidle
      rw [hidle]
      exact ih fun s hs hst => hnone s hs (by omega)

end Spacing

section Fed

variable {T : Nat} (hvalid : ∀ t, (inp t).valid = true)
  (hfed : ∀ t < T, (run fifo33 fifo31 inp t).fifo33.words ≠ [])
include hvalid hfed

theorem clk2ms_fed (t : Nat) (ht : t ≤ T) :
    (run fifo33 fifo31 inp t).clk2ms =
      ⟨t % 250001, decide (0 < t ∧ t % 250001 = 0)⟩ := by
  induction t with
  | zero => rfl
  | succ t ih =>
      have hne := Fifo.isEmpty_eq_false.mpr (hfed t (by omega))
      rw [run_succ]
      simp only [clock, CncCard.clk2ms, ih (by omega), hvalid, hne, Bool.not_false, Bool.and_self,
        if_true]
      by_cases hend : t % 250001 = 0x3d090
      · rw [if_pos hend, Clk2ms.mk.injEq]
        refine ⟨by omega, ?_⟩
        symm
        exact decide_eq_true (by omega)
      · rw [if_neg hend, Clk2ms.mk.injEq]
        refine ⟨by omega, ?_⟩
        symm
        exact decide_eq_false (by omega)

/-- One word leaves in each positive multiple of 250001. -/
theorem pop_fed (t : Nat) (ht : t < T) :
    (run fifo33 fifo31 inp t).pop.length = if 0 < t ∧ t % 250001 = 0 then 1 else 0 := by
  have hne := hfed t ht
  simp only [pop, clk2ms_fed hvalid hfed t (by omega), Fifo.taken]
  by_cases hp : 0 < t ∧ t % 250001 = 0
  · simp only [hp, decide_true, and_self, if_true, List.length_take]
    have := List.length_pos_iff.mpr hne
    omega
  · simp [hp]

theorem popped_length_fed (t : Nat) (ht : t ≤ T) :
    (popped (run fifo33 fifo31 inp) t).length = (t - 1) / 250001 := by
  induction t with
  | zero => rfl
  | succ t ih =>
      rw [popped, List.length_append, ih (by omega), pop_fed hvalid hfed t (by omega)]
      split <;> omega

/-- While the queue is fed, its output register holds word `(t - 1) / 250001`. -/
theorem q_fed {ws : List Command} (hws : popped (run fifo33 fifo31 inp) T = ws)
    (t : Nat) (ht : t ≤ T) :
    (run fifo33 fifo31 inp t).fifo33.q = (fifo33.q :: ws).getD ((t - 1) / 250001) 0 := by
  have hlen := popped_length_fed hvalid hfed t ht
  have hpre := popped_grows (run fifo33 fifo31 inp) ht
  rw [hws] at hpre
  rw [run_q, ← hlen]
  obtain ⟨rest, rfl⟩ := hpre
  generalize popped (run fifo33 fifo31 inp) t = old
  cases old using List.reverseRecOn with
  | nil => rfl
  | append_singleton xs w => simp [List.getLastD_eq_getLast?]

/-- What waits is what was queued without the words that had their turn. -/
theorem words_fed (t : Nat) (ht : t ≤ T) :
    (run fifo33 fifo31 inp t).fifo33.words =
      (fifo33.words ++ written (run fifo33 fifo31 inp) inp t).drop ((t - 1) / 250001) := by
  rw [← popped_append_words, ← popped_length_fed hvalid hfed t ht, List.drop_left']
  rfl

end Fed

variable (fifo33 fifo31 inp) in
theorem fed_of_length (hvalid : ∀ t, (inp t).valid = true) {T : Nat}
    (hlen : T ≤ 250001 * fifo33.words.length + 1) (hne : fifo33.words ≠ [])
    (t : Nat) (ht : t < T) :
    (run fifo33 fifo31 inp t).fifo33.words ≠ [] := by
  induction t using Nat.strong_induction_on with
  | _ t ih =>
      intro hnil
      have hpos := List.length_pos_iff.mpr hne
      have h := popped_append_words fifo33 fifo31 inp t
      have hcount := popped_length_fed (T := t) hvalid
        (fun s hs => ih s hs (by omega)) t (le_refl t)
      have hsum := congrArg List.length h
      simp only [hnil, List.append_nil, List.length_append] at hsum
      omega

/-- The output register holds `q₀` and then the words `ws`, one word period each. -/
def Executes (r : Nat → MotionPath) (q₀ : Command) (ws : List Command) : Prop :=
  ∀ t ≤ 250001 * (ws.length + 1), (r t).fifo33.q = (q₀ :: ws).getD ((t - 1) / 250001) 0

variable (fifo33 fifo31 inp) in
theorem executes_of_queued (hvalid : ∀ t, (inp t).valid = true) (ws rest : List Command)
    (hq : fifo33.words = ws ++ rest) (hne : ws ≠ []) :
    Executes (run fifo33 fifo31 inp) fifo33.q ws := by
  have hpos := List.length_pos_iff.mpr hne
  have hfed := fed_of_length fifo33 fifo31 inp
    (T := 250001 * ws.length + 1) hvalid
    (by rw [hq, List.length_append]; omega) (by rw [hq]; simp [hne])
  have hlen := popped_length_fed hvalid hfed _ (le_refl _)
  have hpopped : popped (run fifo33 fifo31 inp) (250001 * ws.length + 1) = ws := by
    have hall := popped_append_words fifo33 fifo31 inp
      (250001 * ws.length + 1)
    rw [hq, List.append_assoc] at hall
    exact (List.append_inj hall (by omega)).1
  intro t ht
  cases Nat.lt_or_ge (250001 * ws.length + 1) t with
  | inl hlate =>
      have hlast := pop_fed hvalid hfed (250001 * ws.length) (by omega)
      rw [if_pos ⟨by omega, by omega⟩] at hlast
      obtain ⟨w, hw⟩ := List.length_eq_one_iff.mp hlast
      have hclk := clkout_of_pop (show (run fifo33 fifo31 inp (250001 * ws.length)).pop ≠ [] by
        rw [hw]; simp)
      have hnone (s : Nat) (hs : 250001 * ws.length < s) (hst : s < t) :
          (run fifo33 fifo31 inp s).pop = [] := by
        by_contra hpop
        have := clkout_spaced hs hclk (clkout_of_pop hpop)
        omega
      have hq₁ := q_fed hvalid hfed hpopped (250001 * ws.length + 1) (le_refl _)
      have hq₂ := q_after_pop hw (Nat.lt_succ_self _) fun s hs hst => absurd hs (by omega)
      rw [q_after_pop hw (by omega) hnone, ← hq₂, hq₁]
      congr 1
      omega
  | inr hearly => exact q_fed hvalid hfed hpopped t hearly

variable (fifo33 fifo31 inp) in
/-- The words that are queued leave in turn, one word period after the other. -/
theorem pop_queued (hvalid : ∀ t, (inp t).valid = true) (ws : List Command) {w : Command}
    (rest : List Command) (hq : fifo33.words = ws ++ w :: rest) :
    (run fifo33 fifo31 inp (250001 * (ws.length + 1))).pop = [w] := by
  have hfed := fed_of_length fifo33 fifo31 inp
    (T := 250001 * (ws.length + 1) + 1) hvalid
    (by rw [hq, List.length_append, List.length_cons]; omega) (by rw [hq]; simp)
  have hlen := popped_length_fed hvalid hfed (250001 * (ws.length + 1)) (by omega)
  have hclk := clk2ms_fed hvalid hfed (250001 * (ws.length + 1)) (by omega)
  have hall := popped_append_words fifo33 fifo31 inp
    (250001 * (ws.length + 1))
  rw [hq, List.append_assoc] at hall
  have hrest := (List.append_inj hall (by omega)).2
  rw [pop, hclk, Fifo.taken, hrest]
  simp only [decide_eq_true_eq]
  rw [if_pos ⟨by omega, by omega⟩]
  rfl

end CncCard.MotionPath
