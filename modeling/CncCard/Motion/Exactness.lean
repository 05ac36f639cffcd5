import CncCard.Motion.Windows
import Mathlib.Algebra.Order.BigOperators.Group.Finset

/-!
Whole command lists. Two counters of different periods pace a word and its
accumulation window; the pulses still add up to the commanded steps, in the
commanded direction, as long as the slide between the two stays short enough
for every word of the list.
-/

namespace CncCard
open Clocked

/-- The steps that the words command on an axis in one direction. -/
def commanded (ax : Axis) (d : Bool) (ws : List Command) : Nat :=
  (ws.map fun w => if w.dir ax = d then w.count ax else 0).sum

theorem commanded_eq_sum (ax : Axis) (d : Bool) (ws : List Command) :
    commanded ax d ws = ∑ k ∈ Finset.range ws.length,
      if (ws.getD k 0).dir ax = d then (ws.getD k 0).count ax else 0 := by
  induction ws with
  | nil => rfl
  | cons w ws ih =>
      rw [List.length_cons, Finset.sum_range_succ', commanded, List.map_cons, List.sum_cons,
        Nat.add_comm]
      exact congrArg (· + _) ih

namespace MotionPath

/-- Word number `k`, counted from 1, is first on the dda input in cycle `t`. -/
def Arrives (r : Nat → MotionPath) (k t : Nat) : Prop :=
  ∃ s, t = s + 1 ∧ (popped r s).length + 1 = k ∧ (r s).pop ≠ []

/-- The first `n` words are executed exactly, from the arrival of the first until
the word behind the last takes its place. -/
def MotionExact (r : Nat → MotionPath) (inp : Nat → MotionInput) (n : Nat) : Prop :=
  ∃ t₁ t₂, Arrives r 1 t₁ ∧ Arrives r (n + 1) t₂ ∧
    ∀ ax d, pulses r inp ax d t₁ t₂ = commanded ax d ((popped r t₂).take n)

/-- The words `ws` and one more are read from a queue that does not run empty. -/
structure Feeds (r : Nat → MotionPath) (ws : List Command) : Prop where
  nonempty : ∀ t < 250001 * (ws.length + 1) + 1, (r t).fifo33.words ≠ []
  words : (popped r (250001 * (ws.length + 1) + 1)).take ws.length = ws

/-- The last pulse of each word still falls into its window, although the window
ran the word before in its first `2 * k + 4` cycles. -/
def Fits (q₀ : Command) (ws : List Command) : Prop :=
  ∀ ax, ∀ k < ws.length, (ws.getD k 0).count ax * (2 * k + 6 + (ws.getD k 0).count ax) ≤
    ((q₀ :: ws).getD k 0).count ax * (2 * k + 4) + 125000

variable {fifo33 : RegFifo Command 2048} {fifo31 : RegFifo (BitVec 64) 2048}
  {inp : Nat → MotionInput} {ws : List Command}

theorem arrives_unique {r : Nat → MotionPath} {k t t' : Nat}
    (h : Arrives r k t) (h' : Arrives r k t') : t = t' := by
  obtain ⟨s, rfl, hk, hs⟩ := h
  obtain ⟨s', rfl, hk', hs'⟩ := h'
  rcases Nat.lt_trichotomy s s' with hss | rfl | hss
  · have := popped_length_lt hs hss
    omega
  · rfl
  · have := popped_length_lt hs' hss
    omega

theorem feeds_of_queued (hvalid : ∀ t, (inp t).valid = true) {next : Command}
    {rest : List Command} (hq : fifo33.words = ws ++ next :: rest) :
    Feeds (run fifo33 fifo31 inp) ws := by
  have hfed := fed_of_length fifo33 fifo31 inp hvalid (T := 250001 * (ws.length + 1) + 1)
    (by rw [hq, List.length_append, List.length_cons]; omega) (by rw [hq]; simp)
  have hlen := popped_length_fed hvalid hfed _ (le_refl _)
  have hall := popped_append_words fifo33 fifo31 inp
    (250001 * (ws.length + 1) + 1)
  refine ⟨hfed, ?_⟩
  have htake := congrArg (List.take ws.length) hall
  rwa [List.take_append_of_le_length (by omega), hq, List.append_assoc,
    List.take_left' rfl] at htake

section Executed

variable (hvalid : ∀ t, (inp t).valid = true) (h31 : fifo31.words ≠ [])
  (hfeeds : Feeds (run fifo33 fifo31 inp) ws) (hquiet : Quiet fifo33.q ws)
include hvalid hfeeds

theorem executes_of_feeds : Executes (run fifo33 fifo31 inp) fifo33.q ws := by
  intro t ht
  have hq := q_fed hvalid hfeeds.nonempty rfl t (by omega)
  have hlen := popped_length_fed hvalid hfeeds.nonempty (250001 * (ws.length + 1) + 1)
    (le_refl _)
  have hidx : (t - 1) / 250001 < (fifo33.q :: ws).length := by
    simp only [List.length_cons]
    omega
  have hsplit := List.take_append_drop ws.length
    (popped (run fifo33 fifo31 inp) (250001 * (ws.length + 1) + 1))
  rw [hfeeds.words] at hsplit
  rw [hq, ← hsplit, ← List.cons_append, List.getD_append _ _ _ _ hidx]

theorem arrives_feeds {k : Nat} (hpos : 0 < k) (hk : k ≤ ws.length + 1) :
    Arrives (run fifo33 fifo31 inp) k (250001 * k + 1) := by
  have hlt : 250001 * k < 250001 * (ws.length + 1) + 1 := by omega
  refine ⟨250001 * k, rfl, ?_, ?_⟩
  · rw [popped_length_fed hvalid hfeeds.nonempty _ (by omega)]
    omega
  · have hpop := pop_fed hvalid hfeeds.nonempty _ hlt
    rw [if_pos ⟨by omega, by omega⟩] at hpop
    exact List.ne_nil_of_length_eq_add_one hpop

theorem motionExact_iff_pulses :
    MotionExact (run fifo33 fifo31 inp) inp ws.length ↔
      ∀ ax d, pulses (run fifo33 fifo31 inp) inp ax d 250002
        (250001 * (ws.length + 1) + 1) = commanded ax d ws := by
  have hfirst := arrives_feeds hvalid hfeeds (k := 1) (by omega) (by omega)
  have hlast := arrives_feeds hvalid hfeeds (k := ws.length + 1) (by omega) (by omega)
  constructor
  · rintro ⟨t₁, t₂, h₁, h₂, hexact⟩
    rw [arrives_unique h₁ hfirst, arrives_unique h₂ hlast, hfeeds.words] at hexact
    exact hexact
  · intro hexact
    refine ⟨_, _, hfirst, hlast, ?_⟩
    rw [hfeeds.words]
    exact hexact

include h31 hquiet

theorem pulses_executed (ax : Axis) (d : Bool) :
    pulses (run fifo33 fifo31 inp) inp ax d 250002 (250001 * (ws.length + 1) + 1) =
      ∑ k ∈ Finset.range ws.length, if (ws.getD k 0).dir ax = d then
        edges (fun t => (run fifo33 fifo31 inp t).puls (inp t) ax) (fun _ => true)
          (249999 * (k + 1) + 2) (249999 * (k + 1 + 1) + 2)
      else 0 := by
  rw [pulses, edges_executed hvalid h31 (executes_of_feeds hvalid hfeeds) hquiet]
  apply Finset.sum_congr rfl
  intro k hk
  exact window_pulses hvalid h31 (executes_of_feeds hvalid hfeeds) hquiet ax d
    (Finset.mem_range.mp hk)

theorem motionExact_of_fits (hfits : Fits fifo33.q ws) :
    MotionExact (run fifo33 fifo31 inp) inp ws.length := by
  rw [motionExact_iff_pulses hvalid hfeeds]
  intro ax d
  rw [pulses_executed hvalid h31 hfeeds hquiet, commanded_eq_sum]
  apply Finset.sum_congr rfl
  intro k hk
  have hk := Finset.mem_range.mp hk
  rw [(window_rate hvalid h31 (executes_of_feeds hvalid hfeeds) hquiet ax hk).2.mpr (hfits ax k hk)]

theorem fits_of_motionExact (hexact : MotionExact (run fifo33 fifo31 inp) inp ws.length) :
    Fits fifo33.q ws := by
  rw [motionExact_iff_pulses hvalid hfeeds] at hexact
  intro ax k hk
  have hle : ∀ j ∈ Finset.range ws.length, _ := fun j hj =>
    (window_rate hvalid h31 (executes_of_feeds hvalid hfeeds) hquiet ax (Finset.mem_range.mp hj)).1
  refine (window_rate hvalid h31 (executes_of_feeds hvalid hfeeds) hquiet ax hk).2.mp
    ((Finset.sum_eq_sum_iff_of_le hle).mp ?_ k (Finset.mem_range.mpr hk))
  have htotal (f : Nat → Nat) : ∑ j ∈ Finset.range ws.length, f j =
      (∑ j ∈ Finset.range ws.length, if (ws.getD j 0).dir ax = true then f j else 0) +
        ∑ j ∈ Finset.range ws.length, if (ws.getD j 0).dir ax = false then f j else 0 := by
    rw [← Finset.sum_add_distrib]
    apply Finset.sum_congr rfl
    intro j _
    cases (ws.getD j 0).dir ax <;> simp
  rw [htotal, htotal fun j => (ws.getD j 0).count ax,
    ← pulses_executed hvalid h31 hfeeds hquiet, ← pulses_executed hvalid h31 hfeeds hquiet,
    ← commanded_eq_sum, ← commanded_eq_sum, hexact, hexact]

end Executed

/-- A list whose words stay below the threshold where windows overlap is executed
exactly if and only if the last pulse of each word still fits into its window. -/
theorem motionExact_iff_fits (fifo33 : RegFifo Command 2048)
    (fifo31 : RegFifo (BitVec 64) 2048) (inp : Nat → MotionInput) (ws : List Command)
    (hvalid : ∀ t, (inp t).valid = true) (h31 : fifo31.words ≠ [])
    (hfeeds : Feeds (run fifo33 fifo31 inp) ws) (hquiet : Quiet fifo33.q ws) :
    MotionExact (run fifo33 fifo31 inp) inp ws.length ↔ Fits fifo33.q ws :=
  ⟨fits_of_motionExact hvalid h31 hfeeds hquiet, motionExact_of_fits hvalid h31 hfeeds hquiet⟩

/-- X goes 100 steps forth with 3 of Y, then 40 back with 127 of Z forth, then Z goes 127 back
with 90 of Y and 25 of A forth. -/
def forthAndBack : List Command := [0x100001E4, 0x401FC028, 0xA33FED00]

theorem quiet_forthAndBack : Quiet 0 forthAndBack where
  early ax := by cases ax <;> decide
  last ax := by cases ax <;> decide
  short := by decide

theorem fits_forthAndBack : Fits 0 forthAndBack := by
  intro ax
  cases ax <;> decide

theorem motionExact_forthAndBack :
    MotionExact (run ⟨⟨forthAndBack ++ [0], by decide⟩, 0⟩ ⟨⟨[0], by decide⟩, 0⟩
      fun _ => .enabled) (fun _ => .enabled) 3 :=
  (motionExact_iff_fits _ _ _ forthAndBack (fun _ => rfl) (by decide)
    (feeds_of_queued (fun _ => rfl) rfl) quiet_forthAndBack).mpr fits_forthAndBack

def idleThen (n : Nat) (w : Command) : List Command := List.replicate n 0 ++ [w]

@[simp] theorem length_idleThen (n : Nat) (w : Command) : (idleThen n w).length = n + 1 := by
  simp [idleThen]

theorem idleThen_last (n : Nat) (w : Command) : (idleThen n w).getD n 0 = w := by
  rw [idleThen, List.getD_append_right _ _ _ _ (by simp)]
  simp

theorem idleThen_idle (n : Nat) (w : Command) {k : Nat} (hk : k ≤ n) :
    ((0 : Command) :: idleThen n w).getD k 0 = 0 := by
  cases k with
  | zero => rfl
  | succ k =>
      rw [List.getD_cons_succ, idleThen, List.getD_append _ _ _ _ (by simpa using hk),
        List.getD_eq_getElem _ _ (by simpa using hk), List.getElem_replicate]

theorem count_zero (ax : Axis) : (0 : Command).count ax = 0 := by
  cases ax <;> rfl

theorem quiet_idleThen {n : Nat} {w : Command} (hn : 2 * n + 4 ≤ 249997)
    (hw : ∀ ax, w.count ax * (2 * (n + 1)) < 125000) : Quiet 0 (idleThen n w) := by
  refine ⟨?_, ?_, ?_⟩
  · intro ax k hk
    rw [length_idleThen] at hk
    rw [idleThen_idle n w (by omega), count_zero]
    omega
  · intro ax
    rw [length_idleThen, List.getD_cons_succ, idleThen_last]
    exact hw ax
  · rw [length_idleThen]
    omega

/-- After 449 idle words the windows have slid too far for a word of 127 steps. -/
theorem motionExact_idle_false :
    ¬ MotionExact (run ⟨⟨idleThen 449 127 ++ [0], by simp⟩, 0⟩ ⟨⟨[0], by decide⟩, 0⟩
      fun _ => .enabled) (fun _ => .enabled) (idleThen 449 127).length := by
  intro hexact
  have hquiet : Quiet 0 (idleThen 449 127) :=
    quiet_idleThen (by omega) fun ax => by cases ax <;> decide
  have hfits := fits_of_motionExact (fun _ => rfl) (by decide)
    (feeds_of_queued (fun _ => rfl) rfl) hquiet hexact .x 449 (by simp)
  rw [idleThen_idle 449 127 (le_refl _), idleThen_last] at hfits
  revert hfits
  decide

end MotionPath

end CncCard
