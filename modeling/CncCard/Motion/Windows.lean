import CncCard.Motion.Schedule

/-!
Pulse counts over whole words. A word stays on the dda input for 250001 cycles
while the accumulation window is 249999 cycles long, so the windows slide two
cycles further ahead of the words with each word: the `j`-th window starts with
`2 * j + 2` cycles at the rate of the word before.
-/

namespace CncCard
open Clocked

def Command.count (w : Command) (ax : Axis) : Nat := (w.steps ax).toNat

theorem Command.count_le (w : Command) (ax : Axis) : w.count ax ≤ 127 := by
  have := (w.steps ax).isLt
  simp only [Command.count]
  omega

namespace MotionPath

/-- The pulses of an axis in one direction, over the cycles `t₁ ≤ t < t₂`. -/
def pulses (r : Nat → MotionPath) (inp : Nat → MotionInput) (ax : Axis) (d : Bool)
    (t₁ t₂ : Nat) : Nat :=
  edges (fun t => (r t).puls (inp t) ax) (fun t => (r t).dir (inp t) ax == d) t₁ t₂

/-- No word reaches the threshold of an accumulator within the cycles that the
next window starts with before the next word arrives there. -/
structure Quiet (q₀ : Command) (ws : List Command) : Prop where
  early : ∀ ax, ∀ k < ws.length, ((q₀ :: ws).getD k 0).count ax * (2 * k + 4) < 125000
  last : ∀ ax, ((q₀ :: ws).getD ws.length 0).count ax * (2 * ws.length) < 125000
  short : 2 * ws.length + 2 ≤ 249997

variable {fifo33 : RegFifo Command 2048} {fifo31 : RegFifo (BitVec 64) 2048}
  {inp : Nat → MotionInput}

theorem interp_run (hvalid : ∀ t, (inp t).valid = true) (ax : Axis) (t : Nat) :
    ((run fifo33 fifo31 inp t).dda.lane ax).interp =
      Interpolation.running
        (fun t => ((run fifo33 fifo31 inp t).dda.lane ax).data) t := by
  induction t with
  | zero => simp [run, start, Lane.cleared, Interpolation.running]
  | succ t ih =>
      rw [run_succ, Interpolation.running_succ, ← ih]
      simp only [clock, dda_lane, Lane.clock, hvalid]

variable (fifo33 fifo31 inp) in
theorem data_le (ax : Axis) (t : Nat) :
    ((run fifo33 fifo31 inp t).dda.lane ax).data.toNat ≤ 127 := by
  cases t with
  | zero => simp [run, start, Lane.cleared]
  | succ t =>
      rw [run_succ]
      simp only [clock, dda_lane, Lane.clock]
      split
      · have := ((run fifo33 fifo31 inp t).ddaDatain.steps ax).isLt
        rw [BitVec.toNat_setWidth_of_le (by omega)]
        omega
      · simp

section Enabled

variable (hvalid : ∀ t, (inp t).valid = true) (h31 : fifo31.words ≠ [])
include hvalid h31

/-- A word that is read reaches the accumulator two registers later. -/
theorem dataReg_run (ax : Axis) (t : Nat) :
    ((run fifo33 fifo31 inp (t + 2)).dda.lane ax).interp.dataReg =
      (run fifo33 fifo31 inp t).fifo33.q.count ax := by
  rw [run_succ, run_succ]
  simp only [clock, dda_lane, Lane.clock, interpolation, hvalid, if_true]
  have hq := ddaDatain_run fifo33 fifo31 inp h31 t
  simp only [ddaDatain] at hq ⊢
  rw [hq, BitVec.toNat_setWidth_of_le (by omega)]
  rfl

variable (fifo33) in
theorem dir_run (ax : Axis) (t : Nat) :
    (run fifo33 fifo31 inp (t + 1)).dir (inp (t + 1)) ax =
      (run fifo33 fifo31 inp t).fifo33.q.dir ax := by
  have hq := ddaDatain_run fifo33 fifo31 inp h31 t
  simp only [dir, SelAssign.select, hvalid, if_true, run_succ]
  simp only [clock, dda_lane, Lane.clock, hvalid, if_true, hq]

omit h31 in
theorem puls_run (ax : Axis) (t : Nat) :
    (run fifo33 fifo31 inp t).puls (inp t) ax =
      ((run fifo33 fifo31 inp t).dda.lane ax).interp.q := by
  simp only [puls, SelAssign.select, hvalid, if_true]

omit h31 in
theorem window_rises (ax : Axis) {j : Nat} (hj : 0 < j) (i : Nat) (hi : i ≤ 249998) :
    edges (fun t => (run fifo33 fifo31 inp t).puls (inp t) ax) (fun _ => true)
        (249999 * j + 2) (249999 * j + 2 + i) =
      Accumulator.rises clocks (clocks / 2)
        (fun k => ((run fifo33 fifo31 inp (249999 * j + 1 + k)).dda.lane ax).interp.dataReg)
        i := by
  have h := Interpolation.running_edges (c := 249999 * j + 1) (n := 249998)
    (fun k => Interpolation.running_dataReg_le (data_le fifo33 fifo31 inp ax)
      (249999 * j + 1 + k))
    (fun _ _ => rfl) (Interpolation.running_clear _ hj)
    (fun k hk => Interpolation.running_flag_low _ j hk) i hi
  simp only [← interp_run hvalid] at h
  rw [← h]
  simp only [puls, SelAssign.select, hvalid, if_true]

omit h31 in
/-- The cycle that clears the accumulator also ends a pulse that is still high. -/
theorem q_clear (ax : Axis) {j : Nat} (hj : 0 < j) :
    ((run fifo33 fifo31 inp (249999 * j + 1)).dda.lane ax).interp.q = false := by
  rw [interp_run hvalid]
  exact congrArg Accumulator.Cell.out (Interpolation.running_clear _ hj)

omit h31 in
theorem window_edges (ax : Axis) {j : Nat} (hj : 0 < j) :
    edges (fun t => (run fifo33 fifo31 inp t).puls (inp t) ax) (fun _ => true)
        (249999 * j + 2) (249999 * (j + 1) + 2) =
      Accumulator.rises clocks (clocks / 2)
        (fun k => ((run fifo33 fifo31 inp (249999 * j + 1 + k)).dda.lane ax).interp.dataReg)
        249998 := by
  rw [← window_rises hvalid ax hj 249998 (le_refl _),
    show 249999 * (j + 1) + 2 = (249999 * (j + 1) + 1) + 1 by omega,
    edges_succ_low _ (by omega)
      ((puls_run hvalid ax _).trans (q_clear hvalid ax (by omega))),
    show 249999 * j + 2 + 249998 = 249999 * (j + 1) + 1 by omega]

end Enabled

section Executed

variable {ws : List Command} (hvalid : ∀ t, (inp t).valid = true) (h31 : fifo31.words ≠ [])
  (hexec : Executes (run fifo33 fifo31 inp) fifo33.q ws)
include hvalid hexec h31

theorem rate_executed (ax : Axis) {j k : Nat} (hj : 0 < j)
    (hk : 249999 * j + k ≤ 250001 * (ws.length + 1) + 1) :
    ((run fifo33 fifo31 inp (249999 * j + 1 + k)).dda.lane ax).interp.dataReg =
      ((fifo33.q :: ws).getD ((249999 * j + k - 2) / 250001) 0).count ax := by
  rw [show 249999 * j + 1 + k = (249999 * j + k - 1) + 2 by omega,
    dataReg_run hvalid h31, hexec _ (by omega),
    show 249999 * j + k - 1 - 1 = 249999 * j + k - 2 by omega]

theorem rate_old (ax : Axis) {j k : Nat} (hj : j ≤ ws.length) (hk : k < 2 * j + 4)
    (hshort : 2 * ws.length + 2 ≤ 249997) :
    ((run fifo33 fifo31 inp (249999 * (j + 1) + 1 + k)).dda.lane ax).interp.dataReg =
      ((fifo33.q :: ws).getD j 0).count ax := by
  rw [rate_executed hvalid h31 hexec ax (by omega) (by omega),
    show (249999 * (j + 1) + k - 2) / 250001 = j by omega]

theorem rate_new (ax : Axis) {j k : Nat} (hj : j < ws.length) (hk : 2 * j + 4 ≤ k)
    (hlast : k < 249997) :
    ((run fifo33 fifo31 inp (249999 * (j + 1) + 1 + k)).dda.lane ax).interp.dataReg =
      (ws.getD j 0).count ax := by
  rw [rate_executed hvalid h31 hexec ax (by omega) (by omega),
    show (249999 * (j + 1) + k - 2) / 250001 = j + 1 by omega, List.getD_cons_succ]

theorem dir_executed (ax : Axis) {j t : Nat} (hj : j ≤ ws.length)
    (hlow : 250001 * j + 2 ≤ t) (hhigh : t < 250001 * (j + 1) + 2) :
    (run fifo33 fifo31 inp t).dir (inp t) ax = ((fifo33.q :: ws).getD j 0).dir ax := by
  obtain ⟨t, rfl⟩ : ∃ s, t = s + 1 := ⟨t - 1, by omega⟩
  rw [dir_run _ hvalid h31, hexec t (by
    have : 250001 * (j + 1) ≤ 250001 * (ws.length + 1) :=
      Nat.mul_le_mul_left _ (by omega)
    omega), show (t - 1) / 250001 = j by omega]

/-- The first cycles of a window, at the rate of the old word, give no pulse. -/
theorem window_start (ax : Axis) {j i : Nat} (hj : j ≤ ws.length) (hi : i ≤ 2 * j + 4)
    (hshort : 2 * ws.length + 2 ≤ 249997) (hwindow : i ≤ 249997)
    (hlow : ((fifo33.q :: ws).getD j 0).count ax * i < 125000) :
    edges (fun t => (run fifo33 fifo31 inp t).puls (inp t) ax) (fun _ => true)
        (249999 * (j + 1) + 2) (249999 * (j + 1) + 2 + (i + 1)) = 0 := by
  rw [window_rises hvalid ax (by omega) _ (by omega)]
  exact Accumulator.rises_low_rate (by decide)
    (fun k hk => rate_old hvalid h31 hexec ax hj (by omega) hshort) hlow _ (le_refl _)

variable (hquiet : Quiet fifo33.q ws)
include hquiet

theorem window_rate (ax : Axis) {j : Nat} (hj : j < ws.length) :
    edges (fun t => (run fifo33 fifo31 inp t).puls (inp t) ax) (fun _ => true)
        (249999 * (j + 1) + 2) (249999 * (j + 1 + 1) + 2) ≤ (ws.getD j 0).count ax ∧
    (edges (fun t => (run fifo33 fifo31 inp t).puls (inp t) ax) (fun _ => true)
        (249999 * (j + 1) + 2) (249999 * (j + 1 + 1) + 2) = (ws.getD j 0).count ax ↔
      (ws.getD j 0).count ax * (2 * j + 6 + (ws.getD j 0).count ax) ≤
        ((fifo33.q :: ws).getD j 0).count ax * (2 * j + 4) + 125000) := by
  have hshort := hquiet.short
  have hle (k : Nat) : ((run fifo33 fifo31 inp
      (249999 * (j + 1) + 1 + k)).dda.lane ax).interp.dataReg ≤ 127 := by
    rw [interp_run hvalid]
    exact Interpolation.running_dataReg_le (data_le fifo33 fifo31 inp ax) _
  have hH (k : Nat) := (hle k).trans (show 127 ≤ clocks / 2 by decide)
  have hC (k : Nat) := (Nat.add_le_add_right (hle k) (clocks / 2)).trans
    (show 127 + clocks / 2 ≤ clocks by decide)
  have hold (k : Nat) (hk : k < 2 * j + 4) :=
    rate_old hvalid h31 hexec ax (by omega) hk hshort
  have hnew (k : Nat) (hk : 2 * j + 4 ≤ k) (hn : k < 249997) :=
    rate_new hvalid h31 hexec ax hj hk hn
  have hlow := hquiet.early ax j hj
  rw [window_edges hvalid ax (by omega)]
  constructor
  · exact Accumulator.rises_two_rate_le (by decide) hH hC (by omega) (by decide)
      hold hnew hlow
  · rw [Accumulator.rises_two_rate (by decide) hH hC (by omega) (by decide) hold hnew hlow]
    have hexpand : (ws.getD j 0).count ax *
        (clocks + (2 * j + 4) + (ws.getD j 0).count ax) =
        (ws.getD j 0).count ax * (2 * j + 6 + (ws.getD j 0).count ax) +
          (ws.getD j 0).count ax * 249998 := by
      simp only [clocks]
      ring
    rw [hexpand]
    simp only [clocks]
    omega

/-- All pulses of a window go in the direction of the word it belongs to. -/
theorem window_pulses (ax : Axis) (d : Bool) {j : Nat} (hj : j < ws.length) :
    pulses (run fifo33 fifo31 inp) inp ax d
        (249999 * (j + 1) + 2) (249999 * (j + 1 + 1) + 2) =
      if (ws.getD j 0).dir ax = d then
        edges (fun t => (run fifo33 fifo31 inp t).puls (inp t) ax) (fun _ => true)
          (249999 * (j + 1) + 2) (249999 * (j + 1 + 1) + 2)
      else 0 := by
  have hshort := hquiet.short
  have hstart := window_start hvalid h31 hexec ax (j := j) (i := 2 * j + 4) (by omega)
    (by omega) hshort (by omega) (hquiet.early ax j hj)
  have hdir (t : Nat) (hlow : 249999 * (j + 1) + 2 + (2 * j + 4 + 1) ≤ t)
      (hhigh : t < 249999 * (j + 1 + 1) + 2) :
      ((run fifo33 fifo31 inp t).dir (inp t) ax == d) = ((ws.getD j 0).dir ax == d) := by
    rw [dir_executed hvalid h31 hexec ax (j := j + 1) (by omega) (by omega) (by omega),
      List.getD_cons_succ]
  rw [pulses, ← edges_append _ _ (b := 249999 * (j + 1) + 2 + (2 * j + 4 + 1))
    (by omega) (by omega), edges_eq_zero_of_all _ hstart, Nat.zero_add, edges_const hdir,
    ← edges_append _ (fun _ => true) (a := 249999 * (j + 1) + 2)
      (b := 249999 * (j + 1) + 2 + (2 * j + 4 + 1)) (by omega) (by omega),
    hstart, Nat.zero_add]
  simp only [beq_iff_eq]

/-- From the arrival of the first word until the word behind the last takes its
place, the pulses are those of the windows of the list. -/
theorem edges_executed (p : Nat → Bool) (ax : Axis) :
    edges (fun t => (run fifo33 fifo31 inp t).puls (inp t) ax) p
        250002 (250001 * (ws.length + 1) + 1) =
      ∑ k ∈ Finset.range ws.length,
        edges (fun t => (run fifo33 fifo31 inp t).puls (inp t) ax) p
          (249999 * (k + 1) + 2) (249999 * (k + 1 + 1) + 2) := by
  have hshort := hquiet.short
  have hfirst := window_start hvalid h31 hexec ax (j := 0) (i := 0) (by omega)
    (by omega) hshort (by omega) (by simp)
  have hlast := window_start hvalid h31 hexec ax (j := ws.length) (i := 2 * ws.length)
    (by omega) (by omega) hshort (by omega) (hquiet.last ax)
  have hwindows := sum_edges (fun t => (run fifo33 fifo31 inp t).puls (inp t) ax) p
    (f := fun k => 249999 * (k + 1) + 2) (fun a b hab => by
      show 249999 * (a + 1) + 2 ≤ 249999 * (b + 1) + 2
      omega) ws.length
  rw [hwindows]
  cases Nat.eq_zero_or_pos ws.length with
  | inl h0 => simp [h0, edges_self]
  | inr hpos =>
      rw [← edges_append _ p (a := 249999 * (0 + 1) + 2) (b := 250002) (by omega) (by omega),
        edges_eq_zero_of_all p hfirst, Nat.zero_add,
        ← edges_append _ p (b := 249999 * (ws.length + 1) + 2) (by omega) (by omega),
        show 250001 * (ws.length + 1) + 1 =
          249999 * (ws.length + 1) + 2 + (2 * ws.length + 1) by omega,
        edges_eq_zero_of_all p hlast, Nat.add_zero]

end Executed

end MotionPath

end CncCard
