import CncCard.Motion.Stops

/-!
What a stop does to the commanded motion: the word it interrupts is executed once
more as a whole, so the steps already made of it are made twice.
-/

namespace CncCard
open Clocked

namespace MotionPath

variable {fifo33 : RegFifo Command 2048} {fifo31 : RegFifo (BitVec 64) 2048}
  {inp : Nat → MotionInput}

/-- What stops do to a run: the registers start afresh, `fifo33` shows the last word
it gave for another word period, and that word is executed once more as a whole. -/
structure Replays (r : Nat → MotionPath) (q₀ : Command) (valid : Nat → Bool) : Prop where
  restarted : ∀ t, valid t = false → r (t + 1) = start (r (t + 1)).fifo33 (r (t + 1)).fifo31
  held : ∀ t, valid t = false → ∀ s, t < s → s ≤ t + 250002 →
    (r s).fifo33.q = (popped r (t + 1)).getLastD q₀
  again : ∀ t, valid t = false → (∀ s, t < s → s ≤ t + 250000 → valid s = true) →
    ∀ ax, net r ax (t + 1) (t + 250001) = signed ((popped r (t + 1)).getLastD q₀) ax

theorem q_restart {t : Nat} (h : (inp t).valid = false) {s : Nat} (hs : t < s)
    (hst : s ≤ t + 250002) : (run fifo33 fifo31 inp s).fifo33.q =
      (popped (run fifo33 fifo31 inp) (t + 1)).getLastD fifo33.q := by
  obtain ⟨k, rfl⟩ : ∃ k, s = t + 1 + k := ⟨s - (t + 1), by omega⟩
  rw [run_restart h, q_start (by omega), run_q]

theorem net_again {t : Nat} (h : (inp t).valid = false)
    (hvalid : ∀ s, t < s → s ≤ t + 250000 → (inp s).valid = true) (h31 : fifo31.words ≠ [])
    (ax : Axis) : net (run fifo33 fifo31 inp) ax (t + 1) (t + 250001) =
      signed ((popped (run fifo33 fifo31 inp) (t + 1)).getLastD fifo33.q) ax := by
  have hclear : ((run fifo33 fifo31 inp (t + 1)).dda.lane ax).interp.q = false := by
    have hstop : run fifo33 fifo31 inp (t + 1) = start (run fifo33 fifo31 inp (t + 1)).fifo33
        (run fifo33 fifo31 inp (t + 1)).fifo31 := clock_invalid h
    rw [hstop]
    simp [start, Lane.cleared, Interpolation.cleared]
  have hne : (run fifo33 fifo31 inp (t + 1)).fifo31.words ≠ [] :=
    trace_invariant (P := fun s : MotionPath => s.fifo31.words ≠ []) h31
      (fun s i h => fifo31_ne_nil h i) _
  have hsame (k : Nat) (hk : k < 250000) :
      run fifo33 fifo31 inp (t + 1 + k) =
        steady (run fifo33 fifo31 inp (t + 1)).fifo33 (run fifo33 fifo31 inp (t + 1)).fifo31
          (fun k => inp (t + 1 + k)) k := by
    rw [run_restart h]
    apply trace_congr
    intro j hj
    have hv := hvalid (t + 1 + j) (by omega) (by omega)
    simp only [MotionInput.withValid, stretches, ← hv]
  rw [show t + 250001 = t + 1 + 250000 by omega, ← net_restart _ _ hclear, net_congr ax hsame,
    ← run_q]
  exact net_first_window (fun _ => rfl) hne ax

/-- A run with stops loses no queued word, replays the word a stop interrupts, and
pulses as steady runs do that start afresh behind each stop. -/
theorem interrupted_replays (fifo33 : RegFifo Command 2048)
    (fifo31 : RegFifo (BitVec 64) 2048) (inp : Nat → MotionInput) (ns : List Nat)
    (h31 : fifo31.words ≠ []) :
    (∀ t, popped (interrupted fifo33 fifo31 inp ns) t ++
        (interrupted fifo33 fifo31 inp ns t).fifo33.words =
      fifo33.words ++ written (interrupted fifo33 fifo31 inp ns) inp t) ∧
    Replays (interrupted fifo33 fifo31 inp ns) fifo33.q (stretches ns) ∧
    ∀ ax T, net (interrupted fifo33 fifo31 inp ns) ax 0 (span ns + T) =
      stretchNet ax T ns fifo33 fifo31 inp := by
  refine ⟨?_, ⟨?_, ?_, ?_⟩, ?_⟩
  · intro t
    have h := popped_append_words fifo33 fifo31
      (fun t => (inp t).withValid (stretches ns t)) t
    rwa [written_withValid] at h
  · intro t ht
    exact clock_invalid ht
  · intro t ht s hs hst
    exact q_restart ht hs hst
  · intro t ht hvalid ax
    exact net_again ht hvalid h31 ax
  · intro ax T
    exact net_interrupted ax T ns fifo33 fifo31 inp

/-- One X step with a stop in the cycle 500000, just before the word is done. -/
theorem interrupted_replays_one_step :
    net (interrupted ⟨⟨[1, 0], by decide⟩, 0⟩ ⟨⟨[0], by decide⟩, 0⟩
        (fun _ => .enabled) [500000]) .x 0 (span [500000] + 250002) =
      stretchNet .x 250002 [500000] ⟨⟨[1, 0], by decide⟩, 0⟩ ⟨⟨[0], by decide⟩, 0⟩
        (fun _ => .enabled) :=
  (interrupted_replays ⟨⟨[1, 0], by decide⟩, 0⟩ ⟨⟨[0], by decide⟩, 0⟩ (fun _ => .enabled)
    [500000] (by decide)).2.2 .x 250002

/-- The queue is drained for good with the read in cycle `p`, and the period of the
word read then has passed. -/
def Completed (r : Nat → MotionPath) (t : Nat) : Prop :=
  ∃ p, t = p + 250002 ∧ (r p).pop ≠ [] ∧ ∀ s, p < s → (r s).fifo33.words = []

/-- Stops make no difference to the net pulses of a drained queue. -/
def StepsConserved (fifo33 : RegFifo Command 2048) (fifo31 : RegFifo (BitVec 64) 2048)
    (inp : Nat → MotionInput) (ns : List Nat) : Prop :=
  ∀ ax t t', Completed (interrupted fifo33 fifo31 inp ns) t →
    Completed (steady fifo33 fifo31 inp) t' →
    net (interrupted fifo33 fifo31 inp ns) ax 0 t = net (steady fifo33 fifo31 inp) ax 0 t'

section Drained

variable (hidle : ∀ t, (inp t).fifo33Write = none)
include hidle

theorem written_idle (r : Nat → MotionPath) (t : Nat) : written r inp t = [] := by
  induction t with
  | zero => rfl
  | succ t ih => rw [written, ih, hidle, Fifo.accepted_none, List.nil_append]

theorem completed_of_popped {p : Nat} (hpop : (run fifo33 fifo31 inp p).pop ≠ [])
    (hall : fifo33.words.length ≤ (popped (run fifo33 fifo31 inp) (p + 1)).length) :
    Completed (run fifo33 fifo31 inp) (p + 250002) := by
  refine ⟨p, rfl, hpop, ?_⟩
  intro s hs
  have hmono := popped_length_mono (run fifo33 fifo31 inp) (show p + 1 ≤ s from hs)
  have h := popped_append_words fifo33 fifo31 inp s
  rw [written_idle hidle, List.append_nil] at h
  have hlen := congrArg List.length h
  rw [List.length_append] at hlen
  exact List.length_eq_zero_iff.mp (by omega)

/-- No word that is queued or read sets the direction bit of the axis. -/
structure DirClear (ax : Axis) (s : MotionPath) : Prop where
  words : ∀ w ∈ s.fifo33.words, w.dir ax = false
  q : s.fifo33.q.dir ax = false
  dirReg : (s.dda.lane ax).dirReg = false

omit hidle in
theorem DirClear.next {ax : Axis} {s : MotionPath} (h : DirClear ax s) {i : MotionInput}
    (hidle : i.fifo33Write = none) : DirClear ax (s.clock i) where
  words := by
    intro w hmem
    apply h.words
    simp only [clock, RegFifo.clock, Fifo.clock, hidle, Fifo.accepted_none,
      List.append_nil] at hmem
    split at hmem
    · exact List.mem_of_mem_drop hmem
    · exact hmem
  q := by
    simp only [clock, RegFifo.clock]
    split
    · cases hs : s.fifo33.words with
      | nil => exact h.q
      | cons w ws => exact h.words w (by simp [hs])
    · exact h.q
  dirReg := by
    simp only [clock, dda_lane, Lane.clock, ddaDatain, SelAssign.dataout]
    have hzero : (0 : Command).dir ax = false := by cases ax <;> rfl
    split
    · split
      · exact hzero
      · exact h.q
    · rfl

/-- While no word sets the direction bit of an axis, its direction stays 0. -/
theorem dirReg_false (ax : Axis) (hwords : ∀ w ∈ fifo33.words, w.dir ax = false)
    (hq : fifo33.q.dir ax = false) (t : Nat) :
    ((run fifo33 fifo31 inp t).dda.lane ax).dirReg = false := by
  have hstart : DirClear ax (start fifo33 fifo31) :=
    ⟨hwords, hq, by simp [start, Lane.cleared]⟩
  have hclear : DirClear ax (run fifo33 fifo31 inp t) :=
    trace_invariant_at (P := fun _ s => DirClear ax s) hstart
      (fun t ht => by rw [trace_succ]; exact ht.next (hidle t)) t
  exact hclear.dirReg

end Drained

theorem net_of_dir_false {r : Nat → MotionPath} {ax : Axis}
    (h : ∀ t, ((r t).dda.lane ax).dirReg = false) (a b : Nat) :
    net r ax a b =
      -(edges (fun t => ((r t).dda.lane ax).interp.q) (fun _ => true) a b : Int) := by
  simp only [net, h, Bool.not_false]
  rw [edges_eq_zero fun _ _ _ _ => rfl]
  omega

def oneStep : RegFifo Command 2048 := ⟨⟨[1, 0], by decide⟩, 0⟩

def filled : RegFifo (BitVec 64) 2048 := ⟨⟨[0], by decide⟩, 0⟩

def idle : Nat → MotionInput := fun _ => .enabled

theorem quiet_oneStep : Quiet 0 [1, 0] := by
  refine ⟨?_, ?_, by decide⟩
  · intro ax k hk
    obtain rfl | rfl : k = 0 ∨ k = 1 := by simp at hk; omega
    all_goals cases ax <;> decide
  · intro ax
    cases ax <;> decide

theorem executes_oneStep : Executes (steady oneStep filled idle) oneStep.q [1, 0] :=
  executes_of_queued _ _ _ (fun _ => rfl) [1, 0] [] rfl (by decide)

/-- The X output of dda in the undisturbed run. -/
def pulsX (t : Nat) : Bool := ((steady oneStep filled idle t).dda.lane .x).interp.q

theorem pulsX_clear {j : Nat} (hj : 0 < j) : pulsX (249999 * j + 1) = false :=
  q_clear (fun _ => rfl) .x hj

theorem edges_pulsX_first : edges pulsX (fun _ => true) 1 250000 = 0 :=
  first_window (fun _ => rfl) (by decide) .x

theorem edges_pulsX_start {i : Nat} (hi : i = 0) :
    edges pulsX (fun _ => true) (249999 * (0 + 1) + 2) (249999 * (0 + 1) + 2 + (i + 1)) = 0 :=
  window_start (fun _ => rfl) (by decide) executes_oneStep .x (by omega) (by omega)
    (by decide) (by omega) (by rw [hi]; decide)

theorem edges_pulsX_window {k : Nat} (hk : k < 2) :
    edges pulsX (fun _ => true) (249999 * (k + 1) + 2) (249999 * (k + 1 + 1) + 2) =
      (([1, 0] : List Command).getD k 0).count .x := by
  refine (window_rate (fun _ => rfl) (by decide) executes_oneStep quiet_oneStep .x hk).2.mpr ?_
  obtain rfl | rfl : k = 0 ∨ k = 1 := by omega
  all_goals decide

theorem edges_pulsX_executed {n T : Nat} (hn : n = ([1, 0] : List Command).length)
    (hT : T = 250001 * (n + 1) + 1) :
    edges pulsX (fun _ => true) 250002 T =
      ∑ k ∈ Finset.range n, edges pulsX (fun _ => true)
        (249999 * (k + 1) + 2) (249999 * (k + 1 + 1) + 2) := by
  rw [hT, hn]
  exact edges_executed (fun _ => rfl) (by decide) executes_oneStep quiet_oneStep _ .x

theorem edges_pulsX_idle : edges pulsX (fun _ => true) 0 250001 = 0 := by
  have hzero : edges pulsX (fun _ => true) 0 1 = 0 := by
    rw [edges_succ_low _ (le_refl 0) rfl, edges_self]
  have hclear := pulsX_clear (j := 1) (by omega)
  simp only [Nat.reduceAdd, Nat.reduceMul] at hclear
  rw [edges_succ_low _ (by omega) hclear, ← edges_append _ _ (b := 1) (by omega) (by omega),
    hzero, edges_pulsX_first]

theorem edges_pulsX_word : edges pulsX (fun _ => true) 0 500000 = 1 := by
  have hwindow := edges_pulsX_window (k := 0) (by omega)
  simp only [Nat.reduceAdd, Nat.reduceMul] at hwindow
  rw [← edges_append _ _ (b := 250001) (by omega) (by omega), edges_pulsX_idle, hwindow]
  decide

theorem edges_pulsX_rest : edges pulsX (fun _ => true) 250002 750004 = 1 := by
  have hrest := edges_pulsX_executed (n := 2) (T := 750004) rfl (by omega)
  rw [hrest, Finset.sum_congr rfl fun k hk => edges_pulsX_window (Finset.mem_range.mp hk)]
  decide

theorem edges_pulsX : edges pulsX (fun _ => true) 0 750004 = 1 := by
  have hstart := edges_pulsX_start (i := 0) rfl
  simp only [Nat.reduceAdd, Nat.reduceMul] at hstart
  rw [← edges_append _ _ (b := 250002) (by omega) (by omega), edges_pulsX_rest,
    ← edges_append _ _ (b := 250001) (by omega) (by omega), edges_pulsX_idle, hstart]

theorem fed_oneStep (t : Nat) (ht : t < 500003) :
    (steady oneStep filled idle t).fifo33.words ≠ [] :=
  fed_of_length _ _ _ (fun _ => rfl) (by decide) (by decide) t ht

theorem steady_oneStep_stop {t : Nat} (ht : t = 500001) :
    (steady oneStep filled idle t).fifo33.q = 1 ∧
      (steady oneStep filled idle t).fifo33.words = [0] := by
  constructor
  · rw [executes_oneStep t (by rw [ht]; decide), show (t - 1) / 250001 = 1 by omega]
    rfl
  · have hwords := words_fed (fun _ => rfl) fed_oneStep t (by omega)
    rw [written_idle (fun _ => rfl), show (t - 1) / 250001 = 1 by omega] at hwords
    exact hwords

theorem completed_steady {p : Nat} (hp : p = 500002) :
    Completed (steady oneStep filled idle) (p + 250002) := by
  have hlen := popped_length_fed (fun _ => rfl) fed_oneStep (p + 1) (by omega)
  have hpop := pop_fed (fun _ => rfl) fed_oneStep p (by omega)
  rw [if_pos (by omega)] at hpop
  apply completed_of_popped (fun _ => rfl) (List.ne_nil_of_length_eq_add_one hpop)
  rw [hlen, show (p + 1 - 1) / 250001 = 2 by omega]
  decide

def secondStretch : Nat → MotionPath :=
  steady (steady oneStep filled idle (500000 + 1)).fifo33
    (steady oneStep filled idle (500000 + 1)).fifo31 fun t => idle (500000 + 1 + t)

theorem secondStretch_pop : (secondStretch (250001 * (0 + 1))).pop = [0] :=
  pop_queued _ _ _ (fun _ => rfl) [] [] (steady_oneStep_stop rfl).2

theorem completed_interrupted {p : Nat} (hp : p = 500000 + 1 + 250001 * (0 + 1)) :
    Completed (interrupted oneStep filled idle [500000]) (p + 250002) := by
  have hfirst : (interrupted oneStep filled idle [500000] (250001 * (0 + 1))).pop ≠ [] := by
    have hpop : (steady oneStep filled idle (250001 * (0 + 1))).pop = [1] :=
      pop_queued _ _ _ (fun _ => rfl) [] [0] rfl
    rw [interrupted_cons_low _ _ _ _ _ (by omega), hpop]
    simp
  have hsecond : (interrupted oneStep filled idle [500000] p).pop ≠ [] := by
    rw [hp, interrupted_cons_high]
    exact List.ne_nil_of_length_eq_add_one (congrArg List.length secondStretch_pop)
  have h₁ := popped_length_lt hfirst (t := p) (by omega)
  have h₂ := popped_length_lt hsecond (Nat.lt_succ_self p)
  apply completed_of_popped (fun _ => rfl) hsecond
  exact Nat.succ_le_of_lt (Nat.lt_of_le_of_lt (Nat.succ_le_of_lt (Nat.zero_lt_of_lt h₁)) h₂)

theorem oneStep_dir {w : Command} (hw : w ∈ [1, 0]) : w.dir .x = false := by
  obtain rfl | rfl : w = 1 ∨ w = 0 := by simpa using hw
  all_goals decide

theorem net_steady_oneStep (a b : Nat) :
    net (steady oneStep filled idle) .x a b = -(edges pulsX (fun _ => true) a b : Int) := by
  apply net_of_dir_false
  exact dirReg_false (fun _ => rfl) .x (fun w hw => oneStep_dir hw) rfl

theorem net_secondStretch {T : Nat} (hT : 250000 ≤ T) : net secondStretch .x 0 T ≤ -1 := by
  obtain ⟨hq, hwords⟩ := steady_oneStep_stop (t := 500000 + 1) rfl
  have hwindow : net secondStretch .x 0 250000 =
      signed (steady oneStep filled idle (500000 + 1)).fifo33.q .x :=
    net_first_window (fun _ => rfl)
      (trace_invariant (P := fun s : MotionPath => s.fifo31.words ≠ []) (by decide)
        (fun s i h => fifo31_ne_nil h i) _) .x
  have hdir (t : Nat) : ((secondStretch t).dda.lane .x).dirReg = false := by
    apply dirReg_false (fun _ => rfl) .x
    · rw [hwords]
      exact fun w hw => oneStep_dir (List.mem_of_mem_tail (l := [1, 0]) hw)
    · rw [hq]
      decide
  have hsigned : signed 1 .x = -1 := by decide
  rw [← net_append _ _ (b := 250000) (by omega) hT, hwindow, hq, hsigned, net_of_dir_false hdir]
  omega

/-- A stop before the end of a word has its steps made twice. -/
theorem stepsConserved_oneStep_false : ¬ StepsConserved oneStep filled idle [500000] := by
  intro h
  have heq := h .x _ _ (completed_interrupted (p := 750002) (by omega))
    (completed_steady (p := 500002) (by omega))
  have hlaw : net (interrupted oneStep filled idle [500000]) .x 0 (span [500000] + 500003) =
      net (steady oneStep filled idle) .x 0 (500000 + 1) + net secondStretch .x 0 500003 :=
    net_interrupted .x 500003 [500000] oneStep filled idle
  have hfirst := net_append (steady oneStep filled idle) .x (a := 0) (b := 500000)
    (c := 500000 + 1) (by omega) (by omega)
  have hsecond := net_secondStretch (T := 500003) (by omega)
  rw [net_steady_oneStep, net_steady_oneStep, edges_pulsX_word] at hfirst
  rw [show 750002 + 250002 = span [500000] + 500003 by simp [span], hlaw, ← hfirst,
    net_steady_oneStep, edges_pulsX] at heq
  omega

end MotionPath

end CncCard
