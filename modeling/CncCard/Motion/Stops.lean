import CncCard.Motion.Windows

/-!
Stops of the motion path. A cycle with `valid = 0` clears `clk_2ms`, `dda` and the
interpolators, but not the output register of `fifo33`: what follows is a run from
the cleared registers that starts with the interrupted word.
-/

namespace CncCard
open Clocked

def MotionInput.withValid (i : MotionInput) (valid : Bool) : MotionInput :=
  { i with valid := valid }

/-- A history of `valid`: each entry of the list is a stretch of enabled cycles with
one disabled cycle behind it; after the last one `valid` stays set. -/
def stretches : List Nat → Nat → Bool
  | [], _ => true
  | n :: ns, t => if t < n then true else if t = n then false else stretches ns (t - (n + 1))

def span : List Nat → Nat
  | [] => 0
  | n :: ns => n + 1 + span ns

namespace MotionPath

variable {fifo33 : RegFifo Command 2048} {fifo31 : RegFifo (BitVec 64) 2048}
  {inp : Nat → MotionInput}

/-- Pulses of the dda outputs in the direction 1, less those in the direction 0. -/
def net (r : Nat → MotionPath) (ax : Axis) (a b : Nat) : Int :=
  edges (fun t => ((r t).dda.lane ax).interp.q) (fun t => ((r t).dda.lane ax).dirReg) a b -
    edges (fun t => ((r t).dda.lane ax).interp.q) (fun t => !((r t).dda.lane ax).dirReg) a b

/-- The run in which `valid` falls after each stretch of the list. -/
def interrupted (fifo33 : RegFifo Command 2048) (fifo31 : RegFifo (BitVec 64) 2048)
    (inp : Nat → MotionInput) (ns : List Nat) : Nat → MotionPath :=
  run fifo33 fifo31 fun t => (inp t).withValid (stretches ns t)

/-- The run of the same queues and writes in which `valid` never falls. -/
def steady (fifo33 : RegFifo Command 2048) (fifo31 : RegFifo (BitVec 64) 2048)
    (inp : Nat → MotionInput) : Nat → MotionPath :=
  interrupted fifo33 fifo31 inp []

/-- The net pulses of one steady run for each stretch, each on the queues that the
stretch before has left. -/
def stretchNet (ax : Axis) (T : Nat) : List Nat → RegFifo Command 2048 →
    RegFifo (BitVec 64) 2048 → (Nat → MotionInput) → Int
  | [], fifo33, fifo31, inp => net (steady fifo33 fifo31 inp) ax 0 T
  | n :: ns, fifo33, fifo31, inp =>
      net (steady fifo33 fifo31 inp) ax 0 (n + 1) +
        stretchNet ax T ns (steady fifo33 fifo31 inp (n + 1)).fifo33
          (steady fifo33 fifo31 inp (n + 1)).fifo31 fun t => inp (n + 1 + t)

theorem clock_invalid {s : MotionPath} {i : MotionInput} (h : i.valid = false) :
    s.clock i = start (s.clock i).fifo33 (s.clock i).fifo31 := by
  simp only [clock, start, CncCard.clk2ms, h, Bool.and_false, Bool.false_eq_true, if_false,
    dda_invalid]
  rfl

theorem run_restart {t : Nat} (h : (inp t).valid = false) (k : Nat) :
    run fifo33 fifo31 inp (t + 1 + k) =
      run (run fifo33 fifo31 inp (t + 1)).fifo33 (run fifo33 fifo31 inp (t + 1)).fifo31
        (fun k => inp (t + 1 + k)) k := by
  have hstop : run fifo33 fifo31 inp (t + 1) =
      start (run fifo33 fifo31 inp (t + 1)).fifo33 (run fifo33 fifo31 inp (t + 1)).fifo31 :=
    clock_invalid h
  have hadd : run fifo33 fifo31 inp (t + 1 + k) =
      trace clock (run fifo33 fifo31 inp (t + 1)) (fun k => inp (t + 1 + k)) k :=
    trace_add _ _ _ _ _
  rw [hadd]
  conv_lhs => rw [hstop]
  rfl

variable (fifo33 fifo31 inp) in
theorem interrupted_cons_low (n : Nat) (ns : List Nat) {t : Nat} (ht : t ≤ n) :
    interrupted fifo33 fifo31 inp (n :: ns) t = steady fifo33 fifo31 inp t := by
  apply trace_congr
  intro k hk
  simp [stretches, show k < n by omega]

variable (fifo33 fifo31 inp) in
theorem interrupted_cons_high (n : Nat) (ns : List Nat) (t : Nat) :
    interrupted fifo33 fifo31 inp (n :: ns) (n + 1 + t) =
      interrupted (steady fifo33 fifo31 inp (n + 1)).fifo33
        (steady fifo33 fifo31 inp (n + 1)).fifo31 (fun t => inp (n + 1 + t)) ns t := by
  have hlow := interrupted_cons_low fifo33 fifo31 inp n ns
    (le_refl n)
  have hqueues : (interrupted fifo33 fifo31 inp (n :: ns) (n + 1)).fifo33 =
        (steady fifo33 fifo31 inp (n + 1)).fifo33 ∧
      (interrupted fifo33 fifo31 inp (n :: ns) (n + 1)).fifo31 =
        (steady fifo33 fifo31 inp (n + 1)).fifo31 := by
    simp only [interrupted, steady, run_succ] at hlow ⊢
    rw [hlow]
    exact ⟨rfl, rfl⟩
  have hrest (k : Nat) : stretches (n :: ns) (n + 1 + k) = stretches ns k := by
    simp only [stretches]
    rw [if_neg (by omega), if_neg (by omega), Nat.add_sub_cancel_left]
  rw [interrupted, run_restart (by simp [MotionInput.withValid, stretches])]
  rw [interrupted] at hqueues
  rw [hqueues.1, hqueues.2, interrupted]
  congr 1
  funext k
  rw [hrest]

theorem net_append (r : Nat → MotionPath) (ax : Axis) {a b c : Nat} (hab : a ≤ b)
    (hbc : b ≤ c) : net r ax a b + net r ax b c = net r ax a c := by
  simp only [net, ← edges_append _ _ hab hbc]
  omega

theorem net_congr {r r' : Nat → MotionPath} (ax : Axis) {b : Nat} (h : ∀ t < b, r t = r' t) :
    net r ax 0 b = net r' ax 0 b := by
  have hrose (t : Nat) (ht : t < b) := rose_congr
    (fun t => ((r t).dda.lane ax).interp.q) (fun t => ((r' t).dda.lane ax).interp.q)
    (t := t) fun k hk => by rw [h k (by omega)]
  simp only [net]
  congr 2 <;>
    exact edges_congr fun t _ ht => by rw [hrose t ht, h t ht]

/-- Pulses behind a cycle with cleared registers do not depend on what was before. -/
theorem net_restart (r : Nat → MotionPath) (ax : Axis) {s : Nat}
    (h : ((r s).dda.lane ax).interp.q = false) (n : Nat) :
    net (fun t => r (s + t)) ax 0 n = net r ax s (s + n) := by
  simp only [net]
  rw [← edges_restart (fun t => ((r t).dda.lane ax).interp.q) _ h,
    ← edges_restart (fun t => ((r t).dda.lane ax).interp.q) _ h]

/-- The pulses of an interrupted run are those of one steady run for each stretch. -/
theorem net_interrupted (ax : Axis) (T : Nat) (ns : List Nat) :
    ∀ (fifo33 : RegFifo Command 2048) (fifo31 : RegFifo (BitVec 64) 2048)
      (inp : Nat → MotionInput),
      net (interrupted fifo33 fifo31 inp ns) ax 0 (span ns + T) =
        stretchNet ax T ns fifo33 fifo31 inp := by
  induction ns with
  | nil =>
      intro fifo33 fifo31 inp
      simp [stretchNet, steady, span]
  | cons n ns ih =>
      intro fifo33 fifo31 inp
      have hhigh := interrupted_cons_high fifo33 fifo31 inp n ns
      have hclear : ((interrupted fifo33 fifo31 inp (n :: ns) (n + 1)).dda.lane ax).interp.q =
          false := by
        have h0 := hhigh 0
        rw [Nat.add_zero] at h0
        rw [h0]
        simp [interrupted, run, start, Lane.cleared, Interpolation.cleared]
      rw [stretchNet, ← ih, span, Nat.add_assoc,
        ← net_append _ _ (b := n + 1) (by omega) (by omega),
        ← net_restart _ _ hclear, funext hhigh,
        net_congr ax fun t ht => interrupted_cons_low _ _ _ n ns (by omega)]

theorem written_withValid (r : Nat → MotionPath) (v : Nat → Bool) (t : Nat) :
    written r (fun t => (inp t).withValid (v t)) t = written r inp t := by
  induction t with
  | zero => rfl
  | succ t ih => rw [written, written, ih]; rfl

/-- A word that waits in the output register when a run starts is executed first. -/
theorem first_window (hvalid : ∀ t, (inp t).valid = true) (h31 : fifo31.words ≠ [])
    (ax : Axis) :
    edges (fun t => ((run fifo33 fifo31 inp t).dda.lane ax).interp.q) (fun _ => true)
      1 250000 = fifo33.q.count ax := by
  have hrate (k : Nat) (hk : k < 249998) :
      ((run fifo33 fifo31 inp (0 + (k + 2))).dda.lane ax).interp.dataReg =
        fifo33.q.count ax := by
    rw [Nat.zero_add, dataReg_run hvalid h31, q_start (by omega)]
  have hempty (k : Nat) (hk : k < 2) :
      ((run fifo33 fifo31 inp (0 + k)).dda.lane ax).interp.dataReg = 0 := by
    obtain rfl | rfl : k = 0 ∨ k = 1 := by omega
    · simp [run, start, Lane.cleared, Interpolation.cleared]
    · simp [run, trace, start, clock, dda_lane, Lane.clock, interpolation, Lane.cleared]
  have hle (k : Nat) :
      ((run fifo33 fifo31 inp (0 + k)).dda.lane ax).interp.dataReg ≤ 127 := by
    rw [interp_run hvalid]
    exact Interpolation.running_dataReg_le (data_le _ _ _ ax) _
  have hrises := Interpolation.running_edges (c := 0) (n := 249999)
    (fun k => Interpolation.running_dataReg_le (data_le fifo33 fifo31 inp ax) (0 + k))
    (fun _ _ => rfl) rfl
    (fun k hk => by
      rw [Interpolation.running_clkFlag, decide_eq_false_iff_not]
      omega) 249999 (le_refl _)
  simp only [← interp_run hvalid] at hrises
  have hcount := fifo33.q.count_le ax
  rw [hrises, Accumulator.rises_two_rate (m := 2) (a := 0) (n := 249998) (by decide)
    (fun k => (hle k).trans (by decide))
    (fun k => (Nat.add_le_add_right (hle k) _).trans (by decide)) (by decide) (by decide)
    hempty (fun k h2 hn => by
      obtain ⟨i, rfl⟩ : ∃ i, k = i + 2 := ⟨k - 2, by omega⟩
      exact hrate i (by omega)) (by decide)]
  have hsquare : fifo33.q.count ax * fifo33.q.count ax ≤ 127 * 127 :=
    Nat.mul_le_mul hcount hcount
  simp only [clocks, Nat.mul_add]
  omega

/-- The steps of a word, signed by its direction bit. -/
def signed (w : Command) (ax : Axis) : Int :=
  if w.dir ax then w.count ax else -w.count ax

theorem net_first_window (hvalid : ∀ t, (inp t).valid = true) (h31 : fifo31.words ≠ [])
    (ax : Axis) : net (run fifo33 fifo31 inp) ax 0 250000 = signed fifo33.q ax := by
  have hdir (t : Nat) (h1 : 1 ≤ t) (ht : t < 250000) :
      ((run fifo33 fifo31 inp t).dda.lane ax).dirReg = fifo33.q.dir ax := by
    obtain ⟨t, rfl⟩ : ∃ s, t = s + 1 := ⟨t - 1, by omega⟩
    have h := dir_run fifo33 hvalid h31 ax t
    rw [q_start (by omega)] at h
    simpa only [dir, SelAssign.select, hvalid, if_true] using h
  have hfirst : net (run fifo33 fifo31 inp) ax 0 1 = 0 := by
    simp [net, edges, rose]
  rw [← net_append _ ax (b := 1) (by omega) (by omega), hfirst, Int.zero_add, net,
    edges_const hdir, edges_const (fun t h1 ht => congrArg (! ·) (hdir t h1 ht)),
    first_window hvalid h31, signed]
  cases fifo33.q.dir ax <;> simp

end MotionPath

end CncCard
