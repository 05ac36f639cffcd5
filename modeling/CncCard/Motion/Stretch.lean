import CncCard.Motion.Stops
import CncCard.Motion.Tracking

/-!
A stretch of a run in which `valid` is up, behind a cycle in which it is low. Wherever it
stands in the run, seen from its first cycle the path does what it does from cleared
registers on the queues that it finds there.
-/

namespace CncCard.MotionPath
open Clocked

/-- `valid` is low in cycle `a` and up in the `n` cycles behind it. -/
structure Stretch (inp : Nat → MotionInput) (a n : Nat) : Prop where
  low : (inp a).valid = false
  high : ∀ k < n, (inp (a + 1 + k)).valid = true

/-- What the pins of a path with `valid` up show in `n` cycles, in which it reads from the
words `ws`: in every window they follow the word in place, and the words whose windows do not
slide too far are executed exactly. -/
structure Performs (r : Nat → MotionPath) (inp : Nat → MotionInput) (ws : List Command)
    (n : Nat) : Prop where
  early : ∀ ax j i, i ≤ 249998 → 249999 * j + 2 + i ≤ n →
    250000 * windowPulses r inp ax j i ≤ windowRate r ax j i + 125000
  late : ∀ ax j i, i ≤ 249998 → 249999 * j + 2 + i ≤ n →
    windowRate r ax j i ≤
      250000 * windowPulses r inp ax j i + 125000 + 127 * (windowPulses r inp ax j i + 1)
  exact : ∀ m, 250001 * (m + 1) + 1 ≤ n →
    (∀ t < 250001 * (m + 1) + 1, (r t).fifo33.words ≠ []) →
    Quiet (r 0).fifo33.q (ws.take m) → Fits (r 0).fifo33.q (ws.take m) →
    ∀ ax d, pulses r inp ax d 250002 (250001 * (m + 1) + 1) = commanded ax d (ws.take m)

theorem popped_congr {r r' : Nat → MotionPath} {n : Nat} (h : ∀ t < n, r t = r' t) :
    popped r n = popped r' n := by
  induction n with
  | zero => rfl
  | succ n ih =>
      rw [popped, popped, ih fun t ht => h t (Nat.lt_succ_of_lt ht), h n (Nat.lt_succ_self n)]

/-- A log that grows by what is read. -/
theorem log_popped {r : Nat → MotionPath} {log : Nat → List Command}
    (hlog : ∀ t, log (t + 1) = log t ++ (r t).pop) (a n : Nat) :
    log (a + n) = log a ++ popped (fun t => r (a + t)) n := by
  induction n with
  | zero => exact (List.append_nil _).symm
  | succ n ih => rw [← Nat.add_assoc, hlog, ih, List.append_assoc]; rfl

section Congruence

variable {r r' : Nat → MotionPath} {inp inp' : Nat → MotionInput} {n : Nat}
  (hrun : ∀ t < n, r t = r' t) (hinp : ∀ t < n, inp t = inp' t)
include hrun hinp

theorem rose_puls_congr (ax : Axis) {t : Nat} (ht : t < n) :
    rose (fun t => (r t).puls (inp t) ax) t = rose (fun t => (r' t).puls (inp' t) ax) t :=
  rose_congr _ _ fun k hk => by
    rw [hrun k (Nat.lt_of_le_of_lt hk ht), hinp k (Nat.lt_of_le_of_lt hk ht)]

theorem pulses_congr (ax : Axis) (d : Bool) (a : Nat) :
    pulses r inp ax d a n = pulses r' inp' ax d a n :=
  edges_congr fun t _ ht => by rw [rose_puls_congr hrun hinp ax ht, hrun t ht, hinp t ht]

theorem windowPulses_congr (ax : Axis) {j i : Nat} (hi : 249999 * j + 2 + i ≤ n) :
    windowPulses r inp ax j i = windowPulses r' inp' ax j i :=
  edges_congr fun t _ ht => by rw [rose_puls_congr hrun hinp ax (Nat.lt_of_lt_of_le ht hi)]

omit hinp in
theorem windowRate_congr (ax : Axis) {j i : Nat} (hi : 249999 * j + 2 + i ≤ n) :
    windowRate r ax j i = windowRate r' ax j i := by
  refine Finset.sum_congr rfl fun k hk => ?_
  have hk := Finset.mem_range.mp hk
  rw [fed, fed]
  split
  · rfl
  · rw [hrun _ (by omega)]

end Congruence

section Steady

variable {fifo33 : RegFifo Command 2048} {fifo31 : RegFifo (BitVec 64) 2048}
  {inp : Nat → MotionInput}

/-- With `valid` up all the time. -/
theorem performs_of_valid (hvalid : ∀ t, (inp t).valid = true) (h31 : fifo31.words ≠ [])
    {n : Nat} {ws : List Command} (hws : popped (run fifo33 fifo31 inp) n <+: ws) :
    Performs (run fifo33 fifo31 inp) inp ws n where
  early ax j _ hi _ := windowPulses_early fifo33 hvalid h31 ax j hi
  late ax j _ hi _ := windowPulses_late fifo33 hvalid h31 ax j hi
  exact m hm hfed hquiet hfits := by
    have hlength := popped_length_fed hvalid hfed (250001 * (m + 1) + 1) (Nat.le_refl _)
    have htake : (popped (run fifo33 fifo31 inp) (250001 * (m + 1) + 1)).take m =
        ws.take m := by
      obtain ⟨rest, rfl⟩ := (popped_grows (run fifo33 fifo31 inp) hm).trans hws
      rw [List.take_append_of_le_length (by omega)]
    have hcount : (ws.take m).length = m := by
      rw [← htake, List.length_take]
      omega
    have hfeeds : Feeds (run fifo33 fifo31 inp) (ws.take m) := by
      refine ⟨?_, ?_⟩
      · rwa [hcount]
      · rw [hcount, htake]
    have hexact := (motionExact_iff_pulses hvalid hfeeds).mp
      (motionExact_of_fits hvalid h31 hfeeds hquiet hfits)
    rwa [hcount] at hexact

end Steady

section Anywhere

variable {r : Nat → MotionPath} {inp : Nat → MotionInput} {a n : Nat}

theorem withValid_of_valid {i : MotionInput} (h : i.valid = true) : i = i.withValid true := by
  cases i
  cases h
  rfl

variable (hrun : ∀ t, r (t + 1) = (r t).clock (inp t)) (h : Stretch inp a n)
include hrun h

theorem Stretch.run_eq {t : Nat} (ht : t ≤ n) : r (a + 1 + t) =
    run (r (a + 1)).fifo33 (r (a + 1)).fifo31 (fun k => (inp (a + 1 + k)).withValid true) t := by
  induction t with
  | zero =>
      have hstop := clock_invalid (s := r a) h.low
      rw [← hrun] at hstop
      exact hstop
  | succ t ih =>
      have hvalid := withValid_of_valid (h.high t ht)
      rw [← Nat.add_assoc, hrun, ih (Nat.le_of_succ_le ht), run_succ, ← hvalid]

/-- A stretch anywhere in a run, seen from its first cycle. -/
theorem performs_stretch (h31 : (r (a + 1)).fifo31.words ≠ []) {ws : List Command}
    (hws : popped (fun t => r (a + 1 + t)) n <+: ws) :
    Performs (fun t => r (a + 1 + t)) (fun t => inp (a + 1 + t)) ws n := by
  have heq (t : Nat) (ht : t < n) := h.run_eq hrun (Nat.le_of_lt ht)
  have hinp (t : Nat) (ht : t < n) := withValid_of_valid (h.high t ht)
  rw [popped_congr heq] at hws
  have hsteady := performs_of_valid (fun _ => rfl) h31 hws
  refine ⟨?_, ?_, ?_⟩
  · intro ax j i hi hn
    rw [windowPulses_congr heq hinp ax hn, windowRate_congr heq ax hn]
    exact hsteady.early ax j i hi hn
  · intro ax j i hi hn
    rw [windowPulses_congr heq hinp ax hn, windowRate_congr heq ax hn]
    exact hsteady.late ax j i hi hn
  · intro m hm hfed hquiet hfits ax d
    rw [pulses_congr (fun t ht => heq t (Nat.lt_of_lt_of_le ht hm))
      (fun t ht => hinp t (Nat.lt_of_lt_of_le ht hm))]
    refine hsteady.exact m hm (fun t ht => ?_) hquiet hfits ax d
    rw [← heq t (Nat.lt_of_lt_of_le ht hm)]
    exact hfed t ht

end Anywhere

end CncCard.MotionPath
