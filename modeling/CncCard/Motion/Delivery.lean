import CncCard.Motion.Schedule

/-!
What `dda` gets to see of the words that leave `fifo33`. The word in the output
register passes `sel_assign` only while `fifo31` holds something, and then it
passes for as long as it stays there, whether or not `fifo33` has run empty.
-/

namespace CncCard.MotionPath
open Clocked

/-- Between the read in cycle `p` and cycle `t` the queue has stayed empty for
longer than a word period. -/
def Dried (r : Nat → MotionPath) (p t : Nat) : Prop :=
  ∃ a, p < a ∧ a + 250001 ≤ t ∧ ∀ s, a ≤ s → s ≤ a + 250001 → (r s).fifo33.words = []

def LastRead (r : Nat → MotionPath) (p t : Nat) : Prop :=
  p < t ∧ ∀ s, p < s → s < t → (r s).pop = []

/-- Each word that is read is on the dda input from the next cycle on, for at
least a word period, until the next word is read or the queue has dried up. -/
structure Delivered (r : Nat → MotionPath) : Prop where
  period : ∀ p p', p < p' → (r p).pop ≠ [] → (r p').pop ≠ [] → p + 250001 ≤ p'
  shown : ∀ p w t, (r p).pop = [w] → LastRead r p t → ¬ Dried r p t → (r t).ddaDatain = w
  drained : ∀ p w t, (r p).pop = [w] → LastRead r p t → Dried r p t → (r t).ddaDatain = 0

/-- Each word with something to do finds `fifo31` filled when it is read, and the
queue is filled again within a word period of running empty behind it. -/
def Sustained (r : Nat → MotionPath) : Prop :=
  ∀ p w, (r p).pop = [w] → w ≠ 0 →
    (r (p + 1)).fifo31.words ≠ [] ∧ ∀ t, LastRead r p t → ¬ Dried r p t

variable {fifo33 : RegFifo Command 2048} {fifo31 : RegFifo (BitVec 64) 2048}
  {inp : Nat → MotionInput}

theorem fifo31_run_ne_nil {s t : Nat} (hst : s ≤ t)
    (h : (run fifo33 fifo31 inp s).fifo31.words ≠ []) :
    (run fifo33 fifo31 inp t).fifo31.words ≠ [] := by
  induction t, hst using Nat.le_induction with
  | base => exact h
  | succ t _ ih => exact fifo31_ne_nil ih (inp t)

/-- The dda input shows the last word read, or nothing while `fifo31` is empty. -/
theorem ddaDatain_lastRead {p t : Nat} {w : Command}
    (hpop : (run fifo33 fifo31 inp p).pop = [w])
    (hlast : LastRead (run fifo33 fifo31 inp) p t) :
    (run fifo33 fifo31 inp t).ddaDatain =
      if (run fifo33 fifo31 inp t).fifo31.isEmpty then 0 else w := by
  rw [ddaDatain, SelAssign.dataout, q_after_pop hpop hlast.1 hlast.2]

theorem not_dried_succ (r : Nat → MotionPath) (p : Nat) : ¬ Dried r p (p + 1) := by
  rintro ⟨a, hpa, hat, -⟩
  omega

theorem lastRead_succ (r : Nat → MotionPath) (p : Nat) : LastRead r p (p + 1) :=
  ⟨Nat.lt_succ_self p, fun s hs hsp => absurd hs (by omega)⟩

theorem delivered_of_sustained (h : Sustained (run fifo33 fifo31 inp)) :
    Delivered (run fifo33 fifo31 inp) := by
  refine ⟨?_, ?_, ?_⟩
  · intro p p' hlt hp hp'
    exact clkout_spaced hlt (clkout_of_pop hp) (clkout_of_pop hp')
  · intro p w t hpop hlast _
    rw [ddaDatain_lastRead hpop hlast]
    by_cases hw : w = 0
    · simp [hw]
    · have hne := fifo31_run_ne_nil hlast.1 (h p w hpop hw).1
      simp [Fifo.isEmpty_eq_false.mpr hne]
  · intro p w t hpop hlast hdried
    rw [ddaDatain_lastRead hpop hlast]
    by_cases hw : w = 0
    · simp [hw]
    · exact absurd hdried ((h p w hpop hw).2 t hlast)

theorem sustained_of_delivered (h : Delivered (run fifo33 fifo31 inp)) :
    Sustained (run fifo33 fifo31 inp) := by
  intro p w hpop hw
  have hshown := h.shown p w (p + 1) hpop (lastRead_succ _ p) (not_dried_succ _ p)
  have hfilled : (run fifo33 fifo31 inp (p + 1)).fifo31.words ≠ [] := by
    rw [ddaDatain_lastRead hpop (lastRead_succ _ p)] at hshown
    intro hnil
    simp only [Fifo.isEmpty, hnil, List.isEmpty_nil, if_true] at hshown
    exact hw hshown.symm
  refine ⟨hfilled, ?_⟩
  intro t hlast hdried
  have hzero := h.drained p w t hpop hlast hdried
  rw [ddaDatain_lastRead hpop hlast,
    Fifo.isEmpty_eq_false.mpr (fifo31_run_ne_nil hlast.1 hfilled)] at hzero
  exact hw hzero

/-- The read words reach the dda input, each in its time and none of them twice,
if and only if the two queues never leave a word with something to do alone. -/
theorem delivered_iff_sustained (fifo33 : RegFifo Command 2048)
    (fifo31 : RegFifo (BitVec 64) 2048) (inp : Nat → MotionInput) :
    Delivered (run fifo33 fifo31 inp) ↔ Sustained (run fifo33 fifo31 inp) :=
  ⟨sustained_of_delivered, delivered_of_sustained⟩

theorem clock_enabled_fifo31 (s : MotionPath) :
    (s.clock .enabled).fifo31.words = s.fifo31.words := by
  simp [clock, MotionInput.enabled, RegFifo.clock]

/-- A single X step, read while the DMA path has not delivered anything. -/
theorem delivered_idle_fifo31_false :
    ¬ Delivered (run ⟨⟨[1], by decide⟩, 0⟩ ⟨⟨[], by decide⟩, 0⟩ fun _ => .enabled) := by
  intro h
  have hpop := pop_queued ⟨⟨[1], by decide⟩, 0⟩ ⟨⟨[], by decide⟩, 0⟩ (fun _ => .enabled)
    (fun _ => rfl) [] [] rfl
  have hfilled := (sustained_of_delivered h _ _ hpop (by decide)).1
  apply hfilled
  exact trace_invariant_at (P := fun _ (s : MotionPath) => s.fifo31.words = []) rfl
    (fun t ht => by rwa [trace_succ, clock_enabled_fifo31]) _

end CncCard.MotionPath
