import CncCard.EtherCat.MainLoop

/-!
What the interpolator reads at its port when the slave is not in OP. A pass writes the
port only when the process output event is up, and then it writes 0; nothing else clears
the last word.
-/

namespace CncCard.EtherCat

section Step

variable {p : Program} {a : Al}

theorem Follows.output_off (h : Follows p a) (hop : ¬ p.slave.In .op) :
    p.slave.bEcatOutputUpdateRunning = false := by
  refine Bool.eq_false_iff.mpr fun hrun => hop ?_
  exact h.consistent.shows.in_iff.mpr (h.consistent.outputUpdate.mp hrun)

/-- Outside OP a pass with the event writes 0, and a pass without it writes nothing. -/
theorem Follows.port_step (h : Follows p a) (hop : ¬ p.slave.In .op) (i : Pass) :
    (p.mainLoop i).pioDda = if i.moves then 0 else p.pioDda := by
  change (if p.slave.bEscIntEnabled then p else p.freeRun i).pioDda = _
  rw [h.polled, if_neg Bool.false_ne_true, Program.freeRun_pioDda, h.output_off hop,
    if_neg Bool.false_ne_true]

end Step

section Run

variable {maxsyncman : BitVec 8} {pdictl : Fin 4 → BitVec 8} {passes : Nat → Pass} {m n : Nat}

theorem port_silent (hmn : m ≤ n)
    (hout : ∀ k, m ≤ k → k < n → ¬ (loop maxsyncman pdictl passes k).slave.In .op)
    (hsilent : ∀ k, m ≤ k → k < n → (passes k).moves = false) :
    (loop maxsyncman pdictl passes n).pioDda = (loop maxsyncman pdictl passes m).pioDda := by
  induction n, hmn using Nat.le_induction with
  | base => rfl
  | succ n hmn ih =>
      rw [loop_succ, (loop_follows maxsyncman pdictl passes n).port_step
        (hout n hmn (Nat.lt_succ_self n)), hsilent n hmn (Nat.lt_succ_self n),
        if_neg Bool.false_ne_true]
      exact ih (fun k hk hkn => hout k hk (Nat.lt_succ_of_lt hkn))
        fun k hk hkn => hsilent k hk (Nat.lt_succ_of_lt hkn)

theorem port_zero {k : Nat} (hkn : k < n)
    (hout : ∀ t, k ≤ t → t < n → ¬ (loop maxsyncman pdictl passes t).slave.In .op)
    (hmoves : (passes k).moves = true) : (loop maxsyncman pdictl passes n).pioDda = 0 := by
  induction n, hkn using Nat.le_induction with
  | base =>
      rw [loop_succ, (loop_follows maxsyncman pdictl passes k).port_step
        (hout k (Nat.le_refl k) (Nat.lt_succ_self k)), hmoves, if_pos rfl]
  | succ n hkn ih =>
      rw [loop_succ, (loop_follows maxsyncman pdictl passes n).port_step
        (hout n (Nat.le_of_succ_le hkn) (Nat.lt_succ_self n))]
      split
      · rfl
      · exact ih fun t ht htn => hout t ht (Nat.lt_succ_of_lt htn)

end Run

/-- Once the slave is outside OP, the port holds 0 as soon as one pass there has met the
process output event; until then it holds the word that stood there before. -/
theorem port_outsideOp (maxsyncman : BitVec 8) (pdictl : Fin 4 → BitVec 8)
    (passes : Nat → Pass) {m n : Nat} (hmn : m ≤ n)
    (hout : ∀ k, m ≤ k → k < n → ¬ (loop maxsyncman pdictl passes k).slave.In .op) :
    ((∃ k, m ≤ k ∧ k < n ∧ (passes k).moves = true) →
        (loop maxsyncman pdictl passes n).pioDda = 0) ∧
      ((∀ k, m ≤ k → k < n → (passes k).moves = false) →
        (loop maxsyncman pdictl passes n).pioDda =
          (loop maxsyncman pdictl passes m).pioDda) := by
  constructor
  · rintro ⟨k, hmk, hkn, hmoves⟩
    exact port_zero hkn (fun t ht htn => hout t (Nat.le_trans hmk ht) htn) hmoves
  · exact port_silent hmn hout

/-- Four bytes out and four in. -/
def fourBytes : Nat → Pass := upAndBack ⟨⟨0x1000, 4⟩, ⟨0x1400, 4⟩, 0⟩

/-- The event comes once more, in the second pass outside OP. -/
def eventLater (n : Nat) : Pass :=
  { fourBytes n with freeRunEvent := if n = 3 ∨ n = 5 then 0x0400 else 0 }

theorem outside_eventLater {k : Nat} (hk : 4 ≤ k) (hkn : k < 6) :
    ¬ (loop 8 (fun _ => 0) eventLater k).slave.In .op := by
  interval_cases k <;> decide +kernel

/-- The word that was moved stays for one pass and is 0 behind the next. -/
theorem port_outsideOp_eventLater :
    (loop 8 (fun _ => 0) eventLater 4).pioDda = 0x01010101 ∧
      (loop 8 (fun _ => 0) eventLater 5).pioDda = (loop 8 (fun _ => 0) eventLater 4).pioDda ∧
      (loop 8 (fun _ => 0) eventLater 6).pioDda = 0 := by
  refine ⟨by decide +kernel, ?_, ?_⟩
  · refine (port_outsideOp 8 (fun _ => 0) eventLater (m := 4) (n := 5) (by decide)
      fun k hk hkn => outside_eventLater hk (Nat.lt_succ_of_lt hkn)).2 ?_
    intro k hk hkn
    interval_cases k
    decide
  · exact (port_outsideOp 8 (fun _ => 0) eventLater (m := 4) (n := 6) (by decide)
      fun k hk hkn => outside_eventLater hk hkn).1 ⟨5, by decide, by decide, by decide⟩

/-- The word outlives OP. -/
theorem port_upAndBack_false :
    ¬ ∀ m k n, m < k → k < n → (loop 8 (fun _ => 0) fourBytes m).slave.In .op →
      (∀ t, k ≤ t → t ≤ n → ¬ (loop 8 (fun _ => 0) fourBytes t).slave.In .op) →
      (loop 8 (fun _ => 0) fourBytes n).pioDda = 0 := by
  intro h
  refine absurd (h 3 4 5 (by decide) (by decide) (by decide +kernel) ?_) (by decide +kernel)
  intro t ht htn
  interval_cases t <;> decide +kernel

end CncCard.EtherCat
