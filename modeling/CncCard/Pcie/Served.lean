import CncCard.Pcie.Replies

/-!
On a link that stalls, but not for good, each completion comes to its end, and a read that waits
gets its own as soon as no DMA transfer is under way.
-/

namespace CncCard.Pcie
open Clocked

namespace Txproc

variable {s : Txproc} {i : TxInput}

theorem datast1_of_nxtState (h : s.nxtState i = .memrdcplddone) :
    s.preState = .memrdcplddatast1 := by
  have hfrom := completing_of_nxtState (s := s) (i := i) (by rw [h]; rfl)
  rcases hfrom with ⟨hcompl, hdone⟩ | ⟨-, -, hhead⟩
  · rw [nxtState] at h
    cases hstate : s.preState with
    | memrdcplddatast1 => rfl
    | memrdcplddone => exact absurd hstate hdone
    | memrdcpldwaitst1 | memrdcpldwaitst2 =>
        rw [hstate] at h
        cases h
    | memrdcpldhead1 | memrdcpldhead2 =>
        rw [hstate] at h
        simp only at h
        split at h <;> cases h
    | _ =>
        rw [hstate] at hcompl
        cases hcompl
  · rw [h] at hhead
    cases hhead

end Txproc

namespace PcieCore

section Count

variable {s : PcieCore} {inp : Nat → CoreInput} {n : Nat}

/-- What is under way goes on, or ends with the last word of a completion. -/
theorem underway_succ (h : (run s inp n).underway = true) :
    (run s inp (n + 1)).underway = true ∧
        completed (run s inp) (n + 1) = completed (run s inp) n ∨
      (run s inp (n + 1)).tx.preState = .memrdcplddone ∧
        (completed (run s inp) (n + 1)).length = (completed (run s inp) n).length + 1 := by
  rw [underway, Bool.or_eq_true] at h
  rcases h with hawaits | hcompl
  · left
    refine ⟨?_, completed_succ_of_awaits hawaits⟩
    rcases awaits_succ hawaits with ⟨-, hnext⟩ | ⟨-, hnext⟩
    · rw [underway, hnext, Bool.true_or]
    · exact underway_of_state hnext rfl
  · obtain ⟨hcompl, hdone⟩ := Bool.and_eq_true_iff.mp hcompl
    have hgoes : (run s inp (n + 1)).tx.preState.completing = true :=
      Txproc.nxtState_completing hcompl (bne_iff_ne.mp hdone)
    by_cases hover : (run s inp (n + 1)).tx.preState = .memrdcplddone
    · right
      have hdata : (run s inp n).tx.preState = .memrdcplddatast1 :=
        Txproc.datast1_of_nxtState hover
      refine ⟨hover, ?_⟩
      rw [completed, log_succ, hdata, hover, List.length_append]
      rfl
    · left
      refine ⟨?_, ?_⟩
      · rw [underway, hgoes, bne_iff_ne.mpr hover, Bool.and_true, Bool.or_true]
      · rw [completed, log_succ, beq_eq_false_iff_ne.mpr hover, Bool.and_false]
        exact List.append_nil _

variable (s inp)

/-- Each read that has found `txproc` free is under way or has its completion. -/
theorem length_asked_completed (n : Nat) : (asked (run s inp) n).length =
    (completed (run s inp) n).length + (run s inp n).underway.toNat := by
  induction n with
  | zero => rfl
  | succ n ih =>
      cases hunder : (run s inp n).underway with
      | true =>
          rw [hunder] at ih
          rw [asked_succ_of_underway hunder, ih]
          rcases underway_succ hunder with ⟨hnext, hkept⟩ | ⟨hover, hmore⟩
          · rw [hnext, hkept]
          · rw [underway_of_done hover, hmore]
            rfl
      | false =>
          rw [hunder] at ih
          obtain ⟨hkept, ⟨hnext, hsame⟩ | ⟨hnext, q, hmore, -⟩⟩ := idle_step hunder
          · rw [hsame, hkept, hnext, ih]
          · rw [hmore, hkept, hnext, List.length_append, ih]
            rfl

end Count

section Liveness

variable (s : PcieCore) (traffic : Traffic) {n : Nat}

/-- A state that lasts until the link takes its word is left. -/
theorem exists_taken {st next : TxState} (enabled : Credits → Bool)
    (henabled : enabled ⟨true, true, true, true, true, true⟩ = true)
    (hnext : ∀ t, (run s traffic.inp t).tx.preState = st →
      (run s traffic.inp (t + 1)).tx.preState =
        if enabled (run s traffic.inp t).tx.credits && (traffic.inp t).txStReady then next else st)
    (hstate : (run s traffic.inp n).tx.preState = st) :
    ∃ m, n ≤ m ∧ (run s traffic.inp m).tx.preState = next := by
  obtain ⟨u, hnu, hcredits, hready⟩ := traffic.served n
  have htaken : (enabled (run s traffic.inp (u + 1)).tx.credits &&
      (traffic.inp (u + 1)).txStReady) = true := by
    change (enabled (Credits.sample (traffic.inp u).txCred) && _) = true
    rw [hcredits, henabled, hready]
    rfl
  obtain ⟨t, hnt, hstays, hgo⟩ := exists_event (n := n)
    (p := fun t => (run s traffic.inp t).tx.preState = st)
    (e := fun t => (enabled (run s traffic.inp t).tx.credits &&
      (traffic.inp t).txStReady) = true) hstate
    (fun t _ hwaits hno => by rw [hnext t hwaits, if_neg hno])
    ⟨u + 1, Nat.le_succ_of_le hnu, htaken⟩
  refine ⟨t + 1, Nat.le_succ_of_le hnt, ?_⟩
  rw [hnext t (hstays t hnt (Nat.le_refl t)), if_pos hgo]

theorem done_of_datast1 (hstate : (run s traffic.inp n).tx.preState = .memrdcplddatast1) :
    ∃ m, n ≤ m ∧ (run s traffic.inp m).tx.preState = .memrdcplddone :=
  exists_taken s traffic Credits.cpdataen rfl
    (fun t hwaits => by rw [txState_succ, Txproc.nxtState, hwaits]; rfl) hstate

theorem done_of_waitst2 (hstate : (run s traffic.inp n).tx.preState = .memrdcpldwaitst2) :
    ∃ m, n ≤ m ∧ (run s traffic.inp m).tx.preState = .memrdcplddone := by
  have hnext : (run s traffic.inp (n + 1)).tx.preState = .memrdcplddatast1 := by
    rw [txState_succ, Txproc.nxtState, hstate]
  obtain ⟨m, hle, hdone⟩ := done_of_datast1 s traffic hnext
  exact ⟨m, Nat.le_of_succ_le hle, hdone⟩

theorem done_of_waitst1 (hstate : (run s traffic.inp n).tx.preState = .memrdcpldwaitst1) :
    ∃ m, n ≤ m ∧ (run s traffic.inp m).tx.preState = .memrdcplddone := by
  have hnext : (run s traffic.inp (n + 1)).tx.preState = .memrdcpldwaitst2 := by
    rw [txState_succ, Txproc.nxtState, hstate]
  obtain ⟨m, hle, hdone⟩ := done_of_waitst2 s traffic hnext
  exact ⟨m, Nat.le_of_succ_le hle, hdone⟩

theorem done_of_head2 (hstate : (run s traffic.inp n).tx.preState = .memrdcpldhead2) :
    ∃ m, n ≤ m ∧ (run s traffic.inp m).tx.preState = .memrdcplddone := by
  obtain ⟨t, hnt, hnext⟩ := exists_taken s traffic Credits.cpdataen rfl
    (fun t hwaits => by rw [txState_succ, Txproc.nxtState, hwaits]; rfl) hstate
  obtain ⟨m, htm, hdone⟩ := done_of_waitst1 s traffic hnext
  exact ⟨m, Nat.le_trans hnt htm, hdone⟩

theorem done_of_head1 (hstate : (run s traffic.inp n).tx.preState = .memrdcpldhead1) :
    ∃ m, n ≤ m ∧ (run s traffic.inp m).tx.preState = .memrdcplddone := by
  obtain ⟨t, hnt, hnext⟩ := exists_taken s traffic Credits.cpheaden rfl
    (fun t hwaits => by rw [txState_succ, Txproc.nxtState, hwaits]; rfl) hstate
  obtain ⟨m, htm, hdone⟩ := done_of_head2 s traffic hnext
  exact ⟨m, Nat.le_trans hnt htm, hdone⟩

/-- A read that waits has its completion begun when no transfer is under way. -/
theorem head1_of_awaits (hawaits : (run s traffic.inp n).awaits = true)
    (hfree : ∃ t, n ≤ t ∧ (run s traffic.inp t).tx.preState.transferring = false) :
    ∃ m, n ≤ m ∧ (run s traffic.inp m).tx.preState = .memrdcpldhead1 := by
  obtain ⟨t, hnt, hwaits, hover⟩ := exists_event (n := n)
    (p := fun t => (run s traffic.inp t).awaits = true)
    (e := fun t => (run s traffic.inp t).tx.preState.transferring = false) hawaits
    (fun t _ hwaits hbusy => by
      rcases awaits_succ hwaits with ⟨-, hnext⟩ | ⟨hidle, -⟩
      · exact hnext
      · rw [hidle] at hbusy
        exact absurd rfl hbusy) hfree
  have hwaits := hwaits t hnt (Nat.le_refl t)
  have hidle : (run s traffic.inp t).tx.preState = .idle := by
    rw [TxState.transferring, completing_of_awaits hwaits, Bool.not_false, Bool.and_true] at hover
    simpa using hover
  rcases awaits_succ hwaits with ⟨hne, -⟩ | ⟨-, hnext⟩
  · exact absurd hidle hne
  · exact ⟨t + 1, Nat.le_succ_of_le hnt, hnext⟩

theorem done_of_underway (hunder : (run s traffic.inp n).underway = true)
    (hfree : ∃ t, n ≤ t ∧ (run s traffic.inp t).tx.preState.transferring = false) :
    ∃ m, n ≤ m ∧ (run s traffic.inp m).tx.preState = .memrdcplddone := by
  rcases underway_cases hunder with hs | hs | hs | hs | hs | hs
  · obtain ⟨t, hnt, hhead⟩ := head1_of_awaits s traffic hs hfree
    obtain ⟨m, htm, hdone⟩ := done_of_head1 s traffic hhead
    exact ⟨m, Nat.le_trans hnt htm, hdone⟩
  · exact done_of_head1 s traffic hs
  · exact done_of_head2 s traffic hs
  · exact done_of_waitst1 s traffic hs
  · exact done_of_waitst2 s traffic hs
  · exact done_of_datast1 s traffic hs

/-- Every read that has found `txproc` free has its completion in the end, if a DMA transfer that
it meets ends. -/
theorem completed_of_free
    (hfree : ∃ t, n ≤ t ∧ (run s traffic.inp t).tx.preState.transferring = false) :
    ∃ m, n ≤ m ∧ (asked (run s traffic.inp) n).length ≤
      (completed (run s traffic.inp) m).length := by
  cases hunder : (run s traffic.inp n).underway with
  | false =>
      refine ⟨n, Nat.le_refl n, ?_⟩
      rw [length_asked_completed, hunder]
      exact Nat.le_refl _
  | true =>
      obtain ⟨m, hnm, hdone⟩ := done_of_underway s traffic hunder hfree
      have hall := length_asked_completed s traffic.inp m
      rw [underway_of_done hdone, Bool.toNat_false, Nat.add_zero] at hall
      refine ⟨m, hnm, ?_⟩
      rw [← hall]
      exact (log_begins _ hnm).length_le

end Liveness

/-- The read of `intreg` that waits in cycle 10 is answered. -/
theorem completed_readTraffic : (asked (run powerUp readTraffic.inp) 10).length = 1 ∧
    ∃ m, 10 ≤ m ∧ (asked (run powerUp readTraffic.inp) 10).length ≤
      (completed (run powerUp readTraffic.inp) m).length :=
  ⟨by decide +kernel, completed_of_free powerUp readTraffic ⟨10, Nat.le_refl 10, by decide +kernel⟩⟩

end PcieCore

end CncCard.Pcie
