import CncCard.Pcie.Txproc
import Mathlib.Data.Nat.Count

/-!
The window of open DMA reads. `dmardtag` counts the requests and `dmardcpldtag` the
words that come back, 64 for a request; `dmarden` is the comparison of the two that
finds eight requests open. Only `IDLE` asks for it, and what it asks for is then never
the ninth. The loop from `DMARDHEAD2` to the next request and a stall in `DMARDHEAD2`
count on without it.
-/

namespace CncCard.Pcie
open Clocked

/-- The states from the dispatch in `IDLE` to the last request. -/
def TxState.reading : TxState → Bool
  | dmardwaitst1 | dmardwaitst2 | dmardhead1 | dmardhead2 => true
  | _ => false

namespace Txproc

/-- The comparison behind `dmarden`. -/
def windowFull (s : Txproc) : Bool :=
  s.dmardtag.getLsbD 3 != s.dmardcpldtag.getLsbD 9 &&
    s.dmardtag.extractLsb 2 0 == s.dmardcpldtag.extractLsb 8 6

def lastWord (s : Txproc) (i : TxInput) : Bool :=
  i.rxfifowr && s.dmardcpldtag.extractLsb 5 0 == 63

/-- The requests issued in the first `n` cycles, as `dmardtag` counts them. -/
def issued (s : Txproc) (inp : Nat → TxInput) (n : Nat) : Nat :=
  Nat.count (fun t => (run s inp t).preState = .dmardhead2) n

def received (inp : Nat → TxInput) (n : Nat) : Nat :=
  Nat.count (fun t => (inp t).rxfifowr = true) n

/-- The requests whose 64 words have not all arrived. -/
def outstanding (s : Txproc) (inp : Nat → TxInput) (n : Nat) : Nat :=
  issued s inp n - received inp n / 64

/-- `DMARDHEAD2` has been left or stalled in since `IDLE`: what is counted now is not the
request that `IDLE` has dispatched. -/
def Repeats (r : Nat → Txproc) (t : Nat) : Prop :=
  ∃ u, u < t ∧ (r u).preState = .dmardhead2 ∧ ∀ k, u < k → k ≤ t → (r k).preState ≠ .idle

/-- Inputs in which completion words come for issued requests only. -/
structure Answers (s : Txproc) where
  inp : Nat → TxInput
  caused : ∀ n, received inp n ≤ 64 * issued s inp n

section Counters

variable (s : Txproc) (inp : Nat → TxInput)

theorem issued_succ (n : Nat) : issued s inp (n + 1) =
    issued s inp n + if (run s inp n).preState = .dmardhead2 then 1 else 0 :=
  Nat.count_succ _ _

theorem received_succ (n : Nat) : received inp (n + 1) =
    received inp n + if (inp n).rxfifowr = true then 1 else 0 :=
  Nat.count_succ _ _

theorem received_none {inp : Nat → TxInput} (h : ∀ t, (inp t).rxfifowr = false) (n : Nat) :
    received inp n = 0 := by
  rw [received, Nat.count_eq_card_filter_range]
  simp [h]

theorem run_dmardtag (n : Nat) :
    (run s inp n).dmardtag = BitVec.ofNat 8 (issued s inp n) := by
  induction n with
  | zero => rfl
  | succ n ih =>
      rw [run_succ, issued_succ]
      simp only [txproc]
      split
      · rw [ih, BitVec.ofNat_add]
        rfl
      · rw [ih, Nat.add_zero]

theorem run_dmardcpldtag (n : Nat) :
    (run s inp n).dmardcpldtag = BitVec.ofNat 12 (received inp n) := by
  induction n with
  | zero => rfl
  | succ n ih =>
      rw [run_succ, received_succ]
      simp only [txproc]
      split
      · rw [ih, BitVec.ofNat_add]
        rfl
      · rw [ih, Nat.add_zero]

theorem windowFull_iff (n : Nat) : (run s inp n).windowFull = true ↔
    issued s inp n / 8 % 2 ≠ received inp n / 64 / 8 % 2 ∧
      issued s inp n % 8 = received inp n / 64 % 8 := by
  have htag (k m : Nat) : (BitVec.ofNat 8 k).getLsbD 3 = (BitVec.ofNat 12 m).getLsbD 9 ↔
      k / 8 % 2 = m / 64 / 8 % 2 := by
    rw [BitVec.getLsbD_ofNat, BitVec.getLsbD_ofNat, Nat.testBit_eq_decide_div_mod_eq,
      Nat.testBit_eq_decide_div_mod_eq, Nat.div_div_eq_div_mul]
    simp only [Nat.reduceLT, decide_true, Bool.true_and, decide_eq_decide, Nat.reducePow]
    omega
  have hlow (k m : Nat) : (BitVec.ofNat 8 k).extractLsb 2 0 = (BitVec.ofNat 12 m).extractLsb 8 6 ↔
      k % 8 = m / 64 % 8 := by
    rw [← BitVec.toNat_inj, BitVec.extractLsb_toNat, BitVec.extractLsb_toNat, BitVec.toNat_ofNat,
      BitVec.toNat_ofNat, Nat.shiftRight_eq_div_pow, Nat.shiftRight_eq_div_pow]
    simp only [Nat.reducePow, Nat.reduceSub, Nat.reduceAdd]
    omega
  rw [windowFull, run_dmardtag, run_dmardcpldtag, Bool.and_eq_true, bne_iff_ne, beq_iff_eq,
    ne_eq, htag, hlow]

theorem lastWord_iff (n : Nat) : lastWord (run s inp n) (inp n) = true ↔
    (inp n).rxfifowr = true ∧ received inp n % 64 = 63 := by
  have hlow (m : Nat) : (BitVec.ofNat 12 m).extractLsb 5 0 = 63 ↔ m % 64 = 63 := by
    rw [← BitVec.toNat_inj, BitVec.extractLsb_toNat, BitVec.toNat_ofNat,
      Nat.shiftRight_eq_div_pow]
    simp only [Nat.reducePow, Nat.reduceSub, Nat.reduceAdd]
    change m % 4096 / 1 % 64 = 63 ↔ m % 64 = 63
    omega
  rw [lastWord, run_dmardcpldtag, Bool.and_eq_true, beq_iff_eq, hlow]

end Counters

variable {s : Txproc} (answers : Answers s)

/-- While at most eight requests are open, the comparison finds exactly the eighth. -/
theorem full_iff_eight {n : Nat} (h : outstanding s answers.inp n ≤ 8) :
    (run s answers.inp n).windowFull = true ↔ outstanding s answers.inp n = 8 := by
  have hcaused := answers.caused n
  rw [outstanding] at h
  rw [windowFull_iff, outstanding]
  omega

theorem reading_of_nxtState {i : TxInput} (h : (s.nxtState i).reading = true) :
    s.preState.reading = true ∨ s.preState = .idle ∧ s.dmarden = true := by
  unfold nxtState at h
  cases hstate : s.preState with
  | dmardwaitst1 | dmardwaitst2 | dmardhead1 | dmardhead2 => exact .inl rfl
  | idle =>
      rw [hstate] at h
      simp only at h
      split at h
      · cases h
      · split at h
        · cases h
        · split at h
          · next hgo => exact .inr ⟨rfl, (Bool.and_eq_true_iff.mp hgo).2⟩
          · cases h
  | _ =>
      rw [hstate] at h
      simp only at h
      first
        | cases h
        | (split at h <;> first | cases h | (split at h <;> cases h))

theorem idle_of_nxtState {i : TxInput} (h : s.nxtState i = .idle) :
    s.preState ≠ .dmardhead2 := by
  intro hstate
  rw [nxtState, hstate] at h
  simp only at h
  split at h
  · cases h
  · split at h <;> cases h

/-- Only `DMARDHEAD2` opens a request. -/
theorem outstanding_succ_le (n : Nat) : outstanding s answers.inp (n + 1) ≤
    outstanding s answers.inp n +
      if (run s answers.inp n).preState = .dmardhead2 then 1 else 0 := by
  have hi := issued_succ s answers.inp n
  have hr : received answers.inp n ≤ received answers.inp (n + 1) := by
    rw [received_succ]
    exact Nat.le_add_right _ _
  have hdiv := @Nat.div_le_div_right _ _ 64 hr
  rw [outstanding, outstanding]
  omega

/-- `dmarden` is one cycle old in `IDLE`, and nothing is counted in the cycle before. -/
theorem outstanding_of_dmarden {n : Nat} (hopen : ∀ k ≤ n, outstanding s answers.inp k ≤ 8)
    (hidle : (run s answers.inp n).preState = .idle)
    (hen : (run s answers.inp n).dmarden = true) : outstanding s answers.inp n ≤ 7 := by
  cases n with
  | zero => simp [outstanding, issued]
  | succ n =>
      have hlow : (!(run s answers.inp n).windowFull) = true := hen
      have hbefore := hopen n (Nat.le_succ n)
      have hseven : outstanding s answers.inp n ≠ 8 := by
        intro height
        rw [(full_iff_eight answers hbefore).mpr height] at hlow
        cases hlow
      have hout : (run s answers.inp n).preState ≠ .dmardhead2 := idle_of_nxtState hidle
      have hnext := outstanding_succ_le answers n
      rw [if_neg hout] at hnext
      omega

/-- Up to the request that `IDLE` has dispatched there is room for one more. -/
theorem outstanding_of_dispatched {n : Nat} (hopen : ∀ k ≤ n, outstanding s answers.inp k ≤ 8)
    (hreading : (run s answers.inp n).preState.reading = true)
    (hfirst : ¬ Repeats (run s answers.inp) n) : outstanding s answers.inp n ≤ 7 := by
  induction n with
  | zero => cases hreading
  | succ n ih =>
      have hbefore : ∀ k ≤ n, outstanding s answers.inp k ≤ 8 := fun k hk =>
        hopen k (Nat.le_succ_of_le hk)
      have hbusy : (run s answers.inp (n + 1)).preState ≠ .idle := by
        intro hidle
        rw [hidle] at hreading
        cases hreading
      have hout : (run s answers.inp n).preState ≠ .dmardhead2 := by
        intro hstate
        refine hfirst ⟨n, Nat.lt_succ_self n, hstate, fun k hnk hk => ?_⟩
        obtain rfl := Nat.le_antisymm hk hnk
        exact hbusy
      have hnext := outstanding_succ_le answers n
      rw [if_neg hout] at hnext
      refine Nat.le_trans hnext ?_
      rcases reading_of_nxtState hreading with hgoes | ⟨hidle, hen⟩
      · refine ih hbefore hgoes ?_
        rintro ⟨u, hun, hstate, hkept⟩
        refine hfirst ⟨u, Nat.lt_succ_of_lt hun, hstate, fun k huk hk => ?_⟩
        rcases Nat.lt_or_eq_of_le hk with hlt | rfl
        · exact hkept k huk (Nat.le_of_lt_succ hlt)
        · exact hbusy
      · exact outstanding_of_dmarden answers hbefore hidle hen

/-- While the window is full, the last word of an older request makes room. -/
theorem outstanding_succ_of_lastWord {n : Nat} (h : outstanding s answers.inp n ≤ 8)
    (hlast : lastWord (run s answers.inp n) (answers.inp n) = true) :
    outstanding s answers.inp (n + 1) ≤ 8 := by
  obtain ⟨hword, hlow⟩ := (lastWord_iff s answers.inp n).mp hlast
  have hi := issued_succ s answers.inp n
  have hr := received_succ answers.inp n
  rw [if_pos hword] at hr
  rw [outstanding] at h ⊢
  split at hi <;> omega

/-- The request that `IDLE` dispatches is never the ninth. So at most eight are ever open if
and only if, while the window is full, none is counted by the loop or by a stall, unless the
last word of an older one arrives in that cycle. -/
theorem outstanding_le_iff (s : Txproc) (answers : Answers s) :
    (∀ n, outstanding s answers.inp n ≤ 8) ↔
      ∀ t, (run s answers.inp t).preState = .dmardhead2 → Repeats (run s answers.inp) t →
        (run s answers.inp t).windowFull = true →
        lastWord (run s answers.inp t) (answers.inp t) = true := by
  constructor
  · intro hall t hstate _ hfull
    have height := (full_iff_eight answers (hall t)).mp hfull
    have hnext := hall (t + 1)
    have hi := issued_succ s answers.inp t
    have hr := received_succ answers.inp t
    rw [if_pos hstate] at hi
    rw [outstanding] at height hnext
    rw [lastWord_iff]
    split at hr
    · next hword => exact ⟨hword, by omega⟩
    · omega
  · intro hclosed n
    induction n using Nat.strong_induction_on with
    | _ n ih =>
        cases n with
        | zero => simp [outstanding, issued]
        | succ t =>
            have hopen : ∀ k ≤ t, outstanding s answers.inp k ≤ 8 := fun k hk =>
              ih k (Nat.lt_succ_of_le hk)
            have hbefore := hopen t (Nat.le_refl t)
            have hnext := outstanding_succ_le answers t
            by_cases hstate : (run s answers.inp t).preState = .dmardhead2
            · rw [if_pos hstate] at hnext
              by_cases hrepeats : Repeats (run s answers.inp) t
              · by_cases hfull : (run s answers.inp t).windowFull = true
                · exact outstanding_succ_of_lastWord answers hbefore
                    (hclosed t hstate hrepeats hfull)
                · rw [full_iff_eight answers hbefore] at hfull
                  omega
              · have hroom := outstanding_of_dispatched answers hopen (by rw [hstate]; rfl) hrepeats
                omega
            · rw [if_neg hstate] at hnext
              omega

/-- `countreg` and then `cmdreg` are written: a DMA read of 16 requests. -/
def readSixteen : Answers powerUp where
  inp := fun t =>
    { TxInput.quiet with
      memsel1 := true
      extAdd := if t < 2 then Reg.countreg.address else Reg.cmdreg.address
      dataWr := t == 1 || t == 3
      extdq := if t < 2 then 0x2000 else 0x200 }
  caused n := (received_none (fun _ => rfl) n).le.trans (Nat.zero_le _)

/-- Nine requests are out before a word has come back. -/
theorem outstanding_readSixteen_false : ¬ ∀ n, outstanding powerUp readSixteen.inp n ≤ 8 := by
  intro hall
  have hnine : outstanding powerUp readSixteen.inp 33 = 9 := by decide +kernel
  have h := hall 33
  omega

end Txproc

end CncCard.Pcie
