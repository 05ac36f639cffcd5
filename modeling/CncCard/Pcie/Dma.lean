import CncCard.Clocked.Bits
import CncCard.Pcie.Txproc
import Mathlib.Tactic.IntervalCases

/-!
The two counters of a DMA transfer. `countreg` counts quad words in its bits 22 to 3,
`rdcountreg` blocks of 512 bytes in its bits 22 to 9; both count down and wrap. One cycle
after the count has come to zero, `clrcmd` loads both of them anew.
-/

namespace CncCard.Pcie
open Clocked

namespace Txproc

def count (s : Txproc) : Nat := ((s.regs .countreg).extractLsb 22 3).toNat

def rdcount (s : Txproc) : Nat := (s.rdcountreg.extractLsb 22 9).toNat

variable {s : Txproc} {i : TxInput}

theorem count_lt (s : Txproc) : s.count < 2 ^ 20 := BitVec.isLt _

theorem rdcount_lt (s : Txproc) : s.rdcount < 2 ^ 14 := BitVec.isLt _

theorem countDone_iff (s : Txproc) : s.countDone = true ↔ s.count = 0 := by
  rw [countDone, beq_iff_eq, count, ← BitVec.toNat_inj]
  rfl

theorem rdcount_eq_zero (s : Txproc) :
    (s.rdcountreg.extractLsb 22 9 == 0) = true ↔ s.rdcount = 0 := by
  rw [beq_iff_eq, rdcount, ← BitVec.toNat_inj]
  rfl

theorem clrcmd_txproc (s : Txproc) (i : TxInput) :
    (txproc s i).clrcmd = true ↔ s.count = 0 := s.countDone_iff

/-- A quad word sent to the host, or one received from it. -/
theorem count_step (hwr : s.written i .countreg = false) (hclr : s.clrcmd = false)
    (hstep : (s.dmaWriteBeat i || i.rxfifowr) = true) :
    (txproc s i).count = (s.count + (2 ^ 20 - 1)) % 2 ^ 20 := by
  have hreg : (txproc s i).regs .countreg =
      (s.regs .countreg).extractLsb 31 23 ++ ((s.regs .countreg).extractLsb 22 3 - 1) ++
        (s.regs .countreg).extractLsb 2 0 := by
    simp [txproc, nxtRegs, nxtCountreg, hclr, hwr, hstep]
  rw [count, hreg]
  have hfield : ((s.regs .countreg).extractLsb 31 23 ++
      ((s.regs .countreg).extractLsb 22 3 - 1) ++ (s.regs .countreg).extractLsb 2 0 :
        BitVec 32).extractLsb 22 3 = (s.regs .countreg).extractLsb 22 3 - 1 :=
    extractLsb_field _ _ _
  rw [hfield, BitVec.toNat_sub, count, Nat.add_comm]
  rfl

theorem count_keep (hwr : s.written i .countreg = false) (hclr : s.clrcmd = false)
    (hkeep : (s.dmaWriteBeat i || i.rxfifowr) = false) : (txproc s i).count = s.count := by
  simp [count, txproc, nxtRegs, nxtCountreg, hclr, hwr, hkeep]

/-- A cycle of `DMARDHEAD2` counts a block, whether the request leaves in it or not. -/
theorem rdcountreg_step (hwr : s.written i .countreg = false) (hclr : s.clrcmd = false)
    (hstate : s.preState = .dmardhead2) :
    (txproc s i).rdcountreg.extractLsb 22 9 = s.rdcountreg.extractLsb 22 9 - 1 := by
  have hreg : (txproc s i).rdcountreg =
      s.rdcountreg.extractLsb 31 23 ++ (s.rdcountreg.extractLsb 22 9 - 1) ++
        s.rdcountreg.extractLsb 8 0 := by
    simp [txproc, nxtRdcountreg, hclr, hwr, hstate]
  rw [hreg]
  exact extractLsb_field _ _ _

theorem rdcount_step (hwr : s.written i .countreg = false) (hclr : s.clrcmd = false)
    (hstate : s.preState = .dmardhead2) :
    (txproc s i).rdcount = (s.rdcount + (2 ^ 14 - 1)) % 2 ^ 14 := by
  rw [rdcount, rdcountreg_step hwr hclr hstate, BitVec.toNat_sub, rdcount, Nat.add_comm]
  rfl

theorem rdcount_keep (hwr : s.written i .countreg = false) (hclr : s.clrcmd = false)
    (hstate : s.preState ≠ .dmardhead2) : (txproc s i).rdcount = s.rdcount := by
  simp [rdcount, txproc, nxtRdcountreg, hclr, hwr, hstate]

theorem rdcount_clear (hclr : s.clrcmd = true) : (txproc s i).rdcount = 0 := by
  simp only [rdcount, txproc, nxtRdcountreg, hclr, if_true]
  rfl

theorem add_block (x : Word) : (x.extractLsb 31 9 + 1) ++ x.extractLsb 8 0 = x + 512 := by
  have hx := x.isLt
  have hone : (1 : BitVec (31 - 9 + 1)).toNat = 1 := rfl
  have hblock : (512 : Word).toNat = 512 := rfl
  apply BitVec.eq_of_toNat_eq
  rw [toNat_append_add, BitVec.toNat_add, BitVec.toNat_add, BitVec.extractLsb_toNat,
    BitVec.extractLsb_toNat, Nat.shiftRight_eq_div_pow, Nat.shiftRight_eq_div_pow, hone, hblock]
  omega

theorem headreg_step (hwr : s.written i .headreg = false) (hstate : s.preState = .dmardhead2) :
    (txproc s i).regs .headreg = s.regs .headreg + 512 := by
  rw [← add_block]
  simp [txproc, nxtRegs, nxtHeadreg, hwr, dmaWriteBeat, hstate]

theorem headreg_keep (hwr : s.written i .headreg = false) (hbeat : s.dmaWriteBeat i = false)
    (hstate : s.preState ≠ .dmardhead2) : (txproc s i).regs .headreg = s.regs .headreg := by
  simp [txproc, nxtRegs, nxtHeadreg, hwr, hbeat, hstate]

theorem dmardtag_step (hstate : s.preState = .dmardhead2) :
    (txproc s i).dmardtag = s.dmardtag + 1 := by
  simp only [txproc, hstate, if_true]

theorem dmardtag_keep (hstate : s.preState ≠ .dmardhead2) :
    (txproc s i).dmardtag = s.dmardtag := by
  simp only [txproc, hstate, if_false]

theorem dmardheadrega_tag (s : Txproc) (i : TxInput) :
    (s.dmardheadrega i).extractLsb 47 40 = 0#3 ++ s.dmardtag.extractLsb 4 0 := by
  unfold dmardheadrega
  apply BitVec.eq_of_getLsbD_eq
  intro k hk
  rw [BitVec.getLsbD_extractLsb]
  iterate 12 rw [BitVec.getLsbD_append]
  interval_cases k <;> rfl

theorem address_of_aligned {s : Txproc} (h : (s.regs .headreg).extractLsb 1 0 = 0) :
    s.dmardheadregb.extractLsb 31 0 = s.regs .headreg := by
  apply BitVec.eq_of_getLsbD_eq
  intro k hk
  rw [BitVec.getLsbD_extractLsb, dmardheadregb, BitVec.getLsbD_append, BitVec.getLsbD_append]
  by_cases hlow : k < 2
  · have hbit : ((s.regs .headreg).extractLsb 1 0).getLsbD k = (s.regs .headreg).getLsbD k := by
      simp [hlow]
    rw [← hbit, h]
    simp [hlow]
  · have hin : decide (k < 31 - 0 + 1) = true := decide_eq_true hk
    have hmid : decide (k - 2 < 31 - 2 + 1) = true := decide_eq_true (by omega)
    have hadd : 2 + (k - 2) = k := by omega
    rw [Nat.zero_add, hin, if_neg hlow, if_pos (by omega), BitVec.getLsbD_extractLsb, hmid, hadd]
    rfl

end Txproc

end CncCard.Pcie
