import CncCard.Pcie.Dma

/-!
The header of a DMA write. Its length is the least of three limits, each registered from
what its register held in the cycle before: the rest of the page, the count and the data
queue. The count and the queue are limits in quad words, the page is not: at the end of a
page less than a quad word may be left, and the header then announces the length zero.
-/

namespace CncCard.Pcie
open Clocked

namespace Txproc

variable (s : Txproc) (i : TxInput)

def headOffset : Nat := (s.regs .headreg).toNat % 2 ^ 12

/-- The length field of the header, in double words. -/
def lengthField : Nat := ((s.dmawrheadrega i).extractLsb 9 0).toNat

theorem lengthField_eq : s.lengthField i = 2 * (s.bytelength.toNat / 8) := by
  have hlen := s.bytelength.isLt
  have hlow (x : BitVec 48) (y : BitVec 3) (z : BitVec 6) :
      ((x ++ 0#2 ++ 2#2 ++ 0#2 ++ y ++ z ++ 0#1).extractLsb 9 0).toNat =
        y.toNat * 2 ^ 7 + z.toNat * 2 := by
    have hy := y.isLt
    have hz := z.isLt
    rw [BitVec.extractLsb_toNat, toNat_append_add, toNat_append_add, toNat_append_add]
    simp only [Nat.shiftRight_zero, BitVec.toNat_ofNat]
    omega
  have hfield : s.lengthField i = (0#3).toNat * 2 ^ 7 + (s.bytelength.extractLsb 8 3).toNat * 2 :=
    hlow _ _ _
  rw [hfield, BitVec.extractLsb_toNat, Nat.shiftRight_eq_div_pow]
  simp only [BitVec.toNat_ofNat]
  omega

theorem nxtBytelength_toNat : s.nxtBytelength.toNat =
    min (min s.ctlength.toNat s.cross4klength.toNat) s.fifodwlength.toNat := by
  simp only [nxtBytelength, BitVec.le_def]
  split
  · split <;> omega
  · split <;> omega

theorem canntcross4k_txproc : (txproc s i).canntcross4k.toNat = 4096 - s.headOffset := by
  have hoffset : s.headOffset < 2 ^ 12 := Nat.mod_lt _ (by decide)
  have hlow : ((s.regs .headreg).extractLsb 11 0).toNat = s.headOffset := by
    rw [BitVec.extractLsb_toNat]
    rfl
  simp only [txproc]
  rw [BitVec.toNat_sub, toNat_append_add, hlow]
  simp only [BitVec.toNat_ofNat]
  omega

theorem cross4klength_txproc : (txproc s i).cross4klength.toNat =
    if 512 ≤ s.canntcross4k.toNat then 256 else s.canntcross4k.toNat := by
  have hpage : (0x0200 ≤ s.canntcross4k) ↔ 512 ≤ s.canntcross4k.toNat := Iff.rfl
  simp only [txproc, hpage]
  split
  · rfl
  · rw [BitVec.extractLsb_toNat, Nat.shiftRight_zero]
    omega

theorem fifodwlength_txproc : (txproc s i).fifodwlength.toNat =
    min 256 (8 * i.fiforddw.toNat) := by
  have hfull : (0x020 ≤ i.fiforddw) ↔ 32 ≤ i.fiforddw.toNat := Iff.rfl
  simp only [txproc, hfull]
  split
  · simp only [BitVec.reduceToNat]
    omega
  · rw [toNat_append_add, BitVec.extractLsb_toNat, Nat.shiftRight_zero]
    simp only [BitVec.toNat_ofNat]
    omega

theorem ctlength_txproc : (txproc s i).ctlength.toNat =
    min 256 ((s.regs .countreg).toNat % 2 ^ 23) := by
  have hfull : (0x00100 ≤ (s.regs .countreg).extractLsb 22 0) ↔
      256 ≤ (s.regs .countreg).toNat % 2 ^ 23 := by
    rw [BitVec.le_def, BitVec.extractLsb_toNat, Nat.shiftRight_zero]
    rfl
  simp only [txproc, hfull]
  split
  · simp only [BitVec.reduceToNat]
    omega
  · rw [BitVec.extractLsb_toNat, Nat.shiftRight_zero]
    omega

theorem bytelength_txproc (hstate : s.preState = .dmawrwaitst1) :
    (txproc s i).bytelength = s.nxtBytelength := by
  simp only [txproc, hstate, if_true]

theorem countreg_clear (hclr : s.clrcmd = true) : (txproc s i).regs .countreg = 0x40 := by
  simp only [txproc, nxtRegs, nxtCountreg, hclr, if_true]

/-- Cycle `t + 3` latches the length of a DMA write. -/
structure Latches (r : Nat → Txproc) (inp : Nat → TxInput) (t : Nat) : Prop where
  state : (r (t + 3)).preState = .dmawrwaitst1
  headreg : ∀ k < 3, (r (t + k)).regs .headreg = (r (t + 3)).regs .headreg
  countreg : ∀ k < 3, (r (t + k)).regs .countreg = (r (t + 3)).regs .countreg
  count : 8 ≤ ((r (t + 3)).regs .countreg).toNat
  level : ∀ k, 1 ≤ k → k < 3 → 1 ≤ (inp (t + k)).fiforddw.toNat

/-- What a header may announce. -/
structure Bounds (length offset count level : Nat) : Prop where
  pos : 1 ≤ length
  le_max : length ≤ 64
  le_count : 4 * length ≤ count
  le_level : 4 * length ≤ 8 * level
  in_page : offset + 4 * length ≤ 4096

/-- The least of the three limits, in whole quad words. -/
def shortest (offset count level : Nat) : Nat :=
  min (min (min 256 count) (if 512 ≤ 4096 - offset then 256 else 4096 - offset))
    (min 256 (8 * level)) / 8

theorem bounds_iff {offset limit count level : Nat} (hoffset : offset < 4096)
    (hlimit : 8 ≤ limit) (hcount : limit ≤ count) (hlevel : 1 ≤ level) :
    Bounds (2 * shortest offset limit level) offset count level ↔ offset ≤ 4088 := by
  unfold shortest
  constructor
  · intro h
    have hpos := h.pos
    split at hpos <;> omega
  · intro hin
    split
    · exact ⟨by omega, by omega, by omega, by omega, by omega⟩
    · exact ⟨by omega, by omega, by omega, by omega, by omega⟩

section Run

variable {s : Txproc} {inp : Nat → TxInput} {t : Nat}

/-- A count of zero would have been loaded anew. -/
theorem Latches.count_low (h : Latches (run s inp) inp t) :
    8 ≤ ((run s inp (t + 3)).regs .countreg).toNat % 2 ^ 23 := by
  have hzero := h.countreg 0 (by decide)
  have htwo := h.countreg 2 (by decide)
  have hnonzero : (run s inp t).count ≠ 0 := by
    intro hnone
    have hclr : (run s inp (t + 1)).clrcmd = true := (clrcmd_txproc _ _).mpr hnone
    have hload : (run s inp (t + 2)).regs .countreg = 0x40 := countreg_clear _ _ hclr
    have hkept : (run s inp t).regs .countreg = 0x40 := hzero.trans (htwo.symm.trans hload)
    rw [Txproc.count, hkept] at hnone
    exact absurd hnone (by decide)
  have hfield : (run s inp t).count =
      ((run s inp (t + 3)).regs .countreg).toNat / 8 % 2 ^ 20 := by
    rw [Txproc.count, ← hzero, BitVec.extractLsb_toNat, Nat.shiftRight_eq_div_pow]
    rfl
  omega

theorem Latches.length_eq (h : Latches (run s inp) inp t) (i : TxInput) :
    (run s inp (t + 4)).lengthField i =
      2 * shortest (run s inp (t + 3)).headOffset
        (((run s inp (t + 3)).regs .countreg).toNat % 2 ^ 23) (inp (t + 2)).fiforddw.toNat := by
  have hoffset : (run s inp (t + 1)).headOffset = (run s inp (t + 3)).headOffset := by
    rw [headOffset, headOffset, h.headreg 1 (by decide)]
  have hroom := canntcross4k_txproc (run s inp (t + 1)) (inp (t + 1))
  have hpage := cross4klength_txproc (run s inp (t + 2)) (inp (t + 2))
  have hcount := ctlength_txproc (run s inp (t + 2)) (inp (t + 2))
  have hqueue := fifodwlength_txproc (run s inp (t + 2)) (inp (t + 2))
  have hlatch := bytelength_txproc (run s inp (t + 3)) (inp (t + 3)) h.state
  rw [← run_succ] at hroom hpage hcount hqueue hlatch
  rw [hoffset] at hroom
  rw [hroom] at hpage
  rw [h.countreg 2 (by decide)] at hcount
  rw [lengthField_eq, hlatch, nxtBytelength_toNat, hcount, hpage, hqueue, shortest]

end Run

/-- The bus writes `headreg` and starts a DMA write; the queue has four words. -/
def startAt (headreg : Word) (t : Nat) : TxInput :=
  { TxInput.quiet with
    memsel1 := decide (t < 2)
    extAdd := if t = 0 then Reg.headreg.address else Reg.cmdreg.address
    dataWr := decide (0 < t ∧ t < 3)
    extdq := if t = 1 then headreg else 0x100
    fifordempty := decide (t < 4)
    fiforddw := 4 }

theorem level_startAt : 1 ≤ (4 : BitVec 9).toNat := by decide

theorem latches_startAt (headreg : Word) (h : headreg = 0xFF8 ∨ headreg = 0xFFC) :
    Latches (run .powerUp (startAt headreg)) (startAt headreg) 2 := by
  obtain rfl | rfl := h
  · exact ⟨by decide +kernel, by decide +kernel, by decide +kernel, by decide +kernel,
      fun _ _ _ => level_startAt⟩
  · exact ⟨by decide +kernel, by decide +kernel, by decide +kernel, by decide +kernel,
      fun _ _ _ => level_startAt⟩

/-- The header is within its bounds if and only if eight bytes of the page are left. -/
theorem header_bounds_iff (s : Txproc) (inp : Nat → TxInput) (t : Nat)
    (h : Latches (run s inp) inp t) (i : TxInput) :
    Bounds ((run s inp (t + 4)).lengthField i) (run s inp (t + 3)).headOffset
        ((run s inp (t + 3)).regs .countreg).toNat (inp (t + 2)).fiforddw.toNat ↔
      (run s inp (t + 3)).headOffset ≤ 4088 := by
  rw [h.length_eq]
  exact bounds_iff (Nat.mod_lt _ (by decide)) h.count_low (Nat.mod_le _ _)
    (h.level 2 (by decide) (by decide))

theorem header_bounds_iff_startAt :
    Bounds ((run .powerUp (startAt 0xFF8) 6).lengthField .quiet)
      (run .powerUp (startAt 0xFF8) 5).headOffset
      ((run .powerUp (startAt 0xFF8) 5).regs .countreg).toNat 4 :=
  (header_bounds_iff .powerUp (startAt 0xFF8) 2 (latches_startAt _ (.inl rfl)) .quiet).mpr
    (by decide +kernel)

/-- Four bytes before the end of a page the header announces the length zero. -/
theorem header_startAt_false :
    Latches (run .powerUp (startAt 0xFFC)) (startAt 0xFFC) 2 ∧
    (run .powerUp (startAt 0xFFC) 6).preState = .dmawrhead1 ∧
    ¬ Bounds ((run .powerUp (startAt 0xFFC) 6).lengthField .quiet)
      (run .powerUp (startAt 0xFFC) 5).headOffset
      ((run .powerUp (startAt 0xFFC) 5).regs .countreg).toNat 4 := by
  refine ⟨latches_startAt _ (.inr rfl), by decide +kernel, fun h => ?_⟩
  have hpos := h.pos
  have hzero : (run .powerUp (startAt 0xFFC) 6).lengthField .quiet = 0 := by decide +kernel
  omega

end Txproc

end CncCard.Pcie
