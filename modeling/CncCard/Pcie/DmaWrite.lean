import CncCard.Clocked.Fifo
import CncCard.Clocked.Log
import CncCard.Pcie.Dma

/-!
DMA writes. The data states alternate and only the second of them looks at `countreg`,
in a cycle that sends a beat itself. The beat that finds the count at zero is one more
than was asked for.
-/

namespace CncCard.Pcie
open Clocked

universe u
variable {depth : Nat}

/-- `txproc` with the queue that feeds its DMA writes. -/
structure DmaWriter (depth : Nat) where
  tx : Txproc
  fifo : Fifo (BitVec 64) depth

structure DmaWriterInput where
  tx : TxInput
  arrival : Option (BitVec 64)

namespace DmaWriter

/-- The queue shows its oldest word; while it is empty, what `tx` says. -/
def txInput (s : DmaWriter depth) (i : DmaWriterInput) : TxInput :=
  { i.tx with
    fifordempty := s.fifo.isEmpty
    fiforddw := BitVec.ofNat 9 s.fifo.words.length
    fifodqin := s.fifo.words.headD i.tx.fifodqin }

end DmaWriter

def dmaWriter (s : DmaWriter depth) (i : DmaWriterInput) : DmaWriter depth where
  tx := txproc s.tx (s.txInput i)
  fifo := s.fifo.clock i.arrival s.tx.fiford

/-- A DMA write that has just been started, and what happens behind it. Nobody touches
its registers meanwhile and no read of the card is answered. -/
structure DmaWrite (depth : Nat) where
  start : DmaWriter depth
  inp : Nat → DmaWriterInput
  words : Nat
  pos : 0 < words
  fits : words < 2 ^ 20
  filled : words ≤ start.fifo.words.length
  state : start.tx.preState = .dmawrwaitst1
  command : (start.tx.regs .cmdreg).getLsbD 8 = true
  countreg : start.tx.regs .countreg = BitVec.ofNat 32 (8 * words)
  clrcmd : start.tx.clrcmd = false
  alone : ∀ t, ∀ r ∈ [Reg.headreg, .countreg, .cmdreg],
    (trace dmaWriter start inp t).tx.written
      ((trace dmaWriter start inp t).txInput (inp t)) r = false
  unread : ∀ t, (inp t).tx.rxfifowr = false

namespace DmaWrite

def run (w : DmaWrite depth) : Nat → DmaWriter depth := trace dmaWriter w.start w.inp

def input (w : DmaWrite depth) (t : Nat) : TxInput := (w.run t).txInput (w.inp t)

def beatAt (w : DmaWrite depth) (t : Nat) : Bool := (w.run t).tx.dmaWriteBeat (w.input t)

def sent (w : DmaWrite depth) : Nat → List (BitVec 64) :=
  log fun t => if w.beatAt t then [(w.input t).fifodqin] else []

def popped (w : DmaWrite depth) : Nat → List (BitVec 64) :=
  log fun t => (w.run t).fifo.taken (w.run t).tx.fiford

def HeadAt (w : DmaWrite depth) (t : Nat) : Prop :=
  (w.run t).tx.preState = .dmawrhead1 ∧ (w.input t).txStReady = true

/-- The packet whose header leaves in cycle `a` is over in cycle `b`. -/
structure Tlp (w : DmaWrite depth) (a b : Nat) : Prop where
  lt : a < b
  head : w.HeadAt a
  inside : ∀ t, a < t → t < b → ¬ w.HeadAt t
  ends : w.HeadAt b ∨ (w.run b).tx.preState = .dmawrwaitst3

def lengthField (w : DmaWrite depth) (a : Nat) : Nat :=
  (((w.run a).tx.dmawrheadrega (w.input a)).extractLsb 9 0).toNat

/-- The write ends in cycle `e`, with its last beat: the words went out once and in
order, each packet is as long as its header says, the count did not wrap and the
command is cleared. -/
structure Completes (w : DmaWrite depth) (e : Nat) : Prop where
  ends : (w.run (e + 1)).tx.preState = .dmawrwaitst3
  sent : w.sent (e + 1) = w.start.fifo.words.take w.words
  popped : w.popped (e + 2) = w.start.fifo.words.take w.words
  after : ∀ t, e < t → w.beatAt t = false
  lengths : ∀ a b, w.Tlp a b → b ≤ e + 1 →
    2 * ((w.sent b).length - (w.sent a).length) = w.lengthField a
  noWrap : ∀ t, w.beatAt t = true → (w.run t).tx.count ≠ 0
  cleared : ∃ u, e < u ∧ ((w.run u).tx.regs .cmdreg).getLsbD 8 = false

variable (w : DmaWrite depth)

theorem input_rxfifowr (t : Nat) : (w.input t).rxfifowr = false := w.unread t

theorem written_countreg (t : Nat) : (w.run t).tx.written (w.input t) .countreg = false :=
  w.alone t .countreg (by simp)

theorem count_succ_beat {t : Nat} (hclr : (w.run t).tx.clrcmd = false)
    (hbeat : w.beatAt t = true) :
    (w.run (t + 1)).tx.count = ((w.run t).tx.count + (2 ^ 20 - 1)) % 2 ^ 20 :=
  Txproc.count_step (w.written_countreg t) hclr (Bool.or_eq_true_iff.mpr (.inl hbeat))

theorem count_succ_quiet {t : Nat} (hclr : (w.run t).tx.clrcmd = false)
    (hbeat : w.beatAt t = false) : (w.run (t + 1)).tx.count = (w.run t).tx.count :=
  Txproc.count_keep (w.written_countreg t) hclr
    (Bool.or_eq_false_iff.mpr ⟨hbeat, w.input_rxfifowr t⟩)

theorem start_count : w.start.tx.count = w.words := by
  have hfits := w.fits
  rw [Txproc.count, w.countreg, BitVec.extractLsb_toNat, BitVec.toNat_ofNat,
    Nat.shiftRight_eq_div_pow]
  omega

theorem length_sent_succ (t : Nat) :
    (w.sent (t + 1)).length = (w.sent t).length + (w.beatAt t).toNat := by
  rw [sent, log_succ, List.length_append]
  cases w.beatAt t <;> rfl

end DmaWrite

def TxState.writing : TxState → Bool
  | dmawrwaitst1 | dmawrhead1 | dmawrhead2 | dmawrdatast1 | dmawrdatast2 => true
  | _ => false

/-- The engine leaves these states only with a beat that finds the count at zero. -/
theorem Txproc.writing_nxtState {s : Txproc} (i : TxInput) (h : s.preState.writing = true) :
    (s.nxtState i).writing = true ∨ s.dmaWriteBeat i = true ∧ s.count = 0 := by
  rw [← countDone_iff]
  unfold nxtState dmaWriteBeat
  cases hs : s.preState with
  | dmawrwaitst1 | dmawrhead1 | dmawrhead2 | dmawrdatast1 =>
      simp only
      left
      split <;> rfl
  | dmawrdatast2 =>
      simp only
      split
      · next hdone =>
          rw [Bool.and_eq_true] at hdone
          exact .inr ⟨by simp [hdone.1], hdone.2⟩
      · left
        split <;> rfl
  | _ => rw [hs] at h; cases h

namespace DmaWrite

variable (w : DmaWrite depth)

/-- Too many words are out, or the engine still writes: then the count is right, or
all the words are out already. -/
def Underway (t : Nat) : Prop :=
  w.words < (w.sent t).length ∨ (w.run t).tx.preState.writing = true ∧
    (w.words ≤ (w.sent t).length ∨
      (w.run t).tx.clrcmd = false ∧ (w.sent t).length + (w.run t).tx.count = w.words)

theorem underway_counting {t : Nat} (hwriting : (w.run t).tx.preState.writing = true)
    (hclr : (w.run t).tx.clrcmd = false)
    (hcount : (w.sent t).length + (w.run t).tx.count = w.words) : w.Underway (t + 1) := by
  have hlength := w.length_sent_succ t
  have hnext : (w.run (t + 1)).tx.preState = (w.run t).tx.nxtState (w.input t) := rfl
  have hclr' : (w.run (t + 1)).tx.clrcmd = true ↔ (w.run t).tx.count = 0 :=
    Txproc.clrcmd_txproc _ _
  have hstate := Txproc.writing_nxtState (w.input t) hwriting
  by_cases hzero : (w.run t).tx.count = 0
  · cases hbeat : w.beatAt t with
    | true =>
        rw [hbeat, Bool.toNat_true] at hlength
        exact .inl (by omega)
    | false =>
        rw [hbeat, Bool.toNat_false] at hlength
        rcases hstate with hstate | ⟨hsends, -⟩
        · exact .inr ⟨hstate, .inl (by omega)⟩
        · rw [beatAt, hsends] at hbeat
          cases hbeat
  · have hloop : (w.run (t + 1)).tx.preState.writing = true := by
      rcases hstate with hstate | ⟨-, hdone⟩
      · exact hstate
      · exact absurd hdone hzero
    have hlow : (w.run (t + 1)).tx.clrcmd = false := by
      rw [← Bool.not_eq_true, hclr']
      exact hzero
    refine .inr ⟨hloop, .inr ⟨hlow, ?_⟩⟩
    cases hbeat : w.beatAt t with
    | true =>
        have hstep := w.count_succ_beat hclr hbeat
        have hlt := (w.run t).tx.count_lt
        rw [hbeat, Bool.toNat_true] at hlength
        omega
    | false =>
        have hkeep := w.count_succ_quiet hclr hbeat
        rw [hbeat, Bool.toNat_false] at hlength
        omega

theorem underway (t : Nat) : w.Underway t := by
  induction t with
  | zero =>
      refine .inr ⟨?_, .inr ⟨w.clrcmd, ?_⟩⟩
      · change w.start.tx.preState.writing = true
        rw [w.state]
        rfl
      · change 0 + w.start.tx.count = w.words
        rw [Nat.zero_add, w.start_count]
  | succ t ih =>
      have hlength := w.length_sent_succ t
      rcases ih with hmore | ⟨hwriting, hall | ⟨hclr, hcount⟩⟩
      · exact .inl (by omega)
      · rcases Txproc.writing_nxtState (w.input t) hwriting with hstate | ⟨hbeat, -⟩
        · exact .inr ⟨hstate, .inl (by omega)⟩
        · rw [beatAt, hbeat, Bool.toNat_true] at hlength
          exact .inl (by omega)
      · exact w.underway_counting hwriting hclr hcount

theorem words_lt_sent {t : Nat} (h : (w.run t).tx.preState = .dmawrwaitst3) :
    w.words < (w.sent t).length := by
  rcases w.underway t with hmore | ⟨hwriting, -⟩
  · exact hmore
  · rw [h] at hwriting
    cases hwriting

theorem not_completes (e : Nat) : ¬ w.Completes e := by
  intro h
  have hmore := w.words_lt_sent h.ends
  rw [h.sent, List.length_take] at hmore
  omega

/-- No DMA write sends exactly the words that it was started for. -/
theorem completes_false (w : DmaWrite depth) : ¬ ∃ e, w.Completes e := by
  rintro ⟨e, h⟩
  exact w.not_completes e h

/-- One word, and a link that is always ready. -/
def oneWord : DmaWrite 1 where
  start :=
    { tx :=
        { Txproc.powerUp with
          preState := .dmawrwaitst1
          regs := fun r => if r = .countreg then 8 else if r = .cmdreg then 0x100 else 0 }
      fifo := ⟨[0x0123456789ABCDEF], Nat.le_refl 1⟩ }
  inp := fun _ => ⟨.quiet, none⟩
  words := 1
  pos := Nat.one_pos
  fits := by decide
  filled := by decide
  state := rfl
  command := by decide
  countreg := by decide
  clrcmd := rfl
  alone := fun _ _ _ => rfl
  unread := fun _ => rfl

/-- The word goes out twice. -/
theorem completes_oneWord_false : ¬ ∃ e, oneWord.Completes e := by
  rintro ⟨e, h⟩
  exact oneWord.not_completes e h

end DmaWrite

end CncCard.Pcie
