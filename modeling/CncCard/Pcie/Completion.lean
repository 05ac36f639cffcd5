import CncCard.Pcie.Core
import CncCard.Pcie.Framing

/-!
The answers to memory reads. The header of a completion is put together in slices, and
the slice of the type byte is one bit too long: the byte 0x4A comes out as 0x25, in
every completion that is ever sent.
-/

namespace CncCard.Pcie
open Clocked

/-- What a completion has to return of a memory-read packet. -/
structure ReadRequest where
  reqid : BitVec 16
  tag : BitVec 8
  tc : BitVec 3
  attrib : BitVec 2
  address : BitVec 32

def ReadRequest.ofHeader (first second : BitVec 64) : ReadRequest where
  reqid := first.extractLsb 63 48
  tag := first.extractLsb 47 40
  tc := first.extractLsb 22 20
  attrib := first.extractLsb 13 12
  address := headerAddress first second

/-- The words `first`, `second` and `rest` are a completion with data for the request:
two words if the address is odd in double words, three if it is even. -/
structure Completes (q : ReadRequest) (value : Word) (first second : BitVec 64)
    (rest : List (BitVec 64)) : Prop where
  fmtType : first.extractLsb 31 24 = 0x4A
  length : first.extractLsb 9 0 = 1
  byteCount : first.extractLsb 43 32 = 4
  tc : first.extractLsb 22 20 = q.tc
  attrib : first.extractLsb 13 12 = q.attrib
  reqid : second.extractLsb 31 16 = q.reqid
  tag : second.extractLsb 15 8 = q.tag
  lowerAddress : second.extractLsb 6 0 = q.address.extractLsb 6 0
  payload :
    if q.address.getLsbD 2 then rest = [] ∧ second.extractLsb 63 32 = value
    else ∃ third : BitVec 64, rest = [third] ∧ third.extractLsb 31 0 = value

namespace PcieCore

/-- `rxproc` has accepted the read of one double word at the BAR1 address of `reg`. -/
structure Accepts (s : PcieCore) (reg : Reg) : Prop where
  state : s.rx.core.preState = .memrdst1
  single : s.rx.core.headrega.extractLsb 9 0 = 1
  bar1 : s.rx.core.memsel1 = true
  address : s.rx.core.extAdd = reg.address

def request (s : PcieCore) : ReadRequest := .ofHeader s.rx.core.headrega s.rx.core.headregb

def Starts (r : Nat → PcieCore) (a : Nat) : Prop :=
  (r a).tx.preState = .memrdcpldhead1 ∧ ∀ t, t + 1 = a → (r t).tx.preState ≠ .memrdcpldhead1

structure Completion (r : Nat → PcieCore) (a b : Nat) : Prop where
  lt : a < b
  starts : Starts r a
  pending : ∀ t, a < t → t < b → (r t).tx.preState ≠ .memrdcplddone
  done : (r b).tx.preState = .memrdcplddone

/-- The words sent in `n` cycles from `a` on, each as last shown before its state is left. -/
def sent (r : Nat → PcieCore) (a : Nat) : Nat → List (BitVec 64)
  | 0 => []
  | n + 1 =>
      (if (r (a + 1)).tx.preState = (r a).tx.preState then []
        else (r (a + 1)).tx.presents.toList.map Beat.data) ++ sent r (a + 1) n

/-- No further read is accepted behind cycle `t` up to cycle `a`. -/
def SameRead (r : Nat → PcieCore) (t a : Nat) : Prop :=
  t ≤ a ∧ ∀ u, t < u → u ≤ a → (r u).rx.core.preState ≠ .memrdst1

/-- The read accepted in cycle `t` is answered by exactly one completion, with the value
that the register has at some time before the completion is over. -/
def Answered (r : Nat → PcieCore) (t : Nat) (reg : Reg) : Prop :=
  ∃ a b first second rest, Completion r a b ∧ sent r a (b - a) = first :: second :: rest ∧
    (∃ u, t ≤ u ∧ u ≤ b ∧ Completes (r t).request ((r u).tx.regs reg) first second rest) ∧
    SameRead r t a ∧ ∀ a', SameRead r t a' → Starts r a' → a' = a

/-- Inputs under which no stall of the link lasts forever. -/
structure Traffic where
  inp : Nat → CoreInput
  served : ∀ n, ∃ t, n ≤ t ∧
    Credits.sample (inp t).txCred = ⟨true, true, true, true, true, true⟩ ∧
    (inp (t + 1)).txStReady = true

theorem cpldType (i : TxInput) : (Txproc.nxtMemrdcpheadrega i).extractLsb 31 24 = 0x25 := by
  unfold Txproc.nxtMemrdcpheadrega
  apply BitVec.eq_of_getLsbD_eq
  intro k hk
  rw [BitVec.getLsbD_extractLsb]
  iterate 9 rw [BitVec.getLsbD_append]
  interval_cases k <;> rfl

section Runs

variable (s : PcieCore) (inp : Nat → CoreInput)

theorem run_cpldType {t : Nat} (h : (run s inp t).tx.preState = .memrdcpldhead1) :
    (run s inp t).tx.memrdcpheadrega.extractLsb 31 24 = 0x25 := by
  cases t with
  | zero => cases h
  | succ t => exact cpldType _

theorem run_presents_cpldhead1 {t : Nat} (h : (run s inp t).tx.preState = .memrdcpldhead1) :
    (run s inp (t + 1)).tx.presents =
      some ⟨(run s inp t).tx.memrdcpheadrega, false, false⟩ := by
  have hbeat : (run s inp t).tx.beat ((run s inp t).txInput (inp t)) =
      some (0x00#8 ++ (run s inp t).tx.memrdcpheadrega) := by
    rw [Txproc.beat, h]
  rw [run_succ, pcieCore, Txproc.presents_txproc, hbeat, Option.map_some, Txproc.wired_append]
  rfl

/-- The first word of everything sent from the head of a completion on has the wrong type. -/
theorem sent_type {first : BitVec 64} {rest : List (BitVec 64)} (n : Nat) :
    ∀ a, (run s inp a).tx.preState = .memrdcpldhead1 →
      sent (run s inp) a n = first :: rest → first.extractLsb 31 24 = 0x25 := by
  induction n with
  | zero =>
      intro a _ hsent
      cases hsent
  | succ n ih =>
      intro a hstate hsent
      rw [sent] at hsent
      split at hsent
      case isTrue hstays => exact ih (a + 1) (hstays.trans hstate) hsent
      case isFalse =>
        rw [run_presents_cpldhead1 s inp hstate] at hsent
        obtain ⟨rfl, -⟩ := List.cons.inj hsent
        exact run_cpldType s inp hstate

theorem not_answered {t : Nat} {reg : Reg} : ¬ Answered (run s inp) t reg := by
  rintro ⟨a, b, first, second, rest, hcompletion, hsent, ⟨u, -, -, hcompletes⟩, -, -⟩
  have htype := sent_type s inp (b - a) a hcompletion.starts.1 hsent
  rw [hcompletes.fmtType] at htype
  cases htype

end Runs

/-- All reads of registers are answered in exactly the runs that accept none. -/
theorem answered_iff_none (s : PcieCore) (traffic : Traffic) :
    (∀ t reg, Accepts (run s traffic.inp t) reg → Answered (run s traffic.inp) t reg) ↔
      ∀ t reg, ¬ Accepts (run s traffic.inp t) reg := by
  constructor
  · intro hall t reg haccepts
    exact not_answered s traffic.inp (hall t reg haccepts)
  · intro hnone t reg haccepts
    exact absurd haccepts (hnone t reg)

/-- A read of `intreg`: requester 0x0100, tag 5. -/
def readFirst : RxWord := ⟨0x0100050F00000001, 0xFF, 0x02, true, false, true, false⟩
def readSecond : RxWord := ⟨0x0000000000000004, 0x0F, 0x02, true, false, false, true⟩

def powerUp : PcieCore where
  rx := ⟨.empty,
    ⟨.idle, ⟨0, 0, 0, false, false, false, false⟩, 0, 0, 0, 0, 0, false, false, false⟩⟩
  tx := .powerUp

def readTraffic : Traffic where
  inp t :=
    { arrival := if t = 0 then some readFirst else if t = 1 then some readSecond else none
      stale := readSecond
      extdfer := true
      dmardfifodw := 0
      busnum := 1
      devnum := 0
      txCred := BitVec.allOnes 36
      txStReady := true
      float := 0
      fifordempty := true
      appIntAck := false
      fiforddw := 0
      fifodqin := 0
      regs := TxInput.quiet.regs }
  served n := ⟨n, Nat.le_refl n, Credits.sample_allOnes, rfl⟩

theorem readTraffic_accepts : ∃ t, Accepts (run powerUp readTraffic.inp t) .intreg := by
  have hwords : (run powerUp readTraffic.inp 2).rx.fifo.words = [readFirst, readSecond] := by
    decide
  have hqueue : [readFirst, readSecond] <+: (run powerUp readTraffic.inp 2).rx.fifo.words := by
    rw [hwords]
  obtain ⟨n, hread, -⟩ := RxPath.reach_headerRead rfl hqueue rfl (by rw [hwords]; decide)
    fun j => (run powerUp readTraffic.inp (2 + j)).rxInput (readTraffic.inp (2 + j))
  rw [← run_rx_add] at hread
  obtain ⟨hat, hheader, hsel⟩ := hread.memrdst1 (by decide) (by decide)
    ((run powerUp readTraffic.inp (2 + n)).rxInput (readTraffic.inp (2 + n)))
  refine ⟨2 + n + 1, hat.state, ?_, hsel, ?_⟩
  · rw [run_succ, pcieCore, hheader.headrega]
    decide
  · rw [run_succ, pcieCore, Rxproc.extAdd, hheader.addr]
    decide

/-- The read of `intreg` is accepted and gets a completion of the wrong type. -/
theorem answered_readTraffic_false :
    ¬ ∀ t reg, Accepts (run powerUp readTraffic.inp t) reg →
      Answered (run powerUp readTraffic.inp) t reg := by
  intro hall
  obtain ⟨t, haccepts⟩ := readTraffic_accepts
  exact not_answered _ _ (hall t _ haccepts)

end PcieCore

end CncCard.Pcie
