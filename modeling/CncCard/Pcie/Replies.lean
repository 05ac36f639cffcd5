import CncCard.Pcie.Answers
import Mathlib.Data.List.Forall2

/-!
What the completions carry. The header of a completion is built anew in each cycle from what
`rxproc` shows, so it is that of its read as long as `rxproc` does not come to the next packet
before the two header words have left. The payload is what the bus shows while nobody drives it.
-/

namespace CncCard.Pcie
open Clocked

/-- The three words of a completion. -/
structure CplPacket where
  first : BitVec 64
  second : BitVec 64
  third : BitVec 64

namespace ReadRequest

/-- But for the type of the packet, and the traffic class, which `rxproc` takes one bit too low. -/
structure First (q : ReadRequest) (w : BitVec 64) : Prop where
  length : w.extractLsb 9 0 = 1
  byteCount : w.extractLsb 43 32 = 4
  attrib : w.extractLsb 13 12 = q.attrib

structure Second (q : ReadRequest) (w : BitVec 64) : Prop where
  reqid : w.extractLsb 31 16 = q.reqid
  tag : w.extractLsb 15 8 = q.tag
  lowerAddress : w.extractLsb 6 0 = q.address.extractLsb 6 0

end ReadRequest

/-- The states behind a read, up to the next packet. -/
def RxState.behindRead : RxState → Bool
  | memrdst3 | memrdst4 | unsp1 | unsp2 | idle => true
  | _ => false

def RxState.writing : RxState → Bool
  | memwrst1 | memwrst2 | memwrst3 => true
  | _ => false

theorem RxState.writing_of_behindRead {st : RxState} (h : st.behindRead = true) :
    st.writing = false := by
  cases st <;> first | rfl | cases h

/-- The states of a DMA transfer, and the codes that are never entered. -/
def TxState.transferring (st : TxState) : Bool := st != .idle && !st.completing

namespace PcieCore

/-- The word that a state of `txproc` has shown last. -/
def lastShown (r : Nat → PcieCore) (st : TxState) : Nat → BitVec 64
  | 0 => 0
  | t + 1 =>
      if (r t).tx.preState = st then (r (t + 1)).tx.presents.elim 0 Beat.data
      else lastShown r st t

/-- The completions that are over, each word as shown last. -/
def completed (r : Nat → PcieCore) : Nat → List CplPacket :=
  log fun t =>
    if (r t).tx.preState == .memrdcplddatast1 && (r (t + 1)).tx.preState == .memrdcplddone
    then [⟨lastShown r .memrdcpldhead1 (t + 1), lastShown r .memrdcpldhead2 (t + 1),
      lastShown r .memrdcplddatast1 (t + 1)⟩]
    else []

/-- Up to the cycle `rxproc` does not begin to read a packet before the header of a completion has
left. -/
def Held (r : Nat → PcieCore) (n : Nat) : Prop :=
  ∀ t ≤ n, (r t).tx.preState = .memrdcpldhead1 ∨ (r t).tx.preState = .memrdcpldhead2 →
    (r t).rx.core.preState ≠ .rdhead1

instance (r : Nat → PcieCore) (n : Nat) : Decidable (Held r n) :=
  inferInstanceAs (Decidable (∀ t ≤ n, _ → _))

/-- What the bus shows in a cycle in which nobody drives it. -/
def Undriven (r : Nat → PcieCore) (inp : Nat → CoreInput) (w : Word) : Prop :=
  ∃ k, (r k).rx.core.dqoen = false ∧ w = (inp k).float

/-- The upper half of the second word is the bus when bit 2 of the address is up. -/
structure SecondWord (r : Nat → PcieCore) (inp : Nat → CoreInput) (q : ReadRequest)
    (w : BitVec 64) : Prop extends q.Second w where
  upper :
    if q.address.getLsbD 2 then Undriven r inp (w.extractLsb 63 32)
    else w.extractLsb 63 32 = 0#32

/-- The packet is the completion for the request, with the bus in place of the register. -/
structure Replies (r : Nat → PcieCore) (inp : Nat → CoreInput) (q : ReadRequest)
    (p : CplPacket) : Prop where
  first : q.First p.first
  second : SecondWord r inp q p.second
  payload : ∃ w, Undriven r inp w ∧ p.third = 0#32 ++ w

/-- The completions are those of the reads, one for each and in their order, but for one read that
is not answered yet. -/
def Replied (r : Nat → PcieCore) (inp : Nat → CoreInput) (reads : List ReadRequest)
    (replies : List CplPacket) : Prop :=
  ∃ done waiting, reads = done ++ waiting ∧ waiting.length ≤ 1 ∧
    List.Forall₂ (Replies r inp) done replies

/-- The header of the read is still in `rxproc`, and the bus is free. -/
structure Behind (s : PcieCore) (q : ReadRequest) : Prop where
  state : s.rx.core.preState.behindRead = true
  quiet : s.rx.core.dqoen = false
  request : s.request = q
  addr : s.rx.core.addr = q.address

/-- The low bits of an address, as `ext_add` has them. -/
theorem extractLsb_low (y : BitVec 30) :
    ((y ++ 0#2 : BitVec 32).extractLsb 21 2 ++ 0#2 : BitVec 22).extractLsb 6 0 =
      (y ++ 0#2 : BitVec 32).extractLsb 6 0 := by
  apply BitVec.eq_of_getLsbD_eq
  intro k hk
  rw [BitVec.getLsbD_extractLsb, BitVec.getLsbD_extractLsb, BitVec.getLsbD_append,
    BitVec.getLsbD_append, BitVec.getLsbD_extractLsb, BitVec.getLsbD_append]
  grind

theorem getLsbD_low (y : BitVec 30) :
    ((y ++ 0#2 : BitVec 32).extractLsb 21 2 ++ 0#2 : BitVec 22).getLsbD 2 =
      (y ++ 0#2 : BitVec 32).getLsbD 2 := by
  rw [BitVec.getLsbD_append, BitVec.getLsbD_append, BitVec.getLsbD_extractLsb,
    BitVec.getLsbD_append]
  grind

section Header

variable {s : PcieCore} {q : ReadRequest} (i : CoreInput)

theorem addr_pcieCore :
    (pcieCore s i).rx.core.addr = headerAddress s.rx.core.headrega s.rx.core.headregb := by
  change (if s.rx.core.dw3sel then _ else _ : BitVec 30) ++ 0#2 = _
  rw [Rxproc.dw3sel, headerAddress]
  cases s.rx.core.headrega.getLsbD 29 <;> rfl

theorem dqoen_pcieCore : (pcieCore s i).rx.core.dqoen = s.rx.core.preState.writing := by
  change (s.rx.core.preState == .memwrst1 || s.rx.core.preState == .memwrst2 ||
    s.rx.core.preState == .memwrst3) = _
  cases s.rx.core.preState <;> rfl

theorem request_pcieCore (hfirst : s.rx.core.preState ≠ .rdhead1)
    (hsecond : s.rx.core.preState ≠ .rdhead2) : (pcieCore s i).request = s.request := by
  have ha : (pcieCore s i).rx.core.headrega = s.rx.core.headrega := if_neg hfirst
  have hb : (pcieCore s i).rx.core.headregb = s.rx.core.headregb := if_neg hsecond
  rw [request, request, ha, hb]

theorem behind_asked (hask : s.rx.core.preState = .memrdst2) :
    (pcieCore s i).Behind s.request where
  state := by
    rw [(rxState_eq_memrdst3 i).mpr (.inl hask)]
    rfl
  quiet := by
    rw [dqoen_pcieCore, hask]
    rfl
  request := request_pcieCore i (by rw [hask]; exact RxState.noConfusion)
    (by rw [hask]; exact RxState.noConfusion)
  addr := addr_pcieCore i

theorem Behind.not_reading (h : s.Behind q) :
    s.rx.core.preState ≠ .rdhead1 ∧ s.rx.core.preState ≠ .rdhead2 := by
  have hstate := h.state
  constructor <;> intro hs <;> rw [hs] at hstate <;> cases hstate

/-- Behind a read comes the next packet. -/
theorem Behind.nxtState (h : s.Behind q) (j : RxInput) :
    (s.rx.core.nxtState j).behindRead = true ∨ s.rx.core.nxtState j = .rdhead1 := by
  have hstate := h.state
  unfold Rxproc.nxtState
  cases hs : s.rx.core.preState with
  | memrdst4 | unsp2 => exact .inl rfl
  | memrdst3 | unsp1 =>
      simp only
      left
      split <;> rfl
  | idle =>
      simp only
      split
      · exact .inr rfl
      · exact .inl rfl
  | _ =>
      rw [hs] at hstate
      cases hstate

theorem Behind.writing_next (h : s.Behind q) :
    (pcieCore s i).rx.core.preState.writing = false := by
  rcases h.nxtState (s.rx.rxInput (s.rxInput i)) with hbehind | hread
  · exact RxState.writing_of_behindRead hbehind
  · rw [rxState_pcieCore, hread]
    rfl

theorem Behind.next (h : s.Behind q) (hheld : (pcieCore s i).rx.core.preState ≠ .rdhead1) :
    (pcieCore s i).Behind q where
  state := (h.nxtState _).resolve_right hheld
  quiet := (dqoen_pcieCore i).trans (RxState.writing_of_behindRead h.state)
  request := (request_pcieCore i h.not_reading.1 h.not_reading.2).trans h.request
  addr := by
    rw [addr_pcieCore, ← h.request]
    rfl

theorem Behind.first (h : s.Behind q) : q.First (pcieCore s i).tx.memrdcpheadrega := by
  change q.First (Txproc.nxtMemrdcpheadrega (s.txInput i))
  rw [← h.request]
  unfold Txproc.nxtMemrdcpheadrega
  refine ⟨?_, ?_, ?_⟩ <;> rw [BitVec.extractLsb]
  · simp (disch := omega) only [BitVec.extractLsb'_append_eq_of_add_le]
    rfl
  · simp (disch := omega) only [BitVec.extractLsb'_append_eq_of_le,
      BitVec.extractLsb'_append_eq_of_add_le]
    rfl
  · simp (disch := omega) only [BitVec.extractLsb'_append_eq_of_le,
      BitVec.extractLsb'_append_eq_of_add_le]
    exact BitVec.extractLsb'_eq_self

theorem Behind.second (h : s.Behind q) : q.Second (pcieCore s i).tx.memrdcpheadregb := by
  change q.Second (Txproc.nxtMemrdcpheadregb (s.txInput i))
  have haddr := h.addr
  rw [← h.request] at haddr ⊢
  unfold Txproc.nxtMemrdcpheadregb
  refine ⟨?_, ?_, ?_⟩ <;> rw [BitVec.extractLsb]
  · simp (disch := omega) only [BitVec.extractLsb'_append_eq_of_le,
      BitVec.extractLsb'_append_eq_of_add_le]
    exact BitVec.extractLsb'_eq_self
  · simp (disch := omega) only [BitVec.extractLsb'_append_eq_of_le,
      BitVec.extractLsb'_append_eq_of_add_le]
    exact BitVec.extractLsb'_eq_self
  · simp (disch := omega) only [BitVec.extractLsb'_append_eq_of_add_le]
    refine BitVec.extractLsb'_eq_self.trans ?_
    change (s.rx.core.addr.extractLsb 21 2 ++ 0#2 : BitVec 22).extractLsb 6 0 = _
    rw [haddr]
    exact extractLsb_low _

/-- The bus is in the second header word when bit 2 of the address is up. -/
theorem Behind.upper (h : s.Behind q) : (pcieCore s i).tx.memrdcpheadregb.extractLsb 63 32 =
    if q.address.getLsbD 2 then i.float else 0#32 := by
  have hbit : (s.txInput i).extAdd.getLsbD 2 = q.address.getLsbD 2 := by
    have haddr := h.addr
    rw [← h.request] at haddr ⊢
    change (s.rx.core.addr.extractLsb 21 2 ++ 0#2 : BitVec 22).getLsbD 2 = _
    rw [haddr]
    exact getLsbD_low _
  have hbus : (s.txInput i).extdq = i.float := by
    change s.rx.core.extdq.getD i.float = i.float
    rw [Rxproc.extdq, h.quiet]
    rfl
  change (Txproc.nxtMemrdcpheadregb (s.txInput i)).extractLsb 63 32 = _
  rw [Txproc.nxtMemrdcpheadregb, hbit, hbus, BitVec.extractLsb]
  simp (disch := omega) only [BitVec.extractLsb'_append_eq_of_le]
  exact BitVec.extractLsb'_eq_self

end Header

/-- A read has been asked for, and its completion is not over. -/
def underway (s : PcieCore) : Bool :=
  s.awaits || s.tx.preState.completing && s.tx.preState != .memrdcplddone

/-- How far the completion of the read has come. -/
def Under (r : Nat → PcieCore) (inp : Nat → CoreInput) (n : Nat) (q : ReadRequest) : Prop :=
  match (r n).tx.preState with
  | .memrdcpldhead1 => (r n).Behind q ∧ q.First (r n).tx.memrdcpheadrega ∧
      SecondWord r inp q (r n).tx.memrdcpheadregb
  | .memrdcpldhead2 => (r n).Behind q ∧ q.First (lastShown r .memrdcpldhead1 n) ∧
      SecondWord r inp q (r n).tx.memrdcpheadregb
  | .memrdcpldwaitst1 => (r n).rx.core.preState.writing = false ∧
      q.First (lastShown r .memrdcpldhead1 n) ∧ SecondWord r inp q (lastShown r .memrdcpldhead2 n)
  | .memrdcpldwaitst2 => (r n).rx.core.dqoen = false ∧
      q.First (lastShown r .memrdcpldhead1 n) ∧ SecondWord r inp q (lastShown r .memrdcpldhead2 n)
  | .memrdcplddatast1 => (∃ w, Undriven r inp w ∧ (r n).tx.memrdcpdatareg = 0#32 ++ w) ∧
      q.First (lastShown r .memrdcpldhead1 n) ∧ SecondWord r inp q (lastShown r .memrdcpldhead2 n)
  | _ => (r n).rx.core.preState = .memrdst3 ∧ (r n).Behind q

section Run

variable {s : PcieCore} {inp : Nat → CoreInput} {n : Nat} {q : ReadRequest}

theorem Behind.secondWord (h : (run s inp n).Behind q) :
    SecondWord (run s inp) inp q (run s inp (n + 1)).tx.memrdcpheadregb where
  toSecond := h.second (inp n)
  upper := by
    rw [run_succ, h.upper (inp n)]
    split
    · exact ⟨n, h.quiet, rfl⟩
    · rfl

theorem lastShown_of_beat {st : TxState} {w : BitVec 64}
    (hstate : (run s inp n).tx.preState = st)
    (hbeat : (run s inp n).tx.beat ((run s inp n).txInput (inp n)) = some (0x00#8 ++ w)) :
    lastShown (run s inp) st (n + 1) = w := by
  rw [lastShown, if_pos hstate, run_succ, pcieCore, Txproc.presents_txproc, hbeat,
    Option.map_some, Txproc.wired_append]
  rfl

theorem lastShown_keep {st : TxState} (hstate : (run s inp n).tx.preState ≠ st) :
    lastShown (run s inp) st (n + 1) = lastShown (run s inp) st n :=
  if_neg hstate

theorem txState_succ : (run s inp (n + 1)).tx.preState =
    (run s inp n).tx.nxtState ((run s inp n).txInput (inp n)) := rfl

theorem Under.head1 (hheld : Held (run s inp) (n + 1))
    (hstate : (run s inp n).tx.preState = .memrdcpldhead1) (h : Under (run s inp) inp n q) :
    Under (run s inp) inp (n + 1) q ∧ ((run s inp (n + 1)).tx.preState = .memrdcpldhead1 ∨
      (run s inp (n + 1)).tx.preState = .memrdcpldhead2) := by
  rw [Under, hstate] at h
  obtain ⟨hbehind, hfirst, -⟩ := h
  have hnext : (run s inp (n + 1)).tx.preState = .memrdcpldhead1 ∨
      (run s inp (n + 1)).tx.preState = .memrdcpldhead2 := by
    rw [txState_succ, Txproc.nxtState, hstate]
    simp only
    split
    · exact .inr rfl
    · exact .inl rfl
  have hbehind' : (run s inp (n + 1)).Behind q := hbehind.next (inp n) (hheld (n + 1) le_rfl hnext)
  refine ⟨?_, hnext⟩
  rcases hnext with hnext | hnext <;> rw [Under, hnext]
  · exact ⟨hbehind', hbehind.first (inp n), hbehind.secondWord⟩
  · have hshown : lastShown (run s inp) .memrdcpldhead1 (n + 1) =
        (run s inp n).tx.memrdcpheadrega := lastShown_of_beat hstate (by rw [Txproc.beat, hstate])
    exact ⟨hbehind', by rwa [hshown], hbehind.secondWord⟩

theorem Under.head2 (hheld : Held (run s inp) (n + 1))
    (hstate : (run s inp n).tx.preState = .memrdcpldhead2) (h : Under (run s inp) inp n q) :
    Under (run s inp) inp (n + 1) q ∧ ((run s inp (n + 1)).tx.preState = .memrdcpldhead2 ∨
      (run s inp (n + 1)).tx.preState = .memrdcpldwaitst1) := by
  rw [Under, hstate] at h
  obtain ⟨hbehind, hfirst, hsecond⟩ := h
  have hnext : (run s inp (n + 1)).tx.preState = .memrdcpldhead2 ∨
      (run s inp (n + 1)).tx.preState = .memrdcpldwaitst1 := by
    rw [txState_succ, Txproc.nxtState, hstate]
    simp only
    split
    · exact .inr rfl
    · exact .inl rfl
  rw [← lastShown_keep (n := n) (by rw [hstate]; exact TxState.noConfusion)] at hfirst
  refine ⟨?_, hnext⟩
  rcases hnext with hnext | hnext <;> rw [Under, hnext]
  · exact ⟨hbehind.next (inp n) (hheld (n + 1) le_rfl (.inr hnext)), hfirst, hbehind.secondWord⟩
  · have hshown : lastShown (run s inp) .memrdcpldhead2 (n + 1) =
        (run s inp n).tx.memrdcpheadregb := lastShown_of_beat hstate (by rw [Txproc.beat, hstate])
    exact ⟨hbehind.writing_next (inp n), hfirst, by rwa [hshown]⟩

theorem Under.waitst1 (hstate : (run s inp n).tx.preState = .memrdcpldwaitst1)
    (h : Under (run s inp) inp n q) : Under (run s inp) inp (n + 1) q ∧
      (run s inp (n + 1)).tx.preState = .memrdcpldwaitst2 := by
  rw [Under, hstate] at h
  obtain ⟨hquiet, hfirst, hsecond⟩ := h
  rw [← lastShown_keep (n := n) (by rw [hstate]; exact TxState.noConfusion)] at hfirst hsecond
  have hnext : (run s inp (n + 1)).tx.preState = .memrdcpldwaitst2 := by
    rw [txState_succ, Txproc.nxtState, hstate]
  refine ⟨?_, hnext⟩
  rw [Under, hnext]
  exact ⟨(dqoen_pcieCore (inp n)).trans hquiet, hfirst, hsecond⟩

theorem Under.waitst2 (hstate : (run s inp n).tx.preState = .memrdcpldwaitst2)
    (h : Under (run s inp) inp n q) : Under (run s inp) inp (n + 1) q ∧
      (run s inp (n + 1)).tx.preState = .memrdcplddatast1 := by
  rw [Under, hstate] at h
  obtain ⟨hquiet, hfirst, hsecond⟩ := h
  rw [← lastShown_keep (n := n) (by rw [hstate]; exact TxState.noConfusion)] at hfirst hsecond
  have hnext : (run s inp (n + 1)).tx.preState = .memrdcplddatast1 := by
    rw [txState_succ, Txproc.nxtState, hstate]
  refine ⟨?_, hnext⟩
  rw [Under, hnext]
  refine ⟨⟨_, ⟨n, hquiet, rfl⟩, ?_⟩, hfirst, hsecond⟩
  change (if (run s inp n).tx.preState = .memrdcpldwaitst2
    then 0x00000000#32 ++ (run s inp n).rx.core.extdq.getD (inp n).float else _) = _
  rw [if_pos hstate, Rxproc.extdq, hquiet]
  rfl

/-- The last word leaves, or is shown on. -/
theorem Under.datast1 (hstate : (run s inp n).tx.preState = .memrdcplddatast1)
    (h : Under (run s inp) inp n q) :
    Under (run s inp) inp (n + 1) q ∧ (run s inp (n + 1)).tx.preState = .memrdcplddatast1 ∨
      (run s inp (n + 1)).tx.preState = .memrdcplddone ∧
        ∃ p, completed (run s inp) (n + 1) = completed (run s inp) n ++ [p] ∧
          Replies (run s inp) inp q p := by
  rw [Under, hstate] at h
  obtain ⟨⟨w, hfloat, hpayload⟩, hfirst, hsecond⟩ := h
  rw [← lastShown_keep (n := n) (by rw [hstate]; exact TxState.noConfusion)] at hfirst hsecond
  have hnext : (run s inp (n + 1)).tx.preState = .memrdcplddatast1 ∨
      (run s inp (n + 1)).tx.preState = .memrdcplddone := by
    rw [txState_succ, Txproc.nxtState, hstate]
    simp only
    split
    · exact .inr rfl
    · exact .inl rfl
  cases hnext with
  | inl hnext =>
      left
      refine ⟨?_, hnext⟩
      rw [Under, hnext]
      refine ⟨⟨w, hfloat, ?_⟩, hfirst, hsecond⟩
      have hout : (run s inp n).tx.preState ≠ .memrdcpldwaitst2 := by
        rw [hstate]
        exact TxState.noConfusion
      rw [← hpayload]
      exact if_neg hout
  | inr hnext =>
      right
      refine ⟨hnext, ⟨lastShown (run s inp) .memrdcpldhead1 (n + 1),
        lastShown (run s inp) .memrdcpldhead2 (n + 1),
        lastShown (run s inp) .memrdcplddatast1 (n + 1)⟩, ?_, hfirst, hsecond, w, hfloat, ?_⟩
      · rw [completed, log_succ, hstate, hnext]
        rfl
      · rw [← hpayload]
        exact lastShown_of_beat hstate (by rw [Txproc.beat, hstate])

theorem completing_of_awaits (h : (run s inp n).awaits = true) :
    (run s inp n).tx.preState.completing = false := by
  obtain ⟨-, hfree⟩ := Bool.and_eq_true_iff.mp h
  simpa using hfree

/-- A read that waits goes on waiting, or `txproc` is free and begins its completion. -/
theorem awaits_succ (h : (run s inp n).awaits = true) :
    (run s inp n).tx.preState ≠ .idle ∧ (run s inp (n + 1)).awaits = true ∨
      (run s inp n).tx.preState = .idle ∧
        (run s inp (n + 1)).tx.preState = .memrdcpldhead1 := by
  have hrq := (Bool.and_eq_true_iff.mp h).1
  have hstep := (run_handshake s inp n).step (inp n)
  have hask : ((run s inp n).rx.core.preState == .memrdst2) = false := by
    rw [beq_iff_eq.mp hrq]
    rfl
  rw [begins_eq, ← run_succ, hask, h, hrq, Bool.false_and, Bool.and_true] at hstep
  by_cases hidle : (run s inp n).tx.preState = .idle
  · right
    have hbegins := begins_eq (s := run s inp n) (inp n)
    rw [hidle, hrq] at hbegins
    exact ⟨hidle, beq_iff_eq.mp hbegins⟩
  · left
    rw [beq_eq_false_iff_ne.mpr hidle, Bool.toNat_false, Bool.toNat_true, Nat.zero_add,
      Nat.zero_add] at hstep
    exact ⟨hidle, Bool.toNat_eq_one.mp hstep.symm⟩

theorem Under.of_awaits (hawaits : (run s inp n).awaits = true) (h : (run s inp n).Behind q) :
    Under (run s inp) inp n q := by
  have hfree := completing_of_awaits hawaits
  rw [Under]
  cases hs : (run s inp n).tx.preState with
  | memrdcpldhead1 | memrdcpldhead2 | memrdcpldwaitst1 | memrdcpldwaitst2 | memrdcplddatast1 =>
      rw [hs] at hfree
      cases hfree
  | _ => exact ⟨beq_iff_eq.mp (Bool.and_eq_true_iff.mp hawaits).1, h⟩

theorem Under.behind (hawaits : (run s inp n).awaits = true) (h : Under (run s inp) inp n q) :
    (run s inp n).Behind q := by
  have hfree := completing_of_awaits hawaits
  rw [Under] at h
  cases hs : (run s inp n).tx.preState with
  | memrdcpldhead1 | memrdcpldhead2 | memrdcpldwaitst1 | memrdcpldwaitst2 | memrdcplddatast1 =>
      rw [hs] at hfree
      cases hfree
  | _ =>
      rw [hs] at h
      exact h.2

/-- A read that waits goes on waiting, or its completion begins. -/
theorem Under.awaits (hawaits : (run s inp n).awaits = true) (h : Under (run s inp) inp n q) :
    Under (run s inp) inp (n + 1) q ∧ ((run s inp (n + 1)).awaits = true ∨
      (run s inp (n + 1)).tx.preState = .memrdcpldhead1) := by
  have hrq : (run s inp n).rx.core.preState = .memrdst3 :=
    beq_iff_eq.mp (Bool.and_eq_true_iff.mp hawaits).1
  have hack := (run_handshake s inp n).memrdack_of_waits hrq (completing_of_awaits hawaits)
  have hin : (run s inp (n + 1)).rx.core.preState = .memrdst3 :=
    (rxState_eq_memrdst3 (inp n)).mpr (.inr ⟨hrq, hack⟩)
  have hbehind : (run s inp n).Behind q := h.behind hawaits
  have hbehind' : (run s inp (n + 1)).Behind q :=
    hbehind.next (inp n) (by rw [← run_succ, hin]; exact RxState.noConfusion)
  rcases awaits_succ hawaits with ⟨-, hnext⟩ | ⟨-, hhead⟩
  · exact ⟨Under.of_awaits hnext hbehind', .inl hnext⟩
  · refine ⟨?_, .inr hhead⟩
    rw [Under, hhead]
    exact ⟨hbehind', hbehind.first (inp n), hbehind.secondWord⟩

theorem underway_cases (h : (run s inp n).underway = true) : (run s inp n).awaits = true ∨
    (run s inp n).tx.preState = .memrdcpldhead1 ∨ (run s inp n).tx.preState = .memrdcpldhead2 ∨
    (run s inp n).tx.preState = .memrdcpldwaitst1 ∨
    (run s inp n).tx.preState = .memrdcpldwaitst2 ∨
    (run s inp n).tx.preState = .memrdcplddatast1 := by
  rw [underway, Bool.or_eq_true] at h
  rcases h with hawaits | hcompl
  · exact .inl hawaits
  · right
    cases hs : (run s inp n).tx.preState with
    | memrdcpldhead1 | memrdcpldhead2 | memrdcpldwaitst1 | memrdcpldwaitst2
    | memrdcplddatast1 => simp
    | _ =>
        rw [hs] at hcompl
        cases hcompl

theorem underway_of_state {st : TxState} (hstate : (run s inp n).tx.preState = st)
    (h : (st.completing && st != .memrdcplddone) = true) : (run s inp n).underway = true := by
  rw [underway, hstate, h, Bool.or_true]

theorem underway_of_done (h : (run s inp n).tx.preState = .memrdcplddone) :
    (run s inp n).underway = false := by
  rw [underway, PcieCore.awaits, h, TxState.completing, Bool.not_true, Bool.and_false]
  rfl

theorem completed_succ_of_state (h : (run s inp n).tx.preState ≠ .memrdcplddatast1) :
    completed (run s inp) (n + 1) = completed (run s inp) n := by
  rw [completed, log_succ, beq_eq_false_iff_ne.mpr h]
  exact List.append_nil _

theorem completed_succ_of_awaits (h : (run s inp n).awaits = true) :
    completed (run s inp) (n + 1) = completed (run s inp) n := by
  apply completed_succ_of_state
  intro hdata
  have hfree := completing_of_awaits h
  rw [hdata] at hfree
  cases hfree

/-- The completion of the read goes on, or ends with its last word. -/
theorem Under.step (hheld : Held (run s inp) (n + 1)) (hunder : (run s inp n).underway = true)
    (h : Under (run s inp) inp n q) :
    ((run s inp (n + 1)).underway = true ∧ Under (run s inp) inp (n + 1) q ∧
      completed (run s inp) (n + 1) = completed (run s inp) n) ∨
    ((run s inp (n + 1)).tx.preState = .memrdcplddone ∧
      ∃ p, completed (run s inp) (n + 1) = completed (run s inp) n ++ [p] ∧
        Replies (run s inp) inp q p) := by
  rcases underway_cases hunder with hs | hs | hs | hs | hs | hs
  · have hkept := completed_succ_of_awaits hs
    obtain ⟨hnext, hawaits | hhead⟩ := h.awaits hs
    · exact .inl ⟨by rw [underway, hawaits, Bool.true_or], hnext, hkept⟩
    · exact .inl ⟨underway_of_state hhead rfl, hnext, hkept⟩
  · have hkept := completed_succ_of_state (n := n) (by rw [hs]; exact TxState.noConfusion)
    obtain ⟨hnext, hstate | hstate⟩ := h.head1 hheld hs
    · exact .inl ⟨underway_of_state hstate rfl, hnext, hkept⟩
    · exact .inl ⟨underway_of_state hstate rfl, hnext, hkept⟩
  · have hkept := completed_succ_of_state (n := n) (by rw [hs]; exact TxState.noConfusion)
    obtain ⟨hnext, hstate | hstate⟩ := h.head2 hheld hs
    · exact .inl ⟨underway_of_state hstate rfl, hnext, hkept⟩
    · exact .inl ⟨underway_of_state hstate rfl, hnext, hkept⟩
  · obtain ⟨hnext, hstate⟩ := h.waitst1 hs
    refine .inl ⟨underway_of_state hstate rfl, hnext, completed_succ_of_state ?_⟩
    rw [hs]
    exact TxState.noConfusion
  · obtain ⟨hnext, hstate⟩ := h.waitst2 hs
    refine .inl ⟨underway_of_state hstate rfl, hnext, completed_succ_of_state ?_⟩
    rw [hs]
    exact TxState.noConfusion
  · rcases h.datast1 hs with ⟨hnext, hstate⟩ | hdone
    · refine .inl ⟨underway_of_state hstate rfl, hnext, ?_⟩
      rw [completed, log_succ, hstate, Bool.and_comm]
      exact List.append_nil _
    · exact .inr hdone

/-- Nothing is asked for while a read is under way. -/
theorem asked_succ_of_underway (hunder : (run s inp n).underway = true) :
    asked (run s inp) (n + 1) = asked (run s inp) n := by
  have hnone : ((run s inp n).rx.core.preState == .memrdst2 &&
      !(run s inp (n + 1)).tx.preState.completing) = false := by
    rw [underway, Bool.or_eq_true] at hunder
    rcases hunder with hawaits | hcompl
    · have hrq := beq_iff_eq.mp (Bool.and_eq_true_iff.mp hawaits).1
      rw [hrq]
      rfl
    · obtain ⟨hcompl, hdone⟩ := Bool.and_eq_true_iff.mp hcompl
      have hgoes : (run s inp (n + 1)).tx.preState.completing = true :=
        Txproc.nxtState_completing hcompl (bne_iff_ne.mp hdone)
      rw [hgoes, Bool.not_true, Bool.and_false]
  rw [asked, log_succ, hnone]
  exact List.append_nil _

theorem completing_of_idle (hidle : (run s inp n).underway = false) :
    (run s inp (n + 1)).tx.preState.completing = false := by
  obtain ⟨hlow, hover⟩ := Bool.or_eq_false_iff.mp hidle
  by_contra hcompl
  rw [Bool.not_eq_false, run_succ] at hcompl
  rcases completing_of_pcieCore (inp n) hcompl with ⟨hgoes, hdone⟩ | ⟨hstate, hrq, -⟩
  · rw [hgoes, bne_iff_ne.mpr hdone] at hover
    cases hover
  · rw [PcieCore.awaits, Rxproc.memrdrq, hrq, hstate] at hlow
    cases hlow

/-- With nothing under way a read is asked for, or nothing changes. -/
theorem idle_step (hidle : (run s inp n).underway = false) :
    completed (run s inp) (n + 1) = completed (run s inp) n ∧
      ((run s inp (n + 1)).underway = false ∧
          asked (run s inp) (n + 1) = asked (run s inp) n ∨
        (run s inp (n + 1)).underway = true ∧ ∃ q,
          asked (run s inp) (n + 1) = asked (run s inp) n ++ [q] ∧
            Under (run s inp) inp (n + 1) q) := by
  have hcompl := completing_of_idle hidle
  obtain ⟨hlow, hover⟩ := Bool.or_eq_false_iff.mp hidle
  constructor
  · apply completed_succ_of_state
    intro hdata
    rw [hdata] at hover
    cases hover
  · have hstep := (run_handshake s inp n).step (inp n)
    rw [← run_succ, hlow, hcompl, Bool.not_false, Bool.and_true, Bool.toNat_false,
      Nat.add_zero] at hstep
    rw [asked, log_succ, hcompl, Bool.not_false, Bool.and_true]
    cases hasks : (run s inp n).rx.core.preState == .memrdst2 with
    | false =>
        left
        rw [hasks, Bool.toNat_false, eq_comm, Nat.add_eq_zero_iff] at hstep
        refine ⟨?_, List.append_nil _⟩
        rw [underway, Bool.toNat_eq_zero.mp hstep.2, hcompl, Bool.false_and, Bool.false_or]
    | true =>
        right
        have hask := beq_iff_eq.mp hasks
        have hin : (run s inp (n + 1)).rx.core.preState = .memrdst3 :=
          (rxState_eq_memrdst3 (inp n)).mpr (.inl hask)
        have hawaits : (run s inp (n + 1)).awaits = true := by
          rw [PcieCore.awaits, Rxproc.memrdrq, hin, hcompl]
          rfl
        exact ⟨by rw [underway, hawaits, Bool.true_or], (run s inp n).request, rfl,
          Under.of_awaits hawaits (behind_asked (inp n) hask)⟩

/-- The reads asked for so far are those of the completions, and the one that is under way. -/
def Tracks (r : Nat → PcieCore) (inp : Nat → CoreInput) (n : Nat) : Prop :=
  ((r n).underway = false ∧ List.Forall₂ (Replies r inp) (asked r n) (completed r n)) ∨
    ((r n).underway = true ∧ ∃ done q, asked r n = done ++ [q] ∧ Under r inp n q ∧
      List.Forall₂ (Replies r inp) done (completed r n))

theorem Tracks.step (hheld : Held (run s inp) (n + 1)) (h : Tracks (run s inp) inp n) :
    Tracks (run s inp) inp (n + 1) := by
  rcases h with ⟨hidle, hmatched⟩ | ⟨hunder, done, q, hreads, hstage, hmatched⟩
  · obtain ⟨hkept, hnext⟩ := idle_step hidle
    rcases hnext with ⟨hnext, hsame⟩ | ⟨hnext, q, hmore, hstage⟩
    · left
      rw [hsame, hkept]
      exact ⟨hnext, hmatched⟩
    · right
      rw [hkept]
      exact ⟨hnext, _, q, hmore, hstage, hmatched⟩
  · have hsame := asked_succ_of_underway hunder
    rcases hstage.step hheld hunder with ⟨hnext, hstage, hkept⟩ | ⟨hover, p, hmore, hreply⟩
    · right
      rw [hsame, hkept]
      exact ⟨hnext, done, q, hreads, hstage, hmatched⟩
    · left
      rw [hsame, hreads, hmore]
      exact ⟨underway_of_done hover, List.rel_append hmatched (.cons hreply .nil)⟩

theorem tracks_of_held (hheld : Held (run s inp) n) : Tracks (run s inp) inp n := by
  induction n with
  | zero => exact .inl ⟨rfl, .nil⟩
  | succ n ih => exact (ih fun t ht => hheld t (Nat.le_succ_of_le ht)).step hheld

/-- While the headers are held, the completions are those of the reads that have found `txproc`
free, in their order: each has the requester, the tag, the attributes and the low address of its
read, but never the value of a register. -/
theorem replied_of_held (hheld : Held (run s inp) n) :
    Replied (run s inp) inp (asked (run s inp) n) (completed (run s inp) n) := by
  rcases tracks_of_held hheld with ⟨-, hmatched⟩ | ⟨-, done, q, hreads, -, hmatched⟩
  · exact ⟨_, [], (List.append_nil _).symm, Nat.zero_le _, hmatched⟩
  · exact ⟨done, [q], hreads, le_rfl, hmatched⟩

end Run

theorem tags_of_replies {r : Nat → PcieCore} {inp : Nat → CoreInput} {done : List ReadRequest}
    {replies : List CplPacket} (h : List.Forall₂ (Replies r inp) done replies) :
    replies.map (fun p => p.second.extractLsb 15 8) = done.map ReadRequest.tag := by
  induction h with
  | nil => rfl
  | cons hreply _ ih => rw [List.map_cons, List.map_cons, hreply.second.tag, ih]

theorem Replied.tags {r : Nat → PcieCore} {inp : Nat → CoreInput} {reads : List ReadRequest}
    {replies : List CplPacket} (h : Replied r inp reads replies) :
    replies.map (fun p => p.second.extractLsb 15 8) <+: reads.map ReadRequest.tag := by
  obtain ⟨done, waiting, rfl, -, hmatched⟩ := h
  rw [tags_of_replies hmatched, List.map_append]
  exact List.prefix_append _ _

/-- The read of `intreg` has its completion. -/
theorem replied_readTraffic : (completed (run powerUp readTraffic.inp) 30).length = 1 ∧
    Replied (run powerUp readTraffic.inp) readTraffic.inp (asked (run powerUp readTraffic.inp) 30)
      (completed (run powerUp readTraffic.inp) 30) :=
  ⟨by decide +kernel, replied_of_held (by decide +kernel)⟩

/-- A second read, with tag 6, comes while the completion of the first waits to leave. -/
def readTwice (t : Nat) : CoreInput :=
  { readTraffic.inp t with
    arrival :=
      if t = 2 then some ⟨0x0100060F00000001, 0xFF, 0x02, true, false, true, false⟩
      else if t = 3 then some readSecond
      else (readTraffic.inp t).arrival
    txStReady := decide (30 ≤ t) }

/-- The completion of the first read goes out with the tag of the second. -/
theorem replied_readTwice_false :
    ¬ Replied (run powerUp readTwice) readTwice (asked (run powerUp readTwice) 36)
      (completed (run powerUp readTwice) 36) :=
  fun h => absurd h.tags (by decide +kernel)

end PcieCore

end CncCard.Pcie
