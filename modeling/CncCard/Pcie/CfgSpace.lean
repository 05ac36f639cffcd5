import CncCard.Pcie.Framing

/-!
`cfgspace`. The hard IP shows one word of its configuration space at a time, with its address,
and changes the level of `wr` with each; `cfgspace` sees the change two cycles later and takes
what is shown then. The bus and device number go to `txproc`, which puts them into every
header.
-/

namespace CncCard.Pcie
open Clocked

structure CfgInput where
  wr : Bool
  add : BitVec 4
  data : Word

structure CfgSpace where
  devcsr : Word
  prmcsr : Word
  busdev : Word
  wr1 : Bool
  wr2 : Bool
  wr3 : Bool

namespace CfgSpace

/-- The delay line of `wr` has no reset. -/
def reset (s : CfgSpace) : CfgSpace :=
  { s with devcsr := 0x00000000, prmcsr := 0x00000000, busdev := 0x00000000 }

def errRepEn (s : CfgSpace) : BitVec 4 := s.devcsr.extractLsb 19 16
def maxpSize (s : CfgSpace) : BitVec 3 := s.devcsr.extractLsb 23 21
def maxrqSize (s : CfgSpace) : BitVec 3 := s.devcsr.extractLsb 30 28
def ioen (s : CfgSpace) : Bool := s.prmcsr.getLsbD 8
def memen (s : CfgSpace) : Bool := s.prmcsr.getLsbD 9
def dmaen (s : CfgSpace) : Bool := s.prmcsr.getLsbD 10
def busnum (s : CfgSpace) : BitVec 8 := s.busdev.extractLsb 12 5
def devnum (s : CfgSpace) : BitVec 5 := s.busdev.extractLsb 4 0

/-- A register at `address` that holds `value`. -/
def capture (s : CfgSpace) (i : CfgInput) (address : BitVec 4) (value : Word) : Word :=
  if s.wr3 != s.wr2 && i.add == address then i.data else value

end CfgSpace

def cfgspace (s : CfgSpace) (i : CfgInput) : CfgSpace where
  devcsr := s.capture i 0x0 s.devcsr
  prmcsr := s.capture i 0x3 s.prmcsr
  busdev := s.capture i 0xF s.busdev
  wr1 := i.wr
  wr2 := s.wr1
  wr3 := s.wr2

/-- The hard IP changes `wr` with cycle `a`; `before` is the level it had. -/
def announces (before : Bool) (inp : Nat → CfgInput) : Nat → Bool
  | 0 => (inp 0).wr != before
  | a + 1 => (inp (a + 1)).wr != (inp a).wr

/-- The configuration space as announced before cycle `t`. -/
def announced (before : Bool) (inp : Nat → CfgInput) : Nat → BitVec 4 → Word
  | 0, _ => 0
  | a + 1, address =>
      if announces before inp a && (inp a).add == address then (inp a).data
      else announced before inp a address

/-- What is announced stays for three cycles. -/
def Shown (before : Bool) (inp : Nat → CfgInput) : Prop :=
  ∀ a, announces before inp a = true →
    (inp (a + 2)).add = (inp a).add ∧ (inp (a + 2)).data = (inp a).data

namespace CfgSpace

def run (s : CfgSpace) (inp : Nat → CfgInput) : Nat → CfgSpace := trace cfgspace s.reset inp

variable (s : CfgSpace) (inp : Nat → CfgInput)

theorem run_succ (t : Nat) : run s inp (t + 1) = cfgspace (run s inp t) (inp t) := rfl

/-- The reset has found `wr` at rest. -/
def Rested (s : CfgSpace) : Prop := s.wr2 = s.wr1 ∧ s.wr3 = s.wr1

variable {s inp}

/-- A change is seen two cycles later. -/
theorem sees_eq_announces (t : Nat) :
    ((run s inp (t + 2)).wr3 != (run s inp (t + 2)).wr2) = announces s.wr1 inp t := by
  have hnow : (run s inp (t + 2)).wr2 = (inp t).wr := rfl
  cases t with
  | zero =>
      have hbefore : (run s inp 2).wr3 = s.wr1 := rfl
      rw [hnow, hbefore, announces, bne_comm]
  | succ t =>
      have hbefore : (run s inp (t + 1 + 2)).wr3 = (inp t).wr := rfl
      rw [hnow, hbefore, announces, bne_comm]

/-- A register that captures what is shown at its address holds what was announced there. -/
theorem register_eq_announced (hrest : s.Rested) (hshown : Shown s.wr1 inp) {address : BitVec 4}
    {r : CfgSpace → Word} (hreset : r s.reset = 0)
    (hstep : ∀ s i, r (cfgspace s i) = s.capture i address (r s)) (t : Nat) :
    r (run s inp t) = announced s.wr1 inp (t - 2) address := by
  have hquiet (t : Nat) (ht : (run s inp t).wr3 = (run s inp t).wr2) :
      r (run s inp (t + 1)) = r (run s inp t) := by
    rw [run_succ, hstep, capture, ht, bne_self_eq_false]
    rfl
  have hfirst : r (run s inp 1) = 0 := by
    rw [hquiet 0 (hrest.2.trans hrest.1.symm)]
    exact hreset
  match t with
  | 0 => exact hreset
  | 1 => exact hfirst
  | t + 2 =>
      rw [Nat.add_sub_cancel]
      induction t with
      | zero =>
          have hsecond : r (run s inp 2) = r (run s inp 1) := hquiet 1 hrest.1
          rw [hsecond, hfirst]
          rfl
      | succ t ih =>
          rw [run_succ, hstep, capture, sees_eq_announces, announced, ← ih]
          cases hannounces : announces s.wr1 inp t with
          | false => rfl
          | true =>
              obtain ⟨hadd, hdata⟩ := hshown t hannounces
              rw [hadd, hdata]

end CfgSpace

/-- `cfgspace` and `txproc`, with what `txproc` reads besides the bus and device number. -/
structure Endpoint where
  cfg : CfgSpace
  tx : Txproc

structure EndpointInput where
  cfg : CfgInput
  tx : TxInput

namespace Endpoint

def txInput (s : Endpoint) (i : EndpointInput) : TxInput :=
  { i.tx with busnum := s.cfg.busnum, devnum := s.cfg.devnum }

def reset (s : Endpoint) : Endpoint := ⟨s.cfg.reset, s.tx.reset⟩

end Endpoint

def endpoint (s : Endpoint) (i : EndpointInput) : Endpoint where
  cfg := cfgspace s.cfg i.cfg
  tx := txproc s.tx (s.txInput i)

/-- The bus and device number of a configuration word, and the function 0. -/
def idOf (busdev : Word) : BitVec 16 := busdev.extractLsb 12 0 ++ 0#3

/-- Where a header carries the number of who sends it. -/
def senderId (header : BitVec 64) : BitVec 16 := header.extractLsb 63 48

namespace Txproc

theorem senderId_dmawrheadrega (s : Txproc) (i : TxInput) :
    senderId (s.dmawrheadrega i) = i.busnum ++ i.devnum ++ 0#3 := by
  rw [senderId, BitVec.extractLsb, dmawrheadrega]
  simp (disch := omega) only [BitVec.extractLsb'_append_eq_of_le]
  exact BitVec.extractLsb'_eq_self

theorem senderId_dmardheadrega (s : Txproc) (i : TxInput) :
    senderId (s.dmardheadrega i) = i.busnum ++ i.devnum ++ 0#3 := by
  rw [senderId, BitVec.extractLsb, dmardheadrega]
  simp (disch := omega) only [BitVec.extractLsb'_append_eq_of_le]
  exact BitVec.extractLsb'_eq_self

theorem senderId_nxtMemrdcpheadrega (i : TxInput) :
    senderId (nxtMemrdcpheadrega i) = i.busnum ++ i.devnum ++ 0#3 := by
  rw [senderId, BitVec.extractLsb, nxtMemrdcpheadrega]
  simp (disch := omega) only [BitVec.extractLsb'_append_eq_of_le]
  exact BitVec.extractLsb'_eq_self

/-- The number in the header of the packet that a state opens: a completion has its header
from the cycle before. -/
theorem senderId_of_opens {s : Txproc} {i : TxInput} (h : s.preState.opens = true) :
    ∃ header, (txproc s i).presents = some ⟨header, false, false⟩ ∧
      (senderId header = i.busnum ++ i.devnum ++ 0#3 ∨
        s.preState = .memrdcpldhead1 ∧ header = s.memrdcpheadrega) := by
  have hbeat := presents_txproc s i
  unfold beat at hbeat
  cases hs : s.preState with
  | memrdcpldhead1 =>
      rw [hs] at hbeat
      exact ⟨_, hbeat.trans (congrArg some (wired_append _ _)), .inr ⟨rfl, rfl⟩⟩
  | dmawrhead1 =>
      rw [hs] at hbeat
      exact ⟨_, hbeat.trans (congrArg some (wired_append _ _)), .inl (senderId_dmawrheadrega s i)⟩
  | dmardhead1 =>
      rw [hs] at hbeat
      exact ⟨_, hbeat.trans (congrArg some (wired_append _ _)), .inl (senderId_dmardheadrega s i)⟩
  | _ =>
      rw [hs] at h
      cases h

end Txproc

namespace Endpoint

def run (s : Endpoint) (inp : Nat → EndpointInput) : Nat → Endpoint := trace endpoint s.reset inp

variable (s : Endpoint) (inp : Nat → EndpointInput)

theorem run_succ (t : Nat) : run s inp (t + 1) = endpoint (run s inp t) (inp t) := rfl

theorem run_cfg (t : Nat) : (run s inp t).cfg = CfgSpace.run s.cfg (fun k => (inp k).cfg) t :=
  trace_part (p := Endpoint.cfg) (fun _ _ => rfl) t

theorem id_eq (c : CfgSpace) : c.busnum ++ c.devnum ++ 0#3 = idOf c.busdev := by
  rw [idOf]
  congr 1
  exact BitVec.extractLsb'_append_extractLsb'_eq_extractLsb' rfl

end Endpoint

/-- The registers of `cfgspace` follow the configuration space three cycles behind, and every
packet starts with the number announced last before one of the two cycles in which its header
is put together. -/
structure Identified (s : Endpoint) (inp : Nat → EndpointInput) : Prop where
  devcsr : ∀ t, (Endpoint.run s inp t).cfg.devcsr =
    announced s.cfg.wr1 (fun k => (inp k).cfg) (t - 2) 0x0
  prmcsr : ∀ t, (Endpoint.run s inp t).cfg.prmcsr =
    announced s.cfg.wr1 (fun k => (inp k).cfg) (t - 2) 0x3
  headers : ∀ t, (Endpoint.run s inp t).tx.preState.opens = true →
    ∃ header u, (Endpoint.run s inp (t + 1)).tx.presents = some ⟨header, false, false⟩ ∧
      t - 3 ≤ u ∧ u ≤ t - 2 ∧
      senderId header = idOf (announced s.cfg.wr1 (fun k => (inp k).cfg) u 0xF)

theorem identified_of_shown (s : Endpoint) (inp : Nat → EndpointInput) (hrest : s.cfg.Rested)
    (hshown : Shown s.cfg.wr1 fun k => (inp k).cfg) : Identified s inp := by
  have hbusdev (t : Nat) : (Endpoint.run s inp t).cfg.busdev =
      announced s.cfg.wr1 (fun k => (inp k).cfg) (t - 2) 0xF := by
    rw [Endpoint.run_cfg]
    exact CfgSpace.register_eq_announced hrest hshown (r := CfgSpace.busdev) rfl (fun _ _ => rfl) t
  refine ⟨fun t => ?_, fun t => ?_, fun t hopens => ?_⟩
  · rw [Endpoint.run_cfg]
    exact CfgSpace.register_eq_announced hrest hshown (r := CfgSpace.devcsr) rfl (fun _ _ => rfl) t
  · rw [Endpoint.run_cfg]
    exact CfgSpace.register_eq_announced hrest hshown (r := CfgSpace.prmcsr) rfl (fun _ _ => rfl) t
  · obtain ⟨header, hpresents, hid⟩ := Txproc.senderId_of_opens
      (i := (Endpoint.run s inp t).txInput (inp t)) hopens
    cases hid with
    | inl hnow =>
        refine ⟨header, t - 2, hpresents, by omega, Nat.le_refl _, ?_⟩
        rw [hnow, ← hbusdev]
        exact Endpoint.id_eq _
    | inr hread =>
        obtain ⟨hstate, rfl⟩ := hread
        cases t with
        | zero => cases hstate
        | succ t =>
            refine ⟨_, t - 2, hpresents, by omega, by omega, ?_⟩
            rw [← hbusdev, ← Endpoint.id_eq]
            exact Txproc.senderId_nxtMemrdcpheadrega ((Endpoint.run s inp t).txInput (inp t))

/-- Bus 1 and device 5 are announced with cycle 1, and a read is requested behind it. -/
def announcing (t : Nat) : EndpointInput where
  cfg := ⟨decide (1 ≤ t), 0xF, 0x00000025⟩
  tx := { TxInput.quiet with memrdreq := t == 6 }

def powered : Endpoint := ⟨⟨0, 0, 0, false, false, false⟩, .powerUp⟩

theorem identified_announcing : Identified powered announcing ∧
    (Endpoint.run powered announcing 7).tx.preState.opens = true ∧
    idOf (announced false (fun t => (announcing t).cfg) 4 0xF) = 0x0128 :=
  ⟨identified_of_shown powered announcing ⟨rfl, rfl⟩ fun _ _ => ⟨rfl, rfl⟩, by decide, by decide⟩

end CncCard.Pcie
