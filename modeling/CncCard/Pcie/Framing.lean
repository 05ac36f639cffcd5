import CncCard.Clocked.Packet
import CncCard.Pcie.Txproc

/-!
How `txproc` frames what it sends. `PCIECORE` takes bit 64 of `txfifodq` as the start
and bit 65 as the end of a packet. The header states drive both bits low and the data
states both high, so no packet ever starts with its start mark; and a state that
waits for `tx_st_ready` shows its beat as valid in every cycle of the wait.
-/

namespace CncCard.Pcie
open Clocked

namespace TxState

def opens : TxState → Bool
  | memrdcpldhead1 | dmawrhead1 | dmardhead1 => true
  | _ => false

/-- The packet that was opened goes on with this state. -/
def inside : TxState → Bool
  | memrdcpldhead2 | memrdcpldwaitst1 | memrdcpldwaitst2 | memrdcplddatast1
  | dmawrhead2 | dmawrdatast1 | dmawrdatast2 | dmardhead2 => true
  | _ => false

/-- The states from which a run has not come past the start of a packet. -/
def beforeOpen : TxState → Bool
  | idle | dmawrwaitst1 | dmardwaitst1 | dmardwaitst2 => true
  | _ => false

def emits (st : TxState) : Bool :=
  st.opens || st.inside && st != memrdcpldwaitst1 && st != memrdcpldwaitst2

end TxState

namespace Txproc

/-- A word of `txfifodq` as `PCIECORE` wires it. -/
def wired (q : BitVec 72) : Beat (BitVec 64) :=
  ⟨q.extractLsb 63 0, q.getLsbD 64, q.getLsbD 65⟩

def presents (s : Txproc) : Option (Beat (BitVec 64)) :=
  if s.txStValid then some (wired s.txfifodq) else none

/-- The beats presented in the first `n` cycles behind the reset. -/
def presented (r : Nat → Txproc) (n : Nat) : List (Beat (BitVec 64)) :=
  (List.range n).filterMap fun t => (r (t + 1)).presents

/-- From cycle `a` to before cycle `b` the state machine stays with one beat. -/
structure Stay (r : Nat → Txproc) (a b : Nat) : Prop where
  lt : a < b
  emits : (r a).preState.emits = true
  stays : ∀ t, a ≤ t → t < b → (r t).preState = (r a).preState
  entered : ∀ t, t + 1 = a → (r t).preState ≠ (r a).preState
  left : (r b).preState ≠ (r a).preState

/-- The beat of a stay is presented in exactly one cycle. -/
def PresentedOnce (r : Nat → Txproc) (a b : Nat) (w : Beat (BitVec 64)) : Prop :=
  ∃ t, a ≤ t ∧ t < b ∧ (r (t + 1)).presents = some w ∧
    ∀ t', a ≤ t' → t' < b → (r (t' + 1)).txStValid = true → t' = t

/-- The stream that a run presents: whole packets, with the marks where the state
machine begins and ends a packet, and each beat once. -/
structure Framing (r : Nat → Txproc) : Prop where
  packets : ∀ n, Framed false (presented r n)
  beats : ∀ a b, Stay r a b → ∃ w, PresentedOnce r a b w ∧
    w.sop = (r a).preState.opens ∧ w.eop = !(r b).preState.inside

theorem beat_of_opens {s : Txproc} (i : TxInput) (h : s.preState.opens = true) :
    ∃ header : BitVec 64, s.beat i = some (0x00#8 ++ header) := by
  unfold beat
  cases hs : s.preState with
  | memrdcpldhead1 | dmawrhead1 | dmardhead1 => exact ⟨_, rfl⟩
  | _ => rw [hs] at h; cases h

theorem wired_append (marks : BitVec 8) (data : BitVec 64) :
    wired (marks ++ data) = ⟨data, marks.getLsbD 0, marks.getLsbD 1⟩ := by
  have hdata : (marks ++ data).extractLsb 63 0 = data := BitVec.extractLsb'_append_eq_right
  have hsop : (marks ++ data).getLsbD 64 = marks.getLsbD 0 := BitVec.getLsbD_append
  have heop : (marks ++ data).getLsbD 65 = marks.getLsbD 1 := BitVec.getLsbD_append
  simp only [wired, Beat.mk.injEq]
  exact ⟨hdata, hsop, heop⟩

theorem beat_isSome (s : Txproc) (i : TxInput) : (s.beat i).isSome = s.preState.emits := by
  unfold beat
  cases s.preState <;> rfl

/-- Outside packets the machine stays there or opens one. -/
theorem nxtState_beforeOpen {s : Txproc} (i : TxInput) (h : s.preState.beforeOpen = true) :
    (s.nxtState i).beforeOpen = true ∨ (s.nxtState i).opens = true := by
  unfold nxtState
  cases hs : s.preState with
  | idle =>
      simp only
      repeat' split
      all_goals simp [TxState.beforeOpen, TxState.opens]
  | dmawrwaitst1 | dmardwaitst2 =>
      simp only
      split <;> simp [TxState.beforeOpen, TxState.opens]
  | dmardwaitst1 => exact .inl rfl
  | _ => rw [hs] at h; cases h

theorem presents_txproc (s : Txproc) (i : TxInput) :
    (txproc s i).presents = (s.beat i).map wired := by
  cases h : s.beat i <;> simp [presents, txproc, h]

variable (s : Txproc) (inp : Nat → TxInput)

theorem run_txStValid_succ (t : Nat) :
    (run s inp (t + 1)).txStValid = (run s inp t).preState.emits := by
  rw [run_succ, ← beat_isSome _ (inp t)]
  rfl

theorem run_beforeOpen {n : Nat} (h : ∀ t < n, (run s inp t).preState.opens = false) :
    ∀ t < n, (run s inp t).preState.beforeOpen = true := by
  intro t ht
  induction t with
  | zero => rfl
  | succ t ih =>
      cases nxtState_beforeOpen (inp t) (ih (by omega)) with
      | inl hn => exact hn
      | inr hn =>
          have hopens := h (t + 1) ht
          rw [run_preState_succ, hn] at hopens
          cases hopens

theorem emits_of_beforeOpen {st : TxState} (h : st.beforeOpen = true) : st.emits = false := by
  cases st <;> first | rfl | cases h

theorem presented_nil {n : Nat} (h : ∀ t < n, (run s inp t).preState.opens = false) :
    presented (run s inp) n = [] := by
  rw [presented, List.filterMap_eq_nil_iff]
  intro t ht
  have hemits := emits_of_beforeOpen (run_beforeOpen s inp h t (List.mem_range.mp ht))
  rw [← run_txStValid_succ] at hemits
  simp [presents, hemits]

/-- The first packet of a run starts without its mark. -/
theorem framing_opens_false (h : Framing (run s inp)) (t : Nat) :
    (run s inp t).preState.opens = false := by
  induction t using Nat.strong_induction_on with
  | _ t ih =>
      by_contra hopens
      rw [Bool.not_eq_false] at hopens
      obtain ⟨header, hbeat⟩ := beat_of_opens (inp t) hopens
      have hpackets := h.packets (t + 1)
      have hnil := presented_nil s inp ih
      rw [presented] at hnil hpackets
      rw [List.range_succ, List.filterMap_append, hnil] at hpackets
      simp only [List.filterMap_cons, run_succ, presents_txproc, hbeat, Option.map_some,
        wired_append, List.filterMap_nil, List.nil_append] at hpackets
      cases hpackets.head_sop

/-- A run of `txproc` is framed if and only if it never begins a packet. -/
theorem framing_iff_silent (s : Txproc) (inp : Nat → TxInput) :
    Framing (run s inp) ↔ ∀ t, (run s inp t).preState.opens = false := by
  constructor
  · exact framing_opens_false s inp
  · intro hsilent
    constructor
    · intro n
      rw [presented_nil s inp fun t _ => hsilent t]
      trivial
    · intro a b hstay
      have hemits := emits_of_beforeOpen
        (run_beforeOpen s inp (fun t _ => hsilent t) a (Nat.lt_succ_self a))
      rw [hstay.emits] at hemits
      cases hemits

/-- A read request in the first cycle begins a completion. -/
theorem framing_read_false :
    ¬ Framing (run powerUp fun _ => { TxInput.quiet with memrdreq := true }) := by
  intro hframing
  have hopens := framing_opens_false _ _ hframing 1
  cases hopens

/-- A beat is presented once if and only if its state is left in the cycle after it
was entered; a stalled beat is presented again in each cycle. -/
theorem presentedOnce_iff_unstalled {a b : Nat} (hstay : Stay (run s inp) a b) :
    (∃ w, PresentedOnce (run s inp) a b w) ↔ b = a + 1 := by
  have hvalid (t : Nat) (ha : a ≤ t) (hb : t < b) : (run s inp (t + 1)).txStValid = true := by
    rw [run_txStValid_succ, hstay.stays t ha hb, hstay.emits]
  have hlt := hstay.lt
  constructor
  · rintro ⟨w, t, ha, hb, -, hunique⟩
    have hfirst := hunique a (Nat.le_refl a) hlt (hvalid a (Nat.le_refl a) hlt)
    have hlast := hunique (b - 1) (by omega) (by omega) (hvalid _ (by omega) (by omega))
    omega
  · rintro rfl
    refine ⟨wired (run s inp (a + 1)).txfifodq, a, Nat.le_refl a, hlt, ?_,
      fun t' ha hb _ => by omega⟩
    simp only [presents, hvalid a (Nat.le_refl a) hlt, if_true]

end Txproc

end CncCard.Pcie
