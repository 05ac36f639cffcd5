import CncCard.Clocked.Log
import CncCard.Pcie.Completion

/-!
The handshake between `rxproc` and `txproc`. `rxproc` asks in `MEMRDST3` and goes on with the
acknowledge, which `txproc` shows behind three states of a completion. So a read that finds
`txproc` free starts a completion, and one that is asked for during a completion takes the
acknowledge of that one.
-/

namespace CncCard.Pcie
open Clocked

namespace TxState

def completing : TxState → Bool
  | memrdcpldhead1 | memrdcpldhead2 | memrdcpldwaitst1 | memrdcpldwaitst2 | memrdcplddatast1
  | memrdcplddone => true
  | _ => false

end TxState

namespace Txproc

variable {s : Txproc} {i : TxInput}

theorem completing_of_nxtState (h : (s.nxtState i).completing = true) :
    s.preState.completing = true ∧ s.preState ≠ .memrdcplddone ∨
      s.preState = .idle ∧ i.memrdreq = true ∧ s.nxtState i = .memrdcpldhead1 := by
  unfold nxtState at h ⊢
  cases hstate : s.preState with
  | memrdcpldhead1 | memrdcpldhead2 | memrdcpldwaitst1 | memrdcpldwaitst2 | memrdcplddatast1 =>
      exact .inl ⟨rfl, TxState.noConfusion⟩
  | idle =>
      rw [hstate] at h
      cases hreq : i.memrdreq with
      | true => exact .inr ⟨rfl, rfl, rfl⟩
      | false =>
          rw [hreq] at h
          simp only [Bool.false_eq_true, if_false] at h
          split at h
          · cases h
          · split at h <;> cases h
  | _ =>
      rw [hstate] at h
      simp only at h
      first
        | cases h
        | (split at h <;> first | cases h | (split at h <;> cases h))

theorem nxtState_completing (h : s.preState.completing = true)
    (hdone : s.preState ≠ .memrdcplddone) : (s.nxtState i).completing = true := by
  unfold nxtState
  cases hstate : s.preState with
  | memrdcplddone => exact absurd hstate hdone
  | memrdcpldwaitst1 | memrdcpldwaitst2 => rfl
  | memrdcpldhead1 | memrdcpldhead2 | memrdcplddatast1 =>
      simp only
      split <;> rfl
  | _ =>
      rw [hstate] at h
      cases h

theorem memrdack_txproc : (txproc s i).memrdack = (s.preState == .memrdcpldhead1 ||
    s.preState == .memrdcpldhead2 || s.preState == .memrdcplddatast1) := rfl

theorem completing_of_memrdack (h : (txproc s i).memrdack = true) :
    (txproc s i).preState.completing = true := by
  rw [memrdack_txproc, Bool.or_eq_true, Bool.or_eq_true, beq_iff_eq, beq_iff_eq, beq_iff_eq] at h
  apply nxtState_completing
  · rcases h with (h | h) | h <;> rw [h] <;> rfl
  · rcases h with (h | h) | h <;> rw [h] <;> exact TxState.noConfusion

theorem memrdack_of_done (h : (txproc s i).preState = .memrdcplddone) :
    (txproc s i).memrdack = true := by
  change s.nxtState i = .memrdcplddone at h
  have hfrom := completing_of_nxtState (s := s) (i := i) (by rw [h]; rfl)
  rw [memrdack_txproc]
  unfold nxtState at h
  cases hstate : s.preState with
  | memrdcplddatast1 => rfl
  | memrdcpldhead1 | memrdcpldhead2 => rfl
  | memrdcpldwaitst1 | memrdcpldwaitst2 => rw [hstate] at h; cases h
  | idle =>
      rcases hfrom with ⟨hlow, -⟩ | ⟨-, -, hhead⟩
      · rw [hstate] at hlow; cases hlow
      · unfold nxtState at hhead
        rw [hstate] at h hhead
        rw [h] at hhead
        cases hhead
  | _ =>
      rcases hfrom with ⟨hlow, hne⟩ | ⟨hidle, -⟩
      · first
          | exact absurd hstate hne
          | (rw [hstate] at hlow; cases hlow)
      · rw [hstate] at hidle; cases hidle

end Txproc

theorem Rxproc.nxtState_eq_memrdst3 {c : Rxproc} {i : RxInput} : c.nxtState i = .memrdst3 ↔
    c.preState = .memrdst2 ∨ c.preState = .memrdst3 ∧ i.memrdack = false := by
  unfold Rxproc.nxtState
  cases hstate : c.preState with
  | memrdst2 => simp
  | memrdst3 => cases i.memrdack <;> simp
  | waitst1 | idle | unsp1 | memwrst3 | cplddatast1 | cpldwaitst9 => grind
  | _ => simp

namespace PcieCore

/-- The reads that find `txproc` free when `rxproc` asks for their answer. -/
def asked (r : Nat → PcieCore) : Nat → List ReadRequest :=
  log fun t =>
    if (r t).rx.core.preState == .memrdst2 && !(r (t + 1)).tx.preState.completing
    then [(r t).request] else []

/-- The cycles in which a completion begins. -/
def begun (r : Nat → PcieCore) : Nat → List Nat :=
  log fun t =>
    if (r t).tx.preState == .idle && (r (t + 1)).tx.preState == .memrdcpldhead1
    then [t + 1] else []

/-- A read waits for its completion to begin. -/
def awaits (s : PcieCore) : Bool := s.rx.core.memrdrq && !s.tx.preState.completing

/-- The acknowledge is that of a completion, and is shown at the end of it. -/
structure Handshake (s : PcieCore) : Prop where
  ack : s.tx.memrdack = true →
    s.tx.preState.completing = true ∨ s.rx.core.preState ≠ .memrdst3
  done : s.tx.preState = .memrdcplddone → s.tx.memrdack = true

section Step

variable {s : PcieCore} (i : CoreInput)

theorem rxState_pcieCore : (pcieCore s i).rx.core.preState =
    s.rx.core.nxtState (s.rx.rxInput (s.rxInput i)) := rfl

theorem txState_pcieCore : (pcieCore s i).tx.preState = s.tx.nxtState (s.txInput i) := rfl

theorem handshake_reset (s : PcieCore) : s.reset.Handshake :=
  ⟨fun _ => .inr RxState.noConfusion, fun h => TxState.noConfusion h⟩

theorem handshake_pcieCore (s : PcieCore) (i : CoreInput) : (pcieCore s i).Handshake :=
  ⟨fun h => .inl (Txproc.completing_of_memrdack h), Txproc.memrdack_of_done⟩

theorem rxState_eq_memrdst3 : (pcieCore s i).rx.core.preState = .memrdst3 ↔
    s.rx.core.preState = .memrdst2 ∨
      s.rx.core.preState = .memrdst3 ∧ s.tx.memrdack = false :=
  Rxproc.nxtState_eq_memrdst3

theorem completing_of_pcieCore (h : (pcieCore s i).tx.preState.completing = true) :
    s.tx.preState.completing = true ∧ s.tx.preState ≠ .memrdcplddone ∨
      s.tx.preState = .idle ∧ s.rx.core.preState = .memrdst3 ∧
        (pcieCore s i).tx.preState = .memrdcpldhead1 := by
  rcases Txproc.completing_of_nxtState h with hgoes | ⟨hidle, hreq, hhead⟩
  · exact .inl hgoes
  · exact .inr ⟨hidle, beq_iff_eq.mp hreq, hhead⟩

theorem begins_eq : (s.tx.preState == .idle && (pcieCore s i).tx.preState == .memrdcpldhead1) =
    (s.tx.preState == .idle && s.rx.core.memrdrq) := by
  cases hidle : s.tx.preState == .idle with
  | false => rfl
  | true =>
      rw [Bool.true_and, Bool.true_and, txState_pcieCore, Txproc.nxtState, beq_iff_eq.mp hidle]
      change ((if s.rx.core.memrdrq then _ else _ : TxState) == _) = s.rx.core.memrdrq
      cases s.rx.core.memrdrq with
      | true => rfl
      | false =>
          simp only [Bool.false_eq_true, if_false]
          split
          · rfl
          · split <;> rfl

theorem completing_eq (h : s.tx.preState.completing = false) :
    (pcieCore s i).tx.preState.completing = (s.tx.preState == .idle && s.rx.core.memrdrq) := by
  rw [Bool.eq_iff_iff, ← begins_eq]
  constructor
  · intro hbegins
    rcases completing_of_pcieCore i hbegins with ⟨hlow, -⟩ | ⟨hidle, -, hhead⟩
    · rw [h] at hlow
      cases hlow
    · rw [hidle, hhead]
      rfl
  · intro hbegins
    rw [beq_iff_eq.mp (Bool.and_eq_true_iff.mp hbegins).2]
    rfl

theorem Handshake.memrdack_of_waits (h : s.Handshake) (hrq : s.rx.core.preState = .memrdst3)
    (hfree : s.tx.preState.completing = false) : s.tx.memrdack = false := by
  by_contra hhigh
  rcases h.ack (eq_true_of_ne_false hhigh) with hcompl | hout
  · rw [hfree] at hcompl
    cases hcompl
  · exact hout hrq

/-- A read that is asked for during a completion does not outlast it. -/
theorem Handshake.over (h : s.Handshake) (hrq : s.rx.core.preState = .memrdst3)
    (hcompl : s.tx.preState.completing = true) : (pcieCore s i).awaits = false := by
  rw [awaits, Bool.and_eq_false_iff]
  by_cases hdone : s.tx.preState = .memrdcplddone
  · left
    rw [Rxproc.memrdrq, beq_eq_false_iff_ne, Ne, rxState_eq_memrdst3, hrq, h.done hdone]
    simp
  · right
    rw [Bool.not_eq_false']
    exact Txproc.nxtState_completing hcompl hdone

/-- A read that finds `txproc` free waits, and a completion that begins is for the one that
waits. -/
theorem Handshake.step (h : s.Handshake) :
    (s.rx.core.preState == .memrdst2 && !(pcieCore s i).tx.preState.completing).toNat +
        s.awaits.toNat =
      (s.tx.preState == .idle && (pcieCore s i).tx.preState == .memrdcpldhead1).toNat +
        (pcieCore s i).awaits.toNat := by
  have hnext := rxState_eq_memrdst3 (s := s) i
  rw [begins_eq]
  by_cases hask : s.rx.core.preState = .memrdst2
  · have hin : (pcieCore s i).rx.core.memrdrq = true := beq_iff_eq.mpr (hnext.mpr (.inl hask))
    have hlow : s.rx.core.memrdrq = false := by
      rw [Rxproc.memrdrq, hask]
      rfl
    rw [awaits, awaits, hin, hlow, hask]
    simp
  · have hasks : (s.rx.core.preState == .memrdst2) = false := beq_eq_false_iff_ne.mpr hask
    rw [hasks, Bool.false_and, Bool.toNat_false, Nat.zero_add]
    by_cases hrq : s.rx.core.preState = .memrdst3
    · have hreq : s.rx.core.memrdrq = true := beq_iff_eq.mpr hrq
      cases hcompl : s.tx.preState.completing with
      | true =>
          have hidle : (s.tx.preState == .idle) = false := by
            rw [beq_eq_false_iff_ne]
            intro hidle
            rw [hidle] at hcompl
            cases hcompl
          rw [h.over i hrq hcompl, awaits, hcompl, hidle, Bool.not_true, Bool.and_false,
            Bool.false_and, Bool.toNat_false]
      | false =>
          have hin : (pcieCore s i).rx.core.memrdrq = true :=
            beq_iff_eq.mpr (hnext.mpr (.inr ⟨hrq, h.memrdack_of_waits hrq hcompl⟩))
          rw [awaits, awaits, hreq, hin, hcompl, completing_eq i hcompl, hreq]
          cases s.tx.preState == .idle <;> rfl
    · have hout : (pcieCore s i).rx.core.memrdrq = false := by
        rw [Rxproc.memrdrq, beq_eq_false_iff_ne, Ne, hnext]
        simp [hask, hrq]
      have hlow : s.rx.core.memrdrq = false := beq_eq_false_iff_ne.mpr hrq
      rw [awaits, awaits, hlow, hout, Bool.false_and, Bool.false_and, Bool.and_false]
      rfl

end Step

section Run

variable (s : PcieCore) (inp : Nat → CoreInput)

theorem run_handshake (n : Nat) : (run s inp n).Handshake :=
  trace_invariant (handshake_reset s) (fun s i _ => handshake_pcieCore s i) n

/-- In every run each read that has found `txproc` free has had its completion begun, but for
one that waits; no other completion has. -/
theorem length_asked (n : Nat) : (asked (run s inp) n).length =
    (begun (run s inp) n).length + (run s inp n).awaits.toNat := by
  induction n with
  | zero => rfl
  | succ n ih =>
      have hstep := (run_handshake s inp n).step (inp n)
      have hlength (b : Bool) {α : Type} (x : α) : (if b then [x] else []).length = b.toNat := by
        cases b <;> rfl
      rw [asked, begun, log_succ, log_succ, ← asked, ← begun, List.length_append,
        List.length_append, ih, hlength, hlength, run_succ]
      omega

end Run

end PcieCore

end CncCard.Pcie
