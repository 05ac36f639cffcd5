import CncCard.Pcie.WordPath

/-!
The bus between `rxproc` and the registers: the accesses come to it one behind the
other. An access goes through the stages that `rxproc` has for it with `extdfer` high: a
write shows its address a cycle before the strobe, and the strobe lasts two cycles. In
all other states of `rxproc` there is no strobe.
-/

namespace CncCard.Pcie
open Clocked

/-- What an access shows on `memsel1` and `ext_add`. -/
structure Target where
  memsel1 : Bool
  extAdd : BitVec 22
  deriving DecidableEq

inductive Access where
  | write (target : Target) (value : Word)
  | read (target : Target)
  deriving DecidableEq

/-- The stage of the access on the bus. The stages of a read are one: `rxproc` waits in
it for the acknowledge. -/
inductive Bus where
  | resting
  | memwrst1 (target : Target) (value : Word)
  | memwrst2 (target : Target) (value : Word)
  | memwrst3 (target : Target) (value : Word)
  | memwrst4 (target : Target) (value : Word)
  | memrd (target : Target)

/-- `take` says that the next access comes to the bus, `answered` that the read is over;
the others are what the bus shows while no access drives it. -/
structure BusInput where
  take : Bool
  answered : Bool
  shown : Target
  float : Word

namespace Target

def selects (t : Target) (r : Reg) : Bool := t.memsel1 && t.extAdd == r.address

def hits (t : Target) : Bool := ExtInf.selects t.memsel1 t.extAdd

theorem hits_eq_selects (t : Target) : t.hits = t.selects .pctocardreg := rfl

end Target

namespace Access

/-- The access uses neither `INTCSR` nor `PCTOCARD`. -/
def foreign : Access → Bool
  | .write target _ | .read target => !target.selects .intreg && !target.selects .pctocardreg

/-- The words that an access brings to `fifo33`. -/
def carries : Access → Nat
  | .write target _ => target.hits.toNat
  | .read _ => 0

def asks : Access → Bool
  | .write _ _ => false
  | .read target => target.selects .intreg

theorem carries_of_foreign {a : Access} (h : a.foreign = true) : a.carries = 0 := by
  cases a with
  | read target => rfl
  | write target value =>
      rw [foreign, Bool.and_eq_true, Bool.not_eq_true', Bool.not_eq_true'] at h
      rw [carries, Target.hits_eq_selects, h.2]
      rfl

theorem asks_of_foreign {a : Access} (h : a.foreign = true) : a.asks = false := by
  cases a with
  | write target value => rfl
  | read target =>
      rw [foreign, Bool.and_eq_true, Bool.not_eq_true', Bool.not_eq_true'] at h
      exact h.1

theorem carries_of_asks {a : Access} (h : a.asks = true) : a.carries = 0 := by
  cases a with
  | read target => rfl
  | write target value => cases h

end Access

namespace Bus

def begin : Access → Bus
  | .write target value => .memwrst1 target value
  | .read target => .memrd target

def takes (b : Bus) (i : BusInput) : Bool :=
  match b with
  | .resting => i.take
  | _ => false

/-- The status of the card leaves in this cycle. -/
def answers (b : Bus) (i : BusInput) : Bool :=
  match b with
  | .memrd target => target.selects .intreg && i.answered
  | _ => false

def next (b : Bus) (head : Option Access) (i : BusInput) : Bus :=
  match b with
  | .resting => if i.take then (head.map begin).getD .resting else .resting
  | .memwrst1 target value => .memwrst2 target value
  | .memwrst2 target value => .memwrst3 target value
  | .memwrst3 target value => .memwrst4 target value
  | .memwrst4 _ _ => .resting
  | .memrd target => if i.answered then .resting else .memrd target

def dataWr : Bus → Bool
  | .memwrst2 _ _ | .memwrst3 _ _ => true
  | _ => false

def shows (b : Bus) (i : BusInput) : Target :=
  match b with
  | .resting => i.shown
  | .memwrst1 target _ | .memwrst2 target _ | .memwrst3 target _ | .memwrst4 target _
  | .memrd target => target

def extdq (b : Bus) (i : BusInput) : Word :=
  match b with
  | .memwrst2 _ value | .memwrst3 _ value | .memwrst4 _ value => value
  | _ => i.float

def extInput (b : Bus) (i : BusInput) : ExtInfInput where
  dq := b.extdq i
  dataWr := b.dataWr
  extAdd := (b.shows i).extAdd
  memsel1 := (b.shows i).memsel1

def access : Bus → Option Access
  | .resting => none
  | .memwrst1 target value | .memwrst2 target value | .memwrst3 target value
  | .memwrst4 target value => some (.write target value)
  | .memrd target => some (.read target)

def ends (b : Bus) (i : BusInput) : Bool :=
  match b with
  | .memwrst4 _ _ => true
  | .memrd _ => i.answered
  | _ => false

theorem access_begin (a : Access) : (begin a).access = some a := by
  cases a <;> rfl

/-- What `ext_inf` has seen of the access on the bus. -/
def Seen : Bus → ExtInf → Prop
  | .resting, e | .memwrst1 _ _, e | .memrd _, e => e.Calm
  | .memwrst2 target _, e => e.Calm ∧ e.pctocardregsel = target.hits
  | .memwrst3 target value, e => e.Sampled target.hits value
  | .memwrst4 target value, e => e.Pushing target.hits value

variable {b : Bus} {e : ExtInf}

theorem memrd_of_asks {a : Access} (haccess : b.access = some a) (hasks : a.asks = true) :
    ∃ target, b = .memrd target := by
  cases b with
  | memrd target => exact ⟨target, rfl⟩
  | resting => cases haccess
  | _ =>
      cases haccess
      cases hasks

theorem seen_begin (h : e.Calm) (a : Access) : (begin a).Seen e := by
  cases a <;> exact h

theorem Seen.next (h : b.Seen e) (head : Option Access) (i : BusInput) :
    (b.next head i).Seen (extInf e (b.extInput i)) := by
  cases b with
  | resting =>
      have hcalm : (extInf e (extInput .resting i)).Calm := ExtInf.Calm.next h rfl
      simp only [Bus.next]
      split
      · match head with
        | none => exact hcalm
        | some a => exact seen_begin hcalm a
      · exact hcalm
  | memwrst1 target value =>
      exact ⟨ExtInf.Calm.next (i := extInput (.memwrst1 target value) i) h rfl, rfl⟩
  | memwrst2 target value =>
      exact ExtInf.Calm.sampled (i := extInput (.memwrst2 target value) i) h.1 h.2 rfl rfl
  | memwrst3 target value =>
      exact ExtInf.Sampled.pushing (i := extInput (.memwrst3 target value) i) h rfl
  | memwrst4 target value =>
      exact ExtInf.Pushing.calm (i := extInput (.memwrst4 target value) i) h rfl
  | memrd target =>
      have hcalm : (extInf e (extInput (.memrd target) i)).Calm := ExtInf.Calm.next h rfl
      simp only [Bus.next]
      split
      · exact hcalm
      · exact hcalm

/-- The word of a write is pushed in its last cycle. -/
theorem Seen.wrreq (h : b.Seen e) (i : BusInput) : e.wrreq.toNat =
    if b.ends i then (b.access.map Access.carries).getD 0 else 0 := by
  cases b with
  | resting | memwrst1 target value =>
      have hwrreq : e.wrreq = false := ExtInf.Calm.wrreq h
      rw [hwrreq]
      rfl
  | memwrst2 target value =>
      have hwrreq : e.wrreq = false := ExtInf.Calm.wrreq h.1
      rw [hwrreq]
      rfl
  | memwrst3 target value =>
      have hwrreq : e.wrreq = false := ExtInf.Sampled.wrreq h
      rw [hwrreq]
      rfl
  | memwrst4 target value =>
      have hwrreq : e.wrreq = target.hits := ExtInf.Pushing.wrreq h
      rw [hwrreq]
      rfl
  | memrd target =>
      have hwrreq : e.wrreq = false := ExtInf.Calm.wrreq h
      rw [hwrreq]
      exact (ite_self 0).symm

end Bus


def Bus.ofRx (c : Rxproc) : Bus :=
  match c.preState with
  | .memwrst1 => .memwrst1 ⟨c.memsel1, c.extAdd⟩ c.extdqreg
  | .memwrst2 => .memwrst2 ⟨c.memsel1, c.extAdd⟩ c.extdqreg
  | .memwrst3 => .memwrst3 ⟨c.memsel1, c.extAdd⟩ c.extdqreg
  | .memwrst4 => .memwrst4 ⟨c.memsel1, c.extAdd⟩ c.extdqreg
  | .memrdst1 | .memrdst2 | .memrdst3 | .memrdst4 => .memrd ⟨c.memsel1, c.extAdd⟩
  | _ => .resting

def accessing : RxState → Bool
  | .memwrst1 | .memwrst2 | .memwrst3 | .memwrst4
  | .memrdst1 | .memrdst2 | .memrdst3 | .memrdst4 => true
  | _ => false

/-- The address register has caught up with the header, and the bus is driven where a
write needs it. -/
structure Settled (c : Rxproc) : Prop where
  addr : accessing c.preState = true → c.addr =
    (if c.dw3sel then c.headregb.extractLsb 31 2 else c.headregb.extractLsb 63 34) ++ 0#2
  dqoen : c.preState = .memwrst2 ∨ c.preState = .memwrst3 ∨ c.preState = .memwrst4 →
    c.dqoen = true

theorem ofRx_of_quiet {c : Rxproc} (h : accessing c.preState = false) :
    Bus.ofRx c = .resting := by
  unfold Bus.ofRx
  cases hstate : c.preState <;> first | rfl | (rw [hstate] at h; cases h)

theorem writing_of_nxtState {c : Rxproc} {i : RxInput}
    (h : c.nxtState i = .memwrst2 ∨ c.nxtState i = .memwrst3 ∨ c.nxtState i = .memwrst4) :
    c.preState = .memwrst1 ∨ c.preState = .memwrst2 ∨ c.preState = .memwrst3 := by
  unfold Rxproc.nxtState at h
  grind

theorem Settled.of_rxproc (c : Rxproc) (i : RxInput) : Settled (rxproc c i) where
  addr := by
    intro hacc
    have hfirst : c.preState ≠ .rdhead1 := by
      intro hstate
      rw [rxproc, Rxproc.nxtState, hstate] at hacc
      cases hacc
    have hsecond : c.preState ≠ .rdhead2 := by
      intro hstate
      rw [rxproc, Rxproc.nxtState, hstate] at hacc
      cases hacc
    simp only [rxproc, Rxproc.dw3sel, hfirst, hsecond, if_false]
    rfl
  dqoen hnext := by
    have hstates := writing_of_nxtState hnext
    simp only [rxproc, Bool.or_eq_true, beq_iff_eq]
    rw [or_assoc]
    exact hstates

theorem Settled.of_idle {c : Rxproc} (h : c.preState = .idle) : Settled c where
  addr hacc := by
    rw [h] at hacc
    cases hacc
  dqoen hstate := by
    rw [h] at hstate
    rcases hstate with hstate | hstate | hstate <;> cases hstate

theorem Settled.extAdd_rxproc {c : Rxproc} (h : Settled c) (hacc : accessing c.preState = true)
    (i : RxInput) : (rxproc c i).extAdd = c.extAdd := by
  rw [Rxproc.extAdd, Rxproc.extAdd, h.addr hacc]
  rfl

theorem memsel1_rxproc {c : Rxproc} (hacc : accessing c.preState = true) (i : RxInput) :
    (rxproc c i).memsel1 = c.memsel1 := by
  have hsecond : c.preState ≠ .rdhead2 := by
    intro hstate
    rw [hstate] at hacc
    cases hacc
  simp only [rxproc, hsecond, if_false]

theorem extdqreg_rxproc {c : Rxproc} (hacc : accessing c.preState = true) (i : RxInput) :
    (rxproc c i).extdqreg = c.extdqreg := by
  have hdata : c.preState ≠ .datast2 := by
    intro hstate
    rw [hstate] at hacc
    cases hacc
  simp only [rxproc, hdata, if_false]

theorem ofRx_rxproc_of_quiet {c : Rxproc} (hquiet : accessing c.preState = false) (i : RxInput) :
    Bus.ofRx (rxproc c i) = ((Bus.ofRx (rxproc c i)).access.map Bus.begin).getD .resting := by
  have hnot {st : RxState} (hst : st = .memwrst2 ∨ st = .memwrst3 ∨ st = .memwrst4) :
      (rxproc c i).preState ≠ st := by
    rintro rfl
    rcases writing_of_nxtState hst with hstate | hstate | hstate <;>
      rw [hstate] at hquiet <;> cases hquiet
  unfold Bus.ofRx
  cases hnext : (rxproc c i).preState with
  | memwrst2 => exact absurd hnext (hnot (.inl rfl))
  | memwrst3 => exact absurd hnext (hnot (.inr (.inl rfl)))
  | memwrst4 => exact absurd hnext (hnot (.inr (.inr rfl)))
  | _ => rfl

/-- A cycle of `rxproc` is a cycle of the bus, and `ext_inf` reads the same. -/
theorem Settled.next {c : Rxproc} (h : Settled c) (i : RxInput) (hdfer : i.extdfer = true)
    (float : Word) : ∃ head j, Bus.ofRx (rxproc c i) = (Bus.ofRx c).next head j ∧
      (Bus.ofRx c).extInput j = ⟨c.extdq.getD float, c.extWr, c.extAdd, c.memsel1⟩ := by
  refine ⟨(Bus.ofRx (rxproc c i)).access,
    ⟨true, c.preState == .memrdst4, ⟨c.memsel1, c.extAdd⟩, c.extdq.getD float⟩, ?_, ?_⟩
  · cases hacc : accessing c.preState with
    | false =>
        rw [ofRx_of_quiet hacc]
        exact ofRx_rxproc_of_quiet hacc i
    | true =>
        have hadd := h.extAdd_rxproc hacc i
        have hsel := memsel1_rxproc hacc i
        have hvalue := extdqreg_rxproc hacc i
        have hnext : (rxproc c i).preState = c.nxtState i := rfl
        unfold Bus.ofRx
        rw [hadd, hsel, hvalue, hnext]
        unfold Rxproc.nxtState
        cases hstate : c.preState with
        | memwrst3 => simp [hdfer, Bus.next]
        | memrdst3 => cases i.memrdack <;> rfl
        | memwrst1 | memwrst2 | memwrst4 | memrdst1 | memrdst2 | memrdst4 => rfl
        | _ =>
            rw [hstate] at hacc
            cases hacc
  · have hdriven (hdq : c.dqoen = true) : c.extdq.getD float = c.extdqreg := by
      rw [Rxproc.extdq, hdq]
      rfl
    unfold Bus.ofRx Rxproc.extWr
    cases hstate : c.preState with
    | memwrst2 =>
        rw [hdriven (h.dqoen (.inl hstate))]
        rfl
    | memwrst3 =>
        rw [hdriven (h.dqoen (.inr (.inl hstate)))]
        rfl
    | memwrst4 =>
        rw [hdriven (h.dqoen (.inr (.inr hstate)))]
        rfl
    | _ => rfl

/-- In every run of `rxproc` the bus goes through the stages of accesses. -/
theorem bus_run (core : Rxproc) (inp : Nat → WordPathInput) (n : Nat) :
    ∃ head i, Bus.ofRx (WordPath.run core inp (n + 1)).rx.core =
        (Bus.ofRx (WordPath.run core inp n).rx.core).next head i ∧
      (WordPath.run core inp n).extInput (inp n) =
        (Bus.ofRx (WordPath.run core inp n).rx.core).extInput i := by
  have hsettled : Settled (WordPath.run core inp n).rx.core := by
    cases n with
    | zero => exact .of_idle rfl
    | succ n => exact .of_rxproc _ _
  obtain ⟨head, i, hnext, hinput⟩ := hsettled.next
    ((WordPath.run core inp n).rx.rxInput (WordPath.rxInput (inp n))) rfl (inp n).float
  exact ⟨head, i, hnext, hinput.symm⟩

end CncCard.Pcie
