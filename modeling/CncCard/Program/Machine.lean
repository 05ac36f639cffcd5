import CncCard.Motion.Sources
import CncCard.Motion.Stretch
import CncCard.Refill.Request
import CncCard.Refill.Supply

/-!
The calls of `cnc_write`, the handler, the link, the card and the motion side behind
`fifo33` in one system, from the words that the program writes to the pins. All of the card
is on one clock, and both of its halves have the queue: one writes it and the other reads it.
The clear pin of the queue is taken to be released.
-/

namespace CncCard
open Clocked Pcie Transition Refill

structure Machine (ι : Type) where
  supply : Supply ι
  drive : Drive

/-- What a clock edge of the card reads from outside. -/
structure MachineInput where
  bus : BusInput
  tx : TxInput
  drive : DriveInput

namespace Machine

variable {ι : Type}

/-- `valid` and the read request of the queue come from the motion side. -/
def cardInput (m : Machine ι) (i : MachineInput) : CardInput :=
  ⟨i.bus, m.drive.check.valid, m.drive.path.clk2ms.clkout, i.tx⟩

/-- The write request of the queue comes from the bus side. -/
def driveInput (m : Machine ι) (i : MachineInput) : DriveInput :=
  { i.drive with fifo33Write := m.supply.system.card.wrreq }

/-- One clock edge of the card. -/
def clock (m : Machine ι) (i : MachineInput) : Machine ι where
  supply :=
    { m.supply with
      system := m.supply.system.clock (m.cardInput i)
      fed := m.supply.fed ++ m.supply.system.taken (.clock (m.cardInput i)) }
  drive := m.drive.clock (m.driveInput i)

/-- `host` is a step of the driver or of the link, between two edges. -/
inductive Event (ι : Type) where
  | edge (i : MachineInput)
  | host (e : Supply.Event ι)

def Event.isEdge : Event ι → Bool
  | .edge _ => true
  | .host _ => false

variable [DecidableEq ι]

def step (call : ι → Driver.WriteCall) (m : Machine ι) : Event ι → Option (Machine ι)
  | .edge i => some (m.clock i)
  | .host (.card (.clock _)) => none
  | .host e => (Supply.step call m.supply e).map fun p => { m with supply := p }

/-- After `probe`, with the queue as its clear has left it; whatever the motion side has done
until then. -/
def Initial (m : Machine ι) : Prop :=
  ∃ tx q, m.supply = Supply.initial tx q ∧ m.drive.path.fifo33 = ⟨.empty, q⟩

/-- The test of the handler does not fall between a call's load of the fill count and its
store. -/
def Undisturbed (m : Machine ι) (e : Event ι) : Prop :=
  ∀ e', e = .host e' → Supply.Undisturbed m.supply e'

variable {call : ι → Driver.WriteCall} {m m' : Machine ι} {e : Event ι}

theorem step_cases (h : step call m e = some m') :
    (∃ i, e = .edge i ∧ m' = m.clock i) ∨
      ∃ e' p, e = .host e' ∧ (∀ i, e' ≠ .card (.clock i)) ∧
        Supply.step call m.supply e' = some p ∧ m' = { m with supply := p } := by
  cases e with
  | edge i => exact .inl ⟨i, rfl, (Option.some.inj h).symm⟩
  | host e' =>
      have hclock (i : CardInput) : e' ≠ .card (.clock i) := by
        rintro rfl
        cases h
      have hmap : (Supply.step call m.supply e').map (fun p => { m with supply := p }) =
          some m' := by
        rw [← h, step]
        exact hclock
      obtain ⟨p, hp, rfl⟩ := Option.map_eq_some_iff.mp hmap
      exact .inr ⟨e', p, rfl, hclock, hp, rfl⟩

/-- Between the edges the card and what it has handed on stay as they are. -/
theorem host_frame {p p' : Supply ι} {e : Supply.Event ι}
    (h : Supply.step call p e = some p') (hclock : ∀ i, e ≠ .card (.clock i)) :
    p'.system.card = p.system.card ∧ p'.fed = p.fed := by
  rcases Supply.step_cases h with ⟨_, _, -, -, -, rfl⟩ | ⟨e', s, rfl, -, hs, rfl⟩ |
    ⟨_, s, -, -, hs, rfl⟩
  · exact ⟨rfl, rfl⟩
  · have he : e'.isClock = false := by
      cases e' with
      | clock i => exact absurd rfl (hclock i)
      | _ => rfl
    refine ⟨card_step hs he, ?_⟩
    cases e' with
    | clock i => exact absurd rfl (hclock i)
    | _ => exact List.append_nil _
  · exact ⟨card_step hs rfl, rfl⟩

/-- The queue is the same on both sides, and the bus side is in a state of its own runs. -/
structure Joined (call : ι → Driver.WriteCall) (m : Machine ι) : Prop where
  supply : Supply.Reachable call m.supply
  fifo33 : m.drive.path.fifo33 = m.supply.system.card.fifo33

theorem joined_initial (h : m.Initial) : Joined call m := by
  obtain ⟨tx, q, hsupply, hqueue⟩ := h
  refine ⟨⟨tx, q, ?_⟩, ?_⟩
  · rw [hsupply]
    exact Reach.refl
  · rw [hsupply, hqueue]
    rfl

theorem Joined.clock (h : Joined call m) (i : MachineInput) : Joined call (m.clock i) where
  supply := by
    obtain ⟨tx, q, hreach⟩ := h.supply
    exact ⟨tx, q, hreach.event (e := .card (.clock (m.cardInput i)))
      (fun _ heq => by cases heq) rfl⟩
  fifo33 := by
    change m.drive.path.fifo33.clock _ _ = m.supply.system.card.fifo33.clock _ _
    rw [h.fifo33]
    rfl

theorem Joined.step (h : Joined call m) (hguard : m.Undisturbed e)
    (hstep : step call m e = some m') : Joined call m' := by
  rcases step_cases hstep with ⟨i, -, rfl⟩ | ⟨e', p, rfl, hclock, hp, rfl⟩
  · exact h.clock i
  · obtain ⟨tx, q, hreach⟩ := h.supply
    refine ⟨⟨tx, q, hreach.event (hguard e' rfl) hp⟩, ?_⟩
    rw [(host_frame hp hclock).1]
    exact h.fifo33

/-- What an edge hands on is what the motion side reads. -/
theorem Joined.fed_clock (h : Joined call m) (i : MachineInput) :
    (m.clock i).supply.fed = m.supply.fed ++ m.drive.path.pop := by
  rw [MotionPath.pop, h.fifo33]
  rfl

/-- A step between two edges that leaves the fill count alone while a call stores it. -/
def Between (p : Supply ι) (e : Supply.Event ι) : Prop :=
  Supply.Undisturbed p e ∧ ∀ i, e ≠ .card (.clock i)

theorem step_host {p p' : Supply ι} {drive : Drive} {e : Supply.Event ι}
    (hclock : ∀ i, e ≠ .card (.clock i)) (h : Supply.step call p e = some p') :
    step call ⟨p, drive⟩ (.host e) = some ⟨p', drive⟩ := by
  have hhost : step call ⟨p, drive⟩ (.host e) =
      (Supply.step call p e).map fun q => { (⟨p, drive⟩ : Machine ι) with supply := q } := by
    cases e with
    | card e =>
        cases e with
        | clock i => exact absurd rfl (hclock i)
        | _ => rfl
    | _ => rfl
  rw [hhost, h]
  rfl

variable {guard : Machine ι → Event ι → Prop}

/-- What the driver and the link do between two edges is part of a run. -/
theorem reach_host (hguard : ∀ m e, Between m.supply e → guard m (.host e)) {p p' : Supply ι}
    (drive : Drive) (h : Reach (Supply.step call) Between p p') :
    Reach (step call) guard ⟨p, drive⟩ ⟨p', drive⟩ := by
  induction h with
  | refl => exact Reach.refl
  | tail _ hstep ih =>
      obtain ⟨e, hbetween, hp⟩ := hstep
      exact ih.event (hguard _ e hbetween) (step_host hbetween.2 hp)

theorem reach_edges {i : MachineInput} (hguard : ∀ m, guard m (.edge i)) (m : Machine ι)
    (n : Nat) : Reach (step call) guard m (Nat.iterate (·.clock i) n m) := by
  induction n with
  | zero => exact Reach.refl
  | succ n ih =>
      rw [Function.iterate_succ_apply']
      exact ih.event (hguard _) rfl

def withDriver (m : Machine ι) (d : Driver.State ι) : Machine ι :=
  { m with supply := { m.supply with driver := d } }

omit [DecidableEq ι] in
/-- At the edges the card goes its way whatever is in the buffer of the driver. -/
theorem iterate_withDriver (m : Machine ι) (d : Driver.State ι) (i : MachineInput) (n : Nat) :
    Nat.iterate (·.clock i) n (m.withDriver d) =
      (Nat.iterate (·.clock i) n m).withDriver d := by
  induction n with
  | zero => rfl
  | succ n ih =>
      rw [Function.iterate_succ_apply', Function.iterate_succ_apply', ih]
      rfl

end Machine

end CncCard
