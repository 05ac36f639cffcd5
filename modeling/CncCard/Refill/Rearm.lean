import CncCard.Refill.Content

/-!
The enable bit of `INTCSR`. The handler clears it and sets it again, and both writes are
posted: what counts is the bit that the writes on their way leave behind, and that is always
set. Once none of them is on its way interrupts are enabled.
-/

namespace CncCard.Pcie

/-- The enable bit that an access writes. -/
def Access.enables : Access → Option Bool
  | .write target value => if target.selects .intreg then some (value.getLsbD 1) else none
  | .read _ => none

theorem Access.enables_of_foreign {a : Access} (h : a.foreign = true) : a.enables = none := by
  cases a with
  | read target => rfl
  | write target value =>
      rw [foreign, Bool.and_eq_true, Bool.not_eq_true'] at h
      rw [enables, h.1]
      rfl

end CncCard.Pcie

namespace CncCard.Refill
open Clocked Pcie Transition

/-- The enable bit once the accesses are done. -/
def settled (b : Bool) (line : List Access) : Bool :=
  line.foldl (fun b a => a.enables.getD b) b

theorem settled_append (b : Bool) (line line' : List Access) :
    settled b (line ++ line') = settled (settled b line) line' :=
  List.foldl_append

theorem settled_cons (b : Bool) (a : Access) (line : List Access) :
    settled b (a :: line) = settled (a.enables.getD b) line := rfl

theorem settled_of_none {b : Bool} {line : List Access} (h : ∀ a ∈ line, a.enables = none) :
    settled b line = b := by
  induction line generalizing b with
  | nil => rfl
  | cons a line ih =>
      rw [settled_cons, h a List.mem_cons_self]
      exact ih fun a' ha' => h a' (List.mem_cons_of_mem a ha')

theorem settled_cncInterrupt (status : Word) (full : Bool) (dataBuf : Int → Word) :
    settled true (cncInterrupt status full dataBuf) = true := by
  unfold cncInterrupt
  split
  · rfl
  · rw [settled_cons, settled_append]
    rfl

namespace Card

variable {c : Card} {head : Option Access} {i : CardInput}

def enabled (c : Card) : Bool := c.intreg.getLsbD 1

/-- What `txproc` has seen of a write to `INTCSR` on the bus. -/
def Tracks (c : Card) : Prop :=
  match c.bus with
  | .memwrst2 target _ => c.tx.regsel .intreg = target.selects .intreg
  | .memwrst3 target value => c.tx.regsel .intreg = target.selects .intreg ∧
      (target.selects .intreg = true → c.enabled = value.getLsbD 1)
  | .memwrst4 target value => target.selects .intreg = true → c.enabled = value.getLsbD 1
  | .resting | .memwrst1 _ _ | .memrd _ => True

theorem enabled_clock (c : Card) (head : Option Access) (i : CardInput) :
    (c.clock head i).enabled = if c.bus.dataWr && c.tx.regsel .intreg then
      (c.bus.extdq i.bus).getLsbD 1 else c.enabled := by
  change BitVec.getLsbD (if c.bus.dataWr && c.tx.regsel .intreg then c.bus.extdq i.bus
    else c.intreg.extractLsb 31 1 ++ BitVec.ofBool (c.extIntReq i)) 1 = _
  split
  · rfl
  · rw [BitVec.getLsbD_append, enabled]
    simp

theorem regsel_clock (c : Card) (head : Option Access) (i : CardInput) :
    (c.clock head i).tx.regsel .intreg = (c.bus.shows i.bus).selects .intreg := rfl

theorem tracks_resting (hbus : c.bus = .resting) : c.Tracks := by
  rw [Tracks, hbus]
  trivial

theorem tracks_begin {a : Access} (hbus : c.bus = Bus.begin a) : c.Tracks := by
  rw [Tracks, hbus]
  cases a <;> trivial

theorem Tracks.clock (h : c.Tracks) : (c.clock head i).Tracks := by
  have hnext : (c.clock head i).bus = c.bus.next head i.bus := rfl
  cases hbus : c.bus with
  | resting =>
      rw [hbus, Bus.next] at hnext
      split at hnext
      · cases head with
        | none => exact tracks_resting hnext
        | some a => exact tracks_begin hnext
      · exact tracks_resting hnext
  | memwrst1 target value =>
      rw [hbus] at hnext
      rw [Tracks, hnext]
      change (c.clock head i).tx.regsel .intreg = _
      rw [regsel_clock, hbus]
      rfl
  | memwrst2 target value =>
      rw [Tracks, hbus] at h
      rw [hbus] at hnext
      rw [Tracks, hnext]
      change (c.clock head i).tx.regsel .intreg = _ ∧ (_ → (c.clock head i).enabled = _)
      refine ⟨by rw [regsel_clock, hbus]; rfl, fun hsel => ?_⟩
      rw [enabled_clock, h, hsel, hbus]
      rfl
  | memwrst3 target value =>
      rw [Tracks, hbus] at h
      rw [hbus] at hnext
      rw [Tracks, hnext]
      intro hsel
      rw [enabled_clock, h.1, hsel, hbus]
      rfl
  | memwrst4 target value =>
      rw [hbus] at hnext
      exact tracks_resting hnext
  | memrd target =>
      rw [hbus, Bus.next] at hnext
      split at hnext
      · exact tracks_resting hnext
      · exact tracks_begin (a := .read target) hnext

/-- A bus without a write to `INTCSR` leaves it to the request. -/
theorem intreg_clock_of_foreign (h : c.Tracks)
    (hforeign : ∀ a, c.bus.access = some a → a.foreign = true) (head : Option Access)
    (i : CardInput) : (c.clock head i).intreg.getLsbD 0 = c.extIntReq i := by
  have hunwritten : (c.bus.dataWr && c.tx.regsel .intreg) = false := by
    rw [Tracks] at h
    cases hbus : c.bus with
    | memwrst2 target value | memwrst3 target value =>
        have hwrite := hforeign (.write target value) (by rw [hbus]; rfl)
        rw [Access.foreign, Bool.and_eq_true, Bool.not_eq_true'] at hwrite
        rw [hbus] at h
        have hreg : c.tx.regsel .intreg = target.selects .intreg := by
          first | exact h | exact h.1
        rw [hreg, hwrite.1]
        rfl
    | _ => rfl
  change BitVec.getLsbD (if c.bus.dataWr && c.tx.regsel .intreg then c.bus.extdq i.bus
    else c.intreg.extractLsb 31 1 ++ BitVec.ofBool (c.extIntReq i)) 0 = _
  rw [hunwritten, if_neg Bool.false_ne_true, BitVec.getLsbD_append]
  simp

end Card

namespace System

variable {s s' : System} {e : Event}

/-- A cycle does not change what the accesses leave behind. -/
theorem settled_clock (h : s.card.Tracks) (i : CardInput) :
    settled (s.clock i).card.enabled (s.clock i).line = settled s.card.enabled s.line := by
  have henabled : (s.clock i).card.enabled = _ := s.card.enabled_clock s.link.head? i
  have hline := line_clock s i
  rw [Card.Tracks] at h
  cases hbus : s.card.bus with
  | resting | memwrst1 target value =>
      rw [hbus] at henabled hline
      rw [hline, henabled]
      rfl
  | memwrst2 target value | memwrst3 target value =>
      have hfirst : s.line = .write target value :: s.link := by
        rw [line, hbus]
        rfl
      rw [hbus] at h henabled hline
      have hreg : s.card.tx.regsel .intreg = target.selects .intreg := by
        first | exact h | exact h.1
      have hsame : (s.clock i).line = s.line := hline.symm
      rw [hsame, hfirst, settled_cons, settled_cons, henabled, hreg, Access.enables]
      cases target.selects .intreg <;> rfl
  | memwrst4 target value =>
      rw [hbus] at h henabled hline
      have hfirst : s.line = .write target value :: (s.clock i).line := hline
      have hquiet : (s.clock i).card.enabled = s.card.enabled := henabled
      rw [hfirst, settled_cons, hquiet, Access.enables]
      cases hsel : target.selects .intreg with
      | true => rw [h hsel]; rfl
      | false => rfl
  | memrd target =>
      rw [hbus] at henabled hline
      have hquiet : (s.clock i).card.enabled = s.card.enabled := henabled
      rw [hline, hquiet]
      split <;> rfl

end System

/-- Once all writes are done, those that the handler is still to post among them, interrupts
are enabled. -/
structure Armed (s : System) : Prop where
  tracks : s.card.Tracks
  settled : settled s.card.enabled (s.line ++ s.handler.todo) = true

theorem armed_initial (tx : Txproc) (q : Word) : Armed (initial tx q) := ⟨trivial, rfl⟩

variable {s s' : System} {e : Event}

theorem armed_step (hi : Inv s) (ha : Armed s) (h : step s e = some s') : Armed s' := by
  have hsettled := ha.settled
  rcases step_cases h with ⟨i, -, rfl⟩ | ⟨-, hidle, rfl⟩ | ⟨status, full, dataBuf, -, hread, rfl⟩ |
    ⟨-, hdone, rfl⟩ | ⟨a, todo, -, hwriting, rfl⟩ | ⟨a, -, hforeign, rfl⟩
  · refine ⟨ha.tracks.clock, ?_⟩
    rw [settled_append] at hsettled ⊢
    rw [System.settled_clock ha.tracks, System.todo_clock hi]
    exact hsettled
  · refine ⟨ha.tracks, ?_⟩
    have hline : System.line { s.put (ioread32 Driver.intcsr) with handler := .reading } =
        s.line ++ [ioread32 Driver.intcsr] := line_put s _
    rw [hidle] at hsettled
    rw [hline, List.append_assoc, settled_append]
    rw [settled_append] at hsettled
    exact hsettled
  · refine ⟨ha.tracks, ?_⟩
    rw [hread] at hsettled
    have hline : settled s.card.enabled s.line = true := by
      rw [settled_append] at hsettled
      exact hsettled
    change settled s.card.enabled (s.line ++ cncInterrupt status full dataBuf) = true
    rw [settled_append, hline, settled_cncInterrupt]
  · refine ⟨ha.tracks, ?_⟩
    rw [hdone] at hsettled
    exact hsettled
  · refine ⟨ha.tracks, ?_⟩
    have hline : System.line { s.put a with handler := .writing todo } = s.line ++ [a] :=
      line_put s a
    rw [hwriting] at hsettled
    rw [hline, List.append_assoc]
    exact hsettled
  · refine ⟨ha.tracks, ?_⟩
    rw [settled_append] at hsettled
    change settled s.card.enabled ((s.put a).line ++ s.handler.todo) = true
    have hone (b : Bool) : settled b [a] = b :=
      settled_of_none (List.forall_mem_singleton.mpr (Access.enables_of_foreign hforeign))
    rw [line_put, settled_append, settled_append, hone, hsettled]

theorem armed_of_reachable (h : Reachable s) : Armed s := by
  obtain ⟨tx, q, hreach⟩ := h
  have hboth : Inv s ∧ Armed s := by
    refine hreach.invariant (P := fun s => Inv s ∧ Armed s)
      ⟨inv_initial tx q, armed_initial tx q⟩ ?_
    exact fun _ _ _ ⟨hi, ha⟩ _ hstep => ⟨inv_step hi hstep, armed_step hi ha hstep⟩
  exact hboth.2

/-- Interrupts are disabled only while a write that enables them is on its way. -/
theorem enabled_of_settled (ha : Armed s)
    (hnone : ∀ a ∈ s.line ++ s.handler.todo, a.enables = none) : s.card.enabled = true :=
  (settled_of_none hnone).symm.trans ha.settled

end CncCard.Refill
