import CncCard.Refill.Overflow

/-!
The words themselves on their way through the card. What the handler has decided to send is
read from `fifo33` in the same order, each word once: until then it is still to be posted, on
the link or the bus, or in the queue, and the queue takes every word that comes.
-/

namespace CncCard.Pcie

/-- The words that an access brings to `fifo33`. -/
def Access.brings : Access → List Word
  | .write target value => if target.hits then [value] else []
  | .read _ => []

theorem Access.length_brings (a : Access) : a.brings.length = a.carries := by
  cases a with
  | read target => rfl
  | write target value =>
      rw [brings, carries]
      cases target.hits <;> rfl

theorem Access.brings_of_carries {a : Access} (h : a.carries = 0) : a.brings = [] :=
  List.length_eq_zero_iff.mp (a.length_brings.trans h)

namespace Bus

variable {b : Bus} {e : ExtInf}

/-- The word of a write is pushed in its last cycle. -/
theorem Seen.pushed (h : b.Seen e) (i : BusInput) : e.pushed =
    if b.ends i then (b.access.map Access.brings).getD [] else [] := by
  cases b with
  | resting | memwrst1 target value => exact ExtInf.Calm.pushed h
  | memwrst2 target value => exact ExtInf.Calm.pushed h.1
  | memwrst3 target value => exact ExtInf.Sampled.pushed h
  | memwrst4 target value => exact ExtInf.Pushing.pushed h
  | memrd target =>
      rw [ExtInf.Calm.pushed h]
      exact (ite_self []).symm

end Bus

end CncCard.Pcie

namespace CncCard.Refill
open Clocked Pcie Transition

def brought (line : List Access) : List Word := line.flatMap Access.brings

@[simp] theorem brought_nil : brought [] = [] := rfl

@[simp] theorem brought_cons (a : Access) (line : List Access) :
    brought (a :: line) = a.brings ++ brought line := rfl

@[simp] theorem brought_append (line line' : List Access) :
    brought (line ++ line') = brought line ++ brought line' :=
  List.flatMap_append

theorem length_brought (line : List Access) : (brought line).length = carried line := by
  induction line with
  | nil => rfl
  | cons a line ih =>
      rw [brought_cons, List.length_append, Access.length_brings, ih]
      rfl

theorem brought_dataSend (full : Bool) (dataBuf : Int → Word) :
    brought (dataSend full dataBuf) =
      if full then Driver.words dataBuf 0 Driver.bufSize else [] := by
  have hword (v : Word) : (iowrite32 v Driver.pctocard).brings = [v] := rfl
  unfold dataSend
  split
  · rw [brought, List.flatMap_map]
    simp only [hword]
    exact List.flatMap_singleton' _
  · rfl

/-- What a handler that has read `status` is to send. -/
def ordered (status : Word) (full : Bool) (dataBuf : Int → Word) : List Word :=
  if status = 0x00000003 ∧ full = true then Driver.words dataBuf 0 Driver.bufSize else []

theorem brought_cncInterrupt (status : Word) (full : Bool) (dataBuf : Int → Word) :
    brought (cncInterrupt status full dataBuf) = ordered status full dataBuf := by
  have hint (v : Word) : (iowrite32 v Driver.intcsr).brings = [] := rfl
  unfold cncInterrupt ordered
  by_cases hstatus : status = 0x00000003
  · rw [if_neg (not_not.mpr hstatus), brought_cons, brought_append, brought_cons, hint, hint,
      brought_dataSend]
    simp [hstatus]
  · rw [if_pos hstatus, if_neg fun h => hstatus h.1]
    rfl

def Handler.todo : Handler → List Access
  | .idle | .reading | .read _ => []
  | .writing todo => todo

namespace System

variable {s s' : System} {e : Event}

/-- The words under way, the oldest first. -/
def outstanding (s : System) : List Word :=
  s.card.fifo33.words ++ (brought s.line ++ brought s.handler.todo)

/-- The words that the motion side reads in a step. -/
def taken (s : System) : Event → List Word
  | .clock i => s.card.fifo33.taken i.rdreq
  | _ => []

def sends (s : System) : Event → List Word
  | .test full dataBuf =>
      match s.handler with
      | .read status => ordered status full dataBuf
      | _ => []
  | _ => []

/-- The first access of the line ends in a cycle, or all go on. -/
theorem line_clock (s : System) (i : CardInput) : s.line =
    (if s.card.bus.ends i.bus then s.card.bus.access.toList else []) ++ (s.clock i).line := by
  cases hbus : s.card.bus with
  | resting =>
      cases htake : i.bus.take with
      | true =>
          simp only [line, clock, Card.clock, hbus, Bus.next, Bus.takes, htake, if_true, line_take]
          rfl
      | false =>
          simp only [line, clock, Card.clock, hbus, Bus.next, Bus.takes, htake]
          rfl
  | memwrst1 target value | memwrst2 target value | memwrst3 target value
  | memwrst4 target value =>
      simp [line, clock, Card.clock, hbus, Bus.next, Bus.takes, Bus.ends, Bus.access]
  | memrd target =>
      cases hanswered : i.bus.answered <;>
        simp [line, clock, Card.clock, hbus, Bus.next, Bus.takes, Bus.ends, Bus.access, hanswered]

/-- What leaves the bus in a cycle is pushed in it. -/
theorem pushed_append_line (hseen : s.card.bus.Seen s.card.ext) (i : CardInput) :
    s.card.ext.pushed ++ brought (s.clock i).line = brought s.line := by
  rw [hseen.pushed i.bus, line_clock s i, brought_append]
  congr 1
  split
  · cases s.card.bus.access with
    | none => rfl
    | some a => exact (List.append_nil _).symm
  · rfl

theorem todo_clock (hi : Inv s) (i : CardInput) : (s.clock i).handler.todo = s.handler.todo := by
  rcases clock_cases hi.seen i with ⟨a, haccess, hline, hhandler, -⟩ | ⟨-, hhandler, -⟩
  · rw [hhandler]
    split
    · next hasks =>
        have horder := hi.order
        rw [hline] at horder
        rw [(carried_of_answered horder hasks).1]
        rfl
    · rfl
  · rw [hhandler]

theorem accepted_eq_pushed (hi : Inv s) :
    s.card.fifo33.accepted s.card.wrreq = s.card.ext.pushed := by
  have hroom := hi.room
  rw [Card.level] at hroom
  rw [Fifo.accepted_of_lt (by omega), Card.wrreq, ExtInf.pushed]
  cases s.card.ext.wrreq <;> rfl

/-- A cycle takes from the front and loses nothing. -/
theorem outstanding_clock (hi : Inv s) (i : CardInput) :
    s.card.fifo33.taken i.rdreq ++ (s.clock i).outstanding = s.outstanding := by
  have hqueue : s.card.fifo33.taken i.rdreq ++ (s.clock i).card.fifo33.words =
      s.card.fifo33.words ++ s.card.ext.pushed := by
    rw [← accepted_eq_pushed hi]
    exact Fifo.taken_append_clock _ _ _
  rw [outstanding, outstanding, todo_clock hi, ← List.append_assoc, hqueue, List.append_assoc,
    ← List.append_assoc _ (brought _) (brought _), pushed_append_line hi.seen]

theorem outstanding_put (s : System) (a : Access) (h : Handler) :
    outstanding { s.put a with handler := h } =
      s.card.fifo33.words ++ (brought s.line ++ (a.brings ++ brought h.todo)) := by
  have hline : line { s.put a with handler := h } = s.line ++ [a] := line_put s a
  rw [outstanding, hline, brought_append, brought_cons, brought_nil, List.append_nil,
    List.append_assoc]
  rfl

/-- The account of a step: what is taken comes from the front, what is sent goes to the end. -/
theorem outstanding_step (hi : Inv s) (h : step s e = some s') :
    s.taken e ++ s'.outstanding = s.outstanding ++ s.sends e := by
  rcases step_cases h with ⟨i, rfl, rfl⟩ | ⟨rfl, hidle, rfl⟩ | ⟨status, full, dataBuf, rfl,
    hread, rfl⟩ | ⟨rfl, hdone, rfl⟩ | ⟨a, todo, rfl, hwriting, rfl⟩ | ⟨a, rfl, ha, rfl⟩
  · exact (outstanding_clock hi i).trans (List.append_nil _).symm
  · have hread : (ioread32 Driver.intcsr).brings = [] := rfl
    rw [outstanding_put, outstanding, hidle, hread]
    simp only [sends, taken, Handler.todo, List.append_nil, List.nil_append, brought_nil]
  · have hline : line { s with handler := .writing (cncInterrupt status full dataBuf) } =
        s.line := rfl
    simp only [sends, hread, taken, List.nil_append, outstanding, hline, Handler.todo,
      brought_cncInterrupt, brought_nil, List.append_nil, List.append_assoc]
  · have hline : line { s with handler := .idle } = s.line := rfl
    simp only [sends, taken, List.nil_append, outstanding, hline, hdone, Handler.todo,
      List.append_nil]
  · rw [outstanding_put, outstanding, hwriting]
    simp only [sends, taken, Handler.todo, brought_cons, List.nil_append, List.append_nil]
  · have hput : outstanding (s.put a) = _ := outstanding_put s a s.handler
    rw [hput, Access.brings_of_carries (Access.carries_of_foreign ha)]
    exact (List.append_nil _).symm

theorem length_outstanding_lt (hi : Inv s) : s.outstanding.length < 1200 := by
  have hroom := hi.room
  have htodo : carried s.handler.todo ≤ s.handler.due := by
    cases s.handler with
    | writing todo => exact Nat.le_refl _
    | _ => exact Nat.zero_le _
  rw [outstanding, List.length_append, List.length_append, length_brought, length_brought]
  rw [Card.level] at hroom
  omega

end System

section Refilled

variable {s s' : System} {e : Event}

theorem Reachable.trans {guard : System → Event → Prop} (h : Reachable s)
    (hrest : Reach step guard s s') : Reachable s' := by
  obtain ⟨tx, q, hreach⟩ := h
  exact ⟨tx, q, Reach.trans hreach (hrest.mono fun _ _ _ => trivial)⟩

theorem Reachable.next (h : Reachable s) (hstep : step s e = some s') : Reachable s' :=
  h.trans ((Reach.refl : Reach step anyEvent s s).event trivial hstep)

/-- The handler posts all that it has to, and is done. -/
theorem reach_posted {todo : List Access} (hwriting : s.handler = .writing todo) :
    Reach step (fun _ e => e = .post) s
      { s with handler := .idle, link := s.link ++ todo } := by
  induction todo generalizing s with
  | nil =>
      refine Reach.refl.event rfl ?_
      simp only [step, hwriting, List.append_nil]
  | cons a todo ih =>
      have hrest := ih (s := { s.put a with handler := .writing todo }) rfl
      simp only [System.put, List.append_assoc, List.cons_append, List.nil_append] at hrest
      refine Reach.trans (Reach.refl.event rfl ?_) hrest
      simp only [step, hwriting, System.put]

namespace System

/-- The cycles that an access still takes on a bus that is never held up. -/
def busLeft : Bus → Nat
  | .resting => 0
  | .memwrst1 _ _ => 4
  | .memwrst2 _ _ => 3
  | .memwrst3 _ _ => 2
  | .memwrst4 _ _ | .memrd _ => 1

def rank (s : System) : Nat := 5 * s.link.length + busLeft s.card.bus

theorem busLeft_begin (a : Access) : busLeft (Bus.begin a) ≤ 4 := by
  cases a with
  | write target value => exact Nat.le_refl 4
  | read target => exact Nat.le_of_ble_eq_true rfl

theorem rank_clock (h : s.line ≠ []) : (s.clock brisk).rank < s.rank := by
  obtain ⟨handler, link, ⟨bus, ext, tx, fifo33⟩⟩ := s
  cases bus with
  | resting =>
      cases link with
      | nil => exact absurd rfl h
      | cons a link =>
          have hbegin := busLeft_begin a
          change 5 * link.length + busLeft (Bus.begin a) < 5 * (link.length + 1) + 0
          omega
  | memwrst1 target value | memwrst2 target value | memwrst3 target value
  | memwrst4 target value | memrd target => exact Nat.lt_succ_self _

/-- On a bus that is never held up the words under way come to the queue. -/
theorem exists_drained (hi : Inv s) (hposted : s.handler.todo = []) :
    ∃ n, (Nat.iterate (·.clock brisk) n s).card.fifo33.words = s.outstanding := by
  induction hrank : s.rank using Nat.strong_induction_on generalizing s with
  | _ r ih =>
      by_cases hline : s.line = []
      · refine ⟨0, ?_⟩
        rw [outstanding, hline, hposted, brought_nil, List.append_nil]
        exact (List.append_nil _).symm
      · have htodo := (todo_clock hi brisk).trans hposted
        obtain ⟨n, hn⟩ := ih _ (hrank ▸ rank_clock hline) (inv_clock hi brisk) htodo rfl
        refine ⟨n + 1, ?_⟩
        rw [Function.iterate_succ_apply, hn, ← outstanding_clock hi brisk]
        rfl

end System

/-- The handler has read `INTCSR` behind the writes of `probe`. -/
def told : System :=
  Nat.iterate (·.clock brisk) 2 { probed.put (ioread32 Driver.intcsr) with handler := .reading }

theorem reachable_told : Reachable told := by
  have hprobed : Reachable probed := reachable_iterate 12 ⟨_, _, Reach.refl⟩ brisk
  exact reachable_iterate 2 (hprobed.next (e := .enter) rfl) brisk

/-- The handler finds the buffer full, and the queue gets all of it. -/
theorem refill_fits_refilled : ∃ s : System,
    s.card.fifo33.words = 0 :: Driver.words (BitVec.ofInt 32) 0 Driver.bufSize ∧
      s.card.fifo33.words.length ≤ 1200 ∧
      s.card.fifo33.accepted s.card.wrreq = s.card.wrreq.toList := by
  have hread : told.handler = .read 0x00000003 := rfl
  have htested : Reachable
      { told with handler := .writing (cncInterrupt 0x00000003 true (BitVec.ofInt 32)) } := by
    refine reachable_told.next (e := .test true (BitVec.ofInt 32)) ?_
    simp only [step, hread]
  have hposted := htested.trans (reach_posted rfl)
  obtain ⟨n, hn⟩ := System.exists_drained (inv_reachable hposted) rfl
  refine ⟨_, hn.trans ?_, refill_fits _ (reachable_iterate n hposted brisk)⟩
  have hqueue : told.card.fifo33.words = [0] := rfl
  have hbus : told.card.bus.access = none := rfl
  have hlink : told.link = [] := rfl
  simp only [System.outstanding, System.line, Handler.todo, hqueue, hbus, hlink,
    Option.toList_none, List.nil_append, brought_nil, List.append_nil, brought_cncInterrupt]
  rw [ordered, if_pos ⟨rfl, rfl⟩, List.singleton_append]

end Refilled

end CncCard.Refill
