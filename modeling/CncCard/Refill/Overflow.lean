import CncCard.Refill.System

/-!
`fifo33` does not run over. What is bounded is not its level alone but the level with
the words that are on their way to it. A handler that reads 3 has read it behind all
earlier writes, in a cycle in which the level was below 200 and nothing was on its way;
what it then sends is counted from there on as what it is still to send.
-/

namespace CncCard.Refill
open Clocked Pcie Transition

def carried (line : List Access) : Nat := (line.map Access.carries).sum

@[simp] theorem carried_nil : carried [] = 0 := rfl

@[simp] theorem carried_cons (a : Access) (line : List Access) :
    carried (a :: line) = a.carries + carried line := rfl

@[simp] theorem carried_append (line line' : List Access) :
    carried (line ++ line') = carried line + carried line' := by
  simp [carried]

theorem carried_of_foreign {line : List Access} (h : ∀ a ∈ line, a.foreign = true) :
    carried line = 0 := by
  induction line with
  | nil => rfl
  | cons a line ih =>
      rw [carried_cons, Access.carries_of_foreign (h a List.mem_cons_self),
        ih fun b hb => h b (List.mem_cons_of_mem _ hb)]

namespace Card

variable {c : Card} {head : Option Access} {i : CardInput}

def level (c : Card) : Nat := c.fifo33.words.length

theorem length_wrreq (c : Card) : c.wrreq.toList.length = c.ext.wrreq.toNat := by
  rw [wrreq]
  cases c.ext.wrreq <;> rfl

theorem level_clock_le (c : Card) (head : Option Access) (i : CardInput) :
    (c.clock head i).level ≤ c.level + c.ext.wrreq.toNat := by
  rw [← length_wrreq]
  exact Fifo.length_clock_le _ _ _

theorem intreg_clock (hwr : c.bus.dataWr = false) (head : Option Access) (i : CardInput) :
    (c.clock head i).intreg = c.intreg.extractLsb 31 1 ++ BitVec.ofBool (c.extIntReq i) := by
  have hwritten : c.tx.written (c.txInput i) .intreg = false := by
    simp [Txproc.written, txInput, hwr]
  change (if c.tx.written (c.txInput i) .intreg then _ else _) = _
  rw [hwritten]
  rfl

/-- Behind a cycle without a strobe, the low bit of `INTCSR` is up only where the level
was low. -/
theorem level_of_intreg (hcalm : c.ext.Calm) (hwr : c.bus.dataWr = false)
    (hstatus : (c.clock head i).intreg = 0x00000003) : (c.clock head i).level < 200 := by
  have hreq : c.extIntReq i = true := by
    have hbit : (c.clock head i).intreg.getLsbD 0 = true := by
      rw [hstatus]
      rfl
    rw [intreg_clock hwr, BitVec.getLsbD_append] at hbit
    simpa using hbit
  have hlow : c.level < 200 := by
    rw [extIntReq, ExtInf.extIntReq, Bool.and_eq_true, almostEmpty, decide_eq_true_eq] at hreq
    exact hreq.1
  have hle := c.level_clock_le head i
  rw [hcalm.wrreq] at hle
  exact Nat.lt_of_le_of_lt hle hlow

/-- A read is on the bus only behind cycles without a strobe. -/
theorem calm_of_memrd (hseen : c.bus.Seen c.ext) {target : Target}
    (hbus : (c.clock head i).bus = .memrd target) : c.ext.Calm ∧ c.bus.dataWr = false := by
  change c.bus.next head i.bus = _ at hbus
  cases hb : c.bus with
  | resting | memrd _ =>
      rw [hb] at hseen
      exact ⟨hseen, rfl⟩
  | _ =>
      rw [hb] at hbus
      cases hbus

end Card

namespace System

variable {s : System}

/-- The accesses under way: the one on the bus, and those on the link behind it. -/
def line (s : System) : List Access := s.card.bus.access.toList ++ s.link

theorem line_take {link : List Access} :
    ((link.head?.map Bus.begin).getD .resting).access.toList ++ link.tail = link := by
  cases link with
  | nil => rfl
  | cons a link =>
      change (Bus.begin a).access.toList ++ link = a :: link
      rw [Bus.access_begin]
      rfl

/-- In a cycle the first access ends, or all go on. -/
theorem clock_cases (hseen : s.card.bus.Seen s.card.ext) (i : CardInput) :
    (∃ a, s.card.bus.access = some a ∧ s.line = a :: (s.clock i).line ∧
      (s.clock i).handler = (if a.asks then .read s.card.intreg else s.handler) ∧
      (s.clock i).card.level ≤ s.card.level + a.carries) ∨
    ((s.clock i).line = s.line ∧ (s.clock i).handler = s.handler ∧
      (s.clock i).card.level ≤ s.card.level) := by
  have hlevel : (s.clock i).card.level ≤ s.card.level + _ :=
    s.card.level_clock_le s.link.head? i
  rw [hseen.wrreq i.bus] at hlevel
  cases hbus : s.card.bus with
  | resting =>
      rw [hbus] at hlevel
      refine .inr ⟨?_, ?_, hlevel⟩
      · simp only [line, clock, Card.clock, hbus, Bus.next, Bus.takes]
        split
        · exact line_take
        · rfl
      · simp [clock, hbus, Bus.answers]
  | memwrst1 target value | memwrst2 target value | memwrst3 target value =>
      rw [hbus] at hlevel
      refine .inr ⟨?_, ?_, hlevel⟩
      · simp [line, clock, Card.clock, hbus, Bus.next, Bus.takes, Bus.access]
      · simp [clock, hbus, Bus.answers]
  | memwrst4 target value =>
      rw [hbus] at hlevel
      refine .inl ⟨_, rfl, ?_, ?_, hlevel⟩
      · simp [line, clock, Card.clock, hbus, Bus.next, Bus.takes, Bus.access]
      · simp [clock, hbus, Bus.answers, Access.asks]
  | memrd target =>
      rw [hbus] at hlevel
      cases hanswered : i.bus.answered with
      | true =>
          simp only [Bus.ends, hanswered] at hlevel
          refine .inl ⟨_, rfl, ?_, ?_, hlevel⟩
          · simp [line, clock, Card.clock, hbus, Bus.next, Bus.takes, Bus.access, hanswered]
          · simp only [clock, hbus, Bus.answers, hanswered, Bool.and_true]
            rfl
      | false =>
          simp only [Bus.ends, hanswered] at hlevel
          refine .inr ⟨?_, ?_, hlevel⟩
          · simp [line, clock, Card.clock, hbus, Bus.next, Bus.takes, Bus.access, hanswered]
          · simp [clock, hbus, Bus.answers, hanswered]

end System

/-- The words that the handler is still to send. -/
def Handler.due : Handler → Nat
  | .idle | .reading => 0
  | .read status => if status = 0x00000003 then Driver.bufSize else 0
  | .writing todo => carried todo

/-- Where the read of the handler is among the accesses under way: behind all its
writes, and nowhere when the handler does not wait for it. -/
def Handler.Ordered : Handler → List Access → Prop
  | .reading, line => ∃ before after, line = before ++ ioread32 Driver.intcsr :: after ∧
      (∀ a ∈ before, a.asks = false) ∧ ∀ a ∈ after, a.foreign = true
  | .writing todo, line => (∀ a ∈ line, a.asks = false) ∧ ∀ a ∈ todo, a.asks = false
  | .idle, line | .read _, line => ∀ a ∈ line, a.asks = false

structure Inv (s : System) : Prop where
  seen : s.card.bus.Seen s.card.ext
  low : ∀ target, s.card.bus = .memrd target → s.card.intreg = 0x00000003 → s.card.level < 200
  room : s.card.level + carried s.line + s.handler.due < 1200
  order : s.handler.Ordered s.line

theorem inv_initial (tx : Txproc) (q : Word) : Inv (initial tx q) where
  seen := ⟨rfl, rfl, rfl⟩
  low := by
    intro target hbus
    cases hbus
  room := by
    have hcarried : carried (initial tx q).line = 1 := rfl
    rw [hcarried]
    change 0 + 1 + 0 < 1200
    decide
  order := by
    intro a ha
    rcases List.mem_cons.mp ha with rfl | ha
    · rfl
    · rw [List.mem_singleton.mp ha]
      rfl

variable {s s' : System} {e : Event}

theorem line_put (s : System) (a : Access) : (s.put a).line = s.line ++ [a] :=
  (List.append_assoc _ _ _).symm

theorem forall_mem_concat {P : Access → Prop} {line : List Access} {a : Access}
    (hline : ∀ b ∈ line, P b) (ha : P a) : ∀ b ∈ line ++ [a], P b :=
  List.forall_mem_append.mpr ⟨hline, List.forall_mem_singleton.mpr ha⟩

theorem asks_cncInterrupt {status : Word} {full : Bool} {dataBuf : Int → Word} :
    ∀ a ∈ cncInterrupt status full dataBuf, a.asks = false := by
  intro a ha
  unfold cncInterrupt at ha
  split at ha
  · cases ha
  · rcases List.mem_cons.mp ha with rfl | ha
    · rfl
    · cases List.mem_append.mp ha with
      | inl ha =>
          unfold dataSend at ha
          split at ha
          · obtain ⟨value, -, rfl⟩ := List.mem_map.mp ha
            rfl
          · cases ha
      | inr ha =>
          rw [List.mem_singleton.mp ha]
          rfl

theorem carries_pctocard (value : Word) : (iowrite32 value Driver.pctocard).carries = 1 := rfl

theorem carries_intcsr (value : Word) : (iowrite32 value Driver.intcsr).carries = 0 := rfl

theorem carried_dataSend (full : Bool) (dataBuf : Int → Word) :
    carried (dataSend full dataBuf) = if full then Driver.bufSize else 0 := by
  unfold dataSend
  split
  · rw [carried, List.map_map]
    simp [Function.comp_def, carries_pctocard, Driver.words]
  · rfl

/-- What the handler posts is what it was counted for when its read returned. -/
theorem carried_cncInterrupt (status : Word) (full : Bool) (dataBuf : Int → Word) :
    carried (cncInterrupt status full dataBuf) ≤
      if status = 0x00000003 then Driver.bufSize else 0 := by
  unfold cncInterrupt
  by_cases hstatus : status = 0x00000003
  · rw [if_neg (not_not.mpr hstatus), if_pos hstatus]
    have hsend : carried (iowrite32 0x00000000 Driver.intcsr ::
        (dataSend full dataBuf ++ [iowrite32 0x00000002 Driver.intcsr])) =
        carried (dataSend full dataBuf) := by
      simp [carries_intcsr]
    rw [hsend, carried_dataSend]
    cases full
    · exact Nat.zero_le _
    · exact Nat.le_refl _
  · rw [if_pos hstatus]
    exact Nat.zero_le _

/-- The read of the handler is the first access under way: nothing is on its way to
`fifo33`. -/
theorem carried_of_answered {a : Access} {rest : List Access}
    (horder : s.handler.Ordered (a :: rest)) (hasks : a.asks = true) :
    s.handler = .reading ∧ carried rest = 0 ∧ ∀ b ∈ rest, b.foreign = true := by
  cases hhandler : s.handler with
  | reading =>
      rw [hhandler] at horder
      obtain ⟨before, after, hline, hbefore, hafter⟩ := horder
      cases before with
      | nil =>
          cases hline
          exact ⟨rfl, carried_of_foreign hafter, hafter⟩
      | cons b before =>
          cases hline
          rw [hbefore _ List.mem_cons_self] at hasks
          cases hasks
  | idle | read _ =>
      rw [hhandler] at horder
      have hnot := horder a List.mem_cons_self
      rw [hasks] at hnot
      cases hnot
  | writing todo =>
      rw [hhandler] at horder
      have hnot := horder.1 a List.mem_cons_self
      rw [hasks] at hnot
      cases hnot

theorem Handler.Ordered.tail {h : Handler} {a : Access} {rest : List Access}
    (horder : h.Ordered (a :: rest)) (hasks : a.asks = false) : h.Ordered rest := by
  cases h with
  | reading =>
      obtain ⟨before, after, hline, hbefore, hafter⟩ := horder
      cases before with
      | nil =>
          cases hline
          cases hasks
      | cons b before =>
          cases hline
          exact ⟨before, after, rfl, fun c hc => hbefore c (List.mem_cons_of_mem _ hc), hafter⟩
  | idle | read _ => exact fun b hb => horder b (List.mem_cons_of_mem _ hb)
  | writing todo => exact ⟨fun b hb => horder.1 b (List.mem_cons_of_mem _ hb), horder.2⟩

theorem due_of_answered (hi : Inv s) {a : Access} (haccess : s.card.bus.access = some a)
    (hasks : a.asks = true) : s.card.level + (Handler.read s.card.intreg).due < 1200 := by
  have hroom := hi.room
  rw [Handler.due]
  split
  · next hstatus =>
      have hlow := hi.low _ (Bus.memrd_of_asks haccess hasks).choose_spec hstatus
      have hsize : Driver.bufSize = 1000 := rfl
      omega
  · omega

theorem low_clock (hi : Inv s) (i : CardInput) (target : Target)
    (hbus : (s.clock i).card.bus = .memrd target)
    (hstatus : (s.clock i).card.intreg = 0x00000003) : (s.clock i).card.level < 200 := by
  obtain ⟨hcalm, hwr⟩ := Card.calm_of_memrd hi.seen hbus
  exact Card.level_of_intreg hcalm hwr hstatus

theorem inv_clock (hi : Inv s) (i : CardInput) : Inv (s.clock i) := by
  have hseen : (s.clock i).card.bus.Seen (s.clock i).card.ext :=
    hi.seen.next s.link.head? i.bus
  have hroom := hi.room
  have horder := hi.order
  rcases System.clock_cases hi.seen i with
    ⟨a, haccess, hline, hhandler, hlevel⟩ | ⟨hline, hhandler, hlevel⟩
  · rw [hline, carried_cons] at hroom
    rw [hline] at horder
    cases hasks : a.asks with
    | true =>
        obtain ⟨hreading, hnone, hforeign⟩ := carried_of_answered horder hasks
        rw [hasks, if_pos rfl] at hhandler
        refine ⟨hseen, low_clock hi i, ?_, ?_⟩
        · have hdue := due_of_answered hi haccess hasks
          rw [Access.carries_of_asks hasks] at hlevel hroom
          rw [hnone, hhandler]
          omega
        · rw [hhandler]
          exact fun b hb => Access.asks_of_foreign (hforeign b hb)
    | false =>
        rw [hasks, if_neg Bool.false_ne_true] at hhandler
        refine ⟨hseen, low_clock hi i, ?_, ?_⟩
        · rw [hhandler]
          omega
        · rw [hhandler]
          exact horder.tail hasks
  · refine ⟨hseen, low_clock hi i, ?_, ?_⟩
    · rw [hline, hhandler]
      omega
    · rw [hline, hhandler]
      exact horder

theorem Inv.enter (hi : Inv s) (hidle : s.handler = .idle) :
    Inv { s.put (ioread32 Driver.intcsr) with handler := .reading } where
  seen := hi.seen
  low := hi.low
  room := by
    have hroom := hi.room
    rw [hidle] at hroom
    change s.card.level + carried (s.put (ioread32 Driver.intcsr)).line + 0 < 1200
    rw [line_put, carried_append]
    exact hroom
  order := by
    have horder := hi.order
    rw [hidle] at horder
    exact ⟨s.line, [], line_put s _, horder, fun _ ha => by cases ha⟩

theorem Inv.test (hi : Inv s) {status : Word} (hread : s.handler = .read status) (full : Bool)
    (dataBuf : Int → Word) :
    Inv { s with handler := .writing (cncInterrupt status full dataBuf) } where
  seen := hi.seen
  low := hi.low
  room := by
    have hroom := hi.room
    have hsent := carried_cncInterrupt status full dataBuf
    rw [hread] at hroom
    change s.card.level + carried s.line + carried (cncInterrupt status full dataBuf) < 1200
    rw [Handler.due] at hroom
    omega
  order := by
    have horder := hi.order
    rw [hread] at horder
    exact ⟨horder, asks_cncInterrupt⟩

theorem Inv.finish (hi : Inv s) (hdone : s.handler = .writing []) :
    Inv { s with handler := .idle } where
  seen := hi.seen
  low := hi.low
  room := by
    have hroom := hi.room
    rw [hdone] at hroom
    exact hroom
  order := by
    have horder := hi.order
    rw [hdone] at horder
    exact horder.1

/-- A word that is posted is no longer still to send. -/
theorem Inv.post (hi : Inv s) {a : Access} {todo : List Access}
    (hwriting : s.handler = .writing (a :: todo)) :
    Inv { s.put a with handler := .writing todo } where
  seen := hi.seen
  low := hi.low
  room := by
    have hroom := hi.room
    rw [hwriting, Handler.due, carried_cons] at hroom
    change s.card.level + carried (s.put a).line + carried todo < 1200
    rw [line_put, carried_append, carried_cons, carried_nil]
    omega
  order := by
    have horder := hi.order
    rw [hwriting] at horder
    change Handler.Ordered (.writing todo) (s.put a).line
    rw [line_put]
    exact ⟨forall_mem_concat horder.1 (horder.2 a List.mem_cons_self),
      fun b hb => horder.2 b (List.mem_cons_of_mem _ hb)⟩

theorem Handler.Ordered.foreign {h : Handler} {line : List Access} {a : Access}
    (horder : h.Ordered line) (ha : a.foreign = true) : h.Ordered (line ++ [a]) := by
  have hasks : a.asks = false := Access.asks_of_foreign ha
  cases h with
  | reading =>
      obtain ⟨before, after, rfl, hbefore, hafter⟩ := horder
      exact ⟨before, after ++ [a], by simp, hbefore, forall_mem_concat hafter ha⟩
  | idle | read _ => exact forall_mem_concat horder hasks
  | writing todo => exact ⟨forall_mem_concat horder.1 hasks, horder.2⟩

theorem Inv.other (hi : Inv s) {a : Access} (ha : a.foreign = true) : Inv (s.put a) where
  seen := hi.seen
  low := hi.low
  room := by
    have hroom := hi.room
    change s.card.level + carried (s.put a).line + s.handler.due < 1200
    rw [line_put, carried_append, carried_cons, carried_nil, Access.carries_of_foreign ha]
    exact hroom
  order := by
    rw [line_put]
    exact hi.order.foreign ha

theorem inv_step (hi : Inv s) (h : step s e = some s') : Inv s' := by
  rcases step_cases h with ⟨i, -, rfl⟩ | ⟨-, hidle, rfl⟩ | ⟨_, full, dataBuf, -, hread, rfl⟩ |
    ⟨-, hdone, rfl⟩ | ⟨_, _, -, hwriting, rfl⟩ | ⟨_, -, ha, rfl⟩
  · exact inv_clock hi i
  · exact hi.enter hidle
  · exact hi.test hread full dataBuf
  · exact hi.finish hdone
  · exact hi.post hwriting
  · exact hi.other ha

theorem inv_reachable (h : Reachable s) : Inv s := by
  obtain ⟨tx, q, hreach⟩ := h
  exact hreach.invariant (P := Inv) (inv_initial tx q) fun _ _ _ hi _ hstep => inv_step hi hstep

/-- In every run of the handler and the card `fifo33` holds 1200 words at most, the word
of `probe` among them, and takes every word that `ext_inf` pushes. -/
theorem refill_fits (s : System) (h : Reachable s) :
    s.card.fifo33.words.length ≤ 1200 ∧
      s.card.fifo33.accepted s.card.wrreq = s.card.wrreq.toList := by
  have hroom := (inv_reachable h).room
  rw [Card.level] at hroom
  exact ⟨by omega, Fifo.accepted_of_lt (by omega) _⟩

def brisk : CardInput := ⟨⟨true, true, ⟨false, 0⟩, 0⟩, true, false, .quiet⟩

def probed : System := Nat.iterate (·.clock brisk) 12 (initial Txproc.powerUp 0)

theorem reachable_iterate (n : Nat) (hs : Reachable s) (i : CardInput) :
    Reachable (Nat.iterate (·.clock i) n s) := by
  induction n generalizing s with
  | zero => exact hs
  | succ n ih =>
      obtain ⟨tx, q, hreach⟩ := hs
      exact ih ⟨tx, q, hreach.event (e := .clock i) trivial rfl⟩

end CncCard.Refill
