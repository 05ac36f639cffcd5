import CncCard.Clocked.Ticks
import CncCard.Pcie.Interrupt
import CncCard.Refill.Rearm

/-!
No request of the card is lost. While the handler rests and the card asks for words, the
writes of the handler drain off the link, the last of them has enabled interrupts, and the
interrupt line goes up and stays up.
-/

namespace CncCard.Refill
open Clocked Pcie Transition

/-- The link moves, reads are answered and the hard IP acknowledges, each again and again. -/
structure Fair (ρ : Run step) : Prop where
  takes : ∀ n, ∃ m, n ≤ m ∧ ∃ i, ρ.event m = .clock i ∧ i.bus.take = true
  answers : ∀ n, ∃ m, n ≤ m ∧ ∃ i, ρ.event m = .clock i ∧ i.bus.answered = true
  acks : ∀ n, ∃ m, n ≤ m ∧ ∃ i, ρ.event m = .clock i ∧ i.tx.appIntAck = true

/-- From `n` on the handler rests and the card asks. -/
structure Asking (ρ : Run step) (n : Nat) : Prop where
  idle : ∀ m, n ≤ m → (ρ.state m).handler = .idle
  asks : ∀ m i, n ≤ m → ρ.event m = .clock i → (ρ.state m).card.extIntReq i = true

theorem idle_cases {s s' : System} {e : Event} (h : step s e = some s') (hs : s.handler = .idle)
    (hs' : s'.handler = .idle) :
    (∃ i, e = .clock i ∧ s' = s.clock i) ∨
      ((∀ i, e ≠ .clock i) ∧ ∃ a, a.foreign = true ∧ s' = s.put a) := by
  rcases step_cases h with ⟨i, he, hi⟩ | ⟨-, -, rfl⟩ | ⟨_, _, _, -, hread, -⟩ | ⟨-, hdone, -⟩ |
    ⟨_, _, -, hwriting, -⟩ | ⟨a, rfl, ha, rfl⟩
  · exact .inl ⟨i, he, hi⟩
  · cases hs'
  · rw [hs] at hread
    cases hread
  · rw [hs] at hdone
    cases hdone
  · rw [hs] at hwriting
    cases hwriting
  · exact .inr ⟨fun i heq => (by cases heq), a, ha, rfl⟩

/-- What the line holds at most: an access at stage `b`, those of `rest`, and foreign ones. -/
structure Under (b : Bus) (rest : List Access) (s : System) : Prop where
  bus : s.card.bus = b
  link : ∃ foreign, s.link = rest ++ foreign ∧ ∀ a ∈ foreign, a.foreign = true

namespace Under

variable {b : Bus} {rest : List Access} {s : System} {a : Access} {i : CardInput}

theorem put (h : Under b rest s) (ha : a.foreign = true) : Under b rest (s.put a) where
  bus := h.bus
  link := by
    obtain ⟨foreign, hlink, hforeign⟩ := h.link
    refine ⟨foreign ++ [a], ?_, forall_mem_concat hforeign ha⟩
    rw [System.put, hlink, List.append_assoc]

theorem clock (h : Under b rest s) (hbusy : b ≠ .resting) :
    Under (b.next none i.bus) rest (s.clock i) := by
  have hbus : (s.clock i).card.bus = s.card.bus.next s.link.head? i.bus := rfl
  have htake : s.card.bus.takes i.bus = false := by
    rw [h.bus]
    cases b with
    | resting => exact absurd rfl hbusy
    | _ => rfl
  refine ⟨?_, ?_⟩
  · rw [hbus, h.bus]
    cases b with
    | resting => exact absurd rfl hbusy
    | _ => rfl
  · rw [System.clock, htake]
    exact h.link

theorem take (h : Under .resting (a :: rest) s) (htake : i.bus.take = true) :
    Under (.begin a) rest (s.clock i) := by
  obtain ⟨foreign, hlink, hforeign⟩ := h.link
  have htakes : s.card.bus.takes i.bus = true := by
    rw [h.bus]
    exact htake
  refine ⟨?_, foreign, ?_, hforeign⟩
  · change s.card.bus.next s.link.head? i.bus = _
    rw [h.bus, hlink, Bus.next, if_pos htake]
    rfl
  · change (if s.card.bus.takes i.bus then s.link.tail else s.link) = _
    rw [htakes, hlink]
    rfl

theorem stay (h : Under .resting rest s) (htake : i.bus.take = false) :
    Under .resting rest (s.clock i) := by
  have htakes : s.card.bus.takes i.bus = false := by
    rw [h.bus]
    exact htake
  refine ⟨?_, ?_⟩
  · change s.card.bus.next s.link.head? i.bus = _
    rw [h.bus, Bus.next, htake]
    rfl
  · change ∃ foreign, (if s.card.bus.takes i.bus then s.link.tail else s.link) = _ ∧ _
    rw [htakes]
    exact h.link

end Under

section Drain

variable {ρ : Run step} {n : Nat}

/-- What only a cycle with `good` ends is ended by one. -/
theorem exists_cycle {P Q : System → Prop} {good : CardInput → Bool}
    (hidle : ∀ m, n ≤ m → (ρ.state m).handler = .idle)
    (hgood : ∀ m, ∃ k, m ≤ k ∧ ∃ i, ρ.event k = .clock i ∧ good i = true)
    (hput : ∀ s a, P s → a.foreign = true → P (s.put a))
    (hstay : ∀ s i, P s → good i = false → P (s.clock i))
    (hgo : ∀ s i, P s → good i = true → Q (s.clock i)) (hP : P (ρ.state n)) :
    ∃ m, n ≤ m ∧ Q (ρ.state m) := by
  have hwait (k : Nat) (hk : n ≤ k) (hp : P (ρ.state k))
      (hno : ¬ ∃ i, ρ.event k = .clock i ∧ good i = true) : P (ρ.state (k + 1)) := by
    rcases idle_cases (ρ.next k) (hidle k hk) (hidle (k + 1) (Nat.le_succ_of_le hk)) with
      ⟨i, hevent, hs⟩ | ⟨-, a, ha, hs⟩
    · rw [hs]
      exact hstay _ i hp (Bool.eq_false_iff.mpr fun hi => hno ⟨i, hevent, hi⟩)
    · rw [hs]
      exact hput _ a hp ha
  obtain ⟨t, hnt, hall, i, hevent, hi⟩ := exists_event hP hwait (hgood n)
  refine ⟨t + 1, Nat.le_succ_of_le hnt, ?_⟩
  have hnext := ρ.next t
  rw [hevent] at hnext
  rw [← Option.some.inj hnext]
  exact hgo _ i (hall t hnt (Nat.le_refl t)) hi

variable (hidle : ∀ m, n ≤ m → (ρ.state m).handler = .idle)
include hidle

/-- An access on the bus goes to its next stage. -/
theorem exists_stage {b b' : Bus} {rest : List Access} {good : CardInput → Bool}
    (hgood : ∀ m, ∃ k, m ≤ k ∧ ∃ i, ρ.event k = .clock i ∧ good i = true)
    (hbusy : b ≠ .resting) (hstay : ∀ i, good i = false → b.next none i.bus = b)
    (hgo : ∀ i, good i = true → b.next none i.bus = b') (h : Under b rest (ρ.state n)) :
    ∃ m, n ≤ m ∧ Under b' rest (ρ.state m) :=
  exists_cycle hidle hgood (fun _ _ hs ha => hs.put ha)
    (fun _ i hs hi => hstay i hi ▸ hs.clock hbusy) (fun _ i hs hi => hgo i hi ▸ hs.clock hbusy) h

variable (hfair : Fair ρ)
include hfair

/-- An access on the bus ends. -/
theorem exists_resting {b : Bus} {rest : List Access} (h : Under b rest (ρ.state n)) :
    ∃ m, n ≤ m ∧ Under .resting rest (ρ.state m) := by
  let every : CardInput → Bool := fun _ => true
  have hclocks (m : Nat) : ∃ k, m ≤ k ∧ ∃ i, ρ.event k = .clock i ∧ every i = true := by
    obtain ⟨k, hk, i, hevent, -⟩ := hfair.acks m
    exact ⟨k, hk, i, hevent, rfl⟩
  have hstage {b b' : Bus} {n' : Nat} (hn : n ≤ n') (hbusy : b ≠ .resting)
      (hgo : ∀ i, b.next none i = b') (hb : Under b rest (ρ.state n')) :
      ∃ m, n ≤ m ∧ Under b' rest (ρ.state m) := by
    obtain ⟨m, hm, hnext⟩ := exists_stage (fun m hm => hidle m (Nat.le_trans hn hm)) hclocks
      hbusy (fun _ hi => by cases hi) (fun i _ => hgo i.bus) hb
    exact ⟨m, Nat.le_trans hn hm, hnext⟩
  have hlast {target : Target} {value : Word} {n' : Nat} (hn : n ≤ n')
      (hb : Under (.memwrst4 target value) rest (ρ.state n')) :
      ∃ m, n ≤ m ∧ Under .resting rest (ρ.state m) :=
    hstage hn (fun heq => by cases heq) (fun _ => rfl) hb
  have hthird {target : Target} {value : Word} {n' : Nat} (hn : n ≤ n')
      (hb : Under (.memwrst3 target value) rest (ρ.state n')) :
      ∃ m, n ≤ m ∧ Under .resting rest (ρ.state m) := by
    have hgo (i : BusInput) : (Bus.memwrst3 target value).next none i = .memwrst4 target value :=
      rfl
    obtain ⟨m, hm, hnext⟩ := hstage hn (fun heq => by cases heq) hgo hb
    exact hlast hm hnext
  have hsecond {target : Target} {value : Word} {n' : Nat} (hn : n ≤ n')
      (hb : Under (.memwrst2 target value) rest (ρ.state n')) :
      ∃ m, n ≤ m ∧ Under .resting rest (ρ.state m) := by
    have hgo (i : BusInput) : (Bus.memwrst2 target value).next none i = .memwrst3 target value :=
      rfl
    obtain ⟨m, hm, hnext⟩ := hstage hn (fun heq => by cases heq) hgo hb
    exact hthird hm hnext
  cases b with
  | resting => exact ⟨n, Nat.le_refl n, h⟩
  | memwrst1 target value =>
      have hgo (i : BusInput) : (Bus.memwrst1 target value).next none i = .memwrst2 target value :=
        rfl
      obtain ⟨m, hm, hnext⟩ := hstage (Nat.le_refl n) (fun heq => by cases heq) hgo h
      exact hsecond hm hnext
  | memwrst2 target value => exact hsecond (Nat.le_refl n) h
  | memwrst3 target value => exact hthird (Nat.le_refl n) h
  | memwrst4 target value => exact hlast (Nat.le_refl n) h
  | memrd target =>
      refine exists_stage hidle hfair.answers (fun heq => by cases heq) (fun i hi => ?_)
        (fun i hi => ?_) h
      · rw [Bus.next, hi]
        rfl
      · rw [Bus.next, if_pos hi]

/-- The accesses that are on the link come to their end. -/
theorem exists_drained {rest : List Access} {n' : Nat} (hn : n ≤ n')
    (h : Under .resting rest (ρ.state n')) :
    ∃ m, n ≤ m ∧ Under .resting [] (ρ.state m) := by
  induction rest generalizing n' with
  | nil => exact ⟨n', hn, h⟩
  | cons a rest ih =>
      have hidle' (m : Nat) (hm : n' ≤ m) : (ρ.state m).handler = .idle :=
        hidle m (Nat.le_trans hn hm)
      obtain ⟨m, hm, hbegun⟩ := exists_cycle hidle' hfair.takes (fun _ _ hs ha => hs.put ha)
        (fun _ _ hs hi => hs.stay hi) (fun _ _ hs hi => hs.take hi) h
      obtain ⟨m', hm', hrest⟩ := exists_resting (n := m)
        (fun k hk => hidle' k (Nat.le_trans hm hk)) hfair hbegun
      exact ih (Nat.le_trans hn (Nat.le_trans hm hm')) hrest

end Drain

/-- Nothing on the line is for `INTCSR` or `PCTOCARD`. -/
def Clear (s : System) : Prop := ∀ a ∈ s.line, a.foreign = true

section Standing

variable {s : System}

theorem clear_of_under (h : Under .resting [] s) : Clear s := by
  obtain ⟨foreign, hlink, hforeign⟩ := h.link
  rw [Clear, System.line, h.bus, hlink]
  exact hforeign

theorem Clear.clock (h : Clear s) (i : CardInput) : Clear (s.clock i) := by
  intro a ha
  refine h a ?_
  rw [System.line_clock s i]
  exact List.mem_append_right _ ha

theorem Clear.put (h : Clear s) {a : Access} (ha : a.foreign = true) : Clear (s.put a) := by
  rw [Clear, line_put]
  exact forall_mem_concat h ha

theorem Clear.enabled (h : Clear s) (ha : Armed s) (hidle : s.handler = .idle) :
    s.card.enabled = true := by
  refine enabled_of_settled ha fun a hmem => Access.enables_of_foreign (h a ?_)
  rw [hidle] at hmem
  exact (List.mem_append.mp hmem).elim id fun hnil => absurd hnil List.not_mem_nil

theorem Clear.pending_clock (h : Clear s) (ha : Armed s) {i : CardInput}
    (hasks : s.card.extIntReq i = true) : (s.clock i).card.intreg.getLsbD 0 = true := by
  refine (Card.intreg_clock_of_foreign ha.tracks (fun a haccess => h a ?_) _ i).trans hasks
  rw [System.line, haccess]
  exact List.mem_cons_self

variable {ρ : Run step} {n : Nat} (hinit : ∃ tx q, ρ.state 0 = initial tx q) (hfair : Fair ρ)
  (hasking : Asking ρ n)
include hinit hfair hasking

/-- In the end the two bits of `INTCSR` stay up. -/
theorem exists_standing : ∃ m, n ≤ m ∧ ∀ k, m ≤ k →
    (ρ.state k).card.intreg.getLsbD 0 = true ∧ (ρ.state k).card.enabled = true := by
  obtain ⟨tx, q, hinit⟩ := hinit
  have harmed (k : Nat) : Armed (ρ.state k) :=
    armed_of_reachable ⟨tx, q, hinit ▸ ρ.reach k⟩
  have hunder : Under (ρ.state n).card.bus (ρ.state n).link (ρ.state n) :=
    ⟨rfl, [], (List.append_nil _).symm, by simp⟩
  obtain ⟨m, hm, hrest⟩ := exists_resting hasking.idle hfair hunder
  obtain ⟨c, hc, hdrained⟩ := exists_drained hasking.idle hfair hm hrest
  have hcases (k : Nat) (hk : c ≤ k) :
      (∃ i, ρ.event k = .clock i ∧ ρ.state (k + 1) = (ρ.state k).clock i) ∨
        ((∀ i, ρ.event k ≠ .clock i) ∧
          ∃ a, a.foreign = true ∧ ρ.state (k + 1) = (ρ.state k).put a) :=
    idle_cases (ρ.next k) (hasking.idle k (by omega)) (hasking.idle (k + 1) (by omega))
  have hclear (k : Nat) (hk : c ≤ k) : Clear (ρ.state k) := by
    induction k, hk using Nat.le_induction with
    | base => exact clear_of_under hdrained
    | succ k hk ih =>
        rcases hcases k hk with ⟨i, -, hs⟩ | ⟨-, a, ha, hs⟩
        · rw [hs]
          exact ih.clock i
        · rw [hs]
          exact ih.put ha
  have hpending (k : Nat) (hk : c ≤ k) {i : CardInput} (hevent : ρ.event k = .clock i)
      (hs : ρ.state (k + 1) = (ρ.state k).clock i) :
      (ρ.state (k + 1)).card.intreg.getLsbD 0 = true := by
    rw [hs]
    exact (hclear k hk).pending_clock (harmed k) (hasking.asks k i (by omega) hevent)
  obtain ⟨t, ht, i, hevent, -⟩ := hfair.acks c
  have hfirst : (ρ.state (t + 1)).card.intreg.getLsbD 0 = true := by
    have hnext := ρ.next t
    rw [hevent] at hnext
    exact hpending t ht hevent (Option.some.inj hnext).symm
  refine ⟨t + 1, by omega, fun k hk => ⟨?_, ?_⟩⟩
  · induction k, hk using Nat.le_induction with
    | base => exact hfirst
    | succ k hk ih =>
        rcases hcases k (by omega) with ⟨i, hevent, hs⟩ | ⟨-, a, -, hs⟩
        · exact hpending k (by omega) hevent hs
        · rw [hs]
          exact ih
  · exact (hclear k (by omega)).enabled (harmed k) (hasking.idle k (by omega))

end Standing

/-- The inputs of `txproc`, where the step is a cycle. -/
def txInput (ρ : Run step) (n : Nat) : TxInput :=
  match ρ.event n with
  | .clock i => (ρ.state n).card.txInput i
  | _ => .quiet

def Event.isClock : Event → Bool
  | .clock _ => true
  | _ => false

theorem card_step {s s' : System} {e : Event} (h : step s e = some s') (he : e.isClock = false) :
    s'.card = s.card := by
  rcases step_cases h with ⟨i, rfl, -⟩ | ⟨-, -, rfl⟩ | ⟨_, _, _, -, -, rfl⟩ | ⟨-, -, rfl⟩ |
    ⟨_, _, -, -, rfl⟩ | ⟨_, -, -, rfl⟩
  · cases he
  all_goals rfl

theorem ticking_tx {ρ : Run step} (hfair : Fair ρ) :
    Ticking txproc (fun n => (ρ.event n).isClock = true) (txInput ρ)
      (fun n => (ρ.state n).card.tx) where
  rests n he := congrArg Card.tx (card_step (ρ.next n) (Bool.eq_false_iff.mpr he))
  steps n he := by
    have hnext := ρ.next n
    cases hevent : ρ.event n with
    | clock i =>
        rw [hevent] at hnext
        rw [txInput, hevent, ← Option.some.inj hnext]
        rfl
    | _ =>
        rw [hevent] at he
        cases he
  recurs n := by
    obtain ⟨m, hm, i, hevent, -⟩ := hfair.acks n
    refine ⟨m, hm, ?_⟩
    rw [hevent]
    rfl

/-- Behind `probe`, with every input ready in every cycle. -/
def prompt : CardInput := { brisk with tx := { TxInput.quiet with appIntAck := true } }

def afterProbe : Run step where
  state n := Nat.iterate (·.clock prompt) n (initial .powerUp 0)
  event _ := .clock prompt
  next n := by rw [Function.iterate_succ_apply']; rfl

theorem calm_afterProbe (n : Nat) : Inv (afterProbe.state n) ∧
    (afterProbe.state n).handler = .idle ∧ (afterProbe.state n).outstanding.length ≤ 1 := by
  induction n with
  | zero => exact ⟨inv_initial .powerUp 0, rfl, Nat.le_refl 1⟩
  | succ n ih =>
      obtain ⟨hi, hidle, hlength⟩ := ih
      have hnext : afterProbe.state (n + 1) = (afterProbe.state n).clock prompt :=
        Function.iterate_succ_apply' _ _ _
      rw [hnext]
      refine ⟨inv_clock hi prompt, ?_, ?_⟩
      · rcases System.clock_cases hi.seen prompt with ⟨a, -, hline, hhandler, -⟩ | ⟨-, hhandler, -⟩
        · have horder := hi.order
          rw [hidle] at horder
          rw [hhandler, horder a (by rw [hline]; exact List.mem_cons_self), hidle]
          rfl
        · rw [hhandler, hidle]
      · have haccount := congrArg List.length (System.outstanding_clock hi prompt)
        rw [List.length_append] at haccount
        omega

end CncCard.Refill
