import CncCard.Clocked.Ticks
import CncCard.Program.Machine

/-!
What the machine does with a program, over whole runs: the word in place on the motion side is
always one that `cnc_write` has accepted, they come in order and each once, and while `valid`
is up the pins follow them, exactly where the windows do not slide too far.
-/

namespace CncCard

/-- Nothing is pressed, closed or written. -/
def DriveInput.quiet : DriveInput where
  start := false
  stop := false
  s _ := false
  zStop := false
  pos _ := false
  neg _ := false
  hwValid := false
  keyZero := false
  dirHw _ := false
  pulsHw _ := false
  dirZero _ := false
  pulsZero _ := false
  fifo33Write := none
  fifo31Write := none

namespace Machine
open Clocked Pcie Transition Refill MotionPath

variable {ι : Type} [DecidableEq ι] {call : ι → Driver.WriteCall}

section Cycles

variable (ρ : Run (step call))

/-- What the motion side reads in a step, if the step is an edge. -/
def inputAt (n : Nat) : DriveInput :=
  match ρ.event n with
  | .edge i => (ρ.state n).driveInput i
  | .host _ => .quiet

def isEdgeAt (n : Nat) : Prop := (ρ.event n).isEdge = true

instance : DecidablePred (isEdgeAt ρ) := fun n => instDecidableEqBool (ρ.event n).isEdge true

/-- The machine at clock edge number `k`. -/
noncomputable def cycle (k : Nat) : Machine ι := ρ.state (Nat.nth (isEdgeAt ρ) k)

noncomputable def cycleInput (k : Nat) : DriveInput := inputAt ρ (Nat.nth (isEdgeAt ρ) k)

noncomputable def path (k : Nat) : MotionPath := (cycle ρ k).drive.path

noncomputable def pathInput (k : Nat) : MotionInput :=
  (cycle ρ k).drive.motionInput (cycleInput ρ k)

/-- The words that the motion side has read before cycle `k`. -/
noncomputable def fed (k : Nat) : List Command := (cycle ρ k).supply.fed

/-- The words of the program: what has been accepted before cycle `k`, behind the 0 of
`probe`. -/
noncomputable def program (k : Nat) : List Command := 0 :: (cycle ρ k).supply.driver.dev.accepted

/-- How the machine executes its program. -/
structure Executes : Prop where
  inOrder : ∀ k, fed ρ k <+: program ρ k
  inPlace : ∀ k, (path ρ k).fifo33.q = (fed ρ k).getLastD (path ρ 0).fifo33.q
  performs : ∀ a n, Stretch (pathInput ρ) a n → (path ρ (a + 1)).fifo31.words ≠ [] →
    Performs (fun t => path ρ (a + 1 + t)) (fun t => pathInput ρ (a + 1 + t))
      ((program ρ (a + 1 + n)).drop (fed ρ (a + 1)).length) n

end Cycles

section Executed

variable {ρ : Run (step call)} (hinit : (ρ.state 0).Initial)
  (hguard : ∀ n, (ρ.state n).Undisturbed (ρ.event n)) (hedges : ∀ n, ∃ m, n ≤ m ∧ isEdgeAt ρ m)

include hinit hguard in
theorem joined_of_run (n : Nat) : Joined call (ρ.state n) := by
  induction n with
  | zero => exact joined_initial hinit
  | succ n ih => exact ih.step (hguard n) (ρ.next n)

include hinit hguard hedges

/-- The motion side and the log of what it reads move at the edges only. -/
theorem ticking : Ticking (fun s i => (s.1.clock i, s.2 ++ s.1.path.pop)) (isEdgeAt ρ)
    (inputAt ρ) (fun n => ((ρ.state n).drive, (ρ.state n).supply.fed)) where
  rests n hn := by
    rcases step_cases (ρ.next n) with ⟨i, hevent, -⟩ | ⟨e, p, -, hclock, hp, hnext⟩
    · exact absurd (by rw [isEdgeAt, hevent]; rfl) hn
    · rw [hnext]
      exact congrArg (Prod.mk _) (host_frame hp hclock).2
  steps n hn := by
    rcases step_cases (ρ.next n) with ⟨i, hevent, hnext⟩ | ⟨e, p, hevent, -⟩
    · rw [hnext, inputAt, hevent, (joined_of_run hinit hguard n).fed_clock i]
      rfl
    · rw [isEdgeAt, hevent] at hn
      cases hn
  recurs := hedges

theorem cycle_succ (k : Nat) :
    (cycle ρ (k + 1)).drive = (cycle ρ k).drive.clock (cycleInput ρ k) ∧
      fed ρ (k + 1) = fed ρ k ++ (path ρ k).pop := by
  have hticking := ticking hinit hguard hedges
  have hnext := hticking.trace_eq (k + 1)
  rw [trace_succ, hticking.trace_eq k] at hnext
  exact ⟨(congrArg Prod.fst hnext).symm, (congrArg Prod.snd hnext).symm⟩

theorem path_succ (k : Nat) : path ρ (k + 1) = (path ρ k).clock (pathInput ρ k) :=
  congrArg Drive.path (cycle_succ hinit hguard hedges k).1

theorem fed_zero : fed ρ 0 = [] := by
  have hfirst := congrArg Prod.snd ((ticking hinit hguard hedges).trace_eq 0)
  obtain ⟨tx, q, hsupply, -⟩ := hinit
  change (ρ.state 0).supply.fed = fed ρ 0 at hfirst
  rw [← hfirst, hsupply]
  rfl

omit hedges in
theorem fed_prefix (k : Nat) : fed ρ k <+: program ρ k := by
  exact ⟨_, Supply.inOrder_of_reachable (joined_of_run hinit hguard _).supply⟩

theorem q_eq (k : Nat) : (path ρ k).fifo33.q = (fed ρ k).getLastD (path ρ 0).fifo33.q := by
  induction k with
  | zero =>
      rw [fed_zero hinit hguard hedges]
      rfl
  | succ k ih =>
      rw [path_succ hinit hguard hedges, (cycle_succ hinit hguard hedges k).2]
      simp only [MotionPath.clock, RegFifo.clock_q, ih, pop]
      cases Fifo.taken _ _ with
      | nil => simp
      | cons w ws => simp [List.getLastD_eq_getLast?]

end Executed

/-- The start button is held and `fifo31` is being filled. -/
def pressed : MachineInput :=
  ⟨brisk.bus, brisk.tx, { DriveInput.quiet with start := true, fifo31Write := some 0 }⟩

/-- Nothing else happens at the edges. -/
def OnlyPressed (m : Machine ι) (e : Event ι) : Prop :=
  m.Undisturbed e ∧ ∀ i, e = .edge i → i = pressed

section Pressed

variable {ρ : Run (step call)} (hinit : (ρ.state 0).Initial)
  (hdrive : (ρ.state 0).drive = Drive.start ⟨.empty, 0⟩ ⟨.empty, 0⟩)
  (hpressed : ∀ n, OnlyPressed (ρ.state n) (ρ.event n)) (hedges : ∀ n, ∃ m, n ≤ m ∧ isEdgeAt ρ m)

include hinit hpressed hedges

theorem cycleInput_pressed (k : Nat) : cycleInput ρ k = (cycle ρ k).driveInput pressed := by
  have hguard (n : Nat) : (ρ.state n).Undisturbed (ρ.event n) := (hpressed n).1
  have hedge : isEdgeAt ρ (Nat.nth (isEdgeAt ρ) k) :=
    Nat.nth_mem_of_infinite (ticking hinit hguard hedges).infinite k
  rw [cycleInput, inputAt, cycle]
  cases hevent : ρ.event (Nat.nth (isEdgeAt ρ) k) with
  | edge i => rw [(hpressed _).2 i hevent]
  | host e =>
      rw [isEdgeAt, hevent] at hedge
      cases hedge

include hdrive

theorem drive_cycle (k : Nat) :
    (cycle ρ k).drive = Drive.run ⟨.empty, 0⟩ ⟨.empty, 0⟩ (cycleInput ρ) k := by
  have hguard (n : Nat) : (ρ.state n).Undisturbed (ρ.event n) := (hpressed n).1
  induction k with
  | zero =>
      have hfirst := congrArg Prod.fst ((ticking hinit hguard hedges).trace_eq 0)
      exact hfirst.symm.trans hdrive
  | succ k ih => rw [(cycle_succ hinit hguard hedges k).1, ih, Drive.run, trace_succ]

theorem valid_pressed (k : Nat) : (pathInput ρ k).valid = true ↔ 126 < k := by
  have hpath : (pathInput ρ k).valid = (cycle ρ k).drive.check.valid := rfl
  have hinput := cycleInput_pressed hinit hpressed hedges
  rw [hpath, drive_cycle hinit hdrive hpressed hedges]
  cases k with
  | zero => exact ⟨fun h => (by cases h), fun h => absurd h (Nat.not_lt_zero _)⟩
  | succ k =>
      rw [Drive.run_valid]
      constructor
      · exact fun h => Nat.lt_succ_of_le h.start.1
      · intro hk
        have hlow (x : DriveInput → Bool) (hx : ∀ t, x (cycleInput ρ t) = false) :
            ¬ Held (fun t => x (cycleInput ρ t)) 126 k := by
          intro hheld
          exact Bool.false_ne_true ((hx (k - 1)).symm.trans (hheld.2 _ (by omega) (by omega)))
        exact ⟨⟨Nat.le_of_lt_succ hk, fun t _ _ => congrArg (·.start) (hinput t)⟩,
          hlow (·.stop) fun t => congrArg (·.stop) (hinput t),
          fun n => hlow (·.s n) fun t => congrArg (·.s n) (hinput t),
          hlow (·.zStop) fun t => congrArg (·.zStop) (hinput t)⟩

theorem stretch_pressed (n : Nat) : Stretch (pathInput ρ) 126 n := by
  have hvalid := valid_pressed hinit hdrive hpressed hedges
  refine ⟨?_, fun k _ => (hvalid _).mpr (by omega)⟩
  exact Bool.eq_false_iff.mpr fun h => Nat.lt_irrefl _ ((hvalid 126).mp h)

theorem filled_pressed (k : Nat) : (path ρ (k + 1)).fifo31.words ≠ [] := by
  have hguard (n : Nat) : (ρ.state n).Undisturbed (ρ.event n) := (hpressed n).1
  induction k with
  | zero =>
      have hempty : (path ρ 0).fifo31 = ⟨.empty, 0⟩ := by
        rw [path, drive_cycle hinit hdrive hpressed hedges]
        rfl
      have hwrite : (pathInput ρ 0).fifo31Write = some 0 := by
        rw [pathInput, cycleInput_pressed hinit hpressed hedges]
        rfl
      rw [path_succ hinit hguard hedges]
      change ((path ρ 0).fifo31.clock (pathInput ρ 0).fifo31Write false).words ≠ []
      rw [hempty, hwrite]
      decide
  | succ k ih =>
      rw [path_succ hinit hguard hedges]
      exact fifo31_ne_nil ih _

end Pressed

/-- The edges go on, and the host rests. -/
def onward (call : Fin 1 → Driver.WriteCall) (m : Machine (Fin 1)) : Run (step call) where
  state n := Nat.iterate (·.clock pressed) n m
  event _ := .edge pressed
  next n := by rw [Function.iterate_succ_apply']; rfl

def begun : Machine (Fin 1) :=
  ⟨Supply.initial .powerUp 0, Drive.start ⟨.empty, 0⟩ ⟨.empty, 0⟩⟩

def asking (m : Machine (Fin 1)) : Machine (Fin 1) :=
  { m with
    supply :=
      { m.supply with
        system := { m.supply.system.put (ioread32 Driver.intcsr) with handler := .reading } } }

/-- The handler asks behind the cycle in which `valid` comes up, and is answered. -/
def answered (m : Machine (Fin 1)) : Machine (Fin 1) :=
  Nat.iterate (·.clock pressed) 2 (asking (Nat.iterate (·.clock pressed) 132 m))

theorem answered_withDriver (m : Machine (Fin 1)) (d : Driver.State (Fin 1)) :
    answered (m.withDriver d) = (answered m).withDriver d := by
  have hasking (m : Machine (Fin 1)) : asking (m.withDriver d) = (asking m).withDriver d := rfl
  rw [answered, iterate_withDriver, hasking, iterate_withDriver]
  rfl

theorem handler_waited :
    (Nat.iterate (·.clock pressed) 132 begun).supply.system.handler = .idle := by
  decide +kernel

theorem handler_answered : (answered begun).supply.system.handler = .read 0x00000003 := by
  decide +kernel

section Filled

variable {call : Fin 1 → Driver.WriteCall} {d : Driver.State (Fin 1)}

theorem onlyPressed_host (m : Machine (Fin 1)) (e : Supply.Event (Fin 1))
    (h : Between m.supply e) : OnlyPressed m (.host e) := by
  refine ⟨fun _ heq => ?_, fun _ heq => ?_⟩
  · cases heq
    exact h.1
  · cases heq

theorem onlyPressed_edge (m : Machine (Fin 1)) : OnlyPressed m (.edge pressed) := by
  refine ⟨fun _ heq => ?_, fun _ heq => ?_⟩
  · cases heq
  · cases heq
    rfl

theorem between_call (p : Supply (Fin 1)) (e : Driver.Event (Fin 1)) : Between p (.call e) := by
  refine ⟨fun _ heq => ?_, fun _ heq => ?_⟩ <;> cases heq

theorem between_card {p : Supply (Fin 1)} {e : Refill.Event} (h : ∀ i, e ≠ .clock i) :
    Between p (.card e) := by
  refine ⟨fun _ heq => ?_, fun i heq => h i ?_⟩
  · cases heq
  · exact Supply.Event.card.inj heq

theorem step_enter {m : Machine (Fin 1)} (hidle : m.supply.system.handler = .idle) :
    step call m (.host (.card .enter)) = some (asking m) := by
  refine step_host (fun _ heq => (by cases heq)) ?_
  rw [Supply.step_card (fun _ _ heq => (by cases heq))]
  simp only [Refill.step, hidle, Option.map_some, System.taken, List.append_nil]

theorem reach_answered :
    Reach (step call) OnlyPressed (begun.withDriver d) ((answered begun).withDriver d) := by
  have hwaited : Reach (step call) OnlyPressed (begun.withDriver d)
      (Nat.iterate (·.clock pressed) 132 (begun.withDriver d)) :=
    reach_edges onlyPressed_edge _ 132
  have hidle : (Nat.iterate (·.clock pressed) 132 (begun.withDriver d)).supply.system.handler =
      .idle := by
    rw [iterate_withDriver]
    exact handler_waited
  have hasked := hwaited.event
    (onlyPressed_host _ _ (between_card fun _ heq => (by cases heq))) (step_enter hidle)
  rw [← answered_withDriver]
  exact hasked.trans (reach_edges onlyPressed_edge _ 2)

/-- The handler finds the buffer full and posts all of it. -/
theorem reach_sent {m : Machine (Fin 1)}
    (hread : m.supply.system.handler = .read 0x00000003)
    (hfull : m.supply.driver.dev.currentBufNum = Driver.bufSize)
    (hguard : Driver.StoreUndisturbed m.supply.driver (.interrupt 0x00000003)) :
    ∃ m' : Machine (Fin 1), Reach (step call) OnlyPressed m m' ∧
      m'.supply.driver = Driver.cncInterrupt 0x00000003 m.supply.driver := by
  obtain ⟨⟨d, s, fed⟩, drive⟩ := m
  change s.handler = _ at hread
  change d.dev.currentBufNum = _ at hfull
  have htest : Supply.step call ⟨d, s, fed⟩ .test =
      some ⟨Driver.cncInterrupt 0x00000003 d,
        { s with handler := .writing (cncInterrupt 0x00000003 true d.dev.dataBuf) }, fed⟩ := by
    simp only [Supply.step, Refill.step, hread, hfull, decide_true, Option.map_some]
  have hbetween : Between (⟨d, s, fed⟩ : Supply (Fin 1)) .test := by
    refine ⟨fun status _ hstatus => ?_, fun _ heq => (by cases heq)⟩
    rw [hread] at hstatus
    cases hstatus
    exact hguard
  have htested : Reach (Supply.step call) Between ⟨d, s, fed⟩ _ := Reach.refl.event hbetween htest
  have hposted := htested.trans (Supply.reach_posts
    (fun p => between_card fun _ heq => (by cases heq)) _ fed (reach_posted rfl))
  exact ⟨_, reach_host onlyPressed_host drive hposted, rfl⟩

end Filled

/-- A call fills the buffer of the driver, and the handler sends all of it. -/
theorem exists_filled : ∃ m : Machine (Fin 1),
    Reach (step fun _ => Driver.block) OnlyPressed begun m ∧
      m.supply.driver.dev.accepted = (List.range 1000).map Driver.block.data ∧
      m.supply.driver.dev.currentBufNum = 0 := by
  have hwrite (s : Driver.State (Fin 1)) (w : Fin 1) (_ : (s.writers w).pc ≠ .loadClamp)
      (status : Word) : Driver.Event.write w ≠ .interrupt status := nofun
  obtain ⟨d, hd, -, hnum, -, hacc, hdone, -⟩ :=
    @Driver.reach_accept _ _ (fun _ => Driver.block) (fun _ e => ∀ status, e ≠ .interrupt status)
      Driver.initial hwrite 0 rfl rfl (by decide) (by decide)
  have hfull : d.dev.currentBufNum = Driver.bufSize := hnum
  have hguard : Driver.StoreUndisturbed d (.interrupt 0x00000003) := by
    intro _ w count num hpc
    obtain rfl : w = 0 := Subsingleton.elim _ _
    rw [hpc] at hdone
    cases hdone
  have hcalls : Reach (step fun _ : Fin 1 => Driver.block) OnlyPressed begun
      (begun.withDriver d) :=
    reach_host onlyPressed_host _ (Supply.reach_calls between_call _ _ hd)
  obtain ⟨m, hm, hsent⟩ :=
    reach_sent (m := (answered begun).withDriver d) handler_answered hfull hguard
  obtain ⟨hdrained, -, hkept, -, -⟩ := Driver.cncInterrupt_full hfull
  replace hsent : m.supply.driver = Driver.cncInterrupt 0x00000003 d := hsent
  refine ⟨m, hcalls.trans (reach_answered.trans hm), ?_, ?_⟩
  · rw [hsent, hkept, hacc]
    exact List.nil_append _
  · rw [hsent, hdrained]

end Machine

end CncCard
