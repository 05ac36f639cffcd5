import CncCard.Driver.Delivery
import CncCard.Refill.Content

/-!
The calls of `cnc_write`, the handler, the link and the card in one system. The handler tests
the buffer of the driver and sends what it finds there; everything else the two sides do on
their own. The words that the motion side has read, those on their way and those in the
buffer are together those that were accepted, behind the 0 of `probe`.
-/

namespace CncCard.Refill
open Pcie Transition

/-- `fed` are the words that the motion side has read from `fifo33`. -/
structure Supply (ι : Type) where
  driver : Driver.State ι
  system : System
  fed : List Word

namespace Supply

inductive Event (ι : Type) where
  | call (e : Driver.Event ι)
  | card (e : Refill.Event)
  | test

variable {ι : Type} [DecidableEq ι]

/-- The interrupt of the write path and the test of the handler are one step. -/
def step (call : ι → Driver.WriteCall) (p : Supply ι) : Event ι → Option (Supply ι)
  | .call (.interrupt _) => none
  | .call e => (Driver.step call p.driver e).map fun d => { p with driver := d }
  | .card (.test _ _) => none
  | .card e => (Refill.step p.system e).map fun s => ⟨p.driver, s, p.fed ++ p.system.taken e⟩
  | .test =>
      match p.system.handler with
      | .read status =>
          let full := decide (p.driver.dev.currentBufNum = Driver.bufSize)
          (Refill.step p.system (.test full p.driver.dev.dataBuf)).map fun s =>
            ⟨Driver.cncInterrupt status p.driver, s, p.fed⟩
      | _ => none

def initial (tx : Txproc) (q : Word) : Supply ι := ⟨Driver.initial, Refill.initial tx q, []⟩

/-- The test does not fall between a call's load of the fill count and its store. -/
def Undisturbed (p : Supply ι) (e : Event ι) : Prop :=
  ∀ status, e = .test → p.system.handler = .read status →
    Driver.StoreUndisturbed p.driver (.interrupt status)

def Reachable (call : ι → Driver.WriteCall) (p : Supply ι) : Prop :=
  ∃ tx q, Reach (step call) Undisturbed (initial tx q) p

/-- The words in the buffer of the driver. -/
def buffered (p : Supply ι) : List Word :=
  Driver.words p.driver.dev.dataBuf 0 p.driver.dev.currentBufNum.toNat

variable {call : ι → Driver.WriteCall} {p p' : Supply ι} {e : Event ι}

theorem step_call {e : Driver.Event ι} (hcall : ∀ status, e ≠ .interrupt status) :
    step call p (.call e) = (Driver.step call p.driver e).map fun d => { p with driver := d } := by
  cases e with
  | interrupt status => exact absurd rfl (hcall status)
  | _ => rfl

theorem step_card {e : Refill.Event} (hcard : ∀ full dataBuf, e ≠ .test full dataBuf) :
    step call p (.card e) =
      (Refill.step p.system e).map fun s => ⟨p.driver, s, p.fed ++ p.system.taken e⟩ := by
  cases e with
  | test full dataBuf => exact absurd rfl (hcard full dataBuf)
  | _ => rfl

theorem step_cases (h : step call p e = some p') :
    (∃ e₁ d, e = .call e₁ ∧ (∀ status, e₁ ≠ .interrupt status) ∧
      Driver.step call p.driver e₁ = some d ∧ p' = { p with driver := d }) ∨
    (∃ e₁ s, e = .card e₁ ∧ (∀ full dataBuf, e₁ ≠ .test full dataBuf) ∧
      Refill.step p.system e₁ = some s ∧ p' = ⟨p.driver, s, p.fed ++ p.system.taken e₁⟩) ∨
    ∃ status s, e = .test ∧ p.system.handler = .read status ∧
      Refill.step p.system (.test (decide (p.driver.dev.currentBufNum = Driver.bufSize))
        p.driver.dev.dataBuf) = some s ∧
      p' = ⟨Driver.cncInterrupt status p.driver, s, p.fed⟩ := by
  cases e with
  | call e₁ =>
      have hcall : ∀ status, e₁ ≠ .interrupt status := by
        rintro status rfl
        cases h
      rw [step_call hcall] at h
      obtain ⟨d, hd, rfl⟩ := Option.map_eq_some_iff.mp h
      exact .inl ⟨e₁, d, rfl, hcall, hd, rfl⟩
  | card e₁ =>
      have hcard : ∀ full dataBuf, e₁ ≠ .test full dataBuf := by
        rintro full dataBuf rfl
        cases h
      rw [step_card hcard] at h
      obtain ⟨s, hs, rfl⟩ := Option.map_eq_some_iff.mp h
      exact .inr (.inl ⟨e₁, s, rfl, hcard, hs, rfl⟩)
  | test =>
      cases hhandler : p.system.handler with
      | read status =>
          simp only [step, hhandler] at h
          obtain ⟨s, hs, rfl⟩ := Option.map_eq_some_iff.mp h
          exact .inr (.inr ⟨status, s, rfl, rfl, hs, rfl⟩)
      | _ => simp [step, hhandler] at h

/-- A call sends nothing itself. -/
theorem sent_step {s s' : Driver.State ι} {e : Driver.Event ι}
    (h : Driver.step call s e = some s') (hcall : ∀ status, e ≠ .interrupt status) :
    s'.dev.sent = s.dev.sent := by
  rcases Driver.step_cases h with ⟨w, d', wr', -, hw, rfl⟩ | ⟨w, wr', -, rfl⟩ |
    ⟨w, part, d', wr', hw, rfl⟩ | ⟨w, rfl⟩ | ⟨status, rfl, -⟩
  · rcases Driver.writerStep_words hw with ⟨-, -, hsent, -⟩ | ⟨_, _, _, -, -, rfl⟩ |
      ⟨_, _, -, rfl⟩
    · exact hsent
    · rfl
    · rfl
  · rfl
  · obtain ⟨_, _, _, -, -, rfl, -⟩ := Driver.faultStep_cases hw
    rfl
  · rfl
  · exact absurd rfl (hcall status)

omit [DecidableEq ι] in
/-- The driver's log grows by what the handler is to send. -/
theorem sent_cncInterrupt (status : Word) (s : Driver.State ι) :
    (Driver.cncInterrupt status s).dev.sent = s.dev.sent ++
      ordered status (decide (s.dev.currentBufNum = Driver.bufSize)) s.dev.dataBuf := by
  unfold ordered
  rcases Driver.cncInterrupt_cases status s with
    ⟨hstatus, hfull, hnum, -, -, -, hsent, -⟩ | ⟨hnum, -, -, -, hsent, -⟩
  · rw [hsent, if_pos ⟨hstatus, decide_eq_true hfull⟩]
  · split
    · next hsends =>
        have hdrained : (Driver.cncInterrupt status s).dev.currentBufNum = 0 := by
          simp [Driver.cncInterrupt, Driver.dataSend, Driver.iowrite32, hsends.1,
            of_decide_eq_true hsends.2]
        rw [hdrained, of_decide_eq_true hsends.2] at hnum
        cases hnum
    · rw [hsent, List.append_nil]

/-- What holds in every reachable state: the parts are in states of their own runs, and the
card's account is the log of the driver. -/
structure Coupled (call : ι → Driver.WriteCall) (p : Supply ι) : Prop where
  driver : Driver.Reachable call Driver.StoreUndisturbed p.driver
  system : Refill.Inv p.system
  account : p.fed ++ p.system.outstanding = 0 :: p.driver.dev.sent

theorem coupled_initial (tx : Txproc) (q : Word) : Coupled call (initial tx q) where
  driver := Reach.refl
  system := inv_initial tx q
  account := rfl

theorem coupled_step (hc : Coupled call p) (hguard : Undisturbed p e)
    (h : step call p e = some p') : Coupled call p' := by
  rcases step_cases h with ⟨e₁, d, -, hcall, hd, rfl⟩ | ⟨e₁, s, -, htest, hs, rfl⟩ |
    ⟨status, s, rfl, hread, hs, rfl⟩
  · refine ⟨hc.driver.event (fun hdrain => absurd hdrain.1 (hcall _)) hd, hc.system, ?_⟩
    rw [sent_step hd hcall]
    exact hc.account
  · refine ⟨hc.driver, inv_step hc.system hs, ?_⟩
    have haccount := System.outstanding_step hc.system hs
    have hsends : p.system.sends e₁ = [] := by
      cases e₁ with
      | test full dataBuf => exact absurd rfl (htest full dataBuf)
      | _ => rfl
    rw [hsends, List.append_nil] at haccount
    change (p.fed ++ p.system.taken e₁) ++ s.outstanding = _
    rw [List.append_assoc, haccount]
    exact hc.account
  · refine ⟨hc.driver.event (hguard status rfl hread) rfl, inv_step hc.system hs, ?_⟩
    have haccount := System.outstanding_step hc.system hs
    simp only [System.taken, System.sends, hread, List.nil_append] at haccount
    change p.fed ++ s.outstanding = 0 :: (Driver.cncInterrupt status p.driver).dev.sent
    rw [haccount, sent_cncInterrupt, ← List.append_assoc, hc.account, List.cons_append]

theorem coupled_of_reachable (h : Reachable call p) : Coupled call p := by
  obtain ⟨tx, q, hreach⟩ := h
  exact hreach.invariant (P := Coupled call) (coupled_initial tx q)
    fun _ _ _ hc hguard hstep => coupled_step hc hguard hstep

/-- The motion side has read the 0 of `probe` and then what was accepted, in order and each
word once; the rest is on its way, and it is never more than what `fifo33` and the buffer of
the driver hold. -/
structure Delivers (p : Supply ι) : Prop where
  inOrder : p.fed ++ (p.system.outstanding ++ p.buffered) = 0 :: p.driver.dev.accepted
  ahead : p.driver.dev.accepted.length < p.fed.length + 2199

theorem inOrder_of_reachable (h : Reachable call p) :
    p.fed ++ (p.system.outstanding ++ p.buffered) = 0 :: p.driver.dev.accepted := by
  have hc := coupled_of_reachable h
  rw [← List.append_assoc, hc.account, List.cons_append]
  exact congrArg (List.cons 0) (Driver.reachable_delivering hc.driver).conserved

/-- Calls go on while nothing else moves. -/
theorem reach_calls {guard : Supply ι → Event ι → Prop} (hguard : ∀ p e, guard p (.call e))
    {d d' : Driver.State ι} (s : System) (fed : List Word)
    (h : Reach (Driver.step call) (fun _ e => ∀ status, e ≠ .interrupt status) d d') :
    Reach (step call) guard ⟨d, s, fed⟩ ⟨d', s, fed⟩ := by
  induction h with
  | refl => exact Reach.refl
  | tail _ hstep ih =>
      obtain ⟨e, hcall, hd⟩ := hstep
      refine ih.event (hguard _ e) ?_
      rw [step_call hcall, hd]
      rfl

/-- So does the handler. -/
theorem reach_posts {guard : Supply ι → Event ι → Prop} (hguard : ∀ p, guard p (.card .post))
    (d : Driver.State ι) (fed : List Word) {s s' : System}
    (h : Reach Refill.step (fun _ e => e = .post) s s') :
    Reach (step call) guard ⟨d, s, fed⟩ ⟨d, s', fed⟩ := by
  induction h with
  | refl => exact Reach.refl
  | tail _ hstep ih =>
      obtain ⟨e, rfl, hs⟩ := hstep
      refine ih.event (hguard _) ?_
      rw [step_card (fun _ _ heq => by cases heq), hs]
      change some (⟨d, _, fed ++ []⟩ : Supply ι) = _
      rw [List.append_nil]

theorem reach_clocks (d : Driver.State ι) (s : System) (fed : List Word) (n : Nat) {i : CardInput}
    (hquiet : i.rdreq = false) : Reach (step call) Undisturbed ⟨d, s, fed⟩
      ⟨d, Nat.iterate (·.clock i) n s, fed⟩ := by
  induction n generalizing s with
  | zero => exact Reach.refl
  | succ n ih =>
      refine Reach.trans (Reach.refl.event (e := .card (.clock i)) ?_ ?_) (ih (s.clock i))
      · exact fun _ heq => by cases heq
      · have htaken : s.taken (.clock i) = [] := by
          rw [System.taken, Clocked.Fifo.taken, hquiet]
          rfl
        change some (⟨d, s.clock i, fed ++ s.taken (.clock i)⟩ : Supply ι) = _
        rw [htaken, List.append_nil]

end Supply

end CncCard.Refill
