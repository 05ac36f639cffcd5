import CncCard.Driver.Delivery

/-!
Sleeping and returning. A call that sleeps does so on a full buffer, unless an
interrupt has drained it between the full test and the marking of the task. A call
that wakes up does not test again, so it may compute its room on a buffer that
another call has filled in the meantime.
-/

namespace CncCard.Driver
open Transition

/-- The program points between the marking of the task and the return from `schedule`. -/
def Pc.marked : Pc → Bool
  | .unlockSleep | .schedule | .asleep => true
  | _ => false

/-- The program points between `add_wait_queue` and the return from `schedule`. -/
def Pc.queued : Pc → Bool
  | .testFull | .setState => true
  | pc => pc.marked

/-- A task marked as sleeping that no wake-up has reached, or about to be marked. -/
def Writer.unwoken (wr : Writer) : Bool :=
  wr.pc = .setState || wr.pc.marked && wr.interruptible

variable {ι : Type} {c : WriteCall} {w : ι} {d d' : Dev ι} {wr wr' : Writer}

theorem queued_of_unwoken (h : wr.unwoken = true) : wr.pc.queued = true := by
  obtain ⟨pc, interruptible, waiting, signal⟩ := wr
  cases pc <;> first | rfl | cases h

/-- A call gets to sleep only through its own full test. -/
theorem writerStep_unwoken (h : writerStep c w d wr = some (d', wr'))
    (hu : wr'.unwoken = true) :
    d'.currentBufNum = d.currentBufNum ∧ (wr.unwoken = true ∨ d.currentBufNum = bufSize) := by
  obtain ⟨pc, interruptible, waiting, signal⟩ := wr
  cases pc with
  | testFull =>
      simp only [writerStep] at h
      split at h
      · next hfull =>
          cases h
          exact ⟨rfl, .inr hfull⟩
      · cases h
        cases hu
  | setState =>
      cases h
      exact ⟨rfl, .inl rfl⟩
  | unlockSleep =>
      cases h
      exact ⟨rfl, .inl hu⟩
  | schedule =>
      simp only [writerStep] at h
      split at h
      · cases h
        exact ⟨rfl, .inl hu⟩
      · cases h
        cases hu
  | asleep =>
      simp only [writerStep] at h
      split at h
      · cases h
      · cases h
        cases hu
  | entry | relock =>
      simp only [writerStep] at h
      split at h <;> cases h
      cases hu
  | copy count dst i =>
      cases h
      simp only [copyStep, Writer.goto] at hu
      split at hu
      · cases hu
      · split at hu <;> cases hu
  | loadCmp =>
      cases h
      simp only [Writer.goto] at hu
      split at hu <;> cases hu
  | checkSignal =>
      cases h
      cases signal <;> cases hu
  | done => cases h
  | _ =>
      cases h
      cases hu

theorem writerStep_queued (h : writerStep c w d wr = some (d', wr'))
    (hwait : wr.pc.queued = true → wr.waiting = true) :
    wr'.pc.queued = true → wr'.waiting = true := by
  intro hq
  obtain ⟨pc, interruptible, waiting, signal⟩ := wr
  cases pc with
  | addWait =>
      cases h
      rfl
  | testFull =>
      simp only [writerStep] at h
      split at h <;> cases h <;> exact hwait rfl
  | setState | unlockSleep =>
      cases h
      exact hwait rfl
  | schedule =>
      simp only [writerStep] at h
      split at h <;> cases h
      · exact hwait rfl
      · cases hq
  | asleep =>
      simp only [writerStep] at h
      split at h <;> cases h
      cases hq
  | entry | relock =>
      simp only [writerStep] at h
      split at h <;> cases h
      cases hq
  | copy count dst i =>
      cases h
      simp only [copyStep, Writer.goto] at hq
      split at hq
      · cases hq
      · split at hq <;> cases hq
  | loadCmp =>
      cases h
      simp only [Writer.goto] at hq
      split at hq <;> cases hq
  | checkSignal =>
      cases h
      cases signal <;> cases hq
  | done => cases h
  | _ =>
      cases h
      cases hq

section Runs

variable [DecidableEq ι] {call : ι → WriteCall} {s s' : State ι} {e : Event ι}

/-- No call is between its full test and the marking of its task when an interrupt
drains the buffer. -/
def MarkUndisturbed (s : State ι) (e : Event ι) : Prop :=
  Drains s e → ∀ w, (s.writers w).pc ≠ .setState

structure Watched (s : State ι) : Prop where
  waits : ∀ w, (s.writers w).pc.queued = true → (s.writers w).waiting = true
  full : ∀ w, (s.writers w).unwoken = true → s.dev.currentBufNum = bufSize

omit [DecidableEq ι] in
/-- While some call sleeps on a full buffer, no store of another changes the count. -/
theorem full_of_writerStep (hi : Inv call s) {w : ι}
    (h : writerStep (call w) w s.dev (s.writers w) = some (d', wr'))
    (hfull : s.dev.currentBufNum = bufSize) : d'.currentBufNum = bufSize := by
  rcases writerStep_words h with ⟨hnum, -⟩ | ⟨_, _, _, -, -, rfl⟩ | ⟨count, num, hpc, rfl⟩
  · rw [hnum, hfull]
  · exact hfull
  · have hlocal := hi.at_pc w
    rw [hpc] at hlocal
    obtain ⟨hpos, -, hroom, hload, -⟩ := hlocal
    have hsize : (bufSize : Int) = 1000 := rfl
    change num + count = bufSize
    omega

theorem Watched.put (hs : Watched s) {w : ι} {d' : Dev ι} {wr' : Writer}
    (hwaits : wr'.pc.queued = true → wr'.waiting = true)
    (hself : wr'.unwoken = true → d'.currentBufNum = bufSize)
    (hkeep : s.dev.currentBufNum = bufSize → d'.currentBufNum = bufSize) :
    Watched (s.put w (d', wr')) := by
  refine ⟨?_, ?_⟩
  · exact State.forall_put (P := fun _ wr => wr.pc.queued = true → wr.waiting = true) hwaits
      fun w' _ => hs.waits w'
  · exact State.forall_put (P := fun _ wr => wr.unwoken = true → d'.currentBufNum = bufSize)
      hself fun w' _ hu => hkeep (hs.full w' hu)

theorem watched_step (hi : Inv call s) (hs : Watched s) (hguard : MarkUndisturbed s e)
    (h : step call s e = some s') : Watched s' := by
  rcases step_cases h with ⟨w, d', wr', -, hw, rfl⟩ | ⟨w, wr', hw, rfl⟩ |
    ⟨w, part, d', wr', hw, rfl⟩ | ⟨w, rfl⟩ | ⟨status, rfl, rfl⟩
  · refine hs.put (writerStep_queued hw (hs.waits w)) ?_ (full_of_writerStep hi hw)
    intro hu
    obtain ⟨hnum, hu | hfull⟩ := writerStep_unwoken hw hu
    · rw [hnum]
      exact hs.full w hu
    · rw [hnum, hfull]
  · rcases giveUp_cases hw with rfl | rfl
    · exact hs.put (fun hq => by cases hq) (fun hu => by cases hu) id
    · exact hs.put (fun hq => by cases hq) (fun hu => by cases hu) id
  · obtain ⟨count, dst, i, -, -, rfl, rfl⟩ := faultStep_cases hw
    exact hs.put (fun hq => by cases hq) (fun hu => by cases hu) id
  · exact hs.put (hs.waits w) (hs.full w) id
  · rcases cncInterrupt_cases status s with
      ⟨rfl, hfull, -, -, -, -, -, hw⟩ | ⟨hnum, -, -, -, -, hw⟩
    · refine ⟨?_, ?_⟩
      · intro w hq
        rw [hw] at hq ⊢
        exact hs.waits w hq
      · intro w hu
        rw [hw] at hu
        have hmarked := hguard ⟨rfl, hfull⟩ w
        have hqueued := queued_of_unwoken hu
        have hwaits := hs.waits w hqueued
        simp only [Writer.unwoken, Writer.wake, hwaits, hmarked] at hu
        simp at hu
    · refine ⟨?_, ?_⟩
      · intro w hq
        rw [hw] at hq ⊢
        exact hs.waits w hq
      · intro w hu
        rw [hw] at hu
        rw [hnum]
        exact hs.full w hu

theorem reachable_watched (h : Reachable call MarkUndisturbed s) : Watched s := by
  have hboth : Inv call s ∧ Watched s := by
    refine h.invariant (P := fun s => Inv call s ∧ Watched s)
      ⟨inv_initial, ⟨fun _ hq => Bool.noConfusion hq, fun _ hu => Bool.noConfusion hu⟩⟩ ?_
    intro s e s' ⟨hi, hs⟩ hguard hstep
    exact ⟨inv_step hi hstep, watched_step hi hs hguard hstep⟩
  exact hboth.2

/-- In every run whose interrupts spare the marking of tasks, a call that sleeps
without a wake-up sleeps on a full buffer. -/
theorem asleep_full (call : ι → WriteCall) (s : State ι) (h : Reachable call MarkUndisturbed s)
    (w : ι) (hpc : (s.writers w).pc = .asleep) (hunwoken : (s.writers w).interruptible = true) :
    s.dev.currentBufNum = bufSize :=
  (reachable_watched h).full w (by simp [Writer.unwoken, hpc, hunwoken, Pc.marked])

end Runs

theorem markUndisturbed_write [DecidableEq ι] (s : State ι) (w : ι)
    (_ : (s.writers w).pc ≠ .loadClamp) : MarkUndisturbed s (.write w) :=
  fun h => by cases h.1

theorem asleep_full_block : ∃ s : State (Fin 2),
    (s.writers 1).pc = .asleep ∧ s.dev.currentBufNum = bufSize := by
  obtain ⟨s₁, h₁, hfree, hnum, hfresh⟩ := reach_filled markUndisturbed_write
  obtain ⟨s₂, h₂, -, hw, -⟩ :=
    reach_asleep (fun _ => block) markUndisturbed_write hfresh hfree hnum rfl
  refine ⟨s₂, by rw [hw], asleep_full _ s₂ (h₁.trans h₂) 1 ?_ ?_⟩
  · rw [hw]
  · rw [hw]

/-- The interrupt falls between the full test and the marking: nobody is asleep yet,
and the call then sleeps on an empty buffer. -/
theorem asleep_full_lost_false :
    ∃ s, Reachable (fun _ : Fin 2 => block) anyEvent s ∧ (s.writers 1).pc = .asleep ∧
      (s.writers 1).interruptible = true ∧ s.dev.currentBufNum ≠ bufSize := by
  obtain ⟨s₁, h₁, hfree, hnum, hfresh⟩ := reach_filled anyEvent_write
  have htest := Alone.reach (fun _ : Fin 2 => block) anyEvent_write
    (alone_test block (1 : Fin 2) (d := s₁.dev)
      (by rw [hfresh]) hfree hnum rfl)
  obtain ⟨s₂, hs₂⟩ : ∃ s₂, s₂ = s₁.put 1 ({ s₁.dev with mutex := some 1 },
    { s₁.writers 1 with waiting := true, pc := .setState }) := ⟨_, rfl⟩
  rw [← hs₂] at htest
  obtain ⟨s₃, h₃, hnum₃, -, -, -, hw₃⟩ :=
    reach_drain (fun _ : Fin 2 => block) anyEvent (s := s₂) trivial
      (by rw [hs₂]; exact hnum)
  have hw : s₃.writers 1 = ⟨.setState, false, true, false⟩ := by
    rw [hw₃, hs₂]
    simp only [State.put, Function.update_self]
    rw [hfresh]
    rfl
  have hsleep := Alone.reach (fun _ : Fin 2 => block) anyEvent_write
    (alone_sleep block (1 : Fin 2) s₃.dev (s₃.writers 1) (by rw [hw]) (by rw [hw]))
  refine ⟨_, h₁.trans (htest.trans (h₃.trans hsleep)), ?_, ?_, ?_⟩
  · simp [State.put]
  · simp [State.put]
  · change s₃.dev.currentBufNum ≠ bufSize
    rw [hnum₃]
    decide

end CncCard.Driver
