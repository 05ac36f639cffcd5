import CncCard.Driver.Alone

/-!
What a blocking call returns. The only way to return without a word, a signal or a
fault is to compute the room in the buffer while the buffer is full, which needs a
call that slept and did not test again.
-/

namespace CncCard.Driver
open Transition

/-- A return that a blocking call may make: some bytes, or the end by a signal or a
fault. -/
def Ret.fruitful : Ret → Prop
  | .bytes n => 0 < n
  | .eagain => False
  | .eintr | .erestartsys | .efault => True

/-- The call has a word to write, or has written one, where it works with a count. -/
def Progress : Pc → Prop
  | .loadDst count | .copy count _ _ | .loadNum count | .storeNum count _ => 0 < count
  | .unlock ret | .removeWait ret | .setRunning ret | .done ret => ret.fruitful
  | _ => True

variable {ι : Type} {c : WriteCall} {w : ι} {d d' : Dev ι} {wr wr' : Writer}

theorem progress_write (hblock : c.nonblock = false) (hsize : 4 ≤ c.size) (hrange : InRange d)
    (hroom : wr.pc = .loadClamp → d.currentBufNum ≠ bufSize) (hp : Progress wr.pc)
    (h : writerStep c w d wr = some (d', wr')) : Progress wr'.pc := by
  obtain ⟨pc, interruptible, waiting, signal⟩ := wr
  obtain ⟨hlow, hhigh⟩ := hrange
  cases pc with
  | entry | relock | schedule | asleep =>
      simp only [writerStep] at h
      split at h <;> cases h <;> trivial
  | testFull =>
      simp only [writerStep, hblock] at h
      split at h <;> cases h <;> trivial
  | checkSignal =>
      cases h
      cases signal <;> trivial
  | loadCmp =>
      cases h
      simp only [Writer.goto]
      split
      · trivial
      · simp only [Progress]
        omega
  | loadClamp =>
      cases h
      have hlt := hroom rfl
      simp only [Writer.goto, Progress]
      omega
  | copy count dst i =>
      cases h
      simp only [Progress] at hp
      simp only [copyStep, Writer.goto]
      rw [if_neg (by omega)]
      split <;> exact hp
  | storeNum count num =>
      cases h
      simp only [Progress] at hp
      simp only [Writer.goto, Progress, Ret.fruitful]
      omega
  | addWait | setState | unlockSleep => cases h; trivial
  | loadDst | loadNum | unlock | removeWait | setRunning => cases h; exact hp
  | done => cases h

section Runs

variable [DecidableEq ι] {call : ι → WriteCall} {s s' : State ι} {e : Event ι}

/-- No call computes its room by the clamp while the buffer is full. -/
def RoomFound (s : State ι) (e : Event ι) : Prop :=
  ∀ w, e = .write w → (s.writers w).pc = .loadClamp → s.dev.currentBufNum ≠ bufSize

theorem progress_step (hi : Inv call s) {w : ι} (hblock : (call w).nonblock = false)
    (hsize : 4 ≤ (call w).size) (hp : Progress (s.writers w).pc) (hguard : RoomFound s e)
    (h : step call s e = some s') : Progress (s'.writers w).pc := by
  have hput {w' : ι} {d' : Dev ι} {wr' : Writer} (hself : w' = w → Progress wr'.pc) :
      Progress ((s.put w' (d', wr')).writers w).pc := by
    refine State.forall_put (P := fun v wr => v = w → Progress wr.pc) hself ?_ w rfl
    rintro v - rfl
    exact hp
  rcases step_cases h with ⟨w', d', wr', rfl, hw, rfl⟩ | ⟨w', wr', hw, rfl⟩ |
    ⟨w', part, d', wr', hw, rfl⟩ | ⟨w', rfl⟩ | ⟨status, -, rfl⟩
  · apply hput
    rintro rfl
    exact progress_write hblock hsize hi.range (hguard w' rfl) hp hw
  · rcases giveUp_cases hw with rfl | rfl
    · exact hput fun _ => trivial
    · exact hput fun _ => trivial
  · apply hput
    intro _
    obtain ⟨count, dst, i, -, -, -, rfl⟩ := faultStep_cases hw
    trivial
  · apply hput
    rintro rfl
    exact hp
  · rcases cncInterrupt_cases status s with ⟨-, -, -, -, -, -, -, hw⟩ | ⟨-, -, -, -, -, hw⟩
    · rw [hw]
      exact hp
    · rw [hw]
      exact hp

/-- In every run in which no call clamps its count on a full buffer, a blocking call
with a word to write returns a positive byte count unless a signal or a fault ends it. -/
theorem done_fruitful (call : ι → WriteCall) (s : State ι) (h : Reachable call RoomFound s)
    (w : ι) (hblock : (call w).nonblock = false) (hsize : 4 ≤ (call w).size) {ret : Ret}
    (hpc : (s.writers w).pc = .done ret) : ret.fruitful := by
  have hboth : Inv call s ∧ Progress (s.writers w).pc := by
    refine h.invariant (P := fun s => Inv call s ∧ Progress (s.writers w).pc)
      ⟨inv_initial, trivial⟩ ?_
    intro s e s' ⟨hi, hp⟩ hguard hstep
    exact ⟨inv_step hi hstep, progress_step hi hblock hsize hp hguard hstep⟩
  have hp := hboth.2
  rwa [hpc] at hp

end Runs

theorem roomFound_write [DecidableEq ι] (s : State ι) (w : ι)
    (hpc : (s.writers w).pc ≠ .loadClamp) : RoomFound s (.write w) := by
  intro w' hw hclamp
  cases hw
  exact absurd hclamp hpc

/-- The second call sleeps on the full buffer, the interrupt that drains it wakes the call up,
and then it copies its words. -/
theorem done_fruitful_woken : ∃ s₁ s₂ : State (Fin 2),
    s₁.writers 1 = ⟨.asleep, true, true, false⟩ ∧ s₁.dev.currentBufNum = bufSize ∧
      Reach (step fun _ => block) RoomFound s₁ s₂ ∧
      (s₂.writers 1).pc = .done (.bytes 4000) ∧ (Ret.bytes 4000).fruitful := by
  obtain ⟨s₀, h₀, hfree₀, hnum₀, hfresh₀⟩ := reach_filled roomFound_write
  obtain ⟨s₁, h₁, hdev₁, hw₁, -⟩ :=
    reach_asleep (fun _ => block) (s := s₀) (w := 1) roomFound_write hfresh₀ hfree₀ hnum₀ rfl
  have hfull₁ : s₁.dev.currentBufNum = bufSize := by rw [hdev₁, hnum₀]
  obtain ⟨s₂, h₂, hnum₂, hfree₂, -, -, hw₂⟩ :=
    reach_drain (fun _ => block) RoomFound (s := s₁) (fun w heq => by cases heq) hfull₁
  have hwoken : s₂.writers 1 = ⟨.asleep, false, true, false⟩ := by
    rw [hw₂, hw₁]
    rfl
  have hwake : Alone block (1 : Fin 2) (s₂.dev, s₂.writers 1)
      ({ s₂.dev with mutex := some 1 }, { s₂.writers 1 with pc := .loadCmp }) :=
    alone_wake block 1 (by rw [hwoken]) (by rw [hwoken]) (by rw [hwoken])
      (by rw [hfree₂, hdev₁, hfree₀])
  obtain ⟨buf, haccept⟩ := alone_accept block (1 : Fin 2) { s₂.dev with mutex := some 1 }
    { s₂.writers 1 with pc := .loadCmp } rfl (by rw [hnum₂]; decide)
  have h₃ := Alone.reach (fun _ => block) roomFound_write (hwake.trans haccept)
  refine ⟨s₁, _, hw₁, hfull₁, h₂.trans h₃, ?_, ?_⟩
  · simp only [State.put, Function.update_self]
    rfl
  · refine done_fruitful (fun _ => block) _ ((h₀.trans h₁).trans (h₂.trans h₃)) 1 rfl (by decide) ?_
    simp only [State.put, Function.update_self]
    rfl

/-- The call that finds the buffer filled again returns without a word. -/
theorem done_fruitful_refilled_false :
    ∃ s, Reachable (fun _ : Fin 3 => block) anyEvent s ∧
      (s.writers 1).pc = .done (.bytes 0) ∧ ¬ (Ret.bytes 0).fruitful := by
  obtain ⟨s₁, h₁, -, -, -, -, hw₁⟩ := reach_refilled
  have hpc₁ : (s₁.writers 1).pc = .storeNum 0 bufSize := by rw [hw₁]
  obtain ⟨s₂, h₂, -, -, -, hpc⟩ := reach_finish (fun _ : Fin 3 => block) anyEvent_write hpc₁
  exact ⟨s₂, h₁.trans h₂, hpc, by simp [Ret.fruitful]⟩

end CncCard.Driver
