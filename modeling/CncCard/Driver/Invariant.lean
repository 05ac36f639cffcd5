import CncCard.Driver.Write
import Mathlib.Tactic.Cases

/-!
What holds in every reachable state of the write path, with no assumption on the
order of events: the mutex is held by the one call in its critical section, the
fill count stays within the buffer, and the counts a call works with fit the room
it saw. Only a full buffer is ever drained, and a call that fills one copies no
words, so the interrupt cannot move a call's target under its feet.
-/

namespace CncCard.Driver

variable {ι : Type}

def Pc.critical : Pc → Bool
  | .addWait | .testFull | .setState | .unlockSleep | .loadCmp | .loadClamp | .loadDst _
  | .copy _ _ _ | .loadNum _ | .storeNum _ _ | .unlock _ => true
  | _ => false

/-- What a call may rely on at each program point. The second case of `storeNum` is
an interrupt that drained the buffer behind the load of the count. -/
def Local (c : WriteCall) (d : Dev ι) : Pc → Prop
  | .loadDst count => 0 ≤ count ∧ d.currentBufNum + count ≤ bufSize
  | .copy count dst i =>
      0 ≤ count ∧ d.currentBufNum + count ≤ bufSize ∧ 0 ≤ dst ∧ dst + count ≤ bufSize ∧
        (i : Int) ≤ count ∧ (count = 0 ∨ dst = d.currentBufNum) ∧
        ∀ k < i, d.dataBuf (dst + k) = c.data k
  | .loadNum count =>
      0 ≤ count ∧ d.currentBufNum + count ≤ bufSize ∧
        ∀ k : Nat, (k : Int) < count → d.dataBuf (d.currentBufNum + k) = c.data k
  | .storeNum count num =>
      0 ≤ count ∧ 0 ≤ num ∧ num + count ≤ bufSize ∧
        (num = d.currentBufNum ∨ num = bufSize ∧ d.currentBufNum = 0) ∧
        ∀ k : Nat, (k : Int) < count → d.dataBuf (num + k) = c.data k
  | _ => True

def InRange (d : Dev ι) : Prop := 0 ≤ d.currentBufNum ∧ d.currentBufNum ≤ bufSize

structure Inv (call : ι → WriteCall) (s : State ι) : Prop where
  range : InRange s.dev
  owner : ∀ w, (s.writers w).pc.critical = true → s.dev.mutex = some w
  at_pc : ∀ w, Local (call w) s.dev (s.writers w).pc

theorem local_of_not_critical {c : WriteCall} {d : Dev ι} {pc : Pc}
    (h : pc.critical = false) : Local c d pc := by
  cases pc with
  | loadDst | copy | loadNum | storeNum => cases h
  | _ => trivial

theorem local_congr {c : WriteCall} {d d' : Dev ι} {pc : Pc}
    (hnum : d'.currentBufNum = d.currentBufNum) (hbuf : d'.dataBuf = d.dataBuf)
    (h : Local c d pc) : Local c d' pc := by
  cases pc with
  | loadDst | copy | loadNum | storeNum => simpa only [Local, hnum, hbuf] using h
  | _ => trivial

variable {c : WriteCall} {w : ι} {d d' : Dev ι} {wr wr' : Writer}

theorem writerStep_frame (h : writerStep c w d wr = some (d', wr')) :
    (d'.currentBufNum = d.currentBufNum ∧ d'.dataBuf = d.dataBuf ∧ d'.mutex = d.mutex) ∨
      d.mutex = none ∨ wr.pc.critical = true := by
  obtain ⟨pc, interruptible, waiting, signal⟩ := wr
  cases pc with
  | entry | relock =>
      refine .inr (.inl ?_)
      simp only [writerStep] at h
      split at h
      · next hfree => exact Option.isNone_iff_eq_none.mp hfree
      · cases h
  | schedule | asleep =>
      refine .inl ?_
      simp only [writerStep] at h
      split at h <;> simp_all
  | checkSignal | removeWait | setRunning =>
      refine .inl ?_
      simp only [writerStep, Option.some.injEq, Prod.mk.injEq] at h
      simp [← h.1]
  | done => cases h
  | _ => exact .inr (.inr rfl)

/-- The access of a copying call: below its count it stores the next word. -/
theorem copyStep_local (hlocal : Local c d (.copy count dst i)) :
    (copyStep c count dst i d).1.currentBufNum = d.currentBufNum ∧
      (copyStep c count dst i d).1.mutex = d.mutex ∧
      Local c (copyStep c count dst i d).1 (copyStep c count dst i d).2 ∧
      (copyStep c count dst i d).2.critical = true := by
  obtain ⟨hpos, hroom, hdst, hend, hi, hplace, hcopied⟩ := hlocal
  simp only [copyStep]
  rw [if_neg (by omega)]
  split
  · next hlt =>
      refine ⟨rfl, rfl, ⟨hpos, hroom, hdst, hend, by omega, hplace, ?_⟩, rfl⟩
      intro k hk
      change Function.update d.dataBuf (dst + i) (c.data i) (dst + k) = c.data k
      rcases Nat.lt_or_eq_of_le (Nat.le_of_lt_succ hk) with hlt | rfl
      · rw [Function.update_of_ne (by omega)]
        exact hcopied k hlt
      · rw [Function.update_self]
  · next hge =>
      refine ⟨rfl, rfl, ⟨hpos, hroom, ?_⟩, rfl⟩
      intro k hk
      cases hplace with
      | inl hzero => omega
      | inr hnum =>
          rw [← hnum]
          exact hcopied k (by omega)

theorem writerStep_local (hrange : InRange d)
    (howner : wr.pc.critical = true → d.mutex = some w) (hlocal : Local c d wr.pc)
    (h : writerStep c w d wr = some (d', wr')) :
    InRange d' ∧ (wr'.pc.critical = true → d'.mutex = some w) ∧ Local c d' wr'.pc := by
  obtain ⟨pc, interruptible, waiting, signal⟩ := wr
  obtain ⟨hlow, hhigh⟩ := hrange
  cases pc with
  | entry =>
      simp only [writerStep] at h
      split at h
      · cases h
        exact ⟨⟨hlow, hhigh⟩, fun _ => rfl, trivial⟩
      · cases h
  | relock =>
      simp only [writerStep] at h
      split at h
      · cases h
        exact ⟨⟨hlow, hhigh⟩, fun _ => rfl, trivial⟩
      · cases h
  | addWait | setState | unlockSleep | unlock | removeWait | setRunning =>
      cases h
      exact ⟨⟨hlow, hhigh⟩, by simp_all [Pc.critical, Writer.goto], trivial⟩
  | testFull =>
      simp only [writerStep] at h
      split at h
      · cases h
        refine ⟨⟨hlow, hhigh⟩, fun _ => howner rfl, ?_⟩
        simp only [Writer.goto]
        split <;> trivial
      · cases h
        exact ⟨⟨hlow, hhigh⟩, fun _ => howner rfl, trivial⟩
  | schedule =>
      simp only [writerStep] at h
      split at h <;> cases h <;>
        exact ⟨⟨hlow, hhigh⟩, fun hc => Bool.noConfusion hc, trivial⟩
  | asleep =>
      simp only [writerStep] at h
      split at h <;> cases h
      exact ⟨⟨hlow, hhigh⟩, fun hc => Bool.noConfusion hc, trivial⟩
  | checkSignal =>
      cases h
      cases signal <;> exact ⟨⟨hlow, hhigh⟩, fun hc => Bool.noConfusion hc, trivial⟩
  | loadCmp =>
      cases h
      refine ⟨⟨hlow, hhigh⟩, fun _ => howner rfl, ?_⟩
      simp only [Writer.goto]
      split
      · trivial
      · next hfit => exact ⟨by omega, by omega⟩
  | loadClamp =>
      cases h
      exact ⟨⟨hlow, hhigh⟩, fun _ => howner rfl, by simp only [Local, Writer.goto]; omega⟩
  | loadDst count =>
      cases h
      obtain ⟨hpos, hroom⟩ := hlocal
      refine ⟨⟨hlow, hhigh⟩, fun _ => howner rfl, hpos, hroom, hlow, hroom, by simpa, .inr rfl, ?_⟩
      intro k hk
      exact absurd hk (Nat.not_lt_zero k)
  | copy count dst i =>
      cases h
      obtain ⟨hnum, hmutex, hnext, -⟩ := copyStep_local hlocal
      refine ⟨?_, fun _ => ?_, hnext⟩
      · rw [InRange, hnum]
        exact ⟨hlow, hhigh⟩
      · rw [hmutex]
        exact howner rfl
  | loadNum count =>
      cases h
      obtain ⟨hpos, hroom, hcopied⟩ := hlocal
      exact ⟨⟨hlow, hhigh⟩, fun _ => howner rfl, hpos, hlow, hroom, .inl rfl, hcopied⟩
  | storeNum count num =>
      cases h
      obtain ⟨hpos, hnum, hroom, -, -⟩ := hlocal
      refine ⟨⟨?_, hroom⟩, fun _ => howner rfl, trivial⟩
      simp only
      omega
  | done => cases h

theorem drain_local (hfull : d.currentBufNum = bufSize) {pc : Pc} (h : Local c d pc)
    (hnum : d'.currentBufNum = 0) (hbuf : d'.dataBuf = d.dataBuf) : Local c d' pc := by
  cases pc with
  | loadDst count =>
      obtain ⟨hpos, hroom⟩ := h
      exact ⟨hpos, by omega⟩
  | copy count dst i =>
      obtain ⟨hpos, hroom, hdst, hend, hi, hplace, hcopied⟩ := h
      exact ⟨hpos, by omega, hdst, hend, hi, .inl (by omega), by rwa [hbuf]⟩
  | loadNum count =>
      obtain ⟨hpos, hroom, -⟩ := h
      exact ⟨hpos, by omega, fun k hk => by omega⟩
  | storeNum count num =>
      obtain ⟨hpos, hn, hroom, hload, hcopied⟩ := h
      refine ⟨hpos, hn, hroom, .inr ?_, by rwa [hbuf]⟩
      have hsize : (bufSize : Int) = 1000 := rfl
      omega
  | _ => trivial

theorem giveUp_cases (h : giveUp wr = some wr') :
    wr' = wr.goto (.done .eintr) ∨ wr' = wr.goto (.removeWait .eintr) := by
  obtain ⟨pc, interruptible, waiting, signal⟩ := wr
  simp only [giveUp] at h
  split at h
  · cases pc with
    | entry => exact .inl (Option.some.inj h).symm
    | relock => exact .inr (Option.some.inj h).symm
    | _ => cases h
  · cases h

theorem faultStep_cases {part : Word} (h : faultStep part d wr = some (d', wr')) :
    ∃ count dst i, wr.pc = .copy count dst i ∧ (i : Int) < count ∧
      d' = copyFault count dst i part d ∧ wr' = wr.goto (.unlock .efault) := by
  obtain ⟨pc, interruptible, waiting, signal⟩ := wr
  cases pc with
  | copy count dst i =>
      simp only [faultStep] at h
      split at h
      · next hlt =>
          cases h
          exact ⟨count, dst, i, rfl, hlt, rfl, rfl⟩
      · cases h
  | _ => cases h

theorem sent_words (ws : List Word) : (ws.map fun v => (pctocard, v)).filterMap
    (fun a => if a.1 = pctocard then some a.2 else none) = ws := by
  induction ws with
  | nil => rfl
  | cons v ws ih => rw [List.map_cons, List.filterMap_cons, ih, if_pos rfl]

/-- An interrupt drains a full buffer and wakes who sleeps on it; otherwise it only
writes to the card. -/
theorem cncInterrupt_cases (status : Word) (s : State ι) :
    (status = 3 ∧ s.dev.currentBufNum = bufSize ∧
      (cncInterrupt status s).dev.currentBufNum = 0 ∧
      (cncInterrupt status s).dev.dataBuf = s.dev.dataBuf ∧
      (cncInterrupt status s).dev.mutex = s.dev.mutex ∧
      (cncInterrupt status s).dev.accepted = s.dev.accepted ∧
      (cncInterrupt status s).dev.sent = s.dev.sent ++ words s.dev.dataBuf 0 bufSize ∧
      (cncInterrupt status s).writers = fun w => (s.writers w).wake) ∨
    ((cncInterrupt status s).dev.currentBufNum = s.dev.currentBufNum ∧
      (cncInterrupt status s).dev.dataBuf = s.dev.dataBuf ∧
      (cncInterrupt status s).dev.mutex = s.dev.mutex ∧
      (cncInterrupt status s).dev.accepted = s.dev.accepted ∧
      (cncInterrupt status s).dev.sent = s.dev.sent ∧
      (cncInterrupt status s).writers = s.writers) := by
  have hpci : ¬ intcsr = pctocard := by decide
  by_cases hstatus : status = 3
  · by_cases hfull : s.dev.currentBufNum = bufSize
    · refine .inl ⟨hstatus, hfull, ?_⟩
      simp [cncInterrupt, dataSend, iowrite32, Dev.sent, hstatus, hfull, hpci,
        List.filterMap_append, -List.filterMap_map, sent_words]
    · refine .inr ?_
      simp [cncInterrupt, dataSend, iowrite32, Dev.sent, hstatus, hfull, hpci]
  · have hother : cncInterrupt status s = s := if_pos hstatus
    rw [hother]
    exact .inr ⟨rfl, rfl, rfl, rfl, rfl, rfl⟩

theorem cncInterrupt_full {s : State ι} (hfull : s.dev.currentBufNum = bufSize) :
    (cncInterrupt 3 s).dev.currentBufNum = 0 ∧
      (cncInterrupt 3 s).dev.mutex = s.dev.mutex ∧
      (cncInterrupt 3 s).dev.accepted = s.dev.accepted ∧
      (cncInterrupt 3 s).dev.sent = s.dev.sent ++ words s.dev.dataBuf 0 bufSize ∧
      (cncInterrupt 3 s).writers = fun w => (s.writers w).wake := by
  rcases cncInterrupt_cases 3 s with
    ⟨-, -, hnum, -, hmutex, haccepted, hsent, hw⟩ | ⟨hnum, -, -, -, -, -⟩
  · exact ⟨hnum, hmutex, haccepted, hsent, hw⟩
  · have hzero : (cncInterrupt 3 s).dev.currentBufNum = 0 := by
      simp [cncInterrupt, dataSend, iowrite32, hfull]
    rw [hnum, hfull] at hzero
    cases hzero

section Runs

variable [DecidableEq ι] {call : ι → WriteCall} {s s' : State ι} {e : Event ι}

/-- The events and what each of them does, as far as the invariants need to know. -/
theorem step_cases (h : step call s e = some s') :
    (∃ w d' wr', e = .write w ∧ writerStep (call w) w s.dev (s.writers w) = some (d', wr') ∧
      s' = s.put w (d', wr')) ∨
    (∃ w wr', giveUp (s.writers w) = some wr' ∧ s' = s.put w (s.dev, wr')) ∨
    (∃ w part d' wr', faultStep part s.dev (s.writers w) = some (d', wr') ∧
      s' = s.put w (d', wr')) ∨
    (∃ w, s' = s.put w (s.dev, { s.writers w with signal := true })) ∨
    ∃ status, e = .interrupt status ∧ s' = cncInterrupt status s := by
  cases e with
  | write w =>
      obtain ⟨⟨d', wr'⟩, hw, hs⟩ := Option.map_eq_some_iff.mp h
      exact .inl ⟨w, d', wr', rfl, hw, hs.symm⟩
  | giveUp w =>
      obtain ⟨wr', hw, hs⟩ := Option.map_eq_some_iff.mp h
      exact .inr (.inl ⟨w, wr', hw, hs.symm⟩)
  | fault w part =>
      obtain ⟨⟨d', wr'⟩, hw, hs⟩ := Option.map_eq_some_iff.mp h
      exact .inr (.inr (.inl ⟨w, part, d', wr', hw, hs.symm⟩))
  | signal w => exact .inr (.inr (.inr (.inl ⟨w, (Option.some.inj h).symm⟩)))
  | interrupt status =>
      exact .inr (.inr (.inr (.inr ⟨status, rfl, (Option.some.inj h).symm⟩)))

theorem State.forall_put {P : ι → Writer → Prop} {w : ι} {r : Dev ι × Writer}
    (hself : P w r.2) (hother : ∀ w' ≠ w, P w' (s.writers w')) :
    ∀ w', P w' ((s.put w r).writers w') := by
  intro w'
  by_cases hw : w' = w
  · subst hw
    simp only [State.put, Function.update_self]
    exact hself
  · simp only [State.put, Function.update_of_ne hw]
    exact hother w' hw

omit [DecidableEq ι] in
/-- What one call does leaves the buffer alone as another call in its critical
section sees it. -/
theorem Inv.frame (hi : Inv call s) {w w' : ι} {d' : Dev ι}
    (hframe : (d'.currentBufNum = s.dev.currentBufNum ∧ d'.dataBuf = s.dev.dataBuf ∧
        d'.mutex = s.dev.mutex) ∨
      s.dev.mutex = none ∨ (s.writers w).pc.critical = true)
    (hne : w' ≠ w) (hc : (s.writers w').pc.critical = true) :
    d'.currentBufNum = s.dev.currentBufNum ∧ d'.dataBuf = s.dev.dataBuf ∧
      d'.mutex = s.dev.mutex := by
  have hw' := hi.owner w' hc
  rcases hframe with h | h | h
  · exact h
  · rw [h] at hw'
    cases hw'
  · rw [hi.owner w h] at hw'
    exact absurd (Option.some.inj hw').symm hne

theorem Inv.put (hi : Inv call s) {w : ι} {d' : Dev ι} {wr' : Writer}
    (hframe : (d'.currentBufNum = s.dev.currentBufNum ∧ d'.dataBuf = s.dev.dataBuf ∧
        d'.mutex = s.dev.mutex) ∨
      s.dev.mutex = none ∨ (s.writers w).pc.critical = true)
    (hrange : InRange d') (howner : wr'.pc.critical = true → d'.mutex = some w)
    (hlocal : Local (call w) d' wr'.pc) : Inv call (s.put w (d', wr')) := by
  refine ⟨hrange, ?_, ?_⟩
  · refine State.forall_put (P := fun w' wr => wr.pc.critical = true → d'.mutex = some w')
      howner ?_
    intro w' hw hc
    rw [(hi.frame hframe hw hc).2.2]
    exact hi.owner w' hc
  · refine State.forall_put (P := fun w' wr => Local (call w') d' wr.pc) hlocal ?_
    intro w' hw
    cases hc : (s.writers w').pc.critical with
    | false => exact local_of_not_critical hc
    | true =>
        obtain ⟨hnum, hbuf, -⟩ := hi.frame hframe hw hc
        exact local_congr hnum hbuf (hi.at_pc w')

theorem inv_step (hi : Inv call s) (h : step call s e = some s') : Inv call s' := by
  rcases step_cases h with ⟨w, d', wr', -, hw, rfl⟩ | ⟨w, wr', hw, rfl⟩ |
    ⟨w, part, d', wr', hw, rfl⟩ | ⟨w, rfl⟩ | ⟨status, -, rfl⟩
  · obtain ⟨hrange, howner, hlocal⟩ := writerStep_local hi.range (hi.owner w) (hi.at_pc w) hw
    exact hi.put (writerStep_frame hw) hrange howner hlocal
  · rcases giveUp_cases hw with rfl | rfl
    · exact hi.put (.inl ⟨rfl, rfl, rfl⟩) hi.range (fun hc => Bool.noConfusion hc) trivial
    · exact hi.put (.inl ⟨rfl, rfl, rfl⟩) hi.range (fun hc => Bool.noConfusion hc) trivial
  · obtain ⟨count, dst, i, hpc, -, rfl, rfl⟩ := faultStep_cases hw
    refine hi.put (.inr (.inr (by rw [hpc]; rfl))) hi.range ?_ trivial
    exact fun _ => hi.owner w (by rw [hpc]; rfl)
  · exact hi.put (.inl ⟨rfl, rfl, rfl⟩) hi.range (hi.owner w) (hi.at_pc w)
  · rcases cncInterrupt_cases status s with
      ⟨-, hfull, hnum, hbuf, hmutex, -, -, hw⟩ | ⟨hnum, hbuf, hmutex, -, -, hw⟩
    · refine ⟨⟨by omega, by rw [hnum]; decide⟩, ?_, ?_⟩
      · intro w hc
        rw [hw] at hc
        rw [hmutex]
        exact hi.owner w hc
      · intro w
        rw [hw]
        exact drain_local hfull (hi.at_pc w) hnum hbuf
    · refine ⟨by rw [InRange, hnum]; exact hi.range, ?_, ?_⟩
      · intro w hc
        rw [hw] at hc
        rw [hmutex]
        exact hi.owner w hc
      · intro w
        rw [hw]
        exact local_congr hnum hbuf (hi.at_pc w)

omit [DecidableEq ι] in
theorem inv_initial : Inv call (initial : State ι) :=
  ⟨⟨Int.le_refl 0, Int.natCast_nonneg bufSize⟩, fun _ hc => Bool.noConfusion hc,
    fun _ => trivial⟩

def Reachable (call : ι → WriteCall) (guard : State ι → Event ι → Prop) (s : State ι) : Prop :=
  Transition.Reach (step call) guard initial s

theorem reachable_inv {guard : State ι → Event ι → Prop} (h : Reachable call guard s) :
    Inv call s :=
  h.invariant inv_initial fun _ _ _ hi _ hstep => inv_step hi hstep

end Runs

end CncCard.Driver
