import CncCard.Driver.Invariant

/-!
Stretches in which one call takes step after step. Composed with interrupts they
give the runs behind the driver's counterexamples; on their own they say that an
undisturbed call terminates and accepts all its words when there is room, without
ever cutting its count.
-/

namespace CncCard.Driver
open Transition

variable {ι : Type}

/-- Steps of one call, none of them the clamp of its count. -/
def Alone (c : WriteCall) (w : ι) : Dev ι × Writer → Dev ι × Writer → Prop :=
  Relation.ReflTransGen fun a b => a.2.pc ≠ .loadClamp ∧ writerStep c w a.1 a.2 = some b

variable {c : WriteCall} {w : ι}

theorem Alone.single {a b : Dev ι × Writer} (hpc : a.2.pc ≠ .loadClamp)
    (h : writerStep c w a.1 a.2 = some b) : Alone c w a b :=
  Relation.ReflTransGen.single ⟨hpc, h⟩

theorem Alone.head {a b r : Dev ι × Writer} (hpc : a.2.pc ≠ .loadClamp)
    (h : writerStep c w a.1 a.2 = some b) (hrest : Alone c w b r) : Alone c w a r :=
  Relation.ReflTransGen.head ⟨hpc, h⟩ hrest

theorem Alone.tail {a b r : Dev ι × Writer} (hrest : Alone c w a b) (hpc : b.2.pc ≠ .loadClamp)
    (h : writerStep c w b.1 b.2 = some r) : Alone c w a r :=
  Relation.ReflTransGen.tail hrest ⟨hpc, h⟩

theorem Alone.trans {a b r : Dev ι × Writer} (h : Alone c w a b) (hrest : Alone c w b r) :
    Alone c w a r :=
  Relation.ReflTransGen.trans h hrest

variable (c w) {d : Dev ι} {wr : Writer}

theorem alone_enter (hpc : wr.pc = .entry) (hfree : d.mutex = none)
    (hroom : d.currentBufNum ≠ bufSize) :
    Alone c w (d, wr)
      ({ d with mutex := some w }, { wr with waiting := true, pc := .loadCmp }) := by
  obtain ⟨pc, interruptible, waiting, signal⟩ := wr
  obtain rfl : pc = .entry := hpc
  refine .head Pc.noConfusion (by simp only [writerStep, hfree]; rfl)
    (.head Pc.noConfusion rfl (.single Pc.noConfusion ?_))
  simp only [writerStep, hroom, if_false, Writer.goto]

theorem alone_test (hpc : wr.pc = .entry) (hfree : d.mutex = none)
    (hfull : d.currentBufNum = bufSize) (hblock : c.nonblock = false) :
    Alone c w (d, wr)
      ({ d with mutex := some w }, { wr with waiting := true, pc := .setState }) := by
  obtain ⟨pc, interruptible, waiting, signal⟩ := wr
  obtain rfl : pc = .entry := hpc
  refine .head Pc.noConfusion (by simp only [writerStep, hfree]; rfl)
    (.head Pc.noConfusion rfl (.single Pc.noConfusion ?_))
  simp only [writerStep, hfull, hblock, if_true, Writer.goto]
  rfl

variable (d wr) in
theorem alone_sleep (hpc : wr.pc = .setState) (hsignal : wr.signal = false) :
    Alone c w (d, wr)
      ({ d with mutex := none }, { wr with interruptible := true, pc := .asleep }) := by
  obtain ⟨pc, interruptible, waiting, signal⟩ := wr
  obtain rfl : pc = .setState := hpc
  obtain rfl : signal = false := hsignal
  exact .head Pc.noConfusion rfl (.head Pc.noConfusion rfl (.single Pc.noConfusion rfl))

theorem alone_wake (hpc : wr.pc = .asleep) (hwoken : wr.interruptible = false)
    (hsignal : wr.signal = false) (hfree : d.mutex = none) :
    Alone c w (d, wr) ({ d with mutex := some w }, { wr with pc := .loadCmp }) := by
  obtain ⟨pc, interruptible, waiting, signal⟩ := wr
  obtain rfl : pc = .asleep := hpc
  obtain rfl : interruptible = false := hwoken
  obtain rfl : signal = false := hsignal
  refine .head Pc.noConfusion rfl (.head Pc.noConfusion rfl (.single Pc.noConfusion ?_))
  simp only [writerStep, hfree]
  rfl

theorem alone_copy {n : Nat} {dst : Int} (k : Nat) :
    ∀ (d : Dev ι) (wr : Writer) (i : Nat), i + k = n → wr.pc = .copy n dst i →
      ∃ buf, Alone c w (d, wr) ({ d with dataBuf := buf }, wr.goto (.loadNum n)) := by
  induction k with
  | zero =>
      intro d wr i hi hpc
      refine ⟨d.dataBuf, .single (by rw [hpc]; exact Pc.noConfusion) ?_⟩
      simp only [writerStep, hpc, copyStep]
      rw [if_neg (by omega), if_neg (by omega)]
  | succ k ih =>
      intro d wr i hi hpc
      obtain ⟨buf, h⟩ := ih { d with dataBuf := Function.update d.dataBuf (dst + i) (c.data i) }
        (wr.goto (.copy n dst (i + 1))) (i + 1) (by omega) rfl
      refine ⟨buf, .head (by rw [hpc]; exact Pc.noConfusion) ?_ h⟩
      simp only [writerStep, hpc, copyStep]
      rw [if_neg (by omega), if_pos (by omega)]

variable (d wr) in
theorem alone_store {n : Nat} (hpc : wr.pc = .loadDst n) :
    ∃ buf, Alone c w (d, wr)
      ({ d with dataBuf := buf }, wr.goto (.storeNum n d.currentBufNum)) := by
  obtain ⟨buf, h⟩ := alone_copy c w n d (wr.goto (.copy n d.currentBufNum 0)) 0 (by omega) rfl
  refine ⟨buf, .head (by rw [hpc]; exact Pc.noConfusion) ?_ (h.tail Pc.noConfusion rfl)⟩
  simp only [writerStep, hpc]

theorem alone_finish {count num : Int} (hpc : wr.pc = .storeNum count num) :
    Alone c w (d, wr)
      ({ d with
          mutex := none
          currentBufNum := num + count
          accepted := d.accepted ++ (List.range count.toNat).map c.data },
        ⟨.done (.bytes (count * 4)), false, false, wr.signal⟩) := by
  obtain ⟨pc, interruptible, waiting, signal⟩ := wr
  obtain rfl : pc = .storeNum count num := hpc
  exact .head Pc.noConfusion rfl (.head Pc.noConfusion rfl
    (.head Pc.noConfusion rfl (.single Pc.noConfusion rfl)))

variable (d wr) in
/-- With room for all its words, a call that holds the mutex accepts them all. -/
theorem alone_accept (hpc : wr.pc = .loadCmp)
    (hroom : d.currentBufNum + (c.size / 4 : Nat) ≤ bufSize) :
    ∃ buf, Alone c w (d, wr)
      ({ d with
          dataBuf := buf
          mutex := none
          currentBufNum := d.currentBufNum + (c.size / 4 : Nat)
          accepted := d.accepted ++ (List.range (c.size / 4)).map c.data },
        ⟨.done (.bytes ((c.size / 4 : Nat) * 4)), false, false, wr.signal⟩) := by
  obtain ⟨buf, h⟩ := alone_store c w d (wr.goto (.loadDst (c.size / 4 : Nat))) rfl
  refine ⟨buf, .head (by rw [hpc]; exact Pc.noConfusion) ?_ (h.trans (alone_finish c w rfl))⟩
  simp only [writerStep, hpc]
  rw [if_neg (by omega)]

variable (d wr) in
/-- With the buffer full and a word to write, a call goes to the clamp of its count. -/
theorem alone_full (hpc : wr.pc = .loadCmp) (hfull : d.currentBufNum = bufSize)
    (hsize : 4 ≤ c.size) : Alone c w (d, wr) (d, wr.goto .loadClamp) := by
  refine .single (by rw [hpc]; exact Pc.noConfusion) ?_
  simp only [writerStep, hpc]
  rw [if_pos (by omega)]

theorem anyEvent_write (s : State ι) (w : ι) (_ : (s.writers w).pc ≠ .loadClamp) :
    anyEvent s (Event.write w) :=
  trivial

section Runs

variable [DecidableEq ι] {call : ι → WriteCall} {guard : State ι → Event ι → Prop}
  {s : State ι}

/-- What a call does alone is part of any run whose guard lets calls move. -/
theorem Alone.reach (call : ι → WriteCall)
    (hguard : ∀ s w, (s.writers w).pc ≠ .loadClamp → guard s (.write w)) {w : ι}
    {r : Dev ι × Writer}
    (h : Alone (call w) w (s.dev, s.writers w) r) : Reach (step call) guard s (s.put w r) := by
  induction h with
  | refl =>
      have hself : s.put w (s.dev, s.writers w) = s := by
        simp [State.put]
      rw [hself]
      exact Reach.refl
  | tail _ hstep ih =>
      refine ih.event (hguard _ w ?_) ?_
      · simp only [State.put, Function.update_self]
        exact hstep.1
      simp only [step, State.put, Function.update_self]
      rw [hstep.2]
      simp [State.put]

def Fresh (wr : Writer) : Prop := wr = ⟨.entry, false, false, false⟩

theorem Fresh.pc {wr : Writer} (h : Fresh wr) : wr.pc = .entry := by
  rw [h]

variable (call)

theorem reach_accept (hguard : ∀ s w, (s.writers w).pc ≠ .loadClamp → guard s (.write w))
    {w : ι} (hw : Fresh (s.writers w))
    (hfree : s.dev.mutex = none) (hlt : s.dev.currentBufNum < bufSize)
    (hroom : s.dev.currentBufNum + ((call w).size / 4 : Nat) ≤ bufSize) :
    ∃ s', Reach (step call) guard s s' ∧ s'.dev.mutex = none ∧
      s'.dev.currentBufNum = s.dev.currentBufNum + ((call w).size / 4 : Nat) ∧
      s'.dev.sent = s.dev.sent ∧
      s'.dev.accepted = s.dev.accepted ++ (List.range ((call w).size / 4)).map (call w).data ∧
      (s'.writers w).pc = .done (.bytes (((call w).size / 4 : Nat) * 4)) ∧
      ∀ w' ≠ w, s'.writers w' = s.writers w' := by
  have henter := alone_enter (call w) w hw.pc hfree (by omega)
  obtain ⟨buf, haccept⟩ := alone_accept (call w) w { s.dev with mutex := some w }
    { s.writers w with waiting := true, pc := .loadCmp } rfl hroom
  refine ⟨_, Alone.reach call hguard (henter.trans haccept), rfl, rfl, rfl, rfl, ?_, ?_⟩
  · simp [State.put]
  · intro w' hne
    simp [State.put, hne]

theorem reach_asleep (hguard : ∀ s w, (s.writers w).pc ≠ .loadClamp → guard s (.write w))
    {w : ι} (hw : Fresh (s.writers w))
    (hfree : s.dev.mutex = none) (hfull : s.dev.currentBufNum = bufSize)
    (hblock : (call w).nonblock = false) :
    ∃ s', Reach (step call) guard s s' ∧ s'.dev = s.dev ∧
      s'.writers w = ⟨.asleep, true, true, false⟩ ∧
      ∀ w' ≠ w, s'.writers w' = s.writers w' := by
  have htest := alone_test (call w) w hw.pc hfree hfull hblock
  have hsleep := alone_sleep (call w) w { s.dev with mutex := some w }
    { s.writers w with waiting := true, pc := .setState } rfl (by rw [hw])
  refine ⟨_, Alone.reach call hguard (htest.trans hsleep), ?_, ?_, ?_⟩
  · obtain ⟨⟨buf, num, mutex, io, accepted⟩, writers⟩ := s
    obtain rfl : mutex = none := hfree
    rfl
  · simp only [State.put, Function.update_self]
    rw [hw]
  · intro w' hne
    simp [State.put, hne]

theorem reach_finish (hguard : ∀ s w, (s.writers w).pc ≠ .loadClamp → guard s (.write w))
    {w : ι} {count num : Int}
    (hpc : (s.writers w).pc = .storeNum count num) :
    ∃ s', Reach (step call) guard s s' ∧ s'.dev.currentBufNum = num + count ∧
      s'.dev.sent = s.dev.sent ∧
      s'.dev.accepted = s.dev.accepted ++ (List.range count.toNat).map (call w).data ∧
      (s'.writers w).pc = .done (.bytes (count * 4)) := by
  refine ⟨_, Alone.reach call hguard (alone_finish (call w) w hpc), rfl, rfl, rfl, ?_⟩
  simp [State.put]

/-- Behind the clamp on a full buffer a call is left with no word. -/
theorem reach_clamped {w : ι} (hpc : (s.writers w).pc = .loadClamp)
    (hfull : s.dev.currentBufNum = bufSize) :
    ∃ s', Reach (step call) anyEvent s s' ∧ s'.dev.mutex = s.dev.mutex ∧
      s'.dev.currentBufNum = s.dev.currentBufNum ∧ s'.dev.sent = s.dev.sent ∧
      s'.dev.accepted = s.dev.accepted ∧
      s'.writers w = (s.writers w).goto (.storeNum 0 bufSize) := by
  have hclamp : step call s (.write w) =
      some (s.put w (s.dev, (s.writers w).goto (.loadDst 0))) := by
    simp only [step, writerStep, hpc, hfull, Int.sub_self, Option.map_some]
  obtain ⟨buf, hstore⟩ :=
    alone_store (call w) w s.dev ((s.writers w).goto (.loadDst 0)) (n := 0) rfl
  have hreach := Alone.reach call (s := s.put w (s.dev, (s.writers w).goto (.loadDst 0)))
    anyEvent_write (w := w) (by simpa only [State.put, Function.update_self] using hstore)
  refine ⟨_, (Reach.refl.event (e := .write w) trivial hclamp).trans hreach,
    rfl, rfl, rfl, rfl, ?_⟩
  simp only [State.put, Function.update_self, Writer.goto, hfull]
  rfl

variable (guard) in
theorem reach_drain (hguard : guard s (.interrupt 3)) (hfull : s.dev.currentBufNum = bufSize) :
    ∃ s', Reach (step call) guard s s' ∧ s'.dev.currentBufNum = 0 ∧
      s'.dev.mutex = s.dev.mutex ∧ s'.dev.accepted = s.dev.accepted ∧
      s'.dev.sent.length = s.dev.sent.length + bufSize ∧
      ∀ w, s'.writers w = (s.writers w).wake := by
  obtain ⟨hnum, hmutex, haccepted, hsent, hw⟩ := cncInterrupt_full hfull
  refine ⟨cncInterrupt 3 s, Reach.refl.event hguard rfl, hnum, hmutex, haccepted, ?_, ?_⟩
  · rw [hsent, List.length_append]
    simp [words]
  · intro w
    rw [hw]

def oneWord : WriteCall := ⟨4, fun _ => 7, false, by decide⟩

/-- A call that fills the empty buffer. -/
def block : WriteCall := ⟨4000, fun i => BitVec.ofNat 32 i, false, by decide⟩

theorem reach_filled {guard : State (Fin 2) → Event (Fin 2) → Prop}
    (hguard : ∀ s w, (s.writers w).pc ≠ .loadClamp → guard s (.write w)) :
    ∃ s, Reachable (fun _ : Fin 2 => block) guard s ∧ s.dev.mutex = none ∧
      s.dev.currentBufNum = bufSize ∧ Fresh (s.writers 1) := by
  obtain ⟨s, h, hfree, hnum, -, -, -, hrest⟩ :=
    reach_accept (fun _ => block) (s := initial) (w := (0 : Fin 2)) hguard rfl rfl
      (by decide) (by decide)
  exact ⟨s, h, hfree, hnum, hrest 1 (by decide)⟩

/-- Three calls: the second sleeps while the first fills the buffer, and the third fills it
again before the second gets the mutex back. -/
theorem reach_refilled : ∃ s, Reachable (fun _ : Fin 3 => block) anyEvent s ∧
    s.dev.mutex = some 1 ∧ s.dev.currentBufNum = bufSize ∧ s.dev.sent.length = bufSize ∧
    s.dev.accepted.length = 2 * bufSize ∧
    s.writers 1 = ⟨.storeNum 0 bufSize, false, true, false⟩ := by
  obtain ⟨s₁, h₁, hfree₁, hnum₁, hsent₁, hacc₁, -, hrest₁⟩ :=
    reach_accept (fun _ => block) (s := initial) (w := (0 : Fin 3)) anyEvent_write rfl rfl
      (by decide) (by decide)
  obtain ⟨s₂, h₂, hdev₂, hw₂, hrest₂⟩ :=
    reach_asleep (fun _ => block) (s := s₁) (w := 1) anyEvent_write
      (hrest₁ 1 (by decide)) hfree₁ hnum₁ rfl
  obtain ⟨s₃, h₃, hnum₃, hfree₃, hacc₃, hsent₃, hw₃⟩ :=
    reach_drain (fun _ => block) anyEvent (s := s₂) trivial
      (by rw [hdev₂]; exact hnum₁)
  have hfresh : Fresh (s₃.writers 2) := by
    rw [hw₃, hrest₂ 2 (by decide), hrest₁ 2 (by decide)]
    rfl
  have hfree : s₃.dev.mutex = none := by rw [hfree₃, hdev₂, hfree₁]
  obtain ⟨s₄, h₄, hfree₄, hnum₄, hsent₄, hacc₄, -, hrest₄⟩ :=
    reach_accept (fun _ => block) (s := s₃) (w := 2) anyEvent_write hfresh hfree
      (by rw [hnum₃]; decide) (by rw [hnum₃]; decide)
  have hwoken : s₄.writers 1 = ⟨.asleep, false, true, false⟩ := by
    rw [hrest₄ 1 (by decide), hw₃, hw₂]
    rfl
  have hfull : s₄.dev.currentBufNum = bufSize := by rw [hnum₄, hnum₃]; rfl
  have hpc : (s₄.writers 1).pc = .asleep := by rw [hwoken]
  have hwake := alone_wake block (1 : Fin 3) (d := s₄.dev) hpc (by rw [hwoken])
    (by rw [hwoken]) hfree₄
  have hreach := Alone.reach (fun _ => block) anyEvent_write
    (hwake.trans (alone_full block (1 : Fin 3) { s₄.dev with mutex := some 1 }
      { s₄.writers 1 with pc := .loadCmp } rfl hfull (by decide)))
  obtain ⟨s₅, h₅, hmutex₅, hnum₅, hsent₅, hacc₅, hw₅⟩ :=
    reach_clamped (fun _ : Fin 3 => block)
      (s := s₄.put 1
        ({ s₄.dev with mutex := some 1 }, { s₄.writers 1 with pc := .loadClamp }))
      (w := 1) (by simp only [State.put, Function.update_self]) hfull
  refine ⟨s₅, (h₁.trans h₂).trans (h₃.trans (h₄.trans (hreach.trans h₅))), hmutex₅,
    ?_, ?_, ?_, ?_⟩
  · rw [hnum₅]
    exact hfull
  · rw [hsent₅]
    change s₄.dev.sent.length = bufSize
    rw [hsent₄, hsent₃, hdev₂, hsent₁]
    rfl
  · rw [hacc₅]
    change s₄.dev.accepted.length = 2 * bufSize
    rw [hacc₄, hacc₃, hdev₂, hacc₁]
    simp [initial, block, bufSize]
  · rw [hw₅]
    simp only [State.put, Function.update_self, Writer.goto, hwoken]

end Runs

end CncCard.Driver
