import CncCard.Driver.Alone
import Mathlib.Data.List.Infix

/-!
What reaches the card. As long as no interrupt drains the buffer between a call's
load of the fill count and its store, the words sent and the words still buffered
are together the words accepted, in order.
-/

namespace CncCard.Driver
open Transition

theorem words_succ (buf : Int → Word) (base : Int) (n m : Nat) :
    words buf base (n + m) = words buf base n ++ words buf (base + n) m := by
  simp only [words, List.range_add, List.map_append, List.map_map]
  congr 1
  apply List.map_congr_left
  intro k _
  simp only [Function.comp_apply, Int.natCast_add, Int.add_assoc]

theorem words_congr {buf buf' : Int → Word} {base base' : Int} {n : Nat}
    (h : ∀ k < n, buf (base + k) = buf' (base' + k)) : words buf base n = words buf' base' n := by
  apply List.map_congr_left
  intro k hk
  exact h k (List.mem_range.mp hk)

theorem words_eq_map {buf : Int → Word} {base : Int} {n : Nat} {data : Nat → Word}
    (h : ∀ k < n, buf (base + k) = data k) : words buf base n = (List.range n).map data := by
  apply List.map_congr_left
  intro k hk
  exact h k (List.mem_range.mp hk)

variable {ι : Type}

/-- Nothing is lost, doubled or reordered between the calls and the card. -/
def Conserved (d : Dev ι) : Prop :=
  d.sent ++ words d.dataBuf 0 d.currentBufNum.toNat = d.accepted

theorem Conserved.congr {d d' : Dev ι} (h : Conserved d)
    (hnum : d'.currentBufNum = d.currentBufNum)
    (hbuf : ∀ k, 0 ≤ k → k < d.currentBufNum → d'.dataBuf k = d.dataBuf k)
    (hsent : d'.sent = d.sent) (haccepted : d'.accepted = d.accepted) : Conserved d' := by
  rw [Conserved, hnum, hsent, haccepted, ← h]
  congr 1
  apply words_congr
  intro k hk
  exact hbuf _ (by omega) (by omega)

variable {c : WriteCall} {w : ι} {d d' : Dev ι} {wr wr' : Writer}

/-- What a step of a call does to the words: a copy step stores one behind the fill
count, the store of the count accepts them, no other step touches them. -/
theorem writerStep_words (h : writerStep c w d wr = some (d', wr')) :
    (d'.currentBufNum = d.currentBufNum ∧ d'.dataBuf = d.dataBuf ∧ d'.sent = d.sent ∧
      d'.accepted = d.accepted) ∨
    (∃ count dst i, wr.pc = .copy count dst i ∧ (i : Int) < count ∧
      d' = { d with dataBuf := Function.update d.dataBuf (dst + i) (c.data i) }) ∨
    ∃ count num, wr.pc = .storeNum count num ∧
      d' = { d with
        currentBufNum := num + count
        accepted := d.accepted ++ (List.range count.toNat).map c.data } := by
  obtain ⟨pc, interruptible, waiting, signal⟩ := wr
  cases pc with
  | copy count dst i =>
      cases h
      simp only [copyStep]
      split
      · exact .inl ⟨rfl, rfl, rfl, rfl⟩
      · split
        · next hlt => exact .inr (.inl ⟨count, dst, i, rfl, hlt, rfl⟩)
        · exact .inl ⟨rfl, rfl, rfl, rfl⟩
  | storeNum count num =>
      cases h
      exact .inr (.inr ⟨count, num, rfl, rfl⟩)
  | entry | relock | testFull | schedule =>
      simp only [writerStep] at h
      split at h <;> cases h <;> exact .inl ⟨rfl, rfl, rfl, rfl⟩
  | asleep =>
      simp only [writerStep] at h
      split at h <;> cases h
      exact .inl ⟨rfl, rfl, rfl, rfl⟩
  | done => cases h
  | _ =>
      cases h
      exact .inl ⟨rfl, rfl, rfl, rfl⟩

theorem writerStep_loaded (h : writerStep c w d wr = some (d', wr')) {count num : Int}
    (hpc : wr'.pc = .storeNum count num) : num = d'.currentBufNum := by
  obtain ⟨pc, interruptible, waiting, signal⟩ := wr
  cases pc with
  | loadNum n =>
      cases h
      cases hpc
      rfl
  | copy n dst i =>
      cases h
      simp only [copyStep, Writer.goto] at hpc
      split at hpc
      · cases hpc
      · split at hpc <;> cases hpc
  | entry | relock | schedule | asleep =>
      simp only [writerStep] at h
      split at h <;> cases h <;> cases hpc
  | testFull =>
      simp only [writerStep] at h
      split at h <;> cases h
      · simp only [Writer.goto] at hpc
        split at hpc <;> cases hpc
      · cases hpc
  | loadCmp | checkSignal =>
      cases h
      simp only [Writer.goto] at hpc
      split at hpc <;> cases hpc
  | done => cases h
  | _ =>
      cases h
      cases hpc

section Runs

variable [DecidableEq ι] {call : ι → WriteCall} {s s' : State ι} {e : Event ι}

/-- No call is between its load of the fill count and its store when an interrupt
drains the buffer. -/
def StoreUndisturbed (s : State ι) (e : Event ι) : Prop :=
  Drains s e → ∀ w count num, (s.writers w).pc ≠ .storeNum count num

structure Delivering (s : State ι) : Prop where
  conserved : Conserved s.dev
  loaded : ∀ w count num, (s.writers w).pc = .storeNum count num → num = s.dev.currentBufNum

omit [DecidableEq ι] in
theorem conserved_write {w : ι} (hi : Inv call s) (hd : Delivering s)
    (h : writerStep (call w) w s.dev (s.writers w) = some (d', wr')) : Conserved d' := by
  have hlocal := hi.at_pc w
  rcases writerStep_words h with ⟨hnum, hbuf, hsent, haccepted⟩ |
    ⟨count, dst, i, hpc, hlt, rfl⟩ | ⟨count, num, hpc, rfl⟩
  · exact hd.conserved.congr hnum (fun _ _ _ => by rw [hbuf]) hsent haccepted
  · rw [hpc] at hlocal
    obtain ⟨-, -, -, -, -, hplace, -⟩ := hlocal
    refine hd.conserved.congr rfl (fun k hk hkn => ?_) rfl rfl
    exact Function.update_of_ne (by omega) _ _
  · rw [hpc] at hlocal
    obtain ⟨hpos, hnum, -, -, hcopied⟩ := hlocal
    obtain rfl := hd.loaded w count num hpc
    have hwords := hd.conserved
    simp only [Conserved] at hwords ⊢
    rw [Int.toNat_add hnum hpos, words_succ, ← List.append_assoc]
    change (s.dev.sent ++ words s.dev.dataBuf 0 s.dev.currentBufNum.toNat) ++ _ = _
    rw [hwords, Int.zero_add, Int.toNat_of_nonneg hnum,
      words_eq_map fun k hk => hcopied k (by omega)]

theorem Delivering.put (hd : Delivering s) {w : ι} {d' : Dev ι} {wr' : Writer}
    (hconserved : Conserved d')
    (hself : ∀ count num, wr'.pc = .storeNum count num → num = d'.currentBufNum)
    (hkeep : ∀ w' ≠ w, ∀ count num, (s.writers w').pc = .storeNum count num →
      d'.currentBufNum = s.dev.currentBufNum) : Delivering (s.put w (d', wr')) := by
  refine ⟨hconserved, State.forall_put
    (P := fun _ wr => ∀ count num, wr.pc = .storeNum count num → num = d'.currentBufNum)
    hself ?_⟩
  intro w' hne count num hpc
  rw [hkeep w' hne count num hpc]
  exact hd.loaded w' count num hpc

theorem delivering_step (hi : Inv call s) (hd : Delivering s) (hguard : StoreUndisturbed s e)
    (h : step call s e = some s') : Delivering s' := by
  rcases step_cases h with ⟨w, d', wr', -, hw, rfl⟩ | ⟨w, wr', hw, rfl⟩ |
    ⟨w, part, d', wr', hw, rfl⟩ | ⟨w, rfl⟩ | ⟨status, rfl, rfl⟩
  · refine hd.put (conserved_write hi hd hw) (fun _ _ => writerStep_loaded hw) ?_
    intro w' hne count num hpc
    exact (hi.frame (writerStep_frame hw) hne (by rw [hpc]; rfl)).1
  · refine hd.put hd.conserved ?_ fun _ _ _ _ _ => rfl
    rcases giveUp_cases hw with rfl | rfl
    · exact fun _ _ hpc => by cases hpc
    · exact fun _ _ hpc => by cases hpc
  · obtain ⟨count, dst, i, hpc, hlt, rfl, rfl⟩ := faultStep_cases hw
    have hlocal := hi.at_pc w
    rw [hpc] at hlocal
    obtain ⟨-, -, -, -, -, hplace, -⟩ := hlocal
    refine hd.put (hd.conserved.congr rfl (fun k hk hkn => ?_) rfl rfl)
      (fun _ _ hpc => by cases hpc) fun _ _ _ _ _ => rfl
    simp only [copyFault]
    rw [if_neg (by omega), if_neg (by omega)]
  · exact hd.put hd.conserved (hd.loaded w) fun _ _ _ _ _ => rfl
  · rcases cncInterrupt_cases status s with
      ⟨rfl, hfull, hnum, hbuf, -, haccepted, hsent, hw⟩ | ⟨hnum, hbuf, -, haccepted, hsent, hw⟩
    · refine ⟨?_, ?_⟩
      · have hwords := hd.conserved
        simp only [Conserved] at hwords ⊢
        rw [hfull] at hwords
        rw [hsent, haccepted, ← hwords, hnum]
        simp [words]
      · intro w count num hpc
        rw [hw] at hpc
        exact absurd hpc (hguard ⟨rfl, hfull⟩ w count num)
    · refine ⟨hd.conserved.congr hnum (fun _ _ _ => by rw [hbuf]) hsent haccepted, ?_⟩
      intro w count num hpc
      rw [hw] at hpc
      rw [hnum]
      exact hd.loaded w count num hpc

theorem reachable_delivering (h : Reachable call StoreUndisturbed s) : Delivering s := by
  have hboth : Inv call s ∧ Delivering s := by
    refine h.invariant (P := fun s => Inv call s ∧ Delivering s) ⟨inv_initial, rfl, ?_⟩ ?_
    · exact fun _ _ _ hpc => by cases hpc
    · intro s e s' ⟨hi, hd⟩ hguard hstep
      exact ⟨inv_step hi hstep, delivering_step hi hd hguard hstep⟩
  exact hboth.2

/-- In every run whose interrupts spare the stores of the fill count, the card gets
the accepted words in order, each once, and the buffer is never overfull. -/
theorem sent_in_order (call : ι → WriteCall) (s : State ι)
    (h : Reachable call StoreUndisturbed s) :
    s.dev.sent <+: s.dev.accepted ∧ 0 ≤ s.dev.currentBufNum ∧
      s.dev.currentBufNum ≤ bufSize :=
  ⟨⟨_, (reachable_delivering h).conserved⟩, (reachable_inv h).range⟩

end Runs

theorem storeUndisturbed_write [DecidableEq ι] (s : State ι) (w : ι)
    (_ : (s.writers w).pc ≠ .loadClamp) : StoreUndisturbed s (.write w) :=
  fun h => by cases h.1

theorem sent_in_order_block : ∃ s : State (Fin 1), s.dev.sent.length = bufSize ∧
    s.dev.sent <+: s.dev.accepted ∧ 0 ≤ s.dev.currentBufNum ∧
      s.dev.currentBufNum ≤ bufSize := by
  obtain ⟨s₁, h₁, -, hnum, hsent, -, hdone, -⟩ :=
    reach_accept (fun _ => block) (s := initial) (w := (0 : Fin 1))
      storeUndisturbed_write rfl rfl (by decide) (by decide)
  have hguard : StoreUndisturbed s₁ (.interrupt 3) := by
    intro _ w count num hpc
    obtain rfl : w = 0 := Subsingleton.elim _ _
    rw [hpc] at hdone
    cases hdone
  obtain ⟨s₂, h₂, -, -, -, hlength, -⟩ := reach_drain (fun _ => block) _ hguard hnum
  refine ⟨s₂, ?_, sent_in_order _ s₂ (h₁.trans h₂)⟩
  rw [hlength, hsent]
  rfl

/-- The interrupt that falls between the load and the store of the second call gives
the card the third call's words; the store brings them back and they are sent again. -/
theorem sent_in_order_refilled_false :
    ∃ s, Reachable (fun _ : Fin 3 => block) anyEvent s ∧ ¬ s.dev.sent <+: s.dev.accepted := by
  obtain ⟨s₁, h₁, -, hfull₁, hsent₁, hacc₁, hw₁⟩ := reach_refilled
  obtain ⟨s₂, h₂, -, -, hacc₂, hsent₂, hw₂⟩ :=
    reach_drain (fun _ : Fin 3 => block) anyEvent (s := s₁) trivial hfull₁
  have hpc : (s₂.writers 1).pc = .storeNum 0 bufSize := by rw [hw₂, hw₁]; rfl
  obtain ⟨s₃, h₃, hfull₃, hsent₃, hacc₃, -⟩ :=
    reach_finish (fun _ : Fin 3 => block) anyEvent_write hpc
  obtain ⟨s₄, h₄, -, -, hacc₄, hsent₄, -⟩ :=
    reach_drain (fun _ : Fin 3 => block) anyEvent (s := s₃) trivial hfull₃
  refine ⟨s₄, h₁.trans (h₂.trans (h₃.trans h₄)), ?_⟩
  intro hbegins
  have hle := hbegins.length_le
  rw [hsent₄, hacc₄, hsent₃, hacc₃, hsent₂, hsent₁, hacc₂] at hle
  simp [hacc₁, bufSize] at hle

end CncCard.Driver
