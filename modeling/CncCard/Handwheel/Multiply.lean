import CncCard.Clocked.Log
import CncCard.Handwheel.Conservation

/-!
The three multipliers on one sequence of periods, each word being written when the machine is
at rest. A word makes one pulse under `X1`, and six at the most under `X10`.
-/

namespace CncCard
open Clocked
namespace HandWheel

def AtRest (s : HandWheel) : Prop := s.puls.currStateF = .f0 ∧ s.queue.words = []

def writes (inp : Nat → HandWheelInput) : Nat → List (BitVec 22) :=
  log fun t => (inp t).wrreq.toList

/-- The words of `es` are written in their order, each of them when the machine is at rest, and
a machine at rest is not kept from the next one for ever. What the queue still shows at the
start is nothing or as large as they are. -/
structure OneAtATime (m : Nat) (s : HandWheel) (inp : Nat → HandWheelInput)
    (es : List (BitVec 22)) : Prop where
  session : Session m s inp
  shown : s.queue.q = 0 ∨ 32 ≤ s.queue.q.toNat
  waits : ∀ t, (inp t).wrreq ≠ none → AtRest (run s inp t)
  order : ∀ t, writes inp t <+: es
  goesOn : ∀ t, AtRest (run s inp t) → writes inp t ≠ es → ∃ u, t ≤ u ∧ (inp u).wrreq ≠ none

/-- In the end `n` pulses have been made, and there are no more. -/
def Makes (s : HandWheel) (inp : Nat → HandWheelInput) (n : Nat) : Prop :=
  ∃ t, ∀ u, t ≤ u → pulses s inp u = n

section Run

variable {m : Nat} {s : HandWheel} {inp : Nat → HandWheelInput} {es : List (BitVec 22)}

theorem OneAtATime.words_le_one (h : OneAtATime m s inp es) (t : Nat) :
    (run s inp t).queue.words.length ≤ 1 := by
  induction t with
  | zero => rw [run, trace_zero, h.session.idle.queue]; exact Nat.zero_le 1
  | succ t ih =>
      cases hwr : (inp t).wrreq with
      | none =>
          rw [h.session.words_succ_none hwr]
          split
          · exact ((List.drop_sublist 1 _).length_le).trans ih
          · exact ih
      | some e =>
          have hrest := h.waits t (by rw [hwr]; exact Option.some_ne_none e)
          rw [words_succ, hrest.2, List.drop_nil, ite_self, List.nil_append]
          exact Fifo.length_accepted_le _ _

/-- The queue accepts every word, so the words written are those of the log. -/
theorem OneAtATime.written_eq (h : OneAtATime m s inp es) (t : Nat) :
    written s inp t = (writes inp t).length := by
  induction t with
  | zero => rfl
  | succ t ih =>
      have hone := h.words_le_one t
      rw [written, Finset.sum_range_succ, ← written, ih, Fifo.accepted_of_lt (by omega), writes,
        log_succ, List.length_append]

/-- The pulses are bounded by the words, whatever becomes of them. -/
theorem OneAtATime.pulses_le (h : OneAtATime m s inp es) (t : Nat) :
    2 * pulses s inp (t + 1) ≤ m * es.length := by
  have hledger := h.session.ledger t
  have hpopped := popped_add_length s inp t
  rw [h.session.idle.queue, List.length_nil, Nat.zero_add, h.written_eq] at hpopped
  have hread : m * popped s inp t ≤ m * es.length :=
    Nat.mul_le_mul_left m (le_trans (by omega) (h.order t).length_le)
  have hbit := Bool.toNat_le (run s inp t).puls.p
  have heven : (m * es.length) % 2 = 0 := by
    rw [Nat.mul_mod, h.session.isMultiplier.even, Nat.zero_mul, Nat.zero_mod]
  have hpulses := h.session.pulses_succ t
  omega

/-- The words are as large as those of the sequence. -/
theorem OneAtATime.mem (h : OneAtATime m s inp es) {t : Nat} {e : BitVec 22}
    (hwr : (inp t).wrreq = some e) : e ∈ es := by
  have hlast : e ∈ writes inp (t + 1) := by
    rw [writes, log_succ, hwr]
    exact List.mem_append_right _ (List.mem_singleton_self e)
  exact (h.order (t + 1)).subset hlast

/-- A visit with the period that comes of the word comes to its end. -/
def Fits (m : Nat) (e : BitVec 22) : Prop := e.toNat / m = 1 ∨ m < e.toNat / m

theorem fits_two {e : BitVec 22} (h : 32 ≤ e.toNat) : Fits 2 e := by
  refine .inr ?_
  omega

structure Fitting (m : Nat) (s : HandWheel) : Prop where
  words : ∀ e ∈ s.queue.words, Fits m e
  shown : s.queue.q = 0 ∨ Fits m s.queue.q
  period : s.puls.qIn = 0 ∨ s.puls.qIn = 1 ∨ m < s.puls.qIn

theorem Fitting.step (h : Fitting m s) (hc0 : s.puls.c0 = m) {i : HandWheelInput}
    (hentry : ∀ e, i.wrreq = some e → Fits m e) : Fitting m (s.step i) where
  words := Fifo.forall_clock h.words hentry _
  shown := RegFifo.clock_q_of_forall (P := fun w => w = 0 ∨ Fits m w)
    (fun w hw => .inr (h.words w hw)) h.shown _ _
  period := by
    rw [HandWheel.step, PulsHw.clock]
    cases s.puls.nextStateF s.queue.isEmpty with
    | f0 => exact .inl rfl
    | f1 =>
        rw [PulsHw.drive, hc0]
        refine h.shown.imp (fun hzero => ?_) id
        rw [hzero]
        exact Nat.zero_div m
    | f2 | f3 => exact h.period

theorem OneAtATime.fitting (h : OneAtATime m s inp es) (hfits : ∀ e ∈ es, Fits m e)
    (hshown : s.queue.q = 0 ∨ Fits m s.queue.q) (t : Nat) : Fitting m (run s inp t) := by
  induction t with
  | zero =>
      refine ⟨fun e he => ?_, hshown, .inl h.session.idle.qIn⟩
      rw [run, trace_zero, h.session.idle.queue] at he
      exact absurd he List.not_mem_nil
  | succ t ih => exact ih.step (h.session.selected t) fun e hwr => hfits e (h.mem hwr)

/-- With one word at a time, every visit is served if no word brings it to a stop. -/
theorem OneAtATime.served (h : OneAtATime m s inp es) (hfits : ∀ e ∈ es, Fits m e)
    (hshown : s.queue.q = 0 ∨ Fits m s.queue.q) (t : Nat) : Served (run s inp t) (inp t) where
  entry _ hwords := by
    have hone := h.words_le_one t
    have hpos := List.length_pos_of_ne_nil hwords
    exact ⟨by omega, not_not.mp fun hwr => hwords (h.waits t hwr).2⟩
  reading hcurr _ := by
    refine not_not.mp fun hwr => ?_
    have hrest := (h.waits t hwr).1
    rw [hcurr] at hrest
    cases hrest
  period _ _ := by
    rw [h.session.selected]
    have hperiod := (h.fitting hfits hshown t).period
    omega

theorem OneAtATime.stops (h : OneAtATime m s inp es) :
    ∃ n, ∀ t, n ≤ t → (inp t).wrreq = none := by
  obtain ⟨n, hn⟩ := log_stops h.order
  exact ⟨n, fun t hnt => Option.toList_eq_nil_iff.mp (hn t hnt)⟩

/-- All words are written in the end, and each makes half as many pulses as there are toggles:
1 under `X1`, 6 under `X10` and 16 under `X100`. -/
theorem OneAtATime.makes (h : OneAtATime m s inp es) (hfits : ∀ e ∈ es, Fits m e)
    (hshown : s.queue.q = 0 ∨ Fits m s.queue.q) : Makes s inp (m / 2 * es.length) := by
  have hserved := h.served hfits hshown
  obtain ⟨n, hstop⟩ := h.stops
  obtain ⟨k, hconserved⟩ := h.session.conserved_of_served hserved hstop
  obtain ⟨r, hnr, hstate, hwords⟩ := h.session.drained hserved hstop
  have hstopped (u : Nat) (hru : r ≤ u) := hstop u (Nat.le_trans hnr hru)
  have hall : writes inp r = es := by
    by_contra hleft
    obtain ⟨u, hru, hwr⟩ := h.goesOn r ⟨hstate, hwords⟩ hleft
    exact hwr (hstopped u hru)
  refine ⟨max k r, fun u hu => ?_⟩
  have hpulses := (hconserved u (Nat.le_trans (Nat.le_max_left k r) hu)).2.2
  have hsilent : writes inp u = writes inp r :=
    log_silent (Nat.le_trans (Nat.le_max_right k r) hu) fun t hrt _ =>
      Option.toList_eq_nil_iff.mpr (hstopped t hrt)
  rw [h.written_eq, hsilent, hall] at hpulses
  have hhalf : 2 * (m / 2) = m := by
    have heven := h.session.isMultiplier.even
    omega
  refine Nat.eq_of_mul_eq_mul_left Nat.two_pos ?_
  rw [hpulses, ← Nat.mul_assoc, hhalf]

theorem Makes.unique {n n' : Nat} (h : Makes s inp n) (h' : Makes s inp n') : n = n' := by
  obtain ⟨t, ht⟩ := h
  obtain ⟨t', ht'⟩ := h'
  rw [← ht (max t t') (Nat.le_max_left t t'), ht' (max t t') (Nat.le_max_right t t')]

theorem OneAtATime.makes_le (h : OneAtATime m s inp es) {n : Nat} (hn : Makes s inp n) :
    2 * n ≤ m * es.length := by
  obtain ⟨t, ht⟩ := hn
  rw [← ht (t + 1) (Nat.le_succ t)]
  exact h.pulses_le t

theorem OneAtATime.makes_nil (h : OneAtATime m s inp []) : Makes s inp 0 := by
  refine ⟨1, fun u hu => ?_⟩
  obtain ⟨u, rfl⟩ := Nat.exists_eq_add_of_le' hu
  have hle := h.pulses_le u
  rw [List.length_nil, Nat.mul_zero] at hle
  omega

end Run

/-- Behind the reset, with the switches debounced that are held. -/
def resetHeld (x1 x10 x100 : Bool) : HandWheel where
  puls :=
    { currStateF := .f0, fTimer := false
      c0 := if x1 then 2 else if x10 then 12 else if x100 then 32 else 0
      c1 := 0, sum := 0, p := false, qOut := 0, qIn := 0, qSign := false
      x1 := ⟨0, x1⟩, x10 := ⟨0, x10⟩, x100 := ⟨0, x100⟩, rdreq := false, pulsOut := false }
  queue := ⟨.empty, 0⟩

/-- One word is written in the first cycle, and the switches stay as they are. -/
def writesHeld (x1 x10 x100 : Bool) (e : BitVec 22) (t : Nat) : HandWheelInput :=
  ⟨if t = 0 then some e else none, !x1, !x10, !x100⟩

section Held

variable (x1 x10 x100 : Bool) {m : Nat} {e : BitVec 22}

theorem writes_held (t : Nat) : writes (writesHeld x1 x10 x100 e) (t + 1) = [e] := by
  rw [writes, log_silent (Nat.succ_le_succ (Nat.zero_le t)) fun k hk _ => ?_]
  · rfl
  · rw [writesHeld, if_neg (Nat.ne_of_gt hk)]
    rfl

theorem oneAtATime_held (hm : (resetHeld x1 x10 x100).puls.c0 = m) (hpos : 0 < m)
    (hle : m ≤ e.toNat) :
    OneAtATime m (resetHeld x1 x10 x100) (writesHeld x1 x10 x100 e) [e] where
  session := by
    subst hm
    refine session_held ⟨rfl, rfl, rfl, rfl, rfl, rfl, rfl, rfl⟩ rfl hpos (fun _ => rfl)
      (fun _ => rfl) (fun _ => rfl) fun t w hwr => ?_
    rw [writesHeld] at hwr
    split at hwr
    · exact Option.some.inj hwr ▸ hle
    · cases hwr
  shown := .inl rfl
  waits t hwr := by
    cases t with
    | zero => exact ⟨rfl, rfl⟩
    | succ t => exact absurd rfl hwr
  order t := by
    cases t with
    | zero => exact List.nil_prefix
    | succ t => rw [writes_held]
  goesOn t _ hleft := by
    cases t with
    | zero => exact ⟨0, Nat.le_refl 0, Option.some_ne_none e⟩
    | succ t => exact absurd (writes_held x1 x10 x100 t) hleft

end Held

section Multiply

variable {s1 s10 s100 : HandWheel} {inp1 inp10 inp100 : Nat → HandWheelInput}
  {es : List (BitVec 22)}

/-- The pulses under `X10` and `X100` are 10 and 100 times those under `X1`. -/
def Multiplied (s1 s10 s100 : HandWheel) (inp1 inp10 inp100 : Nat → HandWheelInput) : Prop :=
  ∃ n, Makes s1 inp1 n ∧ Makes s10 inp10 (10 * n) ∧ Makes s100 inp100 (100 * n)

theorem not_multiplied (hlarge : ∀ e ∈ es, 32 ≤ e.toNat) (hne : es ≠ [])
    (h1 : OneAtATime 2 s1 inp1 es) (h10 : OneAtATime 12 s10 inp10 es) :
    ¬ Multiplied s1 s10 s100 inp1 inp10 inp100 := by
  rintro ⟨n, hx1, hx10, -⟩
  have hn : n = 2 / 2 * es.length :=
    hx1.unique (h1.makes (fun e he => fits_two (hlarge e he)) (h1.shown.imp_right fits_two))
  have hle := h10.makes_le hx10
  have hpos := List.length_pos_of_ne_nil hne
  omega

/-- The multipliers do not multiply by what they are called, whatever they are given. -/
theorem multiplied_iff (hlarge : ∀ e ∈ es, 32 ≤ e.toNat) (h1 : OneAtATime 2 s1 inp1 es)
    (h10 : OneAtATime 12 s10 inp10 es) (h100 : OneAtATime 32 s100 inp100 es) :
    Multiplied s1 s10 s100 inp1 inp10 inp100 ↔ es = [] := by
  constructor
  · intro h
    by_contra hne
    exact not_multiplied hlarge hne h1 h10 h
  · rintro rfl
    exact ⟨0, h1.makes_nil, h10.makes_nil, h100.makes_nil⟩

end Multiply

/-- The period 1056 fits all three multipliers. -/
theorem multiplied_iff_held :
    Multiplied (resetHeld true false false) (resetHeld false true false)
      (resetHeld false false true) (writesHeld true false false 1056)
      (writesHeld false true false 1056) (writesHeld false false true 1056) ↔
        [(1056 : BitVec 22)] = [] :=
  multiplied_iff (by simp) (oneAtATime_held true false false rfl (by decide) (by decide))
    (oneAtATime_held false true false rfl (by decide) (by decide))
    (oneAtATime_held false false true rfl (by decide) (by decide))

theorem not_multiplied_held :
    ¬ Multiplied (resetHeld true false false) (resetHeld false true false)
      (resetHeld false false true) (writesHeld true false false 1056)
      (writesHeld false true false 1056) (writesHeld false false true 1056) :=
  not_multiplied (by simp) (List.cons_ne_nil _ _)
    (oneAtATime_held true false false rfl (by decide) (by decide))
    (oneAtATime_held false true false rfl (by decide) (by decide))

end HandWheel

end CncCard
