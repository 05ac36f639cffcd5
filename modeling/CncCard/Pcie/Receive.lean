import CncCard.Pcie.Header
import CncCard.Pcie.Rsstinf

/-!
The receive side from the Avalon-ST port on: `rsstinf`, the queue `fifo1` and `rxproc`. The
first word in the queue is what the port carried in the cycle before its first valid beat, and
`rxproc` takes no word out of the queue unless the one at its head starts a packet.
-/

namespace CncCard.Pcie
open Clocked

/-- The fields of a word of `fifo1`, as `rxproc` takes them apart. -/
def RxWord.unpack (w : BitVec 96) : RxWord where
  data := w.extractLsb 63 0
  be := w.extractLsb 71 64
  bardec := w.extractLsb 79 72
  valid := w.getLsbD 80
  err := w.getLsbD 81
  sop := w.getLsbD 82
  eop := w.getLsbD 83

/-- `rsstinf`, and `rxproc` with its queue behind it. -/
structure Receiver where
  port : Rsstinf
  rx : RxPath

structure ReceiverInput where
  port : RsstinfInput
  stale : RxWord
  extdfer : Bool
  memrdack : Bool
  dmardfifodw : BitVec 9

def Receiver.arrival (s : Receiver) (i : ReceiverInput) : Option RxWord :=
  if Rsstinf.fifowr i.port then some (.unpack s.port.fifodq) else none

def Receiver.rxInput (s : Receiver) (i : ReceiverInput) : RxPathInput where
  arrival := s.arrival i
  stale := i.stale
  extdfer := i.extdfer
  memrdack := i.memrdack
  dmardfifodw := i.dmardfifodw

def receiver (s : Receiver) (i : ReceiverInput) : Receiver where
  port := rsstinf s.port i.port
  rx := rxPath s.rx (s.rxInput i)

namespace Receiver

def reset (core : Rxproc) : Receiver := ⟨.reset, ⟨.empty, core.reset⟩⟩

def run (core : Rxproc) (inp : Nat → ReceiverInput) : Nat → Receiver :=
  trace receiver (reset core) inp

/-- The port shows the start of a packet in the cycle before its first valid beat, and another
valid beat comes behind that one. -/
def Primed (inp : Nat → ReceiverInput) : Prop :=
  ∃ t u, (∀ k ≤ t, (inp k).port.rxSt.valid = false) ∧ (inp t).port.rxSt.sop = true ∧
    (inp (t + 1)).port.rxSt.valid = true ∧ t + 1 < u ∧ (inp u).port.rxSt.valid = true

/-- The words that `rsstinf` has given to the queue. -/
def given (core : Rxproc) (inp : Nat → ReceiverInput) : Nat → List RxWord :=
  log fun t => ((run core inp t).arrival (inp t)).toList

/-- `rxproc` does nothing, and the queue fills up. -/
structure Deaf (core : Rxproc) (inp : Nat → ReceiverInput) : Prop where
  idle : ∀ t, (run core inp t).rx.core.preState = .idle
  quiet : ∀ t, (run core inp t).rx.core.fiford = false ∧ (run core inp t).rx.core.extWr = false ∧
    (run core inp t).rx.core.memrdrq = false ∧ (run core inp t).rx.core.dmardfifowr = false
  kept : ∀ t, (run core inp t).rx.fifo.words = (given core inp t).take 1024

theorem unpack_pack_sop (i : RxSt) : (RxWord.unpack i.pack).sop = i.sop := by
  simp only [RxWord.unpack, RxSt.pack]
  iterate 6 rw [BitVec.getLsbD_append]
  cases i.sop <;> rfl

/-- A queue that nobody reads keeps the first words that come. -/
theorem words_clock_unread {α : Type*} {depth : Nat} {f : Fifo α depth} {l : List α}
    (h : f.words = l.take depth) (wrreq : Option α) :
    (f.clock wrreq false).words = (l ++ wrreq.toList).take depth := by
  have hlength : f.words.length = min depth l.length := by rw [h, List.length_take]
  rw [Fifo.clock_words_idle, Fifo.accepted, List.take_append, ← h]
  congr 1
  split
  · next hroom =>
      have hshort : wrreq.toList.length ≤ depth - l.length := by
        have hone : wrreq.toList.length ≤ 1 := by cases wrreq <;> simp
        omega
      rw [List.take_of_length_le hshort]
  · next hfull =>
      have hnone : depth - l.length = 0 := by omega
      rw [hnone, List.take_zero]

section Run

variable (core : Rxproc) (inp : Nat → ReceiverInput)

theorem run_succ (t : Nat) : run core inp (t + 1) = receiver (run core inp t) (inp t) := rfl

theorem given_succ (t : Nat) : given core inp (t + 1) =
    given core inp t ++ ((run core inp t).arrival (inp t)).toList := rfl

theorem fifodq_succ (t : Nat) :
    (run core inp (t + 1)).port.fifodq = (inp t).port.rxSt.pack := rfl

variable {core inp} {n : Nat}

/-- Before `rxproc` leaves `IDLE` the queue has kept all that was given to it. -/
theorem words_of_idle (hidle : ∀ k < n, (run core inp k).rx.core.preState = .idle) :
    (run core inp n).rx.fifo.words = (given core inp n).take 1024 := by
  induction n with
  | zero => rfl
  | succ n ih =>
      have hunread : (run core inp n).rx.core.fiford = false := by
        rw [Rxproc.fiford, hidle n (Nat.lt_succ_self n)]
        rfl
      have hwords := ih fun k hk => hidle k (Nat.lt_succ_of_lt hk)
      rw [run_succ, given_succ]
      change ((run core inp n).rx.fifo.clock _ (run core inp n).rx.core.fiford).words = _
      rw [hunread]
      exact words_clock_unread hwords _

theorem given_of_silent (hsilent : ∀ k < n, (inp k).port.rxSt.valid = false) :
    given core inp n = [] :=
  log_eq_nil fun k hk => by rw [arrival, Rsstinf.fifowr, hsilent k hk]; rfl

/-- What is given from the first valid beat on starts with the word of the cycle before it. -/
theorem given_of_first {a : Nat} (hsilent : ∀ k < a, (inp k).port.rxSt.valid = false)
    (hvalid : (inp a).port.rxSt.valid = true) (han : a < n) :
    given core inp n = RxWord.unpack (run core inp a).port.fifodq ::
      log (fun t => ((run core inp (a + 1 + t)).arrival (inp (a + 1 + t))).toList)
        (n - (a + 1)) := by
  have hfirst : given core inp (a + 1) = [RxWord.unpack (run core inp a).port.fifodq] := by
    rw [given_succ, given_of_silent hsilent, arrival, Rsstinf.fifowr, hvalid]
    rfl
  have hsplit : n = a + 1 + (n - (a + 1)) := by omega
  conv_lhs => rw [hsplit]
  rw [given, log_add, ← given, hfirst]
  rfl

theorem given_of_single {a : Nat} (hsilent : ∀ k < a, (inp k).port.rxSt.valid = false)
    (hvalid : (inp a).port.rxSt.valid = true) (han : a < n)
    (hnone : ∀ k, a < k → k < n → (inp k).port.rxSt.valid = false) :
    given core inp n = [RxWord.unpack (run core inp a).port.fifodq] := by
  have hrest (t : Nat) (ht : t < n - (a + 1)) :
      ((run core inp (a + 1 + t)).arrival (inp (a + 1 + t))).toList = [] := by
    rw [arrival, Rsstinf.fifowr, hnone (a + 1 + t) (by omega) (by omega)]
    rfl
  rw [given_of_first hsilent hvalid han, log_eq_nil hrest]

theorem exists_first_valid {a b : Nat} (hab : a ≤ b) (hb : (inp b).port.rxSt.valid = true) :
    ∃ u, a ≤ u ∧ u ≤ b ∧ (∀ k, a ≤ k → k < u → (inp k).port.rxSt.valid = false) ∧
      (inp u).port.rxSt.valid = true := by
  obtain ⟨u, hau, hbefore, hu⟩ := exists_event (n := a)
    (p := fun t => ∀ k, a ≤ k → k < t → (inp k).port.rxSt.valid = false)
    (e := fun t => (inp t).port.rxSt.valid = true) (fun k hak hka => absurd hka (by omega))
    (fun t _ hnone hlow k hak hkt => by
      cases Nat.lt_or_eq_of_le (Nat.le_of_lt_succ hkt) with
      | inl hlt => exact hnone k hak hlt
      | inr heq => exact heq ▸ eq_false_of_ne_true hlow) ⟨b, hab, hb⟩
  have hfirst := hbefore u hau (Nat.le_refl u)
  refine ⟨u, hau, ?_, hfirst, hu⟩
  by_contra hlate
  rw [hfirst b hab (by omega)] at hb
  cases hb

/-- `rxproc` sees the head of a queue that was not empty one cycle later. -/
theorem rx_of_given {w : RxWord} {ws : List RxWord}
    (hidle : ∀ k < n, (run core inp k).rx.core.preState = .idle)
    (hgiven : given core inp n = w :: ws) : (run core inp (n + 1)).rx.core.rx = w := by
  have hwords := words_of_idle hidle
  rw [hgiven, List.take_succ_cons] at hwords
  have hqueue : w :: ws.take 1023 <+: (run core inp n).rx.fifo.words :=
    ⟨[], by rw [List.append_nil, hwords]⟩
  exact RxPath.rx_rxPath hqueue _

/-- The first step out of `IDLE` is taken on the word of the cycle before the first valid
beat. -/
theorem primed_of_leaves (hidle : ∀ k ≤ n, (run core inp k).rx.core.preState = .idle)
    (hleaves : (run core inp (n + 1)).rx.core.preState ≠ .idle) : Primed inp := by
  have hnext : (run core inp (n + 1)).rx.core.preState =
      (run core inp n).rx.core.nxtState
        ((run core inp n).rx.rxInput ((run core inp n).rxInput (inp n))) := rfl
  rw [hnext, Rxproc.nxtState, hidle n (Nat.le_refl n)] at hleaves
  obtain ⟨hen, hsop⟩ := Bool.and_eq_true_iff.mp (of_not_not fun hlow => hleaves (if_neg hlow))
  have htwo := RxPath.two_le_of_rxen hen
  rw [words_of_idle fun k hk => hidle k (Nat.le_of_lt hk), List.length_take] at htwo
  obtain ⟨b, hbn, hb⟩ : ∃ b, b < n ∧ (inp b).port.rxSt.valid = true := by
    by_contra hno
    rw [given_of_silent fun k hk => eq_false_of_ne_true fun hv => hno ⟨k, hk, hv⟩] at htwo
    exact absurd htwo (by decide)
  obtain ⟨a, -, hab, hbefore, hvalid⟩ := exists_first_valid (Nat.zero_le b) hb
  have hsilent (k : Nat) (hk : k < a) := hbefore k (Nat.zero_le k) hk
  have han : a < n := Nat.lt_of_le_of_lt hab hbn
  obtain ⟨u, hau, hun, hu⟩ : ∃ u, a < u ∧ u < n ∧ (inp u).port.rxSt.valid = true := by
    by_contra hno
    rw [given_of_single hsilent hvalid han fun k hk hkn =>
      eq_false_of_ne_true fun hv => hno ⟨k, hk, hkn, hv⟩] at htwo
    exact absurd htwo (by simp)
  obtain ⟨m, rfl⟩ : ∃ m, n = m + 1 := ⟨n - 1, by omega⟩
  rw [rx_of_given (fun k hk => hidle k (by omega))
    (given_of_first hsilent hvalid (by omega))] at hsop
  cases a with
  | zero =>
      have hword : (run core inp 0).port.fifodq = 0 := rfl
      rw [hword] at hsop
      exact absurd hsop (by decide)
  | succ a =>
      rw [fifodq_succ, unpack_pack_sop] at hsop
      exact ⟨a, u, fun k hk => hsilent k (Nat.lt_succ_of_le hk), hsop, hvalid, hau, hu⟩

theorem leaves_of_primed (hprimed : Primed inp) :
    ∃ t, (run core inp t).rx.core.preState ≠ .idle := by
  obtain ⟨a, b, hsilent, hsop, hfirst, hab, hb⟩ := hprimed
  by_contra hnone
  have hidle (t : Nat) : (run core inp t).rx.core.preState = .idle :=
    of_not_not fun hne => hnone ⟨t, hne⟩
  obtain ⟨u, hau, -, hbetween, hvalid⟩ := exists_first_valid (Nat.succ_le_of_lt hab) hb
  have hgiven := @given_of_single core inp u (a + 1)
    (fun k hk => hsilent k (Nat.le_of_lt_succ hk)) hfirst hau hbetween
  have hrx := rx_of_given (fun k _ => hidle k) hgiven
  have hlength : (run core inp (u + 1)).rx.fifo.words.length = 2 := by
    rw [words_of_idle fun k _ => hidle k, given_succ, hgiven, arrival, Rsstinf.fifowr, hvalid]
    rfl
  have hen : Rxproc.rxen ((run core inp (u + 1)).rx.rxInput
      ((run core inp (u + 1)).rxInput (inp (u + 1)))) = true :=
    RxPath.rxen_rxInput (by omega) (by omega) _
  have hstart : (run core inp (u + 1)).rx.core.rx.sop = true := by
    rw [hrx, fifodq_succ, unpack_pack_sop, hsop]
  have hnext : (run core inp (u + 2)).rx.core.preState =
      (run core inp (u + 1)).rx.core.nxtState
        ((run core inp (u + 1)).rx.rxInput ((run core inp (u + 1)).rxInput (inp (u + 1)))) := rfl
  rw [hidle, Rxproc.nxtState, hidle, hen, hstart] at hnext
  cases hnext

end Run

/-- The card takes no packet at all, unless the port shows the start of a packet in the cycle
before its first valid beat. -/
theorem deaf_iff (core : Rxproc) (inp : Nat → ReceiverInput) :
    Deaf core inp ↔ ¬ Primed inp := by
  constructor
  · intro h hprimed
    obtain ⟨t, ht⟩ := @leaves_of_primed core inp hprimed
    exact ht (h.idle t)
  · intro hunprimed
    have hidle (t : Nat) : (run core inp t).rx.core.preState = .idle := by
      induction t using Nat.strong_induction_on with
      | _ t ih =>
          cases t with
          | zero => rfl
          | succ t =>
              by_contra hleaves
              exact hunprimed (primed_of_leaves (fun k hk => ih k (Nat.lt_succ_of_le hk)) hleaves)
    refine ⟨hidle, fun t => ?_, fun t => words_of_idle fun k _ => hidle k⟩
    rw [Rxproc.fiford, Rxproc.extWr, Rxproc.memrdrq, Rxproc.dmardfifowr, hidle t]
    exact ⟨rfl, rfl, rfl, rfl⟩

end Receiver

end CncCard.Pcie
