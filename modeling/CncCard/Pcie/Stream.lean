import CncCard.Clocked.Log
import CncCard.Pcie.Header

/-!
Streams of packets through `rxproc`. What has been read of the stream and what waits in
the queue are always its beginning, so the place of `rxproc` in the stream is the number
of words that it has read.
-/

namespace CncCard.Pcie
open Clocked

/-- The words behind the first one of a packet. -/
def marked : List RxWord → List RxWord
  | [] => []
  | w :: ws => w.mark false ws.isEmpty :: marked ws

/-- A packet of at least two words. -/
structure Tlp where
  first : RxWord
  second : RxWord
  rest : List RxWord

namespace Tlp

variable (p : Tlp)

def head1 : RxWord := p.first.mark true false
def head2 : RxWord := p.second.mark false p.rest.isEmpty

/-- The words of the packet as `fifo1` holds them. -/
def words : List RxWord := p.head1 :: marked (p.second :: p.rest)

theorem words_eq : p.words = p.head1 :: p.head2 :: marked p.rest := rfl

def type : BitVec 5 := p.first.data.extractLsb 28 24
def withData : Bool := p.first.data.getLsbD 30
def isRead : Bool := (p.type == 0b00000 || p.type == 0b00001) && !p.withData
def isWrite : Bool := p.type == 0b00000 && p.withData
def isCpld : Bool := (p.type == 0b01010 || p.type == 0b01011) && p.withData

/-- The payload begins in the second word: the header is short and the address is odd in
double words. -/
def inSecond : Bool :=
  !p.first.data.getLsbD 29 && (headerAddress p.first.data p.second.data).getLsbD 2

def target : BitVec 22 :=
  (headerAddress p.first.data p.second.data).extractLsb 21 2 ++ 0#2

end Tlp

/-- What `WAITST1` makes of a packet. -/
theorem RxPath.HeaderRead.nxtState {s : RxPath} {p : Tlp} {w₁ w₂ : RxWord} {queue : List RxWord}
    (h : RxPath.HeaderRead s w₁ w₂ queue) (h₁ : w₁.data = p.first.data)
    (h₂ : w₂.data = p.second.data) (i : RxInput) :
    s.core.nxtState i =
      if p.isWrite then if p.inSecond then .datast2 else .datast1
      else if p.isRead then .memrdst1
      else if s.core.cpldsel then .cpldwaitst1 else .unsp1 := by
  have hhead : s.core.headrega = p.first.data := h.header.headrega.trans h₁
  have hwr : s.core.memwrsel = p.isWrite := by
    rw [Rxproc.memwrsel, Rxproc.type, Rxproc.withData, hhead]
    rfl
  have hrd : s.core.memrdsel = p.isRead := by
    rw [Rxproc.memrdsel, Rxproc.type, Rxproc.withData, hhead]
    rfl
  have hsecond : (s.core.addr.getLsbD 2 && s.core.dw3sel) = p.inSecond := by
    rw [h.header.addr, Rxproc.dw3sel, hhead, h₁, h₂, Bool.and_comm]
    rfl
  simp only [Rxproc.nxtState, h.at_waitst1.state, hwr, hrd, Bool.and_assoc, hsecond]
  cases p.isWrite <;> simp

namespace RxPath

def consumed (s : RxPath) (inp : Nat → RxPathInput) : Nat → List RxWord :=
  log fun t => (trace rxPath s inp t).fifo.taken (trace rxPath s inp t).core.fiford

def received (s : RxPath) (inp : Nat → RxPathInput) : Nat → List RxWord :=
  log fun t => (trace rxPath s inp t).fifo.accepted (inp t).arrival

variable (s : RxPath) (inp : Nat → RxPathInput)

theorem consumed_append_words (n : Nat) :
    consumed s inp n ++ (trace rxPath s inp n).fifo.words =
      s.fifo.words ++ received s inp n := by
  induction n with
  | zero => exact (List.append_nil _).symm
  | succ n ih =>
      rw [consumed, received, log_succ, log_succ, ← consumed, ← received, ← List.append_assoc,
        ← ih, List.append_assoc, List.append_assoc]
      exact congrArg _ (Fifo.taken_append_clock _ _ _)

variable {s} in
theorem taken_of_quiet (h : s.core.fiford = false) : s.fifo.taken s.core.fiford = [] := by
  rw [h]
  rfl

end RxPath

/-- `rxproc` in `IDLE`, and a stream of packets that comes to its queue at any time. The
queue asks for a pause at 700 words, so it is never full. -/
structure Feed where
  start : RxPath
  inp : Nat → RxPathInput
  tlps : Nat → Tlp
  idle : start.core.preState = .idle
  fed : ∀ n, ∃ m,
    start.fifo.words ++ RxPath.received start inp n <+: log (fun k => (tlps k).words) m
  flow : ∀ n, (trace rxPath start inp n).fifo.words.length < 1024

namespace Feed

variable (f : Feed)

def run : Nat → RxPath := trace rxPath f.start f.inp

def consumed : Nat → List RxWord := RxPath.consumed f.start f.inp

def stream : Nat → List RxWord := log fun k => (f.tlps k).words

def Arrived (k : Nat) : Prop :=
  ∃ n, f.stream k <+: f.start.fifo.words ++ RxPath.received f.start f.inp n

theorem stream_succ (k : Nat) : f.stream (k + 1) = f.stream k ++ (f.tlps k).words := rfl

theorem run_succ (t : Nat) : f.run (t + 1) = rxPath (f.run t) (f.inp t) := rfl

theorem run_add (t k : Nat) :
    f.run (t + k) = trace rxPath (f.run t) (fun j => f.inp (t + j)) k :=
  trace_add _ _ _ _ _

theorem nxtState_run (t : Nat) :
    (f.run (t + 1)).core.preState = (f.run t).core.nxtState ((f.run t).rxInput (f.inp t)) := rfl

theorem consumed_succ (t : Nat) : f.consumed (t + 1) =
    f.consumed t ++ (f.run t).fifo.taken (f.run t).core.fiford := rfl

theorem consumed_append_words (n : Nat) : f.consumed n ++ (f.run n).fifo.words =
    f.start.fifo.words ++ RxPath.received f.start f.inp n :=
  RxPath.consumed_append_words _ _ _

variable {f} {n k : Nat} {part rest : List RxWord}

/-- What waits in the queue goes on where the reading has come to. -/
theorem queue_begins (hread : f.consumed n = f.stream k ++ part)
    (hrest : (f.tlps k).words = part ++ rest) :
    ∃ more, (f.run n).fifo.words <+: rest ++ more := by
  obtain ⟨m, hm⟩ := f.fed n
  have hlater : log (fun j => (f.tlps j).words) m <+: f.stream (k + 1 + m) :=
    log_begins _ (by omega)
  obtain ⟨more, hmore⟩ : f.stream (k + 1) <+: f.stream (k + 1 + m) :=
    log_begins _ (Nat.le_add_right _ _)
  refine ⟨more, ?_⟩
  have hall := hm.trans hlater
  rw [← f.consumed_append_words, ← hmore, stream_succ, hread, hrest, List.append_assoc,
    List.append_assoc, List.append_assoc, List.prefix_append_right_inj,
    List.prefix_append_right_inj] at hall
  exact hall

/-- A word that waits in the queue is the next one of its packet. -/
theorem head_of_ne_nil {w : RxWord} {ws : List RxWord}
    (hread : f.consumed n = f.stream k ++ part) (hrest : (f.tlps k).words = part ++ w :: ws)
    (hqueue : (f.run n).fifo.words ≠ []) : [w] <+: (f.run n).fifo.words := by
  obtain ⟨more, hbegins⟩ := queue_begins hread hrest
  cases hwords : (f.run n).fifo.words with
  | nil => exact absurd hwords hqueue
  | cons q qs =>
      rw [hwords, List.cons_append, List.cons_prefix_cons] at hbegins
      rw [hbegins.1]
      exact List.prefix_append [w] qs

theorem header_of_two (hread : f.consumed n = f.stream k)
    (hqueue : 2 ≤ (f.run n).fifo.words.length) :
    [(f.tlps k).head1, (f.tlps k).head2] <+: (f.run n).fifo.words := by
  have hbetween : f.consumed n = f.stream k ++ [] := by rw [hread, List.append_nil]
  obtain ⟨more, hbegins⟩ := queue_begins hbetween (Tlp.words_eq _)
  match hwords : (f.run n).fifo.words with
  | [] => rw [hwords] at hqueue; cases hqueue
  | [_] => rw [hwords] at hqueue; exact absurd hqueue (by simp)
  | q :: q' :: qs =>
      rw [hwords, List.cons_append, List.cons_append, List.cons_prefix_cons,
        List.cons_prefix_cons] at hbegins
      rw [hbegins.1, hbegins.2.1]
      exact List.prefix_append [_, _] qs

theorem consumed_of_quiet {t : Nat} (h : (f.run t).core.fiford = false) :
    f.consumed (t + 1) = f.consumed t := by
  rw [consumed_succ, RxPath.taken_of_quiet h, List.append_nil]

theorem consumed_of_pop {t : Nat} {w : RxWord} (h : (f.run t).core.fiford = true)
    (hqueue : [w] <+: (f.run t).fifo.words) : f.consumed (t + 1) = f.consumed t ++ [w] := by
  obtain ⟨qs, hqs⟩ := hqueue
  rw [consumed_succ, h, Fifo.taken, if_pos rfl, ← hqs]
  rfl

theorem at_peek {t : Nat} {st st' : RxState} {rx q : RxWord} {qs : List RxWord}
    (h : RxPath.At (f.run t) st rx (q :: qs)) (hread : (f.run t).core.fiford = false)
    (hnext : (f.run t).core.nxtState ((f.run t).rxInput (f.inp t)) = st') :
    RxPath.At (f.run (t + 1)) st' q (q :: qs) := by
  rw [← hnext]
  exact h.peek hread (f.inp t)

theorem at_pop {t : Nat} {st st' : RxState} {rx q : RxWord} {qs : List RxWord}
    (h : RxPath.At (f.run t) st rx (q :: qs)) (hread : (f.run t).core.fiford = true)
    (hnext : (f.run t).core.nxtState ((f.run t).rxInput (f.inp t)) = st') :
    RxPath.At (f.run (t + 1)) st' q qs := by
  rw [← hnext]
  exact h.pop hread (f.inp t)

theorem fiford_of_idle {t : Nat} (h : (f.run t).core.preState = .idle) :
    (f.run t).core.fiford = false := by
  rw [Rxproc.fiford, h]
  rfl

theorem length_queue_of_arrived {T : Nat} (hread : f.consumed n = f.stream k)
    (harrived : f.stream (k + 1) <+: f.start.fifo.words ++ RxPath.received f.start f.inp T)
    (hle : T ≤ n) : 2 ≤ (f.run n).fifo.words.length := by
  have hgrows : RxPath.received f.start f.inp T <+: RxPath.received f.start f.inp n :=
    log_begins _ hle
  have hall := harrived.trans ((List.prefix_append_right_inj _).mpr hgrows)
  rw [← f.consumed_append_words, hread, stream_succ, List.prefix_append_right_inj] at hall
  exact Nat.le_trans (by simp [Tlp.words_eq]) hall.length_le

theorem idle_ends (hidle : (f.run n).core.preState = .idle) (hread : f.consumed n = f.stream k)
    (harrived : f.Arrived (k + 1)) : ∃ t, n ≤ t ∧ (f.run (t + 1)).core.preState ≠ .idle := by
  by_contra hnone
  push Not at hnone
  have hforever (t : Nat) (hle : n ≤ t) :
      (f.run t).core.preState = .idle ∧ f.consumed t = f.stream k := by
    induction t, hle using Nat.le_induction with
    | base => exact ⟨hidle, hread⟩
    | succ t hle ih => exact ⟨hnone t hle, (consumed_of_quiet (fiford_of_idle ih.1)).trans ih.2⟩
  obtain ⟨T, hT⟩ := harrived
  obtain ⟨t, hn, hTt⟩ : ∃ t, n ≤ t ∧ T ≤ t := ⟨max n T, le_max_left _ _, le_max_right _ _⟩
  have hqueue := length_queue_of_arrived (hforever t hn).2 hT hTt
  have hrx : (f.run (t + 1)).core.rx = (f.tlps k).head1 :=
    RxPath.rx_rxPath (header_of_two (hforever t hn).2 hqueue) _
  have hlater := hforever (t + 1) (Nat.le_succ_of_le hn)
  have hen := RxPath.rxen_rxInput
    (length_queue_of_arrived hlater.2 hT (Nat.le_succ_of_le hTt)) (f.flow (t + 1)) (f.inp (t + 1))
  have hstay := hnone (t + 1) (Nat.le_succ_of_le hn)
  have hsop : (f.tlps k).head1.sop = true := rfl
  rw [nxtState_run, Rxproc.nxtState, hlater.1] at hstay
  simp only [hen, hrx, hsop, Bool.and_self, if_true, reduceCtorEq] at hstay

/-- Between packets `rxproc` waits in `IDLE` until the header of the next one is there,
and then turns to it. -/
theorem leave_idle (hidle : (f.run n).core.preState = .idle) (hread : f.consumed n = f.stream k)
    (harrived : f.Arrived (k + 1)) :
    ∃ u, n ≤ u ∧ (∀ t, n ≤ t → t ≤ u → (f.run t).core.preState = .idle) ∧
      RxPath.At (f.run (u + 1)) .rdhead1 (f.tlps k).head1 [(f.tlps k).head1, (f.tlps k).head2] ∧
      f.consumed (u + 1) = f.stream k := by
  obtain ⟨u, hle, hwaits, hleaves⟩ := exists_event (n := n)
    (p := fun t => (f.run t).core.preState = .idle ∧ f.consumed t = f.stream k)
    (e := fun t => (f.run (t + 1)).core.preState ≠ .idle) ⟨hidle, hread⟩
    (fun t _ hp hstay =>
      ⟨not_not.mp hstay, (consumed_of_quiet (fiford_of_idle hp.1)).trans hp.2⟩)
    (idle_ends hidle hread harrived)
  obtain ⟨hstate, hreads⟩ := hwaits u hle (Nat.le_refl u)
  refine ⟨u, hle, fun t hn hu => (hwaits t hn hu).1, ?_,
    (consumed_of_quiet (fiford_of_idle hstate)).trans hreads⟩
  simp only [nxtState_run, Rxproc.nxtState, hstate] at hleaves
  have hgo : (Rxproc.rxen ((f.run u).rxInput (f.inp u)) && (f.run u).core.rx.sop) = true := by
    by_contra hstay
    exact hleaves (if_neg hstay)
  have hqueue : 2 ≤ (f.run u).fifo.words.length :=
    RxPath.two_le_of_rxen (Bool.and_eq_true_iff.mp hgo).1
  have hat : RxPath.At (f.run u) .idle (f.run u).core.rx [(f.tlps k).head1, (f.tlps k).head2] :=
    ⟨hstate, rfl, header_of_two hreads hqueue⟩
  apply at_peek hat (fiford_of_idle hstate)
  rw [Rxproc.nxtState, hstate]
  exact if_pos hgo

theorem header_states {u : Nat} (h : (f.run u).core.preState = .rdhead1) :
    (f.run (u + 1)).core.preState = .headpro1 ∧ (f.run (u + 2)).core.preState = .rdhead2 ∧
      (f.run (u + 3)).core.preState = .headpro2 ∧ (f.run (u + 4)).core.preState = .waitst1 := by
  have h₁ : (f.run (u + 1)).core.preState = .headpro1 := by
    rw [nxtState_run, Rxproc.nxtState, h]
  have h₂ : (f.run (u + 2)).core.preState = .rdhead2 := by
    rw [nxtState_run, Rxproc.nxtState, h₁]
  have h₃ : (f.run (u + 3)).core.preState = .headpro2 := by
    rw [nxtState_run, Rxproc.nxtState, h₂]
  refine ⟨h₁, h₂, h₃, ?_⟩
  rw [nxtState_run, Rxproc.nxtState, h₃]

theorem read_header {u : Nat}
    (h : RxPath.At (f.run u) .rdhead1 (f.tlps k).head1 [(f.tlps k).head1, (f.tlps k).head2])
    (hread : f.consumed u = f.stream k) :
    RxPath.HeaderRead (f.run (u + 4)) (f.tlps k).head1 (f.tlps k).head2 [] ∧
      f.consumed (u + 4) = f.stream k ++ [(f.tlps k).head1] := by
  obtain ⟨h₁, h₂, h₃, -⟩ := header_states h.state
  have hpop : f.consumed (u + 1) = f.consumed u ++ [(f.tlps k).head1] :=
    consumed_of_pop h.fiford ((List.prefix_append [_] [_]).trans h.queue)
  constructor
  · rw [run_add]
    exact (RxPath.headerRead h _).1
  · rw [consumed_of_quiet (t := u + 3) (by rw [Rxproc.fiford, h₃]; rfl),
      consumed_of_quiet (t := u + 2) (by rw [Rxproc.fiford, h₂]; rfl),
      consumed_of_quiet (t := u + 1) (by rw [Rxproc.fiford, h₁]; rfl), hpop, hread]

/-- Between packets nothing happens any more when nothing arrives. -/
theorem rests (f : Feed) {a : Nat} (hlate : ∀ t, a ≤ t → (f.inp t).arrival = none)
    (hidle : (f.run a).core.preState = .idle) (hempty : (f.run a).fifo.words = []) (n : Nat) :
    (f.run (a + n)).core.preState = .idle ∧ (f.run (a + n)).fifo.words = [] := by
  induction n with
  | zero => exact ⟨hidle, hempty⟩
  | succ n ih =>
      have hfiford := fiford_of_idle ih.1
      constructor
      · rw [← Nat.add_assoc, nxtState_run, Rxproc.nxtState, ih.1]
        simp [Rxproc.rxen, RxPath.rxInput, ih.2]
      · rw [← Nat.add_assoc, run_succ]
        simp only [rxPath, hfiford, hlate (a + n) (Nat.le_add_right a n), Fifo.clock_idle, ih.2]

/-- A feed in which nothing arrives from cycle `last` on. -/
def ofFinite (start : RxPath) (inp : Nat → RxPathInput) (tlps : Nat → Tlp) (last m : Nat)
    (idle : start.core.preState = .idle) (late : ∀ t, last ≤ t → (inp t).arrival = none)
    (fed : start.fifo.words ++ RxPath.received start inp last <+:
      log (fun k => (tlps k).words) m)
    (short : (start.fifo.words ++ RxPath.received start inp last).length < 1024) : Feed :=
  have hall (n : Nat) :
      RxPath.received start inp n <+: RxPath.received start inp last := by
    cases Nat.le_total n last with
    | inl hle => exact log_begins _ hle
    | inr hge =>
        have hsame : RxPath.received start inp n = RxPath.received start inp last :=
          log_silent hge fun t ht _ => by rw [late t ht, Fifo.accepted_none]
        rw [hsame]
  { start := start
    inp := inp
    tlps := tlps
    idle := idle
    fed := fun n => ⟨m, ((List.prefix_append_right_inj _).mpr (hall n)).trans fed⟩
    flow := fun n => by
      have hwords := congrArg List.length (RxPath.consumed_append_words start inp n)
      have hshort := (hall n).length_le
      simp only [List.length_append] at hwords short
      omega }

end Feed

end CncCard.Pcie
