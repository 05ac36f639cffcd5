import CncCard.Pcie.Stream

/-!
Requests. A memory write or a memory read makes `rxproc` do one transaction, and the
words of every packet are dropped up to its last one. `UNSP1` looks for the last word
without asking whether the queue had a word to show: the two states before it, `MEMWRST4`
and `UNSP2`, must not find the queue empty.
-/

namespace CncCard.Pcie
open Clocked

/-- A transaction of `rxproc`, with what `ext_add` shows. -/
inductive Transaction where
  | write (address : BitVec 22)
  | read (address : BitVec 22)
  deriving DecidableEq

def Tlp.transactions (p : Tlp) : List Transaction :=
  if p.isWrite then [.write p.target] else if p.isRead then [.read p.target] else []

namespace Feed

/-- A write begins when `ext_wr` rises, a read is done when `memrdrq` is acknowledged. -/
def transactions (f : Feed) : Nat → List Transaction :=
  log fun t =>
    (if (f.run (t + 1)).core.extWr && !(f.run t).core.extWr
      then [.write (f.run (t + 1)).core.extAdd] else []) ++
    (if (f.run t).core.memrdrq && (f.inp t).memrdack
      then [.read (f.run t).core.extAdd] else [])

end Feed

/-- A feed without completions with data in which every write has the words of its
payload, and in which every write and read is answered at some time. -/
structure Requests extends Feed where
  noCpld : ∀ k, (tlps k).isCpld = false
  shaped : ∀ k, (tlps k).isWrite = true → (tlps k).inSecond = false → (tlps k).rest ≠ []
  extdfer : ∀ n, ∃ t, n ≤ t ∧ (inp t).extdfer = true
  memrdack : ∀ n, ∃ t, n ≤ t ∧ (inp t).memrdack = true

namespace Requests

def expected (r : Requests) : Nat → List Transaction := log fun k => (r.tlps k).transactions

/-- Once the first `k` packets have arrived, `rxproc` comes to be idle when it has read
exactly these and has done their transactions in order. -/
def InStep (r : Requests) : Prop :=
  ∀ k, r.Arrived k → ∃ n, (r.run n).core.preState = .idle ∧ r.consumed n = r.stream k ∧
    r.transactions n = r.expected k

/-- `MEMWRST4` and `UNSP2` do not find the queue empty. -/
def Supplied (r : Requests) : Prop :=
  ∀ t, (r.run t).core.preState = .memwrst4 ∨ (r.run t).core.preState = .unsp2 →
    (r.run t).fifo.words ≠ []

end Requests

namespace Feed

variable {f : Feed}

theorem transactions_succ (t : Nat) : f.transactions (t + 1) = f.transactions t ++
    ((if (f.run (t + 1)).core.extWr && !(f.run t).core.extWr
      then [.write (f.run (t + 1)).core.extAdd] else []) ++
    (if (f.run t).core.memrdrq && (f.inp t).memrdack
      then [.read (f.run t).core.extAdd] else [])) := rfl

/-- From cycle `a` to cycle `b` nothing is read and no transaction is done. -/
structure Still (f : Feed) (a b : Nat) : Prop where
  consumed : f.consumed b = f.consumed a
  transactions : f.transactions b = f.transactions a

theorem Still.trans {a b c : Nat} (h : f.Still a b) (h' : f.Still b c) : f.Still a c :=
  ⟨h'.consumed.trans h.consumed, h'.transactions.trans h.transactions⟩

theorem Still.refl (f : Feed) (a : Nat) : f.Still a a := ⟨rfl, rfl⟩

theorem transactions_of_states {t : Nat} {st st' : RxState}
    (h : (f.run t).core.preState = st) (h' : (f.run (t + 1)).core.preState = st')
    (hwr : ((st' == .memwrst2 || st' == .memwrst3) && !(st == .memwrst2 || st == .memwrst3)) =
      false)
    (hrd : (st == .memrdst3) = false) : f.transactions (t + 1) = f.transactions t := by
  have hopens : ((f.run (t + 1)).core.extWr && !(f.run t).core.extWr) = false := by
    rw [Rxproc.extWr, Rxproc.extWr, h, h', hwr]
  have hrq : ((f.run t).core.memrdrq && (f.inp t).memrdack) = false := by
    rw [Rxproc.memrdrq, h, hrd, Bool.false_and]
  rw [transactions_succ, hopens, hrq]
  exact List.append_nil _

theorem still_of_states {t : Nat} {st st' : RxState} (h : (f.run t).core.preState = st)
    (h' : (f.run (t + 1)).core.preState = st')
    (hread : (st == .rdhead1 || st == .datast1 || st == .unsp1 || st == .cpldwaitst1 ||
      st == .cplddatast1) = false)
    (hwr : ((st' == .memwrst2 || st' == .memwrst3) && !(st == .memwrst2 || st == .memwrst3)) =
      false)
    (hrd : (st == .memrdst3) = false) : f.Still t (t + 1) :=
  ⟨consumed_of_quiet (by rw [Rxproc.fiford, h, hread]), transactions_of_states h h' hwr hrd⟩

theorem extAdd_of_header {t : Nat} {p : Tlp}
    (h : RxPath.Header (f.run t) p.head1.data p.head2.data) :
    (f.run t).core.extAdd = p.target := by
  rw [Rxproc.extAdd, h.addr]
  rfl

theorem consumed_of_at_pop {t : Nat} {st : RxState} {rx q : RxWord} {qs : List RxWord}
    (h : RxPath.At (f.run t) st rx (q :: qs)) (hread : (f.run t).core.fiford = true) :
    f.consumed (t + 1) = f.consumed t ++ [q] :=
  consumed_of_pop hread ((List.prefix_append [q] qs).trans h.queue)

/-- From `DATAST2` a write is done with the target of its header, whenever it is
answered. -/
theorem strobe {p : Tlp} {y : Nat} (hstate : (f.run y).core.preState = .datast2)
    (hheader : RxPath.Header (f.run y) p.head1.data p.head2.data)
    (hanswer : ∀ n, ∃ t, n ≤ t ∧ (f.inp t).extdfer = true) :
    ∃ z, (f.run z).core.preState = .memwrst4 ∧ f.consumed z = f.consumed y ∧
      f.transactions z = f.transactions y ++ [.write p.target] := by
  have h₁ : (f.run (y + 1)).core.preState = .memwrst1 := by
    rw [nxtState_run, Rxproc.nxtState, hstate]
  have h₂ : (f.run (y + 2)).core.preState = .memwrst2 := by
    rw [nxtState_run, Rxproc.nxtState, h₁]
  have h₃ : (f.run (y + 3)).core.preState = .memwrst3 := by
    rw [nxtState_run, Rxproc.nxtState, h₂]
  have hheader₁ : RxPath.Header (f.run (y + 1)) p.head1.data p.head2.data :=
    hheader.next (by simp [hstate]) (by simp [hstate]) _
  have hheader₂ : RxPath.Header (f.run (y + 2)) p.head1.data p.head2.data :=
    hheader₁.next (by simp [h₁]) (by simp [h₁]) _
  have hopens : f.transactions (y + 2) = f.transactions (y + 1) ++ [.write p.target] := by
    have hrise : ((f.run (y + 2)).core.extWr && !(f.run (y + 1)).core.extWr) = true := by
      rw [Rxproc.extWr, Rxproc.extWr, h₁, h₂]
      rfl
    have hrq : ((f.run (y + 1)).core.memrdrq && (f.inp (y + 1)).memrdack) = false := by
      rw [Rxproc.memrdrq, h₁]
      rfl
    rw [transactions_succ (y + 1), hrise, hrq, extAdd_of_header hheader₂]
    rfl
  have hstill₀ := still_of_states hstate h₁ rfl rfl rfl
  have hstill₂ := still_of_states h₂ h₃ rfl rfl rfl
  obtain ⟨z, hle, hwaits, hdone⟩ := exists_event (n := y + 3)
    (p := fun t => (f.run t).core.preState = .memwrst3 ∧ f.Still (y + 3) t)
    (e := fun t => (f.inp t).extdfer = true) ⟨h₃, .refl f _⟩
    (fun t _ hp hnot => by
      have hnext : (f.run (t + 1)).core.preState = .memwrst3 := by
        rw [nxtState_run, Rxproc.nxtState, hp.1]
        exact if_neg hnot
      exact ⟨hnext, hp.2.trans (still_of_states hp.1 hnext rfl rfl rfl)⟩)
    (hanswer (y + 3))
  obtain ⟨hlast, hstill₃⟩ := hwaits z hle (Nat.le_refl z)
  have hnext : (f.run (z + 1)).core.preState = .memwrst4 := by
    rw [nxtState_run, Rxproc.nxtState, hlast]
    exact if_pos hdone
  have hstill := (hstill₂.trans hstill₃).trans (still_of_states hlast hnext rfl rfl rfl)
  refine ⟨z + 1, hnext, ?_, ?_⟩
  · rw [hstill.consumed, consumed_of_quiet (t := y + 1) (by rw [Rxproc.fiford, h₁]; rfl),
      hstill₀.consumed]
  · rw [hstill.transactions, hopens, hstill₀.transactions]

/-- From `MEMRDST1` a read is done with the target of its header, whenever it is
acknowledged, and the word at the head of the queue stays there. -/
theorem handshake {p : Tlp} {y : Nat} {q : RxWord}
    (hat : RxPath.At (f.run y) .memrdst1 q [q])
    (hheader : RxPath.Header (f.run y) p.head1.data p.head2.data)
    (hanswer : ∀ n, ∃ t, n ≤ t ∧ (f.inp t).memrdack = true) :
    ∃ z, RxPath.At (f.run z) .unsp1 q [q] ∧ f.consumed z = f.consumed y ∧
      f.transactions z = f.transactions y ++ [.read p.target] := by
  have h₁ : RxPath.At (f.run (y + 1)) .memrdst2 q [q] :=
    at_peek hat hat.fiford (by rw [Rxproc.nxtState, hat.state])
  have h₂ : RxPath.At (f.run (y + 2)) .memrdst3 q [q] :=
    at_peek h₁ h₁.fiford (by rw [Rxproc.nxtState, h₁.state])
  have hheader₁ : RxPath.Header (f.run (y + 1)) p.head1.data p.head2.data :=
    hheader.next (by simp [hat.state]) (by simp [hat.state]) _
  have hheader₂ : RxPath.Header (f.run (y + 2)) p.head1.data p.head2.data :=
    hheader₁.next (by simp [h₁.state]) (by simp [h₁.state]) _
  have hstill : f.Still y (y + 2) :=
    (still_of_states hat.state h₁.state rfl rfl rfl).trans
      (still_of_states h₁.state h₂.state rfl rfl rfl)
  obtain ⟨z, hle, hwaits, hdone⟩ := exists_event (n := y + 2)
    (p := fun t => RxPath.At (f.run t) .memrdst3 q [q] ∧
      RxPath.Header (f.run t) p.head1.data p.head2.data ∧ f.consumed t = f.consumed y ∧
      f.transactions t = f.transactions y)
    (e := fun t => (f.inp t).memrdack = true)
    ⟨h₂, hheader₂, hstill.consumed, hstill.transactions⟩
    (fun t _ hp hnot => by
      obtain ⟨hstay, hhead, hreads, htrans⟩ := hp
      have hnext : RxPath.At (f.run (t + 1)) .memrdst3 q [q] :=
        at_peek hstay hstay.fiford (by
          rw [Rxproc.nxtState, hstay.state]
          exact if_neg hnot)
      refine ⟨hnext, hhead.next (by simp [hstay.state]) (by simp [hstay.state]) _,
        (consumed_of_quiet hstay.fiford).trans hreads, ?_⟩
      have hopens : ((f.run (t + 1)).core.extWr && !(f.run t).core.extWr) = false := by
        rw [hnext.extWr]
        rfl
      have hrq : ((f.run t).core.memrdrq && (f.inp t).memrdack) = false := by
        rw [Bool.not_eq_true] at hnot
        rw [hnot, Bool.and_false]
      rw [transactions_succ, hopens, hrq, htrans]
      exact List.append_nil _)
    (hanswer (y + 2))
  obtain ⟨hlast, hhead, hreads, htrans⟩ := hwaits z hle (Nat.le_refl z)
  have h₃ : RxPath.At (f.run (z + 1)) .memrdst4 q [q] :=
    at_peek hlast hlast.fiford (by
      rw [Rxproc.nxtState, hlast.state]
      exact if_pos hdone)
  have h₄ : RxPath.At (f.run (z + 2)) .unsp1 q [q] :=
    at_peek h₃ h₃.fiford (by rw [Rxproc.nxtState, h₃.state])
  have hdoes : f.transactions (z + 1) = f.transactions z ++ [.read p.target] := by
    have hopens : ((f.run (z + 1)).core.extWr && !(f.run z).core.extWr) = false := by
      rw [h₃.extWr]
      rfl
    have hrq : ((f.run z).core.memrdrq && (f.inp z).memrdack) = true := by
      rw [Rxproc.memrdrq, hlast.state, hdone]
      rfl
    rw [transactions_succ, hopens, hrq, extAdd_of_header hhead]
    rfl
  have hstill₃ := still_of_states h₃.state h₄.state rfl rfl rfl
  refine ⟨z + 2, h₄, ?_, ?_⟩
  · rw [hstill₃.consumed, consumed_of_quiet hlast.fiford, hreads]
  · rw [hstill₃.transactions, hdoes, htrans]

end Feed

namespace Requests

variable {r : Requests} {k : Nat}

/-- `UNSP1` with the next word of the packet in the register drops the packet up to its
last word. -/
theorem drain (hsupplied : r.Supplied) (ws : List RxWord) :
    ∀ (w : RxWord) (t : Nat) (part : List RxWord),
      RxPath.At (r.run t) .unsp1 (w.mark false ws.isEmpty) [w.mark false ws.isEmpty] →
      r.consumed t = r.stream k ++ part → (r.tlps k).words = part ++ marked (w :: ws) →
      ∃ m, (r.run m).core.preState = .idle ∧ r.consumed m = r.stream (k + 1) ∧
        r.transactions m = r.transactions t := by
  induction ws with
  | nil =>
      intro w t part hat hread hwords
      have hlast : (w.mark false true).eop = true := rfl
      have hnext : RxPath.At (r.run (t + 1)) .idle (w.mark false true) [] :=
        Feed.at_pop hat hat.fiford (by
          rw [Rxproc.nxtState, hat.state]
          exact if_pos (by rw [hat.rx]; rfl))
      refine ⟨t + 1, hnext.state, ?_, Feed.transactions_of_states hat.state hnext.state rfl rfl⟩
      rw [Feed.consumed_of_at_pop hat hat.fiford, hread, Feed.stream_succ, hwords,
        List.append_assoc]
      rfl
  | cons w' ws ih =>
      intro w t part hat hread hwords
      have hnext : RxPath.At (r.run (t + 1)) .unsp2 (w.mark false false) [] :=
        Feed.at_pop hat hat.fiford (by
          rw [Rxproc.nxtState, hat.state]
          exact if_neg (by rw [hat.rx]; exact Bool.false_ne_true))
      have hread₁ : r.consumed (t + 1) = r.stream k ++ (part ++ [w.mark false false]) := by
        rw [Feed.consumed_of_at_pop hat hat.fiford, hread, List.append_assoc]
        rfl
      have hwords₁ : (r.tlps k).words =
          (part ++ [w.mark false false]) ++ marked (w' :: ws) := by
        rw [hwords, List.append_assoc]
        rfl
      have hqueue := Feed.head_of_ne_nil hread₁ hwords₁ (hsupplied (t + 1) (.inr hnext.state))
      have hwait : RxPath.At (r.run (t + 1)) .unsp2 (w.mark false false)
          [w'.mark false ws.isEmpty] := ⟨hnext.state, hnext.rx, hqueue⟩
      have hshow : RxPath.At (r.run (t + 2)) .unsp1 (w'.mark false ws.isEmpty)
          [w'.mark false ws.isEmpty] :=
        Feed.at_peek hwait hwait.fiford (by rw [Rxproc.nxtState, hwait.state])
      have hstill := Feed.still_of_states hwait.state hshow.state rfl rfl rfl
      obtain ⟨m, hidle, hreads, htrans⟩ := ih w' (t + 2) _ hshow
        (hstill.consumed.trans hread₁) hwords₁
      refine ⟨m, hidle, hreads, ?_⟩
      rw [htrans, hstill.transactions,
        Feed.transactions_of_states hat.state hnext.state rfl rfl]

theorem nxtState_waitst1 {s : RxPath} {p : Tlp} {queue : List RxWord}
    (h : RxPath.HeaderRead s p.head1 p.head2 queue) (hno : p.isCpld = false) (i : RxInput) :
    s.core.nxtState i =
      if p.isWrite then if p.inSecond then .datast2 else .datast1
      else if p.isRead then .memrdst1 else .unsp1 := by
  have hcpld : s.core.cpldsel = false := by
    have hcpld' : (p.isCpld && s.core.headrega.extractLsb 47 45 == 0b000) = false := by
      rw [hno, Bool.false_and]
    rw [← hcpld', Rxproc.cpldsel, Rxproc.type, Rxproc.withData, h.header.headrega]
    rfl
  rw [h.nxtState rfl rfl, hcpld]
  rfl

/-- The queue holds the next word of the packet when a write comes to `MEMWRST4`. -/
theorem drain_write (hsupplied : r.Supplied) {z : Nat} {w : RxWord} {ws part : List RxWord}
    (hstate : (r.run z).core.preState = .memwrst4)
    (hread : r.consumed z = r.stream k ++ part)
    (hwords : (r.tlps k).words = part ++ marked (w :: ws)) :
    ∃ m, (r.run m).core.preState = .idle ∧ r.consumed m = r.stream (k + 1) ∧
      r.transactions m = r.transactions z := by
  have hqueue := Feed.head_of_ne_nil hread hwords (hsupplied z (.inl hstate))
  have hat : RxPath.At (r.run z) .memwrst4 (r.run z).core.rx [w.mark false ws.isEmpty] :=
    ⟨hstate, rfl, hqueue⟩
  have hnext : RxPath.At (r.run (z + 1)) .unsp1 (w.mark false ws.isEmpty)
      [w.mark false ws.isEmpty] :=
    Feed.at_peek hat hat.fiford (by rw [Rxproc.nxtState, hstate])
  have hstill := Feed.still_of_states hstate hnext.state rfl rfl rfl
  obtain ⟨m, hidle, hreads, htrans⟩ :=
    drain hsupplied ws w (z + 1) part hnext (hstill.consumed.trans hread) hwords
  exact ⟨m, hidle, hreads, htrans.trans hstill.transactions⟩

/-- From the decision on its header a packet is read to its end, with its transactions. -/
theorem finish (hsupplied : r.Supplied) {v : Nat}
    (h : RxPath.HeaderRead (r.run v) (r.tlps k).head1 (r.tlps k).head2 [])
    (hread : r.consumed v = r.stream k ++ [(r.tlps k).head1]) :
    ∃ m, (r.run m).core.preState = .idle ∧ r.consumed m = r.stream (k + 1) ∧
      r.transactions m = r.transactions v ++ (r.tlps k).transactions := by
  have hwait := h.at_waitst1
  have hdecide := nxtState_waitst1 h (r.noCpld k) ((r.run v).rxInput (r.inp v))
  have hheader : RxPath.Header (r.run (v + 1)) (r.tlps k).head1.data (r.tlps k).head2.data :=
    h.header.next (by simp [hwait.state]) (by simp [hwait.state]) _
  have hwords : (r.tlps k).words = [(r.tlps k).head1] ++
      marked ((r.tlps k).second :: (r.tlps k).rest) := rfl
  rw [Tlp.transactions]
  by_cases hwrite : (r.tlps k).isWrite = true
  · rw [if_pos hwrite] at hdecide ⊢
    by_cases hsecond : (r.tlps k).inSecond = true
    · rw [if_pos hsecond] at hdecide
      have hnext := Feed.at_peek hwait hwait.fiford hdecide
      have hstill := Feed.still_of_states hwait.state hnext.state rfl rfl rfl
      obtain ⟨z, hdone, hreads, htrans⟩ := Feed.strobe hnext.state hheader r.extdfer
      obtain ⟨m, hidle, hall, hsame⟩ := drain_write hsupplied hdone
        ((hreads.trans hstill.consumed).trans hread) hwords
      refine ⟨m, hidle, hall, ?_⟩
      rw [hsame, htrans, hstill.transactions]
    · rw [if_neg hsecond] at hdecide
      obtain ⟨w, ws, hrest⟩ := List.exists_cons_of_ne_nil
        (r.shaped k hwrite (Bool.not_eq_true _ ▸ hsecond))
      have hnext := Feed.at_peek hwait hwait.fiford hdecide
      have hstill := Feed.still_of_states hwait.state hnext.state rfl rfl rfl
      have hpop : RxPath.At (r.run (v + 2)) .datast2 (r.tlps k).head2 [] :=
        Feed.at_pop hnext hnext.fiford (by rw [Rxproc.nxtState, hnext.state])
      have hheader₂ : RxPath.Header (r.run (v + 2)) (r.tlps k).head1.data
          (r.tlps k).head2.data :=
        hheader.next (by simp [hnext.state]) (by simp [hnext.state]) _
      have hread₂ : r.consumed (v + 2) =
          r.stream k ++ [(r.tlps k).head1, (r.tlps k).head2] := by
        rw [Feed.consumed_of_at_pop hnext hnext.fiford, hstill.consumed, hread,
          List.append_assoc]
        rfl
      have htrans₂ : r.transactions (v + 2) = r.transactions v := by
        rw [Feed.transactions_of_states hnext.state hpop.state rfl rfl, hstill.transactions]
      have hwords₂ : (r.tlps k).words =
          [(r.tlps k).head1, (r.tlps k).head2] ++ marked (w :: ws) := by
        rw [Tlp.words_eq, hrest]
        rfl
      obtain ⟨z, hdone, hreads, htrans⟩ := Feed.strobe hpop.state hheader₂ r.extdfer
      obtain ⟨m, hidle, hall, hsame⟩ := drain_write hsupplied hdone
        (hreads.trans hread₂) hwords₂
      refine ⟨m, hidle, hall, ?_⟩
      rw [hsame, htrans, htrans₂]
  · rw [if_neg hwrite] at hdecide ⊢
    by_cases hisread : (r.tlps k).isRead = true
    · rw [if_pos hisread] at hdecide ⊢
      have hnext := Feed.at_peek hwait hwait.fiford hdecide
      have hstill := Feed.still_of_states hwait.state hnext.state rfl rfl rfl
      obtain ⟨z, hat, hreads, htrans⟩ := Feed.handshake hnext hheader r.memrdack
      obtain ⟨m, hidle, hall, hsame⟩ := drain hsupplied _ _ z _ hat
        ((hreads.trans hstill.consumed).trans hread) hwords
      refine ⟨m, hidle, hall, ?_⟩
      rw [hsame, htrans, hstill.transactions]
    · rw [if_neg hisread] at hdecide ⊢
      have hnext := Feed.at_peek hwait hwait.fiford hdecide
      have hstill := Feed.still_of_states hwait.state hnext.state rfl rfl rfl
      obtain ⟨m, hidle, hall, hsame⟩ := drain hsupplied _ _ (v + 1) _ hnext
        (hstill.consumed.trans hread) hwords
      refine ⟨m, hidle, hall, ?_⟩
      rw [hsame, hstill.transactions, List.append_nil]

theorem Arrived.pred {f : Feed} {k : Nat} (h : f.Arrived (k + 1)) : f.Arrived k := by
  obtain ⟨n, hn⟩ := h
  exact ⟨n, (log_begins _ (Nat.le_succ k)).trans hn⟩

theorem handle (hsupplied : r.Supplied) {n : Nat} (hidle : (r.run n).core.preState = .idle)
    (hread : r.consumed n = r.stream k) (harrived : r.Arrived (k + 1)) :
    ∃ m, (r.run m).core.preState = .idle ∧ r.consumed m = r.stream (k + 1) ∧
      r.transactions m = r.transactions n ++ (r.tlps k).transactions := by
  obtain ⟨u, hle, hwaits, hat, hreads⟩ := Feed.leave_idle hidle hread harrived
  obtain ⟨h₁, h₂, h₃, h₄⟩ := Feed.header_states hat.state
  obtain ⟨hheader, hread₄⟩ := Feed.read_header hat hreads
  obtain ⟨m, hdone, hall, htrans⟩ := finish hsupplied hheader hread₄
  have hquiet : r.transactions (u + 1) = r.transactions n := by
    have hsteps (t : Nat) (hn : n ≤ t) (hu : t ≤ u) :
        r.transactions (t + 1) = r.transactions t := by
      rcases Nat.lt_or_eq_of_le hu with hlt | rfl
      · exact Feed.transactions_of_states (hwaits t hn hu) (hwaits (t + 1) (by omega) hlt) rfl rfl
      · exact Feed.transactions_of_states (hwaits t hn hu) hat.state rfl rfl
    have hrun (t : Nat) (hn : n ≤ t) : t ≤ u → r.transactions (t + 1) = r.transactions n := by
      induction t, hn using Nat.le_induction with
      | base => exact hsteps n (Nat.le_refl n)
      | succ t hn ih =>
          intro hu
          rw [hsteps (t + 1) (Nat.le_succ_of_le hn) hu, ih (Nat.le_of_succ_le hu)]
    exact hrun u hle (Nat.le_refl u)
  refine ⟨m, hdone, hall, ?_⟩
  rw [htrans, Feed.transactions_of_states h₃ h₄ rfl rfl,
    Feed.transactions_of_states h₂ h₃ rfl rfl, Feed.transactions_of_states h₁ h₂ rfl rfl,
    Feed.transactions_of_states hat.state h₁ rfl rfl, hquiet]

/-- In every run in which `MEMWRST4` and `UNSP2` do not find the queue empty, `rxproc`
keeps in step with the packets. -/
theorem inStep_of_supplied (r : Requests) (h : r.Supplied) : r.InStep := by
  intro k
  induction k with
  | zero => exact fun _ => ⟨0, r.idle, rfl, rfl⟩
  | succ k ih =>
      intro harrived
      obtain ⟨n, hidle, hread, htrans⟩ := ih (Arrived.pred harrived)
      obtain ⟨m, hdone, hall, hmore⟩ := handle h hidle hread harrived
      exact ⟨m, hdone, hall, by rw [hmore, htrans]; rfl⟩

/-- The value 1 written to address 0 with a short header, and reads of `intreg` behind. -/
def writeThenReads (k : Nat) : Tlp :=
  if k = 0 then
    ⟨⟨0x000000FF40000001, 0xFF, 0x02, true, false, false, false⟩,
      ⟨0x0000000000000000, 0xFF, 0x02, true, false, false, false⟩,
      [⟨0x0000000000000001, 0x0F, 0x02, true, false, false, false⟩]⟩
  else
    ⟨⟨0x0100050F00000001, 0xFF, 0x02, true, false, false, false⟩,
      ⟨0x0000000000000004, 0x0F, 0x02, true, false, false, false⟩, []⟩

theorem writeThenReads_noCpld (k : Nat) : (writeThenReads k).isCpld = false := by
  unfold writeThenReads
  split <;> decide

theorem writeThenReads_shaped (k : Nat) : (writeThenReads k).isWrite = true →
    (writeThenReads k).inSecond = false → (writeThenReads k).rest ≠ [] := by
  unfold writeThenReads
  split <;> decide

def idleBehind (words : List RxWord) (short : words.length ≤ 1024) : RxPath :=
  ⟨⟨words, short⟩,
    ⟨.idle, ⟨0, 0, 0, false, false, false, false⟩, 0, 0, 0, 0, 0, false, false, false⟩⟩

def preloaded : Requests where
  toFeed := Feed.ofFinite (idleBehind (log (fun k => (writeThenReads k).words) 2) (by decide))
    (fun _ => ⟨none, (writeThenReads 1).head2, true, true, 0⟩) writeThenReads 0 2 rfl
    (fun _ _ => rfl)
    (by rw [RxPath.received, log_zero, List.append_nil]; exact List.prefix_refl _)
    (by decide)
  noCpld := writeThenReads_noCpld
  shaped := writeThenReads_shaped
  extdfer n := ⟨n, Nat.le_refl n, rfl⟩
  memrdack n := ⟨n, Nat.le_refl n, rfl⟩

theorem preloaded_supplied : preloaded.Supplied := by
  intro t
  cases Nat.lt_or_ge t 40 with
  | inl hlt =>
      have hall : ∀ t < 40, (preloaded.run t).core.preState = .memwrst4 ∨
          (preloaded.run t).core.preState = .unsp2 → (preloaded.run t).fifo.words ≠ [] := by
        decide +kernel
      exact hall t hlt
  | inr hge =>
      obtain ⟨n, rfl⟩ := Nat.exists_eq_add_of_le hge
      rw [(preloaded.rests (fun _ _ => rfl) (by decide +kernel) (by decide +kernel) n).1]
      intro hstate
      rcases hstate with hstate | hstate <;> cases hstate

theorem inStep_preloaded : preloaded.InStep := inStep_of_supplied preloaded preloaded_supplied

/-- The third word of the write comes while `UNSP2` looks at the empty queue, and the
read directly behind it. The empty queue goes on showing its last word. -/
def lateBeat : Requests where
  toFeed := Feed.ofFinite
    (idleBehind [(writeThenReads 0).head1, (writeThenReads 0).head2] (by decide))
    (fun t =>
      { arrival := if t < 16 then none else (log (fun k => (writeThenReads k).words) 2)[t - 14]?
        stale := (writeThenReads 0).head2
        extdfer := true
        memrdack := true
        dmardfifodw := 0 })
    writeThenReads 20 2 rfl
    (fun t ht => by
      have hout : (log (fun k => (writeThenReads k).words) 2).length ≤ t - 14 := by
        change 5 ≤ t - 14
        omega
      simp only [List.getElem?_eq_none hout, ite_self])
    (by decide +kernel)
    (by decide +kernel)
  noCpld := writeThenReads_noCpld
  shaped := writeThenReads_shaped
  extdfer n := ⟨n, Nat.le_refl n, rfl⟩
  memrdack n := ⟨n, Nat.le_refl n, rfl⟩

/-- The first word of the read is dropped with the write. -/
theorem inStep_lateBeat_false : ¬ lateBeat.InStep := by
  intro h
  obtain ⟨n, hidle, hread, -⟩ := h 1 ⟨20, by decide +kernel⟩
  cases Nat.lt_or_ge n 20 with
  | inl hlt =>
      have hnone : ∀ n < 20, (lateBeat.run n).core.preState = .idle →
          lateBeat.consumed n ≠ lateBeat.stream 1 := by
        decide +kernel
      exact hnone n hlt hidle hread
  | inr hge =>
      have hmore : (lateBeat.consumed 20).length = 4 := by decide +kernel
      have hbegins : lateBeat.consumed 20 <+: lateBeat.consumed n := log_begins _ hge
      have hlength := hbegins.length_le
      rw [hmore, hread] at hlength
      exact absurd hlength (by decide)

end Requests

end CncCard.Pcie
