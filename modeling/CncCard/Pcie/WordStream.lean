import CncCard.Pcie.Requests
import CncCard.Pcie.WordPath

/-!
The interpolation words of a stream of packets. As long as `rxproc` keeps in step with the
packets, in every cycle the words that it has taken for headers are the headers of the packets
it has come to, so `fifo33` gets the words that these packets bring.
-/

namespace CncCard.Pcie
open Clocked

/-- The two words of the header, as the queue holds them. -/
def Tlp.header (p : Tlp) : RxWord × RxWord := (p.head1, p.head2)

theorem strobedBy_header (p : Tlp) : strobedBy p.header = p.strobed := rfl

namespace Requests

variable {r : Requests} {t k : Nat}

/-- The place of `rxproc` in the stream, with the number of packets whose header it has taken. -/
inductive Place (r : Requests) (t : Nat) : Nat → Prop
  | idle {k : Nat} (hstate : (r.run t).core.preState = .idle) (hread : r.consumed t = r.stream k) :
      Place r t k
  | rdhead1 {k : Nat}
      (hat : RxPath.At (r.run t) .rdhead1 (r.tlps k).head1 [(r.tlps k).head1, (r.tlps k).head2])
      (hread : r.consumed t = r.stream k) : Place r t k
  | headpro1 {k : Nat} (hat : RxPath.At (r.run t) .headpro1 (r.tlps k).head1 [(r.tlps k).head2])
      (ha : (r.run t).core.headrega = (r.tlps k).head1.data)
      (hread : r.consumed t = r.stream k ++ [(r.tlps k).head1]) : Place r t (k + 1)
  | rdhead2 {k : Nat} (hat : RxPath.At (r.run t) .rdhead2 (r.tlps k).head2 [(r.tlps k).head2])
      (ha : (r.run t).core.headrega = (r.tlps k).head1.data)
      (hread : r.consumed t = r.stream k ++ [(r.tlps k).head1]) : Place r t (k + 1)
  | headpro2 {k : Nat} (hat : RxPath.At (r.run t) .headpro2 (r.tlps k).head2 [(r.tlps k).head2])
      (ha : (r.run t).core.headrega = (r.tlps k).head1.data)
      (hb : (r.run t).core.headregb = (r.tlps k).head2.data)
      (hsel : (r.run t).core.memsel1 = (r.tlps k).head2.bardec.getLsbD 1)
      (hread : r.consumed t = r.stream k ++ [(r.tlps k).head1]) : Place r t (k + 1)
  | waitst1 {k : Nat} (h : RxPath.HeaderRead (r.run t) (r.tlps k).head1 (r.tlps k).head2 [])
      (hread : r.consumed t = r.stream k ++ [(r.tlps k).head1]) : Place r t (k + 1)
  | datast1 {k : Nat} (hat : RxPath.At (r.run t) .datast1 (r.tlps k).head2 [(r.tlps k).head2])
      (hread : r.consumed t = r.stream k ++ [(r.tlps k).head1]) (hrest : (r.tlps k).rest ≠ []) :
      Place r t (k + 1)
  | writing {k : Nat} {w : RxWord} {ws part : List RxWord}
      (hstate : (r.run t).core.preState = .datast2 ∨ (r.run t).core.preState = .memwrst1 ∨
        (r.run t).core.preState = .memwrst2 ∨ (r.run t).core.preState = .memwrst3 ∨
        (r.run t).core.preState = .memwrst4)
      (hread : r.consumed t = r.stream k ++ part)
      (hwords : (r.tlps k).words = part ++ marked (w :: ws)) : Place r t (k + 1)
  | reading {k : Nat} {st : RxState} {w : RxWord} {ws part : List RxWord}
      (hst : st = .memrdst1 ∨ st = .memrdst2 ∨ st = .memrdst3 ∨ st = .memrdst4)
      (hat : RxPath.At (r.run t) st (w.mark false ws.isEmpty) [w.mark false ws.isEmpty])
      (hread : r.consumed t = r.stream k ++ part)
      (hwords : (r.tlps k).words = part ++ marked (w :: ws)) : Place r t (k + 1)
  | unsp1 {k : Nat} {w : RxWord} {ws part : List RxWord}
      (hat : RxPath.At (r.run t) .unsp1 (w.mark false ws.isEmpty) [w.mark false ws.isEmpty])
      (hread : r.consumed t = r.stream k ++ part)
      (hwords : (r.tlps k).words = part ++ marked (w :: ws)) : Place r t (k + 1)
  | unsp2 {k : Nat} {w : RxWord} {ws part : List RxWord}
      (hstate : (r.run t).core.preState = .unsp2)
      (hread : r.consumed t = r.stream k ++ part)
      (hwords : (r.tlps k).words = part ++ marked (w :: ws)) : Place r t (k + 1)

/-- The number of headers that are taken in a cycle. -/
def begins (r : Requests) (t : Nat) : Nat :=
  if (r.run t).core.preState = .rdhead1 then 1 else 0

theorem begins_of_state {st : RxState} (h : (r.run t).core.preState = st) (hst : st ≠ .rdhead1) :
    r.begins t = 0 := by
  rw [begins, h, if_neg hst]

theorem place_idle (hstate : (r.run t).core.preState = .idle) (hread : r.consumed t = r.stream k) :
    Place r (t + 1) k := by
  have hsame := (Feed.consumed_of_quiet (Feed.fiford_of_idle hstate)).trans hread
  by_cases hgo : (Rxproc.rxen ((r.run t).rxInput (r.inp t)) && (r.run t).core.rx.sop) = true
  · have hqueue : 2 ≤ (r.run t).fifo.words.length :=
      RxPath.two_le_of_rxen (Bool.and_eq_true_iff.mp hgo).1
    have hat : RxPath.At (r.run t) .idle (r.run t).core.rx [(r.tlps k).head1, (r.tlps k).head2] :=
      ⟨hstate, rfl, Feed.header_of_two hread hqueue⟩
    refine .rdhead1 (Feed.at_peek hat (Feed.fiford_of_idle hstate) ?_) hsame
    rw [Rxproc.nxtState, hstate]
    exact if_pos hgo
  · refine .idle ?_ hsame
    rw [Feed.nxtState_run, Rxproc.nxtState, hstate]
    exact if_neg hgo

theorem place_waitst1
    (h : RxPath.HeaderRead (r.run t) (r.tlps k).head1 (r.tlps k).head2 [])
    (hread : r.consumed t = r.stream k ++ [(r.tlps k).head1]) : Place r (t + 1) (k + 1) := by
  have hwait := h.at_waitst1
  have hsame := (Feed.consumed_of_quiet hwait.fiford).trans hread
  have hdecide := nxtState_waitst1 h (r.noCpld k) ((r.run t).rxInput (r.inp t))
  have hwords : (r.tlps k).words = [(r.tlps k).head1] ++
      marked ((r.tlps k).second :: (r.tlps k).rest) := rfl
  have hnext := Feed.at_peek hwait hwait.fiford hdecide
  cases hwrite : (r.tlps k).isWrite with
  | true =>
      rw [hwrite, if_pos rfl] at hnext
      cases hsecond : (r.tlps k).inSecond with
      | true =>
          rw [hsecond, if_pos rfl] at hnext
          exact .writing (.inl hnext.state) hsame hwords
      | false =>
          rw [hsecond, if_neg Bool.false_ne_true] at hnext
          exact .datast1 hnext hsame (r.shaped k hwrite hsecond)
  | false =>
      rw [hwrite, if_neg Bool.false_ne_true] at hnext
      cases hisread : (r.tlps k).isRead with
      | true =>
          rw [hisread, if_pos rfl] at hnext
          exact .reading (.inl rfl) hnext hsame hwords
      | false =>
          rw [hisread, if_neg Bool.false_ne_true] at hnext
          exact .unsp1 hnext hsame hwords

theorem place_datast1
    (hat : RxPath.At (r.run t) .datast1 (r.tlps k).head2 [(r.tlps k).head2])
    (hread : r.consumed t = r.stream k ++ [(r.tlps k).head1]) (hrest : (r.tlps k).rest ≠ []) :
    Place r (t + 1) (k + 1) := by
  obtain ⟨w, ws, hws⟩ := List.exists_cons_of_ne_nil hrest
  have hwords : (r.tlps k).words =
      ([(r.tlps k).head1] ++ [(r.tlps k).head2]) ++ marked (w :: ws) := by
    rw [Tlp.words_eq, hws]
    rfl
  have hpop := Feed.consumed_of_at_pop hat hat.fiford
  rw [hread, List.append_assoc] at hpop
  have hnext : (r.run (t + 1)).core.preState = .datast2 := by
    rw [Feed.nxtState_run, Rxproc.nxtState, hat.state]
  exact .writing (.inl hnext) hpop hwords

theorem place_writing (hsupplied : r.Supplied) {w : RxWord} {ws part : List RxWord}
    (hstate : (r.run t).core.preState = .datast2 ∨ (r.run t).core.preState = .memwrst1 ∨
      (r.run t).core.preState = .memwrst2 ∨ (r.run t).core.preState = .memwrst3 ∨
      (r.run t).core.preState = .memwrst4)
    (hread : r.consumed t = r.stream k ++ part)
    (hwords : (r.tlps k).words = part ++ marked (w :: ws)) : Place r (t + 1) (k + 1) := by
  have hquiet : (r.run t).core.fiford = false := by
    rcases hstate with hs | hs | hs | hs | hs <;> rw [Rxproc.fiford, hs] <;> rfl
  have hsame := (Feed.consumed_of_quiet hquiet).trans hread
  have hnext := r.nxtState_run t
  rw [Rxproc.nxtState] at hnext
  rcases hstate with hs | hs | hs | hs | hs <;> rw [hs] at hnext
  · exact .writing (.inr (.inl hnext)) hsame hwords
  · exact .writing (.inr (.inr (.inl hnext))) hsame hwords
  · exact .writing (.inr (.inr (.inr (.inl hnext)))) hsame hwords
  · simp only at hnext
    split at hnext
    · exact .writing (.inr (.inr (.inr (.inr hnext)))) hsame hwords
    · exact .writing (.inr (.inr (.inr (.inl hnext)))) hsame hwords
  · have hqueue := Feed.head_of_ne_nil hread hwords (hsupplied t (.inl hs))
    have hat : RxPath.At (r.run t) .memwrst4 (r.run t).core.rx [w.mark false ws.isEmpty] :=
      ⟨hs, rfl, hqueue⟩
    exact .unsp1 (Feed.at_peek hat hat.fiford (by rw [Rxproc.nxtState, hs])) hsame hwords

theorem place_reading {st : RxState} {w : RxWord} {ws part : List RxWord}
    (hst : st = .memrdst1 ∨ st = .memrdst2 ∨ st = .memrdst3 ∨ st = .memrdst4)
    (hat : RxPath.At (r.run t) st (w.mark false ws.isEmpty) [w.mark false ws.isEmpty])
    (hread : r.consumed t = r.stream k ++ part)
    (hwords : (r.tlps k).words = part ++ marked (w :: ws)) : Place r (t + 1) (k + 1) := by
  have hquiet : (r.run t).core.fiford = false := by
    rcases hst with rfl | rfl | rfl | rfl <;> exact hat.fiford
  have hsame := (Feed.consumed_of_quiet hquiet).trans hread
  have hnext := Feed.at_peek hat hquiet rfl
  rw [Rxproc.nxtState, hat.state] at hnext
  rcases hst with rfl | rfl | rfl | rfl
  · exact .reading (.inr (.inl rfl)) hnext hsame hwords
  · exact .reading (.inr (.inr (.inl rfl))) hnext hsame hwords
  · simp only at hnext
    split at hnext
    · exact .reading (.inr (.inr (.inr rfl))) hnext hsame hwords
    · exact .reading (.inr (.inr (.inl rfl))) hnext hsame hwords
  · exact .unsp1 hnext hsame hwords

theorem place_unsp1 {w : RxWord} {ws part : List RxWord}
    (hat : RxPath.At (r.run t) .unsp1 (w.mark false ws.isEmpty) [w.mark false ws.isEmpty])
    (hread : r.consumed t = r.stream k ++ part)
    (hwords : (r.tlps k).words = part ++ marked (w :: ws)) : Place r (t + 1) (k + 1) := by
  have hpop := Feed.consumed_of_at_pop hat hat.fiford
  rw [hread] at hpop
  have hnext := r.nxtState_run t
  rw [Rxproc.nxtState, hat.state] at hnext
  simp only [hat.rx] at hnext
  cases ws with
  | nil =>
      refine .idle (hnext.trans (if_pos rfl)) ?_
      rw [hpop, Feed.stream_succ, hwords, List.append_assoc]
      rfl
  | cons w' ws =>
      have hread' : r.consumed (t + 1) = r.stream k ++ (part ++ [w.mark false false]) := by
        rw [hpop, List.append_assoc]
        rfl
      have hwords' : (r.tlps k).words = (part ++ [w.mark false false]) ++ marked (w' :: ws) := by
        rw [hwords, List.append_assoc]
        rfl
      exact .unsp2 (hnext.trans (if_neg Bool.false_ne_true)) hread' hwords'

theorem place_unsp2 (hsupplied : r.Supplied) {w : RxWord} {ws part : List RxWord}
    (hstate : (r.run t).core.preState = .unsp2) (hread : r.consumed t = r.stream k ++ part)
    (hwords : (r.tlps k).words = part ++ marked (w :: ws)) : Place r (t + 1) (k + 1) := by
  have hqueue := Feed.head_of_ne_nil hread hwords (hsupplied t (.inr hstate))
  have hat : RxPath.At (r.run t) .unsp2 (r.run t).core.rx [w.mark false ws.isEmpty] :=
    ⟨hstate, rfl, hqueue⟩
  exact .unsp1 (Feed.at_peek hat hat.fiford (by rw [Rxproc.nxtState, hstate]))
    ((Feed.consumed_of_quiet hat.fiford).trans hread) hwords

theorem Place.step (hsupplied : r.Supplied) {b : Nat} (h : Place r t b) :
    Place r (t + 1) (b + r.begins t) := by
  cases h with
  | idle hstate hread =>
      rw [begins_of_state hstate (by decide)]
      exact place_idle hstate hread
  | @rdhead1 k hat hread =>
      obtain ⟨hnext, ha⟩ := hat.rdhead1 (r.inp t)
      rw [begins, if_pos hat.state]
      refine .headpro1 hnext ha ?_
      rw [Feed.consumed_of_at_pop hat hat.fiford, hread]
  | headpro1 hat ha hread =>
      obtain ⟨hnext, ha'⟩ := hat.headpro1 ha (r.inp t)
      rw [begins_of_state hat.state (by decide)]
      exact .rdhead2 hnext ha' ((Feed.consumed_of_quiet hat.fiford).trans hread)
  | rdhead2 hat ha hread =>
      obtain ⟨hnext, ha', hb, hsel⟩ := hat.rdhead2 ha (r.inp t)
      rw [begins_of_state hat.state (by decide)]
      exact .headpro2 hnext ha' hb hsel ((Feed.consumed_of_quiet hat.fiford).trans hread)
  | headpro2 hat ha hb hsel hread =>
      rw [begins_of_state hat.state (by decide)]
      exact .waitst1 (hat.headpro2 ha hb hsel (r.inp t))
        ((Feed.consumed_of_quiet hat.fiford).trans hread)
  | waitst1 h hread =>
      rw [begins_of_state h.at_waitst1.state (by decide)]
      exact place_waitst1 h hread
  | datast1 hat hread hrest =>
      rw [begins_of_state hat.state (by decide)]
      exact place_datast1 hat hread hrest
  | writing hstate hread hwords =>
      have hout : (r.run t).core.preState ≠ .rdhead1 := by
        rcases hstate with hs | hs | hs | hs | hs <;> rw [hs] <;> decide
      rw [begins_of_state rfl hout]
      exact place_writing hsupplied hstate hread hwords
  | reading hst hat hread hwords =>
      have hout : (r.run t).core.preState ≠ .rdhead1 := by
        rcases hst with rfl | rfl | rfl | rfl <;> rw [hat.state] <;> decide
      rw [begins_of_state rfl hout]
      exact place_reading hst hat hread hwords
  | unsp1 hat hread hwords =>
      rw [begins_of_state hat.state (by decide)]
      exact place_unsp1 hat hread hwords
  | unsp2 hstate hread hwords =>
      rw [begins_of_state hstate (by decide)]
      exact place_unsp2 hsupplied hstate hread hwords

theorem Place.state_cases {b : Nat} (h : Place r t b) :
    ((r.run t).core.preState = .idle ∧ r.consumed t = r.stream b) ∨
    ((r.run t).core.preState = .rdhead1 ∧
      [(r.tlps b).head1, (r.tlps b).head2] <+: (r.run t).fifo.words) ∨
    ((r.run t).core.preState ≠ .idle ∧ (r.run t).core.preState ≠ .rdhead1) := by
  cases h with
  | idle hs hread => exact .inl ⟨hs, hread⟩
  | rdhead1 hat _ => exact .inr (.inl ⟨hat.state, hat.queue⟩)
  | headpro1 hat _ _ | rdhead2 hat _ _ | headpro2 hat _ _ _ _ | datast1 hat _ _
  | unsp1 hat _ _ => exact .inr (.inr (by rw [hat.state]; decide))
  | waitst1 h _ => exact .inr (.inr (by rw [h.at_waitst1.state]; decide))
  | unsp2 hs _ _ => exact .inr (.inr (by rw [hs]; decide))
  | writing hs _ _ =>
      rcases hs with hs | hs | hs | hs | hs <;> exact .inr (.inr (by rw [hs]; decide))
  | reading hst hat _ _ =>
      rcases hst with rfl | rfl | rfl | rfl <;> exact .inr (.inr (by rw [hat.state]; decide))

theorem Place.queue {b : Nat} (h : Place r t b) (hstate : (r.run t).core.preState = .rdhead1) :
    [(r.tlps b).head1, (r.tlps b).head2] <+: (r.run t).fifo.words := by
  rcases h.state_cases with ⟨hs, -⟩ | ⟨-, hqueue⟩ | ⟨-, hs⟩
  · rw [hstate] at hs
    cases hs
  · exact hqueue
  · exact absurd hstate hs

theorem Place.consumed_of_idle {b : Nat} (h : Place r t b)
    (hstate : (r.run t).core.preState = .idle) : r.consumed t = r.stream b := by
  rcases h.state_cases with ⟨-, hread⟩ | ⟨hs, -⟩ | ⟨hs, -⟩
  · exact hread
  · rw [hstate] at hs
    cases hs
  · exact absurd hstate hs

/-- What is taken for a header is the header of the next packet. -/
theorem Place.headers {b : Nat} (h : Place r t b) {s : WordPath} (hrx : s.rx = r.run t) :
    log (fun j => [(r.tlps j).header]) (b + r.begins t) =
      log (fun j => [(r.tlps j).header]) b ++ s.headers := by
  rw [begins, WordPath.headers, hrx]
  by_cases hstate : (r.run t).core.preState = .rdhead1
  · obtain ⟨tail, htail⟩ := h.queue hstate
    rw [if_pos hstate, if_pos hstate, log_succ, ← htail]
    rfl
  · rw [if_neg hstate, if_neg hstate, Nat.add_zero, List.append_nil]

end Requests

/-- Packets that come to `rxproc` and `ext_inf` behind a reset. -/
structure WordStream where
  core : Rxproc
  inp : Nat → WordPathInput
  tlps : Nat → Tlp
  fed : ∀ n, ∃ m, RxPath.received ⟨.empty, core.reset⟩ (fun t => WordPath.rxInput (inp t)) n <+:
    log (fun k => (tlps k).words) m
  flow : ∀ n, (trace rxPath ⟨.empty, core.reset⟩ (fun t => WordPath.rxInput (inp t)) n
    ).fifo.words.length < 1024

namespace WordStream

variable (x : WordStream)

def feed : Feed where
  start := ⟨.empty, x.core.reset⟩
  inp t := WordPath.rxInput (x.inp t)
  tlps := x.tlps
  idle := rfl
  fed := x.fed
  flow := x.flow

def run : Nat → WordPath := WordPath.run x.core x.inp

/-- The words that `ext_inf` has pushed into `fifo33` before cycle `n`. -/
def pushes (n : Nat) : List Word := WordPath.pushes x.run n

/-- What the first `k` packets bring. -/
def words (word : Tlp → List Word) (k : Nat) : List Word := log (fun j => word (x.tlps j)) k

/-- `fifo33` gets the words that the packets bring, in their order and never another one, all
of them up to the place in the stream where `rxproc` is idle, and it comes to be idle behind
each packet. -/
structure Delivers (word : Tlp → List Word) : Prop where
  inOrder : ∀ n, ∃ k, x.pushes n <+: x.words word k
  complete : ∀ n, (x.run n).rx.core.preState = .idle →
    ∃ k, x.feed.consumed n = x.feed.stream k ∧ x.pushes n = x.words word k
  reached : ∀ k, x.feed.Arrived k →
    ∃ n, (x.run n).rx.core.preState = .idle ∧ x.feed.consumed n = x.feed.stream k

theorem run_rx (n : Nat) : (x.run n).rx = x.feed.run n := by
  induction n with
  | zero => rfl
  | succ n ih =>
      rw [Feed.run_succ, ← ih]
      rfl

end WordStream

/-- A stream without completions with data in which every write has the words of its payload
and every read is acknowledged at some time, and no write with a header of four double words
goes to the address of the interpolation words. -/
structure WordRequests extends WordStream where
  noCpld : ∀ k, (tlps k).isCpld = false
  shaped : ∀ k, (tlps k).isWrite = true → (tlps k).inSecond = false → (tlps k).rest ≠ []
  short : ∀ k, (tlps k).isWrite = true → (tlps k).hits = true → (tlps k).fourDw = false
  memrdack : ∀ n, ∃ t, n ≤ t ∧ (inp t).memrdack = true

namespace WordRequests

variable (x : WordRequests)

def requests : Requests where
  toFeed := x.feed
  noCpld := x.noCpld
  shaped := x.shaped
  extdfer n := ⟨n, Nat.le_refl n, rfl⟩
  memrdack := x.memrdack

variable {x}

/-- The words that are taken for headers are the headers of the packets. -/
theorem headersRead_eq (h : x.requests.Supplied) (n : Nat) :
    ∃ b, Requests.Place x.requests n b ∧
      WordPath.headersRead x.run n = log (fun j => [(x.tlps j).header]) b := by
  induction n with
  | zero => exact ⟨0, .idle rfl rfl, rfl⟩
  | succ n ih =>
      obtain ⟨b, hplace, hall⟩ := ih
      refine ⟨_, hplace.step h, ?_⟩
      rw [WordPath.headersRead, log_succ, ← WordPath.headersRead, hall]
      exact (hplace.headers (x.run_rx n)).symm

theorem strobed_headers (b : Nat) : (log (fun j => [(x.tlps j).header]) b).flatMap strobedBy =
    x.words Tlp.interpolationWord b := by
  rw [log_flatMap, WordStream.words]
  congr 1
  funext j
  rw [List.flatMap_singleton, strobedBy_header, Tlp.strobed_eq _ (x.short j)]

/-- As long as `rxproc` does not look into the empty queue in the middle of a packet, `fifo33`
gets the first double word of each write with a short header to the address of the
interpolation words, once and in order, and nothing else. -/
theorem delivers_of_supplied (x : WordRequests) (h : x.requests.Supplied) :
    x.Delivers Tlp.interpolationWord where
  inOrder n := by
    obtain ⟨b, -, hall⟩ := headersRead_eq h n
    refine ⟨b, ?_⟩
    rw [← strobed_headers, ← hall]
    exact WordPath.pushes_prefix x.core x.inp n
  complete n hidle := by
    obtain ⟨b, hplace, hall⟩ := headersRead_eq h n
    refine ⟨b, ?_, ?_⟩
    · rw [x.run_rx] at hidle
      exact hplace.consumed_of_idle hidle
    · rw [← strobed_headers, ← hall]
      exact WordPath.pushes_of_idle x.core x.inp hidle
  reached k harrived := by
    obtain ⟨n, hidle, hread, -⟩ := Requests.inStep_of_supplied x.requests h k harrived
    refine ⟨n, ?_, hread⟩
    rw [x.run_rx]
    exact hidle

/-- A single write of 7 to the address, a read, a single write of 9, a write of 1 elsewhere, and
a write of 4 and 5 to the address; nothing behind it comes. -/
def mixed (k : Nat) : Tlp :=
  if k = 0 then
    ⟨⟨0x000000FF40000001, 0xFF, 0x02, true, false, false, false⟩,
      ⟨0x0000000700000014, 0xFF, 0x02, true, false, false, false⟩, []⟩
  else if k = 2 then
    ⟨⟨0x000000FF40000001, 0xFF, 0x02, true, false, false, false⟩,
      ⟨0x0000000900000014, 0xFF, 0x02, true, false, false, false⟩, []⟩
  else if k = 3 then
    ⟨⟨0x000000FF40000001, 0xFF, 0x02, true, false, false, false⟩,
      ⟨0x0000000000000010, 0xFF, 0x02, true, false, false, false⟩,
      [⟨0x0000000000000001, 0x0F, 0x02, true, false, false, false⟩]⟩
  else if k = 4 then
    ⟨⟨0x000000FF40000002, 0xFF, 0x02, true, false, false, false⟩,
      ⟨0x0000000400000014, 0xFF, 0x02, true, false, false, false⟩,
      [⟨0x0000000000000005, 0x0F, 0x02, true, false, false, false⟩]⟩
  else
    ⟨⟨0x0100050F00000001, 0xFF, 0x02, true, false, false, false⟩,
      ⟨0x0000000000000004, 0x0F, 0x02, true, false, false, false⟩, []⟩

def mixedInput (t : Nat) : WordPathInput where
  arrival := (log (fun k => (mixed k).words) 5)[t]?
  stale := (mixed 1).head2
  memrdack := true
  dmardfifodw := 0
  float := 0

def resetCore : Rxproc :=
  ⟨.idle, ⟨0, 0, 0, false, false, false, false⟩, 0, 0, 0, 0, 0, false, false, false⟩

def mixedFeed : Feed :=
  Feed.ofFinite ⟨.empty, resetCore.reset⟩ (fun t => WordPath.rxInput (mixedInput t)) mixed 12 5 rfl
    (fun _ ht => List.getElem?_eq_none ht) (by decide +kernel) (by decide +kernel)

def mixedWords : WordRequests where
  core := resetCore
  inp := mixedInput
  tlps := mixed
  fed := mixedFeed.fed
  flow := mixedFeed.flow
  noCpld k := by
    unfold mixed
    repeat' split
    all_goals decide
  shaped k := by
    unfold mixed
    repeat' split
    all_goals decide
  short k := by
    unfold mixed
    repeat' split
    all_goals decide
  memrdack n := ⟨n, Nat.le_refl n, rfl⟩

theorem mixedWords_supplied : mixedWords.requests.Supplied := by
  intro t
  cases Nat.lt_or_ge t 120 with
  | inl hlt =>
      have hall : ∀ t < 120, (mixedWords.feed.run t).core.preState = .memwrst4 ∨
          (mixedWords.feed.run t).core.preState = .unsp2 →
            (mixedWords.feed.run t).fifo.words ≠ [] := by
        decide +kernel
      exact hall t hlt
  | inr hge =>
      obtain ⟨n, rfl⟩ := Nat.exists_eq_add_of_le hge
      have hrest := mixedWords.feed.rests (a := 120)
        (fun _ ht => List.getElem?_eq_none (Nat.le_trans (by decide) ht)) (by decide +kernel)
        (by decide +kernel) n
      intro hstate
      have hidle : (mixedWords.requests.run (120 + n)).core.preState = .idle := hrest.1
      rw [hidle] at hstate
      rcases hstate with hstate | hstate <;> cases hstate

theorem delivers_mixedWords : mixedWords.pushes 120 = [7, 9, 4] ∧
    mixedWords.Delivers Tlp.interpolationWord :=
  ⟨by decide +kernel, delivers_of_supplied mixedWords mixedWords_supplied⟩

end WordRequests

namespace WordStream

/-- What a packet brings if only single writes count. -/
def singleWord (p : Tlp) : List Word := if p.single then p.interpolationWord else []

/-- A write of two double words, 7 and 8, to the address. -/
def sevenEight (k : Nat) : Tlp :=
  if k = 0 then
    ⟨⟨0x000000FF40000002, 0xFF, 0x02, true, false, false, false⟩,
      ⟨0x0000000700000014, 0xFF, 0x02, true, false, false, false⟩,
      [⟨0x0000000000000008, 0x0F, 0x02, true, false, false, false⟩]⟩
  else WordRequests.mixed 1

def doubleInput (t : Nat) : WordPathInput :=
  { WordRequests.mixedInput t with arrival := (log (fun k => (sevenEight k).words) 1)[t]? }

def doubleFeed : Feed :=
  Feed.ofFinite ⟨.empty, WordRequests.resetCore.reset⟩ (fun t => WordPath.rxInput (doubleInput t))
    sevenEight 3 1 rfl (fun _ ht => List.getElem?_eq_none ht) (by decide +kernel)
    (by decide +kernel)

def doubleWrite : WordStream where
  core := WordRequests.resetCore
  inp := doubleInput
  tlps := sevenEight
  fed := doubleFeed.fed
  flow := doubleFeed.flow

/-- The word 7 is pushed although no write is a single one. -/
theorem delivers_doubleWrite_false : ¬ doubleWrite.Delivers singleWord := by
  intro h
  have hpushed : doubleWrite.pushes 30 = [7] := by decide +kernel
  obtain ⟨k, hbegins⟩ := h.inOrder 30
  have hnone : doubleWrite.words singleWord k = [] := by
    refine log_eq_nil fun j _ => ?_
    change singleWord (sevenEight j) = []
    unfold sevenEight
    split <;> decide
  rw [hpushed, hnone] at hbegins
  cases List.prefix_nil.mp hbegins

end WordStream

end CncCard.Pcie
