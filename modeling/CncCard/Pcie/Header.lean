import CncCard.Pcie.Rxproc
import Mathlib.Tactic.IntervalCases

/-!
How `rxproc` reads the header of a packet. From `IDLE` the two header words are in
their registers when `WAITST1` is reached, whatever arrives meanwhile.
-/

namespace CncCard.Pcie
open Clocked

/-- The address double word of a header, by the header's own format bit. -/
def headerAddress (first second : BitVec 64) : BitVec 32 :=
  (if first.getLsbD 29 then second.extractLsb 63 34 else second.extractLsb 31 2) ++ 0#2

namespace RxPath

/-- The state, the registered word and the first words of the queue. -/
structure At (s : RxPath) (st : RxState) (rx : RxWord) (queue : List RxWord) : Prop where
  state : s.core.preState = st
  rx : s.core.rx = rx
  queue : queue <+: s.fifo.words

/-- The header registers, and the address register behind them. -/
structure Header (s : RxPath) (first second : BitVec 64) : Prop where
  headrega : s.core.headrega = first
  headregb : s.core.headregb = second
  addr : s.core.addr = headerAddress first second

variable {s : RxPath} {st : RxState} {rx q : RxWord} {qs : List RxWord}

theorem core_rxPath (s : RxPath) (i : RxPathInput) :
    (rxPath s i).core = rxproc s.core (s.rxInput i) := rfl

theorem rx_rxPath (h : q :: qs <+: s.fifo.words) (i : RxPathInput) :
    (rxPath s i).core.rx = q := by
  obtain ⟨tail, htail⟩ := h
  simp only [core_rxPath, rxproc, rxInput, ← htail]
  rfl

/-- A state that does not read the queue leaves its first words in place. -/
theorem At.peek (h : At s st rx (q :: qs)) (hread : s.core.fiford = false) (i : RxPathInput) :
    At (rxPath s i) (s.core.nxtState (s.rxInput i)) q (q :: qs) where
  state := rfl
  rx := rx_rxPath h.queue i
  queue := by
    simp only [rxPath, hread, Fifo.clock_words_idle]
    exact h.queue.trans (List.prefix_append _ _)

/-- A state that reads the queue registers the word that it removes. -/
theorem At.pop (h : At s st rx (q :: qs)) (hread : s.core.fiford = true) (i : RxPathInput) :
    At (rxPath s i) (s.core.nxtState (s.rxInput i)) q qs where
  state := rfl
  rx := rx_rxPath h.queue i
  queue := by
    obtain ⟨tail, htail⟩ := h.queue
    simp only [rxPath, hread, Fifo.clock, if_true, ← htail]
    exact ⟨tail ++ s.fifo.accepted i.arrival, by simp⟩

theorem Header.next {first second : BitVec 64} (h : Header s first second)
    (hfirst : s.core.preState ≠ .rdhead1) (hsecond : s.core.preState ≠ .rdhead2)
    (i : RxPathInput) : Header (rxPath s i) first second where
  headrega := by simp only [core_rxPath, rxproc, hfirst, if_false, h.headrega]
  headregb := by simp only [core_rxPath, rxproc, hsecond, if_false, h.headregb]
  addr := by
    simp only [core_rxPath, rxproc, Rxproc.dw3sel, h.headrega, h.headregb, headerAddress]
    cases first.getLsbD 29 <;> rfl

theorem At.fiford (h : At s st rx qs) :
    s.core.fiford = (st == .rdhead1 || st == .datast1 || st == .unsp1 ||
      st == .cpldwaitst1 || st == .cplddatast1) := by
  rw [Rxproc.fiford, h.state]

theorem At.extWr (h : At s st rx qs) : s.core.extWr = (st == .memwrst2 || st == .memwrst3) := by
  rw [Rxproc.extWr, h.state]

/-- The header has been read: `WAITST1` decides on it with the second word still at the
head of the queue. -/
structure HeaderRead (s : RxPath) (first second : RxWord) (queue : List RxWord) : Prop where
  at_waitst1 : At s .waitst1 second (second :: queue)
  header : Header s first.data second.data
  memsel1 : s.core.memsel1 = second.bardec.getLsbD 1

section Read

variable {first second : RxWord} {queue : List RxWord}

theorem At.rdhead1 (h : At s .rdhead1 first (first :: second :: queue)) (i : RxPathInput) :
    At (rxPath s i) .headpro1 first (second :: queue) ∧
      (rxPath s i).core.headrega = first.data := by
  have hnext := h.pop h.fiford i
  rw [Rxproc.nxtState, h.state] at hnext
  exact ⟨hnext, by simp only [core_rxPath, rxproc, h.state, h.rx, if_true]⟩

theorem At.headpro1 (h : At s .headpro1 rx (second :: queue))
    (ha : s.core.headrega = first.data) (i : RxPathInput) :
    At (rxPath s i) .rdhead2 second (second :: queue) ∧
      (rxPath s i).core.headrega = first.data := by
  have hnext := h.peek h.fiford i
  rw [Rxproc.nxtState, h.state] at hnext
  exact ⟨hnext, by simp [core_rxPath, rxproc, h.state, ha]⟩

theorem At.rdhead2 (h : At s .rdhead2 second (second :: queue))
    (ha : s.core.headrega = first.data) (i : RxPathInput) :
    At (rxPath s i) .headpro2 second (second :: queue) ∧
      (rxPath s i).core.headrega = first.data ∧ (rxPath s i).core.headregb = second.data ∧
      (rxPath s i).core.memsel1 = second.bardec.getLsbD 1 := by
  have hnext := h.peek h.fiford i
  rw [Rxproc.nxtState, h.state] at hnext
  refine ⟨hnext, ?_, ?_, ?_⟩
  · simp [core_rxPath, rxproc, h.state, ha]
  · simp only [core_rxPath, rxproc, h.state, h.rx, if_true]
  · simp only [core_rxPath, rxproc, h.state, h.rx, if_true]

theorem At.headpro2 (h : At s .headpro2 rx (second :: queue))
    (ha : s.core.headrega = first.data) (hb : s.core.headregb = second.data)
    (hsel : s.core.memsel1 = second.bardec.getLsbD 1) (i : RxPathInput) :
    HeaderRead (rxPath s i) first second queue := by
  have hnext := h.peek h.fiford i
  rw [Rxproc.nxtState, h.state] at hnext
  refine ⟨hnext, ⟨?_, ?_, ?_⟩, ?_⟩
  · simp [core_rxPath, rxproc, h.state, ha]
  · simp [core_rxPath, rxproc, h.state, hb]
  · simp only [core_rxPath, rxproc, Rxproc.dw3sel, ha, hb, headerAddress]
    cases first.data.getLsbD 29 <;> rfl
  · simp [core_rxPath, rxproc, h.state, hsel]

theorem headerRead (h : At s .rdhead1 first (first :: second :: queue))
    (inp : Nat → RxPathInput) :
    HeaderRead (trace rxPath s inp 4) first second queue ∧
      ∀ k ≤ 4, (trace rxPath s inp k).core.extWr = false := by
  have h₁ := h.rdhead1 (inp 0)
  have h₂ := h₁.1.headpro1 h₁.2 (inp 1)
  have h₃ := h₂.1.rdhead2 h₂.2 (inp 2)
  have h₄ := h₃.1.headpro2 h₃.2.1 h₃.2.2.1 h₃.2.2.2 (inp 3)
  refine ⟨h₄, ?_⟩
  intro k hk
  interval_cases k
  · exact h.extWr
  · exact h₁.1.extWr
  · exact h₂.1.extWr
  · exact h₃.1.extWr
  · exact h₄.at_waitst1.extWr

theorem rxen_rxInput (hlow : 2 ≤ s.fifo.words.length) (hhigh : s.fifo.words.length < 1024)
    (i : RxPathInput) : Rxproc.rxen (s.rxInput i) = true := by
  simp only [Rxproc.rxen, rxInput, decide_eq_true_eq, BitVec.le_def, BitVec.toNat_ofNat]
  rw [Nat.mod_eq_of_lt hhigh]
  exact hlow

theorem two_le_of_rxen {i : RxPathInput} (h : Rxproc.rxen (s.rxInput i) = true) :
    2 ≤ s.fifo.words.length := by
  simp only [Rxproc.rxen, rxInput, decide_eq_true_eq, BitVec.le_def, BitVec.toNat_ofNat] at h
  exact Nat.le_trans h (Nat.mod_le _ _)

/-- A packet at the head of the queue is noticed in one cycle, or in two when the
registered word is not yet its first. -/
theorem reach_rdhead1 (hidle : s.core.preState = .idle)
    (hqueue : first :: second :: queue <+: s.fifo.words) (hsop : first.sop = true)
    (hroom : s.fifo.words.length + 1 < 1024) (inp : Nat → RxPathInput) :
    ∃ n, At (trace rxPath s inp n) .rdhead1 first (first :: second :: queue) ∧
      ∀ k ≤ n, (trace rxPath s inp k).core.extWr = false := by
  have h₀ : At s .idle s.core.rx (first :: second :: queue) := ⟨hidle, rfl, hqueue⟩
  have hlow := hqueue.length_le
  simp only [List.length_cons] at hlow
  have hen := rxen_rxInput (s := s) (by omega) (by omega) (inp 0)
  have h₁ := h₀.peek h₀.fiford (inp 0)
  simp only [Rxproc.nxtState, hidle, hen, Bool.true_and] at h₁
  cases hstale : s.core.rx.sop with
  | true =>
      simp only [hstale, if_true] at h₁
      refine ⟨1, h₁, ?_⟩
      intro k hk
      interval_cases k
      · exact h₀.extWr
      · exact h₁.extWr
  | false =>
      simp only [hstale, if_false, Bool.false_eq_true] at h₁
      have h₂ := h₁.peek h₁.fiford (inp 1)
      have hhigh : (rxPath s (inp 0)).fifo.words.length < 1024 := by
        have hadd := s.fifo.length_accepted_le (inp 0).arrival
        have hread : s.core.fiford = false := h₀.fiford
        simp only [rxPath, hread, Fifo.clock_words_idle, List.length_append]
        omega
      have hlow₁ := h₁.queue.length_le
      simp only [List.length_cons] at hlow₁
      have hen₁ := rxen_rxInput (s := rxPath s (inp 0)) (by omega) hhigh (inp 1)
      simp only [Rxproc.nxtState, h₁.state, hen₁, h₁.rx, hsop, Bool.true_and, if_true] at h₂
      refine ⟨2, h₂, ?_⟩
      intro k hk
      interval_cases k
      · exact h₀.extWr
      · exact h₁.extWr
      · exact h₂.extWr

/-- From `IDLE` with a packet at the head of the queue, `WAITST1` is reached with the
header in its registers. -/
theorem reach_headerRead (hidle : s.core.preState = .idle)
    (hqueue : first :: second :: queue <+: s.fifo.words) (hsop : first.sop = true)
    (hroom : s.fifo.words.length + 1 < 1024) (inp : Nat → RxPathInput) :
    ∃ n, HeaderRead (trace rxPath s inp n) first second queue ∧
      ∀ k ≤ n, (trace rxPath s inp k).core.extWr = false := by
  obtain ⟨n, h, hbefore⟩ := reach_rdhead1 hidle hqueue hsop hroom inp
  obtain ⟨hread, hduring⟩ := headerRead h fun t => inp (n + t)
  refine ⟨n + 4, ?_, fun k hk => ?_⟩
  · rw [trace_add]
    exact hread
  · exact trace_both (P := fun s : RxPath => s.core.extWr = false) (m := 5)
      (fun j hj => hbefore j (Nat.le_of_lt hj)) (fun j hj => hduring j (Nat.le_of_lt_succ hj)) k
      (Nat.lt_succ_of_le hk)

theorem HeaderRead.memrdst1 (h : HeaderRead s first second queue)
    (htype : first.data.extractLsb 28 24 = 0) (hread : first.data.getLsbD 30 = false)
    (i : RxPathInput) :
    At (rxPath s i) .memrdst1 second (second :: queue) ∧
      Header (rxPath s i) first.data second.data ∧
      (rxPath s i).core.memsel1 = second.bardec.getLsbD 1 := by
  have hstate := h.at_waitst1.state
  have hnext := h.at_waitst1.peek h.at_waitst1.fiford i
  have hwr : s.core.memwrsel = false := by
    rw [Rxproc.memwrsel, Rxproc.withData, h.header.headrega, hread, Bool.and_false]
  have hrd : s.core.memrdsel = true := by
    rw [Rxproc.memrdsel, Rxproc.type, Rxproc.withData, h.header.headrega, htype, hread]
    rfl
  simp only [Rxproc.nxtState, hstate, hwr, hrd, Bool.false_and, Bool.false_eq_true, if_false,
    if_true] at hnext
  refine ⟨hnext, h.header.next (by simp [hstate]) (by simp [hstate]) i, ?_⟩
  simp [core_rxPath, rxproc, hstate, h.memsel1]

end Read

end RxPath

end CncCard.Pcie
