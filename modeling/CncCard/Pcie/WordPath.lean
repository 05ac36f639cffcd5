import CncCard.Clocked.Log
import CncCard.Pcie.ExtInf
import CncCard.Pcie.Stream

/-!
The path of the interpolation words: `rxproc` with `ext_inf` behind it, `extdfer` tied
high. Whatever two words `rxproc` takes for the header of a write, it makes one strobe of
two cycles, and what is pushed is the double word that the strobe has.
-/

namespace CncCard.Pcie
open Clocked

namespace Tlp

variable (p : Tlp)

/-- The write goes to the interpolation words in BAR1. -/
def hits : Bool := ExtInf.selects (p.second.bardec.getLsbD 1) p.target

def fourDw : Bool := p.first.data.getLsbD 29

def single : Bool := p.first.data.extractLsb 9 0 == 1

/-- The first double word of a payload that begins in the second word. -/
def firstDw : Word := p.second.data.extractLsb 63 32

/-- What the packet brings to `fifo33`. -/
def interpolationWord : List Word := if p.isWrite && !p.fourDw && p.hits then [p.firstDw] else []

/-- What `DATAST2` takes. -/
def taken : Word := if p.inSecond then p.firstDw else p.second.data.extractLsb 31 0

/-- What the strobe of the packet pushes. -/
def strobed : List Word := if p.isWrite && p.hits then [p.taken] else []

theorem target_bit :
    p.target.getLsbD 2 = (headerAddress p.first.data p.second.data).getLsbD 2 := by
  rw [target, BitVec.getLsbD_append]
  simp

/-- A short header with the address of the words has its payload in the second word. -/
theorem inSecond_of_hits (hhits : p.hits = true) (hshort : p.fourDw = false) :
    p.inSecond = true := by
  have htarget : p.target = 0b0000000000000000010100 := by
    rw [hits, ExtInf.selects, Bool.and_eq_true, beq_iff_eq] at hhits
    exact hhits.2
  rw [fourDw] at hshort
  rw [inSecond, hshort, ← target_bit, htarget]
  decide

theorem strobed_eq (hshort : p.isWrite = true → p.hits = true → p.fourDw = false) :
    p.strobed = p.interpolationWord := by
  rw [strobed, interpolationWord]
  cases hwrite : p.isWrite with
  | false => rfl
  | true =>
      cases hhits : p.hits with
      | false => simp
      | true =>
          have hdw := hshort hwrite hhits
          rw [taken, p.inSecond_of_hits hhits hdw, hdw]
          rfl

end Tlp

structure WordPath where
  rx : RxPath
  ext : ExtInf

/-- `float` is what the bus shows while `rxproc` does not drive it. -/
structure WordPathInput where
  arrival : Option RxWord
  stale : RxWord
  memrdack : Bool
  dmardfifodw : BitVec 9
  float : Word

namespace WordPath

def rxInput (i : WordPathInput) : RxPathInput where
  arrival := i.arrival
  stale := i.stale
  extdfer := true
  memrdack := i.memrdack
  dmardfifodw := i.dmardfifodw

def extInput (s : WordPath) (i : WordPathInput) : ExtInfInput where
  dq := s.rx.core.extdq.getD i.float
  dataWr := s.rx.core.extWr
  extAdd := s.rx.core.extAdd
  memsel1 := s.rx.core.memsel1

end WordPath

def wordPath (s : WordPath) (i : WordPathInput) : WordPath where
  rx := rxPath s.rx (WordPath.rxInput i)
  ext := extInf s.ext (s.extInput i)

namespace WordPath

def run (core : Rxproc) (inp : Nat → WordPathInput) : Nat → WordPath :=
  trace wordPath ⟨⟨.empty, core.reset⟩, .reset⟩ inp

/-- The two words that `rxproc` takes for a header in this cycle. -/
def headers (s : WordPath) : List (RxWord × RxWord) :=
  if s.rx.core.preState = .rdhead1 then
    match s.rx.fifo.words with
    | first :: second :: _ => [(first, second)]
    | _ => []
  else []

/-- The words that `rxproc` takes for headers in the first `n` cycles. -/
def headersRead (r : Nat → WordPath) : Nat → List (RxWord × RxWord) := log fun t => (r t).headers

def pushes (r : Nat → WordPath) : Nat → List Word := log fun t => (r t).ext.pushed

end WordPath

/-- What the strobe behind the two words of a header pushes. -/
def strobedBy (w : RxWord × RxWord) : List Word := (Tlp.mk w.1 w.2 []).strobed

/-- The states in which no header or write is under way. -/
def RxState.resting : RxState → Bool
  | idle | unsp1 | unsp2 | memrdst1 | memrdst2 | memrdst3 | memrdst4
  | cpldwaitst1 | cplddatast1 | cpldwaitst6 | cpldwaitst7 | cpldwaitst8 | cpldwaitst9
  | unused _ => true
  | _ => false

namespace WordPath

open RxPath ExtInf

structure Latched (s : RxPath) (p : Tlp) : Prop where
  header : Header s p.first.data p.second.data
  memsel1 : s.core.memsel1 = p.second.bardec.getLsbD 1

/-- The stages of a packet, with what is still to be pushed of it. -/
inductive Phase : WordPath → List Word → Prop
  | resting {s : WordPath} (hstate : s.rx.core.preState.resting = true) (hcalm : Calm s.ext) :
      Phase s []
  | rdhead1 {s : WordPath} {first second : RxWord}
      (hat : At s.rx .rdhead1 first [first, second]) (hcalm : Calm s.ext) : Phase s []
  | headpro1 {s : WordPath} (p : Tlp) (hat : At s.rx .headpro1 p.first [p.second])
      (ha : s.rx.core.headrega = p.first.data) (hcalm : Calm s.ext) :
      Phase s p.strobed
  | rdhead2 {s : WordPath} (p : Tlp) (hat : At s.rx .rdhead2 p.second [p.second])
      (ha : s.rx.core.headrega = p.first.data) (hcalm : Calm s.ext) :
      Phase s p.strobed
  | headpro2 {s : WordPath} (p : Tlp) (hat : At s.rx .headpro2 p.second [p.second])
      (ha : s.rx.core.headrega = p.first.data) (hb : s.rx.core.headregb = p.second.data)
      (hsel : s.rx.core.memsel1 = p.second.bardec.getLsbD 1) (hcalm : Calm s.ext) :
      Phase s p.strobed
  | waitst1 {s : WordPath} (p : Tlp) (hread : HeaderRead s.rx p.first p.second [])
      (hcalm : Calm s.ext) : Phase s p.strobed
  | datast1 {s : WordPath} (p : Tlp) (hwrite : p.isWrite = true)
      (hat : At s.rx .datast1 p.second [p.second]) (hlatched : Latched s.rx p)
      (hcalm : Calm s.ext) : Phase s p.strobed
  | datast2 {s : WordPath} (p : Tlp) (hwrite : p.isWrite = true)
      (hstate : s.rx.core.preState = .datast2) (hrx : s.rx.core.rx = p.second)
      (hlatched : Latched s.rx p) (hcalm : Calm s.ext) : Phase s p.strobed
  | memwrst1 {s : WordPath} (p : Tlp) (hwrite : p.isWrite = true)
      (hstate : s.rx.core.preState = .memwrst1) (hvalue : s.rx.core.extdqreg = p.taken)
      (hlatched : Latched s.rx p) (hcalm : Calm s.ext) : Phase s p.strobed
  | memwrst2 {s : WordPath} (p : Tlp) (hwrite : p.isWrite = true)
      (hstate : s.rx.core.preState = .memwrst2) (hbus : s.rx.core.extdq = some p.taken)
      (hlatched : Latched s.rx p) (hsel : s.ext.pctocardregsel = p.hits)
      (hcalm : Calm s.ext) : Phase s p.strobed
  | memwrst3 {s : WordPath} (p : Tlp) (hwrite : p.isWrite = true)
      (hstate : s.rx.core.preState = .memwrst3) (hsampled : Sampled s.ext p.hits p.taken) :
      Phase s p.strobed
  | memwrst4 {s : WordPath} (p : Tlp) (hwrite : p.isWrite = true)
      (hstate : s.rx.core.preState = .memwrst4) (hpushing : Pushing s.ext p.hits p.taken) :
      Phase s p.strobed

variable {s : WordPath}

theorem extWr_of_state {st : RxState} (h : s.rx.core.preState = st)
    (hst : (st == .memwrst2 || st == .memwrst3) = false) (i : WordPathInput) :
    (s.extInput i).dataWr = false := by
  change s.rx.core.extWr = false
  rw [Rxproc.extWr, h, hst]

theorem headers_of_state {st : RxState} (h : s.rx.core.preState = st) (hst : st ≠ .rdhead1) :
    s.headers = [] := by
  rw [headers, h, if_neg hst]

/-- The states at rest lead to each other, and from `IDLE` to the next header. -/
theorem resting_next {c : Rxproc} (h : c.preState.resting = true) (i : RxInput) :
    (c.nxtState i).resting = true ∨
      c.preState = .idle ∧ Rxproc.rxen i = true ∧ c.nxtState i = .rdhead1 := by
  unfold Rxproc.nxtState
  cases hs : c.preState with
  | idle =>
      simp only
      split
      · next hgo => exact .inr ⟨trivial, (Bool.and_eq_true_iff.mp hgo).1, rfl⟩
      · exact .inl rfl
  | unsp1 | memrdst3 | cpldwaitst9 =>
      simp only
      split <;> exact .inl rfl
  | cplddatast1 =>
      simp only
      split
      · exact .inl rfl
      · split <;> exact .inl rfl
  | unsp2 | memrdst1 | memrdst2 | memrdst4 | cpldwaitst1 | cpldwaitst6 | cpldwaitst7
  | cpldwaitst8 | unused _ => exact .inl rfl
  | _ => rw [hs] at h; cases h

theorem Latched.next {s : RxPath} {p : Tlp} (h : Latched s p)
    (hfirst : s.core.preState ≠ .rdhead1) (hsecond : s.core.preState ≠ .rdhead2)
    (i : RxPathInput) : Latched (rxPath s i) p where
  header := h.header.next hfirst hsecond i
  memsel1 := by simp only [core_rxPath, rxproc, hsecond, if_false, h.memsel1]

theorem Latched.hits {p : Tlp} (h : Latched s.rx p) (i : WordPathInput) :
    selects (s.extInput i).memsel1 (s.extInput i).extAdd = p.hits := by
  have hadd : s.rx.core.extAdd = p.target := by
    rw [Rxproc.extAdd, h.header.addr]
    rfl
  simp only [extInput, h.memsel1, hadd]
  rfl

theorem resting_step (hstate : s.rx.core.preState.resting = true) (hcalm : Calm s.ext)
    (i : WordPathInput) : Phase (wordPath s i) [] := by
  have hwr : (s.extInput i).dataWr = false := by
    change s.rx.core.extWr = false
    rw [Rxproc.extWr]
    cases hs : s.rx.core.preState <;> first | rfl | (rw [hs] at hstate; cases hstate)
  have hcalm' : Calm (wordPath s i).ext := hcalm.next hwr
  rcases resting_next hstate (s.rx.rxInput (rxInput i)) with hrest | ⟨hidle, hen, hgo⟩
  · exact .resting hrest hcalm'
  · have hfiford : s.rx.core.fiford = false := by
      rw [Rxproc.fiford, hidle]
      rfl
    obtain ⟨first, second, tail, hwords⟩ : ∃ first second tail,
        s.rx.fifo.words = first :: second :: tail := by
      have htwo : 2 ≤ s.rx.fifo.words.length := two_le_of_rxen hen
      obtain ⟨first, rest, hfirst⟩ := List.exists_cons_of_length_pos (Nat.lt_of_succ_lt htwo)
      rw [hfirst, List.length_cons] at htwo
      obtain ⟨second, tail, hrest⟩ := List.exists_cons_of_length_pos (Nat.lt_of_succ_lt_succ htwo)
      exact ⟨first, second, tail, hrest ▸ hfirst⟩
    have hat : At s.rx .idle s.rx.core.rx [first, second] :=
      ⟨hidle, rfl, hwords ▸ List.prefix_append [first, second] tail⟩
    have hnext := hat.peek hfiford (rxInput i)
    rw [hgo] at hnext
    exact .rdhead1 hnext hcalm'

theorem waitst1_step {p : Tlp} (hread : HeaderRead s.rx p.first p.second []) (hcalm : Calm s.ext)
    (i : WordPathInput) : Phase (wordPath s i) p.strobed := by
  have hwait := hread.at_waitst1
  have hdecide := hread.nxtState (p := p) rfl rfl (s.rx.rxInput (rxInput i))
  have hcalm' : Calm (wordPath s i).ext := hcalm.next (extWr_of_state hwait.state rfl i)
  have hlatched : Latched (wordPath s i).rx p :=
    Latched.next ⟨hread.header, hread.memsel1⟩ (by simp [hwait.state]) (by simp [hwait.state]) _
  have hnext := hwait.peek hwait.fiford (rxInput i)
  rw [hdecide] at hnext
  cases hwrite : p.isWrite with
  | true =>
      rw [hwrite, if_pos rfl] at hnext
      cases hsecond : p.inSecond with
      | true =>
          rw [hsecond, if_pos rfl] at hnext
          exact .datast2 p hwrite hnext.state hnext.rx hlatched hcalm'
      | false =>
          rw [hsecond, if_neg Bool.false_ne_true] at hnext
          exact .datast1 p hwrite hnext hlatched hcalm'
  | false =>
      have hnone : p.strobed = [] := by
        rw [Tlp.strobed, hwrite]
        rfl
      rw [hwrite, if_neg Bool.false_ne_true] at hnext
      rw [hnone]
      apply Phase.resting _ hcalm'
      change (rxPath s.rx (rxInput i)).core.preState.resting = true
      rw [hnext.state]
      split
      · rfl
      · split <;> rfl

theorem datast2_step {p : Tlp} (hwrite : p.isWrite = true)
    (hstate : s.rx.core.preState = .datast2) (hrx : s.rx.core.rx = p.second)
    (hlatched : Latched s.rx p) (hcalm : Calm s.ext) (i : WordPathInput) :
    Phase (wordPath s i) p.strobed := by
  have hnext : (wordPath s i).rx.core.preState = .memwrst1 := by
    change s.rx.core.nxtState (s.rx.rxInput (rxInput i)) = .memwrst1
    rw [Rxproc.nxtState, hstate]
  have hvalue : (wordPath s i).rx.core.extdqreg = p.taken := by
    have hsel : (s.rx.core.addr.getLsbD 2 && s.rx.core.dw3sel) = p.inSecond := by
      rw [Rxproc.dw3sel, hlatched.header.addr, hlatched.header.headrega, Bool.and_comm]
      rfl
    change (rxproc s.rx.core _).extdqreg = _
    simp only [rxproc, hstate, if_true, hsel, hrx]
    rfl
  exact .memwrst1 p hwrite hnext hvalue
    (hlatched.next (by simp [hstate]) (by simp [hstate]) _)
    (hcalm.next (extWr_of_state hstate rfl i))

theorem memwrst1_step {p : Tlp} (hwrite : p.isWrite = true)
    (hstate : s.rx.core.preState = .memwrst1) (hvalue : s.rx.core.extdqreg = p.taken)
    (hlatched : Latched s.rx p) (hcalm : Calm s.ext) (i : WordPathInput) :
    Phase (wordPath s i) p.strobed := by
  have hnext : (wordPath s i).rx.core.preState = .memwrst2 := by
    change s.rx.core.nxtState (s.rx.rxInput (rxInput i)) = .memwrst2
    rw [Rxproc.nxtState, hstate]
  have hbus : (wordPath s i).rx.core.extdq = some p.taken := by
    change (rxproc s.rx.core _).extdq = _
    simp [Rxproc.extdq, rxproc, hstate, hvalue]
  exact .memwrst2 p hwrite hnext hbus
    (hlatched.next (by simp [hstate]) (by simp [hstate]) _) (hlatched.hits i)
    (hcalm.next (extWr_of_state hstate rfl i))

theorem memwrst2_step {p : Tlp} (hwrite : p.isWrite = true)
    (hstate : s.rx.core.preState = .memwrst2) (hbus : s.rx.core.extdq = some p.taken)
    (hlatched : Latched s.rx p) (hsel : s.ext.pctocardregsel = p.hits) (hcalm : Calm s.ext)
    (i : WordPathInput) : Phase (wordPath s i) p.strobed := by
  have hnext : (wordPath s i).rx.core.preState = .memwrst3 := by
    change s.rx.core.nxtState (s.rx.rxInput (rxInput i)) = .memwrst3
    rw [Rxproc.nxtState, hstate]
  have hwr : (s.extInput i).dataWr = true := by
    change s.rx.core.extWr = true
    rw [Rxproc.extWr, hstate]
    rfl
  have hdq : (s.extInput i).dq = p.taken := by
    change s.rx.core.extdq.getD i.float = p.taken
    rw [hbus]
    rfl
  have hsampled := hcalm.sampled hsel (hlatched.hits i) hwr
  rw [hdq] at hsampled
  exact .memwrst3 p hwrite hnext hsampled

/-- `extdfer` is high, so the strobe ends after its second cycle. -/
theorem memwrst3_step {p : Tlp} (hwrite : p.isWrite = true)
    (hstate : s.rx.core.preState = .memwrst3) (hsampled : Sampled s.ext p.hits p.taken)
    (i : WordPathInput) : Phase (wordPath s i) p.strobed := by
  have hnext : (wordPath s i).rx.core.preState = .memwrst4 := by
    change s.rx.core.nxtState (s.rx.rxInput (rxInput i)) = .memwrst4
    rw [Rxproc.nxtState, hstate]
    rfl
  have hwr : (s.extInput i).dataWr = true := by
    change s.rx.core.extWr = true
    rw [Rxproc.extWr, hstate]
    rfl
  exact .memwrst4 p hwrite hnext (hsampled.pushing hwr)

theorem memwrst4_step {p : Tlp} (hstate : s.rx.core.preState = .memwrst4)
    (hpushing : Pushing s.ext p.hits p.taken) (i : WordPathInput) :
    Phase (wordPath s i) [] := by
  have hnext : (wordPath s i).rx.core.preState = .unsp1 := by
    change s.rx.core.nxtState (s.rx.rxInput (rxInput i)) = .unsp1
    rw [Rxproc.nxtState, hstate]
  exact .resting (by rw [hnext]; rfl) (hpushing.calm (extWr_of_state hstate rfl i))

theorem sum_of_quiet {pend : List Word} (hpushed : s.ext.pushed = []) (hheaders : s.headers = []) :
    s.ext.pushed ++ pend = pend ++ s.headers.flatMap strobedBy := by
  rw [hpushed, hheaders]
  exact (List.append_nil _).symm

/-- What is pushed in a cycle and what is then still to be pushed is what was to be
pushed before, and what the header read in this cycle brings. -/
theorem phase_step {pend : List Word} (h : Phase s pend) (i : WordPathInput) :
    ∃ pend', Phase (wordPath s i) pend' ∧
      s.ext.pushed ++ pend' = pend ++ s.headers.flatMap strobedBy := by
  cases h with
  | resting hstate hcalm =>
      have hnone : s.headers = [] := headers_of_state rfl (by
        intro hst
        rw [hst] at hstate
        cases hstate)
      exact ⟨[], resting_step hstate hcalm i, by rw [hcalm.pushed, hnone]; rfl⟩
  | @rdhead1 first second hat hcalm =>
      obtain ⟨hnext, ha⟩ := hat.rdhead1 (rxInput i)
      have hheaders : s.headers = [(first, second)] := by
        obtain ⟨tail, htail⟩ := hat.queue
        rw [headers, if_pos hat.state, ← htail]
        rfl
      refine ⟨_, .headpro1 ⟨first, second, []⟩ hnext ha
        (hcalm.next (extWr_of_state hat.state rfl i)), ?_⟩
      rw [hcalm.pushed, hheaders]
      exact (List.append_nil _).symm
  | headpro1 p hat ha hcalm =>
      obtain ⟨hnext, ha'⟩ := hat.headpro1 ha (rxInput i)
      exact ⟨_, .rdhead2 p hnext ha' (hcalm.next (extWr_of_state hat.state rfl i)),
        sum_of_quiet hcalm.pushed (headers_of_state hat.state (by decide))⟩
  | rdhead2 p hat ha hcalm =>
      obtain ⟨hnext, ha', hb, hsel⟩ := hat.rdhead2 ha (rxInput i)
      exact ⟨_, .headpro2 p hnext ha' hb hsel (hcalm.next (extWr_of_state hat.state rfl i)),
        sum_of_quiet hcalm.pushed (headers_of_state hat.state (by decide))⟩
  | headpro2 p hat ha hb hsel hcalm =>
      exact ⟨_, .waitst1 p (hat.headpro2 ha hb hsel (rxInput i))
        (hcalm.next (extWr_of_state hat.state rfl i)),
        sum_of_quiet hcalm.pushed (headers_of_state hat.state (by decide))⟩
  | waitst1 p hread hcalm =>
      exact ⟨_, waitst1_step hread hcalm i,
        sum_of_quiet hcalm.pushed (headers_of_state hread.at_waitst1.state (by decide))⟩
  | datast1 p hwrite hat hlatched hcalm =>
      have hnext := hat.pop hat.fiford (rxInput i)
      rw [Rxproc.nxtState, hat.state] at hnext
      exact ⟨_, .datast2 p hwrite hnext.state hnext.rx
        (hlatched.next (by simp [hat.state]) (by simp [hat.state]) _)
        (hcalm.next (extWr_of_state hat.state rfl i)),
        sum_of_quiet hcalm.pushed (headers_of_state hat.state (by decide))⟩
  | datast2 p hwrite hstate hrx hlatched hcalm =>
      exact ⟨_, datast2_step hwrite hstate hrx hlatched hcalm i,
        sum_of_quiet hcalm.pushed (headers_of_state hstate (by decide))⟩
  | memwrst1 p hwrite hstate hvalue hlatched hcalm =>
      exact ⟨_, memwrst1_step hwrite hstate hvalue hlatched hcalm i,
        sum_of_quiet hcalm.pushed (headers_of_state hstate (by decide))⟩
  | memwrst2 p hwrite hstate hbus hlatched hsel hcalm =>
      exact ⟨_, memwrst2_step hwrite hstate hbus hlatched hsel hcalm i,
        sum_of_quiet hcalm.pushed (headers_of_state hstate (by decide))⟩
  | memwrst3 p hwrite hstate hsampled =>
      exact ⟨_, memwrst3_step hwrite hstate hsampled i,
        sum_of_quiet hsampled.pushed (headers_of_state hstate (by decide))⟩
  | memwrst4 p hwrite hstate hpushing =>
      refine ⟨[], memwrst4_step hstate hpushing i, ?_⟩
      rw [hpushing.pushed, headers_of_state hstate (by decide), Tlp.strobed, hwrite,
        Bool.true_and]
      rfl

variable (core : Rxproc) (inp : Nat → WordPathInput)

theorem run_phase (n : Nat) : ∃ pend, Phase (run core inp n) pend ∧
    pushes (run core inp) n ++ pend = (headersRead (run core inp) n).flatMap strobedBy := by
  induction n with
  | zero => exact ⟨[], .resting rfl ⟨rfl, rfl, rfl⟩, rfl⟩
  | succ n ih =>
      obtain ⟨pend, hphase, hsum⟩ := ih
      obtain ⟨pend', hnext, hstep⟩ := phase_step hphase (inp n)
      refine ⟨pend', hnext, ?_⟩
      rw [pushes, headersRead, log_succ, log_succ, ← pushes, ← headersRead, List.flatMap_append,
        ← hsum, List.append_assoc, List.append_assoc, hstep]

theorem Phase.of_idle {pend : List Word} (h : Phase s pend)
    (hidle : s.rx.core.preState = .idle) : pend = [] := by
  cases h with
  | resting _ _ | rdhead1 _ _ => rfl
  | headpro1 _ hat _ _ | rdhead2 _ hat _ _ | headpro2 _ hat _ _ _ _ | datast1 _ _ hat _ _ =>
      have hstate := hat.state
      rw [hidle] at hstate
      cases hstate
  | waitst1 _ hread _ =>
      have hstate := hread.at_waitst1.state
      rw [hidle] at hstate
      cases hstate
  | datast2 _ _ hstate _ _ _ | memwrst1 _ _ hstate _ _ _ | memwrst2 _ _ hstate _ _ _ _
  | memwrst3 _ _ hstate _ | memwrst4 _ _ hstate _ =>
      rw [hidle] at hstate
      cases hstate

/-- `fifo33` never gets anything but what the strobes push, in their order. -/
theorem pushes_prefix (n : Nat) :
    pushes (run core inp) n <+: (headersRead (run core inp) n).flatMap strobedBy := by
  obtain ⟨pend, -, hsum⟩ := run_phase core inp n
  rw [← hsum]
  exact List.prefix_append _ _

/-- Between packets it has got all of it. -/
theorem pushes_of_idle {n : Nat} (hidle : (run core inp n).rx.core.preState = .idle) :
    pushes (run core inp) n = (headersRead (run core inp) n).flatMap strobedBy := by
  obtain ⟨pend, hphase, hsum⟩ := run_phase core inp n
  rw [← hsum, hphase.of_idle hidle, List.append_nil]

end WordPath

end CncCard.Pcie
