import CncCard.Pcie.Header

/-!
Memory writes of one double word. `DATAST1` is there to bring the third word of a
packet into view, but `rxdata` is a register behind the queue, so `DATAST2` still
sees the second word: what a write delivers is its payload only where the payload
lies in the second word.
-/

namespace CncCard.Pcie
open Clocked

/-- A memory-write packet of one double word, as the words of `fifo1`. The payload
follows a short header in its second word if the address is odd in double words, and
comes in a third word otherwise. -/
structure MemWrite where
  fourDw : Bool
  first : RxWord
  second : RxWord
  third : RxWord
  fmtType : first.data.extractLsb 31 24 = if fourDw then 0x60 else 0x40
  length : first.data.extractLsb 9 0 = 1

namespace MemWrite

variable (w : MemWrite)

def address : BitVec 32 :=
  if w.fourDw then w.second.data.extractLsb 63 32 else w.second.data.extractLsb 31 0

def inSecond : Bool := !w.fourDw && w.address.getLsbD 2

def payload : BitVec 32 :=
  if w.inSecond then w.second.data.extractLsb 63 32 else w.third.data.extractLsb 31 0

/-- What `ext_add` is to show. -/
def target : BitVec 22 := w.address.extractLsb 21 2 ++ 0#2

def words : List RxWord :=
  w.first.mark true false ::
    if w.inSecond then [w.second.mark false true]
    else [w.second.mark false false, w.third.mark false true]

/-- What `DATAST2` takes from the second word. -/
def taken : BitVec 32 :=
  if w.inSecond then w.second.data.extractLsb 63 32 else w.second.data.extractLsb 31 0

theorem words_length_le : w.words.length ≤ 3 := by
  unfold words
  split <;> simp

theorem words_eq : ∃ eop queue, w.words =
    w.first.mark true false :: w.second.mark false eop :: queue := by
  unfold words
  split
  · exact ⟨_, _, rfl⟩
  · exact ⟨_, _, rfl⟩

theorem type_eq : w.first.data.extractLsb 28 24 = 0 := by
  have hslice : w.first.data.extractLsb 28 24 = (w.first.data.extractLsb 31 24).extractLsb 4 0 := by
    ext k hk
    simp
    grind
  rw [hslice, w.fmtType]
  cases w.fourDw <;> rfl

theorem fmt_eq (k : Nat) (hk : k < 8) :
    w.first.data.getLsbD (24 + k) = (if w.fourDw then 0x60#8 else 0x40#8).getLsbD k := by
  have hlow : decide (k < 31 - 24 + 1) = true := decide_eq_true (by omega)
  have hbit : (w.first.data.extractLsb 31 24).getLsbD k = w.first.data.getLsbD (24 + k) := by
    rw [BitVec.getLsbD_extractLsb, hlow, Bool.true_and]
  rw [← hbit, w.fmtType]
  rfl

theorem withData_eq : w.first.data.getLsbD 30 = true := by
  rw [w.fmt_eq 6 (by decide)]
  cases w.fourDw <;> rfl

theorem fourDw_eq : w.first.data.getLsbD 29 = w.fourDw := by
  rw [w.fmt_eq 5 (by decide)]
  cases w.fourDw <;> rfl

theorem headerAddress_eq :
    headerAddress w.first.data w.second.data = w.address.extractLsb 31 2 ++ 0#2 := by
  have hslice : w.address.extractLsb 31 2 =
      if w.fourDw then w.second.data.extractLsb 63 34 else w.second.data.extractLsb 31 2 := by
    unfold address
    split <;> (ext k hk; simp; grind)
  rw [headerAddress, w.fourDw_eq, hslice]

theorem headerAddress_bit : (headerAddress w.first.data w.second.data).getLsbD 2 =
    w.address.getLsbD 2 := by
  rw [w.headerAddress_eq, BitVec.getLsbD_append]
  simp

theorem headerAddress_slice : (headerAddress w.first.data w.second.data).extractLsb 21 2 ++ 0#2 =
    w.target := by
  have hslice : (w.address.extractLsb 31 2 ++ 0#2 : BitVec 32).extractLsb 21 2 =
      w.address.extractLsb 21 2 := by
    ext k hk
    simp
    grind
  rw [w.headerAddress_eq, target, hslice]

end MemWrite

/-- What waits behind the packet. The queue asks for a pause at 700 words, so it never
comes near its 1024. -/
structure Backlog where
  words : List RxWord
  short : words.length ≤ 1019

namespace RxPath

def queued (w : MemWrite) (rest : Backlog) (core : Rxproc) : RxPath where
  fifo := ⟨w.words ++ rest.words, by
    have hw := w.words_length_le
    have hrest := rest.short
    rw [List.length_append]
    omega⟩
  core := { core with preState := .idle }

/-- The first `ext_wr` strobe of a run shows the payload on the bus and the address of
the packet on `ext_add` for as long as it lasts. -/
def Delivers (r : Nat → RxPath) (w : MemWrite) : Prop :=
  ∃ a, (∀ t < a, (r t).core.extWr = false) ∧ (r a).core.extWr = true ∧
    ∀ t, a ≤ t → (∀ u, a ≤ u → u ≤ t → (r u).core.extWr = true) →
      (r t).core.extdq = some w.payload ∧ (r t).core.extAdd = w.target

/-- A strobe with a value in the output register. -/
structure Strobe (s : RxPath) (w : MemWrite) (value : BitVec 32) : Prop where
  state : s.core.preState = .memwrst2 ∨ s.core.preState = .memwrst3
  header : Header s w.first.data w.second.data
  extdqreg : s.core.extdqreg = value
  dqoen : s.core.dqoen = true

variable {s : RxPath} {w : MemWrite} {value : BitVec 32}

theorem Strobe.extWr (h : Strobe s w value) : s.core.extWr = true := by
  rcases h.state with hst | hst <;> simp [Rxproc.extWr, hst]

theorem Strobe.extdq (h : Strobe s w value) : s.core.extdq = some value := by
  simp only [Rxproc.extdq, h.dqoen, if_true, h.extdqreg]

theorem Strobe.extAdd (h : Strobe s w value) : s.core.extAdd = w.target := by
  rw [Rxproc.extAdd, h.header.addr, w.headerAddress_slice]

theorem Strobe.next (h : Strobe s w value) {i : RxPathInput}
    (hwr : (rxPath s i).core.extWr = true) : Strobe (rxPath s i) w value := by
  have hfirst : s.core.preState ≠ .rdhead1 := by rcases h.state with hst | hst <;> simp [hst]
  have hsecond : s.core.preState ≠ .rdhead2 := by rcases h.state with hst | hst <;> simp [hst]
  refine ⟨?_, h.header.next hfirst hsecond i, ?_, ?_⟩
  · simpa [Rxproc.extWr] using hwr
  · rcases h.state with hst | hst <;> simp [core_rxPath, rxproc, hst, h.extdqreg]
  · rcases h.state with hst | hst <;> simp [core_rxPath, rxproc, hst]

theorem strobe_run {inp : Nat → RxPathInput} {a : Nat}
    (h : Strobe (trace rxPath s inp a) w value) (t : Nat) (ha : a ≤ t)
    (hwr : ∀ u, a ≤ u → u ≤ t → (trace rxPath s inp u).core.extWr = true) :
    Strobe (trace rxPath s inp t) w value := by
  induction t, ha using Nat.le_induction with
  | base => exact h
  | succ t ha ih =>
      have hstrobe := ih fun u hu hut => hwr u hu (Nat.le_succ_of_le hut)
      exact hstrobe.next (hwr (t + 1) (Nat.le_succ_of_le ha) (Nat.le_refl _))

section Packet

variable {eop : Bool} {queue : List RxWord}

abbrev WriteRead (s : RxPath) (w : MemWrite) (eop : Bool) (queue : List RxWord) : Prop :=
  HeaderRead s (w.first.mark true false) (w.second.mark false eop) queue

theorem WriteRead.nxtState (h : WriteRead s w eop queue) (i : RxPathInput) :
    s.core.nxtState (s.rxInput i) = if w.inSecond then .datast2 else .datast1 := by
  have htype : s.core.type = 0 := by
    rw [Rxproc.type, h.header.headrega]
    exact w.type_eq
  have hdata : s.core.withData = true := by
    rw [Rxproc.withData, h.header.headrega]
    exact w.withData_eq
  have hdw3 : s.core.dw3sel = !w.fourDw := by
    rw [Rxproc.dw3sel, h.header.headrega]
    exact congrArg _ w.fourDw_eq
  have haddr : s.core.addr.getLsbD 2 = w.address.getLsbD 2 := by
    rw [h.header.addr]
    exact w.headerAddress_bit
  have hwr : s.core.memwrsel = true := by
    rw [Rxproc.memwrsel, htype, hdata]
    rfl
  simp only [Rxproc.nxtState, h.at_waitst1.state, hwr, hdw3, haddr, MemWrite.inSecond,
    Bool.true_and, if_true]
  exact if_congr (by rw [Bool.and_comm]) rfl rfl

/-- `DATAST2` takes its value from the second word of the packet. -/
theorem strobe_of_datast2 (hst : s.core.preState = .datast2)
    (hrx : s.core.rx.data = w.second.data) (h : Header s w.first.data w.second.data)
    (i j : RxPathInput) :
    (rxPath s i).core.extWr = false ∧ Strobe (rxPath (rxPath s i) j) w w.taken := by
  have hnext : (rxPath s i).core.preState = .memwrst1 := by
    rw [core_rxPath]
    simp only [rxproc, Rxproc.nxtState, hst]
  have hreg : (rxPath s i).core.extdqreg = w.taken := by
    have hsel : (s.core.addr.getLsbD 2 && s.core.dw3sel) = w.inSecond := by
      rw [Rxproc.dw3sel, h.addr, h.headrega, w.headerAddress_bit, w.fourDw_eq, MemWrite.inSecond,
        Bool.and_comm]
    simp only [core_rxPath, rxproc, hst, if_true, hsel, hrx, MemWrite.taken]
  have hheader : Header (rxPath s i) w.first.data w.second.data :=
    h.next (by simp [hst]) (by simp [hst]) i
  refine ⟨by simp [Rxproc.extWr, hnext], .inl ?_, ?_, ?_, ?_⟩
  · rw [core_rxPath]
    simp only [rxproc, Rxproc.nxtState, hnext]
  · exact hheader.next (by simp [hnext]) (by simp [hnext]) j
  · simp [core_rxPath _ j, rxproc, hnext, hreg]
  · simp [core_rxPath _ j, rxproc, hnext]

theorem strobe_of_writeRead (h : WriteRead s w eop queue) (inp : Nat → RxPathInput) :
    ∃ n, Strobe (trace rxPath s inp n) w w.taken ∧
      ∀ k < n, (trace rxPath s inp k).core.extWr = false := by
  have h₁ := h.at_waitst1.peek h.at_waitst1.fiford (inp 0)
  have hheader₁ : Header (rxPath s (inp 0)) w.first.data w.second.data :=
    h.header.next (by simp [h.at_waitst1.state]) (by simp [h.at_waitst1.state]) _
  rw [h.nxtState] at h₁
  cases hin : w.inSecond with
  | true =>
      simp only [hin, if_true] at h₁
      obtain ⟨hwr₂, hstrobe⟩ := strobe_of_datast2 h₁.state (by rw [h₁.rx]; rfl) hheader₁
        (inp 1) (inp 2)
      refine ⟨3, hstrobe, ?_⟩
      intro k hk
      interval_cases k
      · exact h.at_waitst1.extWr
      · exact h₁.extWr
      · exact hwr₂
  | false =>
      simp only [hin, if_false, Bool.false_eq_true] at h₁
      have h₂ := h₁.pop h₁.fiford (inp 1)
      have hheader₂ : Header (rxPath (rxPath s (inp 0)) (inp 1)) w.first.data w.second.data :=
        hheader₁.next (by simp [h₁.state]) (by simp [h₁.state]) _
      simp only [Rxproc.nxtState, h₁.state] at h₂
      obtain ⟨hwr₃, hstrobe⟩ := strobe_of_datast2 h₂.state (by rw [h₂.rx]; rfl) hheader₂
        (inp 2) (inp 3)
      refine ⟨4, hstrobe, ?_⟩
      intro k hk
      interval_cases k
      · exact h.at_waitst1.extWr
      · exact h₁.extWr
      · exact h₂.extWr
      · exact hwr₃

/-- Every queued write comes to its strobe, with what `DATAST2` took on the bus. -/
theorem reach_strobe (w : MemWrite) (rest : Backlog) (core : Rxproc)
    (inp : Nat → RxPathInput) :
    ∃ a, Strobe (trace rxPath (queued w rest core) inp a) w w.taken ∧
      ∀ k < a, (trace rxPath (queued w rest core) inp k).core.extWr = false := by
  obtain ⟨eop, queue, hwords⟩ := w.words_eq
  have hroom : (queued w rest core).fifo.words.length + 1 < 1024 := by
    have hw := w.words_length_le
    have hrest := rest.short
    simp only [queued, List.length_append]
    omega
  have hqueue : w.first.mark true false :: w.second.mark false eop :: queue <+:
      (queued w rest core).fifo.words := by
    rw [← hwords]
    exact List.prefix_append _ _
  obtain ⟨n, hread, hbefore⟩ := reach_headerRead rfl hqueue rfl hroom inp
  obtain ⟨m, hstrobe, hduring⟩ := strobe_of_writeRead hread fun t => inp (n + t)
  refine ⟨n + m, ?_, ?_⟩
  · rw [trace_add]
    exact hstrobe
  · exact trace_both (P := fun s : RxPath => s.core.extWr = false)
      (fun j hj => hbefore j (Nat.le_of_lt hj)) hduring

end Packet

theorem delivers_iff_taken (w : MemWrite) (rest : Backlog) (core : Rxproc)
    (inp : Nat → RxPathInput) :
    Delivers (trace rxPath (queued w rest core) inp) w ↔ w.taken = w.payload := by
  obtain ⟨a, hstrobe, hbefore⟩ := reach_strobe w rest core inp
  constructor
  · rintro ⟨a', hbefore', hwr, hshown⟩
    obtain rfl : a' = a := by
      rcases Nat.lt_trichotomy a' a with hlt | heq | hgt
      · rw [hbefore a' hlt] at hwr
        cases hwr
      · exact heq
      · have hwr' := hstrobe.extWr
        rw [hbefore' a hgt] at hwr'
        cases hwr'
    obtain ⟨hdq, -⟩ := hshown a' (Nat.le_refl _) fun u hu hu' => by
      rw [Nat.le_antisymm hu' hu]
      exact hwr
    rw [hstrobe.extdq] at hdq
    exact Option.some.inj hdq
  · intro htaken
    refine ⟨a, hbefore, hstrobe.extWr, ?_⟩
    intro t ha hwr
    have hstrobe' := strobe_run hstrobe t ha hwr
    exact ⟨by rw [hstrobe'.extdq, htaken], hstrobe'.extAdd⟩

/-- A queued write of one double word is delivered if and only if its payload is in its
second word, or happens to equal the lower half of that word. -/
theorem delivers_iff (w : MemWrite) (rest : Backlog) (core : Rxproc)
    (inp : Nat → RxPathInput) :
    Delivers (trace rxPath (queued w rest core) inp) w ↔
      w.inSecond = true ∨ w.payload = w.second.data.extractLsb 31 0 := by
  rw [delivers_iff_taken, MemWrite.taken]
  cases hin : w.inSecond with
  | true => simp [MemWrite.payload, hin]
  | false => simp [eq_comm]

def blank : RxWord := ⟨0, 0, 0, true, false, false, false⟩

/-- The value 1 written to address 0 with a short header. -/
def writeOne : MemWrite where
  fourDw := false
  first := { blank with data := 0x000000FF40000001 }
  second := blank
  third := { blank with data := 0x0000000000000001 }
  fmtType := by decide
  length := by decide

/-- The bus shows the address 0 instead. -/
theorem delivers_writeOne_false :
    ¬ Delivers (trace rxPath (queued writeOne ⟨[], by decide⟩
      ⟨.idle, blank, 0, 0, 0, 0, 0, false, false, false⟩)
      fun _ => ⟨none, blank, true, false, 0⟩) writeOne := by
  rw [delivers_iff_taken]
  decide

end RxPath

end CncCard.Pcie
