import CncCard.Pcie.Stream

/-!
Completions with data. `CPLDDATAST1` writes `rxdata` to the queue of the DMA reads, and
`rxdata` is a register behind the receive queue: the first word that is written is the
second word of the header.
-/

namespace CncCard.Pcie
open Clocked

/-- A feed that starts with a successful completion with data. -/
structure CompletionFeed extends Feed where
  type : (tlps 0).first.data.extractLsb 28 24 = 0b01010 ∨
    (tlps 0).first.data.extractLsb 28 24 = 0b01011
  withData : (tlps 0).first.data.getLsbD 30 = true
  tag : (tlps 0).first.data.extractLsb 47 45 = 0
  payload : (tlps 0).rest ≠ []
  arrived : toFeed.Arrived 1

namespace Feed

/-- The place in the stream of the word that `rxdata` shows, if it shows one. -/
def shown (f : Feed) : Nat → Option Nat
  | 0 => none
  | t + 1 => if (f.run t).fifo.words = [] then none else some (f.consumed t).length

/-- The places of the words that go to the queue of the DMA reads in the first `n`
cycles. -/
def written (f : Feed) : Nat → List (Option Nat) :=
  log fun t => if (f.run t).core.dmardfifowr then [f.shown t] else []

variable {f : Feed}

/-- The register shows the word of the stream at its place. -/
theorem rx_of_shown {t j : Nat} (h : f.shown t = some j) :
    ∃ k, (f.stream k)[j]? = some (f.run t).core.rx := by
  cases t with
  | zero => cases h
  | succ t =>
      rw [shown] at h
      cases hwords : (f.run t).fifo.words with
      | nil => rw [hwords, if_pos rfl] at h; cases h
      | cons q qs =>
          rw [hwords, if_neg (List.cons_ne_nil q qs)] at h
          obtain rfl := Option.some.inj h
          obtain ⟨m, hm⟩ := f.fed t
          rw [← f.consumed_append_words, hwords] at hm
          obtain ⟨tail, htail⟩ := hm
          have hqueue : [q] <+: (f.run t).fifo.words := by
            rw [hwords]
            exact List.prefix_append [q] qs
          have hrx : (f.run (t + 1)).core.rx = q := RxPath.rx_rxPath hqueue _
          refine ⟨m, ?_⟩
          rw [stream, ← htail, hrx]
          simp

theorem written_of_state {t : Nat} (h : (f.run t).core.preState ≠ .cplddatast1) :
    f.written (t + 1) = f.written t := by
  have hlow : (f.run t).core.dmardfifowr = false := beq_eq_false_iff_ne.mpr h
  rw [written, log_succ, hlow]
  exact List.append_nil _

end Feed

namespace CompletionFeed

variable (x : CompletionFeed)

/-- `rxproc` is idle again behind the completion: it has written the words of the
payload, each once and in order, and has read no word of the next packet. -/
def Transfers : Prop :=
  ∃ t, (x.run t).core.preState = .idle ∧
    x.written t = (List.range (x.tlps 0).rest.length).map (fun k => some (k + 2)) ∧
    x.consumed t = x.stream 1

variable {x}

theorem nxtState_waitst1 {s : RxPath} {queue : List RxWord} {second : RxWord}
    (h : RxPath.HeaderRead s (x.tlps 0).head1 second queue) (i : RxInput) :
    s.core.nxtState i = .cpldwaitst1 := by
  have hdata : s.core.withData = true := by
    rw [Rxproc.withData, h.header.headrega]
    exact x.withData
  have hhead : s.core.headrega = (x.tlps 0).first.data := h.header.headrega
  have hwr : s.core.memwrsel = false := by
    rw [Rxproc.memwrsel, Rxproc.type, hhead]
    rcases x.type with ht | ht <;> rw [ht] <;> rfl
  have hrd : s.core.memrdsel = false := by
    rw [Rxproc.memrdsel, hdata, Bool.not_true, Bool.and_false]
  have hcpld : s.core.cpldsel = true := by
    rw [Rxproc.cpldsel, hdata, Rxproc.type, hhead, x.tag]
    rcases x.type with ht | ht <;> rw [ht] <;> rfl
  simp only [Rxproc.nxtState, h.at_waitst1.state, hwr, hrd, hcpld, Bool.false_and,
    Bool.false_eq_true, if_false, if_true]

/-- The first word written is the second word of the header. -/
theorem first_written (x : CompletionFeed) :
    ∃ u, x.written u = [] ∧ x.written (u + 1) = [some 1] := by
  obtain ⟨u, -, hwaits, hat, hread⟩ :=
    Feed.leave_idle (n := 0) (k := 0) x.idle rfl x.arrived
  obtain ⟨h₁, h₂, h₃, h₄⟩ := Feed.header_states hat.state
  obtain ⟨hheader, hread₄⟩ := Feed.read_header hat hread
  have h₅ : RxPath.At (x.run (u + 6)) .cpldwaitst1 (x.tlps 0).head2 [(x.tlps 0).head2] :=
    Feed.at_peek hheader.at_waitst1 hheader.at_waitst1.fiford (nxtState_waitst1 hheader _)
  have hread₅ : x.consumed (u + 6) = [(x.tlps 0).head1] :=
    (Feed.consumed_of_quiet hheader.at_waitst1.fiford).trans hread₄
  have h₆ : RxPath.At (x.run (u + 7)) .cplddatast1 (x.tlps 0).head2 [] :=
    Feed.at_pop h₅ h₅.fiford (by rw [Rxproc.nxtState, h₅.state])
  have hshown : x.shown (u + 7) = some 1 := by
    have hqueue : (x.run (u + 6)).fifo.words ≠ [] := by
      intro hnil
      have hbegins := h₅.queue
      rw [hnil, List.prefix_nil] at hbegins
      cases hbegins
    rw [Feed.shown, if_neg hqueue, hread₅]
    rfl
  have hidle : x.written (u + 1) = [] := by
    apply log_eq_nil
    intro t ht
    rw [Rxproc.dmardfifowr, hwaits t (Nat.zero_le t) (Nat.le_of_lt_succ ht)]
    rfl
  have hquiet : x.written (u + 7) = [] := by
    rw [Feed.written_of_state (t := u + 6) (by rw [h₅.state]; decide),
      Feed.written_of_state (t := u + 5) (by rw [h₄]; decide),
      Feed.written_of_state (t := u + 4) (by rw [h₃]; decide),
      Feed.written_of_state (t := u + 3) (by rw [h₂]; decide),
      Feed.written_of_state (t := u + 2) (by rw [h₁]; decide),
      Feed.written_of_state (t := u + 1) (by rw [hat.state]; decide), hidle]
  have hwrites : (x.run (u + 7)).core.dmardfifowr = true := beq_iff_eq.mpr h₆.state
  refine ⟨u + 7, hquiet, ?_⟩
  rw [Feed.written, log_succ, ← Feed.written, hquiet, hwrites, hshown]
  rfl

theorem not_transfers (x : CompletionFeed) : ¬ x.Transfers := by
  rintro ⟨t, -, hwritten, -⟩
  obtain ⟨u, hnone, hfirst⟩ := x.first_written
  obtain ⟨w, ws, hrest⟩ := List.exists_cons_of_ne_nil x.payload
  rw [hrest, List.length_cons, List.range_succ_eq_map, List.map_cons] at hwritten
  cases Nat.lt_or_ge u t with
  | inl hlt =>
      have hbegins : x.written (u + 1) <+: x.written t := log_begins _ hlt
      rw [hfirst, hwritten, List.cons_prefix_cons] at hbegins
      exact absurd hbegins.1 (by decide)
  | inr hge =>
      have hbegins : x.written t <+: x.written u := log_begins _ hge
      rw [hnone, hwritten, List.prefix_nil] at hbegins
      cases hbegins

/-- No completion with data is transferred as it is. -/
theorem transfers_false (x : CompletionFeed) : ¬ x.Transfers := x.not_transfers

/-- A completion of one payload word, and a read of `intreg` behind it. -/
def oneBeat (k : Nat) : Tlp :=
  if k = 0 then
    ⟨⟨0x000000084A000002, 0xFF, 0, true, false, false, false⟩,
      ⟨0x0000000001000000, 0x0F, 0, true, false, false, false⟩,
      [⟨0x0123456789ABCDEF, 0xFF, 0, true, false, false, false⟩]⟩
  else
    ⟨⟨0x0100050F00000001, 0xFF, 0x02, true, false, false, false⟩,
      ⟨0x0000000000000004, 0x0F, 0x02, true, false, false, false⟩, []⟩

def oneBeatFeed : CompletionFeed where
  toFeed := Feed.ofFinite
    ⟨⟨log (fun k => (oneBeat k).words) 2, by decide⟩,
      ⟨.idle, ⟨0, 0, 0, false, false, false, false⟩, 0, 0, 0, 0, 0, false, false, false⟩⟩
    (fun _ => ⟨none, (oneBeat 1).head2, true, false, 0⟩) oneBeat 0 2 rfl (fun _ _ => rfl)
    (by
      rw [RxPath.received, log_zero, List.append_nil])
    (by decide)
  type := .inl (by decide)
  withData := by decide
  tag := by decide
  payload := by decide
  arrived := ⟨0, (log_begins (fun k => (oneBeat k).words) (by decide : 1 ≤ 2)).trans
    (List.prefix_append _ _)⟩

/-- The second word of the header and the payload are written, and the first word of the
read is lost. -/
theorem transfers_oneBeat_false : ¬ oneBeatFeed.Transfers := oneBeatFeed.not_transfers

end CompletionFeed

end CncCard.Pcie
