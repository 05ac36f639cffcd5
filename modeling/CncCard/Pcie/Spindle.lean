import CncCard.Clocked.Bits
import CncCard.Pcie.Availability
import CncCard.Pcie.Outputs

/-!
The two direction registers of the spindle, `m_cw_reg` and `m_atcw_reg`, behind the calls of
`cnc_ioctl`. The driver counts their offsets in bytes, so no word of any packet has an address
that selects one of them, in whatever way `rxproc` takes words for headers. So neither
register leaves 0.
-/

namespace CncCard.Pcie
open Clocked

/-- What `ext_add` shows of the double word of an address. -/
def aimed (w : Word) : BitVec 22 := w.extractLsb 21 2 ++ 0#2

/-- As an address the double word selects neither register. -/
def Misses (w : Word) : Prop := aimed w ≠ Reg.mCwReg.address ∧ aimed w ≠ Reg.mAtcwReg.address

instance (w : Word) : Decidable (Misses w) := inferInstanceAs (Decidable (_ ∧ _))

/-- As the second word of a header, of either length, it selects neither register. -/
structure Harmless (d : BitVec 64) : Prop where
  high : Misses (d.extractLsb 63 32)
  low : Misses (d.extractLsb 31 0)

theorem misses_iff {w : Word} :
    Misses w ↔ w.toNat % 2 ^ 22 / 4 ≠ 0x45 ∧ w.toNat % 2 ^ 22 / 4 ≠ 0x46 := by
  have hvalue : (aimed w).toNat = w.toNat % 2 ^ 22 / 4 * 4 := by
    rw [aimed, toNat_append_add, BitVec.extractLsb_toNat, Nat.shiftRight_eq_div_pow]
    simp only [BitVec.toNat_ofNat]
    omega
  have hcw : Reg.mCwReg.address.toNat = 0x45 * 4 := rfl
  have hatcw : Reg.mAtcwReg.address.toNat = 0x46 * 4 := rfl
  rw [Misses, Ne, Ne, ← BitVec.toNat_inj, ← BitVec.toNat_inj, hvalue, hcw, hatcw]
  omega

theorem misses_low (d : BitVec 64) :
    Misses (d.extractLsb 31 2 ++ 0#2) ↔ Misses (d.extractLsb 31 0) := by
  rw [misses_iff, misses_iff, toNat_append_add, BitVec.extractLsb_toNat, BitVec.extractLsb_toNat,
    Nat.shiftRight_eq_div_pow, Nat.shiftRight_eq_div_pow]
  simp only [BitVec.toNat_ofNat]
  omega

theorem misses_high (d : BitVec 64) :
    Misses (d.extractLsb 63 34 ++ 0#2) ↔ Misses (d.extractLsb 63 32) := by
  rw [misses_iff, misses_iff, toNat_append_add, BitVec.extractLsb_toNat, BitVec.extractLsb_toNat,
    Nat.shiftRight_eq_div_pow, Nat.shiftRight_eq_div_pow]
  simp only [BitVec.toNat_ofNat]
  omega

theorem harmless_append {high low : Word} (hhigh : Misses high) (hlow : Misses low) :
    Harmless (high ++ low) := by
  refine ⟨?_, ?_⟩ <;> rw [BitVec.extractLsb]
  · rw [BitVec.extractLsb'_append_eq_of_le (by omega)]
    exact (BitVec.extractLsb'_eq_self (x := high)).symm ▸ hhigh
  · rw [BitVec.extractLsb'_append_eq_of_add_le (by omega)]
    exact (BitVec.extractLsb'_eq_self (x := low)).symm ▸ hlow

theorem misses_zero : Misses 0 := by decide

namespace Host

variable (h : Host)

/-- The identification of a packet, taken for an address. -/
theorem misses_ids {firstBe lastBe : BitVec 4}
    (henables : lastBe.toNat = 1 → firstBe.toNat < 4 ∨ 12 ≤ firstBe.toNat) :
    Misses (h.requester ++ h.tag ++ lastBe ++ firstBe) := by
  have hlast := lastBe.isLt
  have hfirst := firstBe.isLt
  have htag := h.tag.isLt
  rw [misses_iff, toNat_append_add, toNat_append_add, toNat_append_add]
  omega

/-- BAR1 has 22 address bits, and its base is aligned. -/
def Aligned : Prop := h.base.toNat % 2 ^ 22 = 0

theorem misses_address {h : Host} (haligned : h.Aligned) {m : Nat} (hm : m < 0x114) :
    Misses (h.base + BitVec.ofNat 32 m) := by
  rw [Aligned] at haligned
  rw [misses_iff, BitVec.toNat_add, BitVec.toNat_ofNat]
  omega

end Host

theorem mem_marked {ws : List RxWord} {w : RxWord} (h : w ∈ marked ws) :
    ∃ v ∈ ws, w.data = v.data := by
  induction ws with
  | nil => cases h
  | cons v ws ih =>
      rcases List.mem_cons.mp h with rfl | h
      · exact ⟨v, List.mem_cons_self, rfl⟩
      · obtain ⟨u, hu, hdata⟩ := ih h
        exact ⟨u, List.mem_cons_of_mem v hu, hdata⟩

namespace Host

theorem harmless_pairs {payload : List Word} (hpayload : ∀ v ∈ payload, Misses v) :
    ∀ w ∈ pairs payload, Harmless w.data := by
  induction payload using pairs.induct with
  | case1 => simp [pairs]
  | case2 low =>
      intro w hw
      obtain rfl := List.mem_singleton.mp hw
      exact harmless_append misses_zero (hpayload low (by simp))
  | case3 low high rest ih =>
      intro w hw
      rcases List.mem_cons.mp hw with rfl | hw
      · exact harmless_append (hpayload high (by simp)) (hpayload low (by simp))
      · exact ih (fun v hv => hpayload v (by simp [hv])) w hw

theorem harmless_packet (h : Host) {address : BitVec 32} {firstBe lastBe : BitVec 4}
    {payload : List Word} (hids : Misses (h.requester ++ h.tag ++ lastBe ++ firstBe))
    (haddress : Misses address) (hpayload : ∀ v ∈ payload, Misses v)
    (hlength : payload.length < 4) :
    ∀ w ∈ (h.packet address firstBe lastBe payload).words, Harmless w.data := by
  have hfirst : Harmless (h.packet address firstBe lastBe payload).first.data := by
    have hlow : Misses (0x40000000 + BitVec.ofNat 32 payload.length) := by
      have hformat : (0x40000000 : Word).toNat = 0x40000000 := rfl
      rw [misses_iff, BitVec.toNat_add, BitVec.toNat_ofNat, hformat]
      omega
    unfold packet
    split <;> exact harmless_append hids hlow
  have hsecond : Harmless (h.packet address firstBe lastBe payload).second.data := by
    have hhead : Misses (payload.headD 0) := by
      cases payload with
      | nil => exact misses_zero
      | cons v vs => exact hpayload v List.mem_cons_self
    unfold packet
    split
    · exact harmless_append hhead haddress
    · exact harmless_append misses_zero haddress
  have hrest : ∀ w ∈ (h.packet address firstBe lastBe payload).rest, Harmless w.data := by
    unfold packet
    split
    · exact harmless_pairs fun v hv => hpayload v (List.mem_of_mem_tail hv)
    · exact harmless_pairs hpayload
  intro w hw
  rcases List.mem_cons.mp hw with rfl | hw
  · exact hfirst
  · obtain ⟨v, hv, hdata⟩ := mem_marked hw
    rw [hdata]
    rcases List.mem_cons.mp hv with rfl | hv
    · exact hsecond
    · exact hrest v hv

theorem harmless_iowrite32 {h : Host} (haligned : h.Aligned) {value : Word} {offset : Nat}
    (hoffset : offset < 0x100) (hlow : Misses (value <<< (8 * (offset % 4))))
    (hhigh : Misses (value >>> (32 - 8 * (offset % 4)))) :
    ∀ p ∈ h.iowrite32 value offset, ∀ w ∈ p.words, Harmless w.data := by
  have haddress : Misses (h.base + BitVec.ofNat 32 (4 * (offset / 4))) :=
    misses_address haligned (by omega)
  have hnext : Misses (h.base + BitVec.ofNat 32 (4 * (offset / 4)) + 4) := by
    have hmiss := misses_address haligned (m := 4 * (offset / 4) + 4) (by omega)
    rwa [BitVec.ofNat_add, ← BitVec.add_assoc] at hmiss
  unfold iowrite32
  simp only
  split
  · next hlane =>
      rw [hlane] at hlow
      intro p hp
      obtain rfl := List.mem_singleton.mp hp
      exact h.harmless_packet (h.misses_ids (by decide)) haddress
        (by simpa using hlow) (by simp)
  · next hlane =>
      have hlanes : offset % 4 = 1 ∨ offset % 4 = 2 ∨ offset % 4 = 3 := by omega
      split
      · intro p hp
        obtain rfl := List.mem_singleton.mp hp
        refine h.harmless_packet (h.misses_ids ?_) haddress (by simp [hlow, hhigh]) (by simp)
        rcases hlanes with hlane | hlane | hlane <;> rw [hlane] <;> decide
      · intro p hp
        rcases List.mem_cons.mp hp with rfl | hp
        · exact h.harmless_packet (h.misses_ids (by simp)) haddress (by simp [hlow]) (by simp)
        · obtain rfl := List.mem_singleton.mp hp
          exact h.harmless_packet (h.misses_ids (by simp)) hnext (by simp [hhigh]) (by simp)

/-- No value that a command writes has address bits of the registers, on any lane. -/
theorem writes_miss (c : Driver.Command) : ∀ w ∈ c.writes, w.2 < 0x100 ∧
    Misses (w.1 <<< (8 * (w.2 % 4))) ∧ Misses (w.1 >>> (32 - 8 * (w.2 % 4))) := by
  have hall : ∀ c ∈ Driver.Command.all, ∀ w ∈ c.writes, w.2 < 0x100 ∧
      Misses (w.1 <<< (8 * (w.2 % 4))) ∧ Misses (w.1 >>> (32 - 8 * (w.2 % 4))) := by
    decide +kernel
  exact hall c c.mem_all

theorem harmless_packets {h : Host} (haligned : h.Aligned) {cmds : List (BitVec 32)} {w : RxWord}
    (hw : w ∈ (h.packets cmds).flatMap Tlp.words) : Harmless w.data := by
  obtain ⟨p, hp, hw⟩ := List.mem_flatMap.mp hw
  obtain ⟨cmd, -, hp⟩ := List.mem_flatMap.mp hp
  cases hcall : Driver.cncIoctl cmd with
  | error e =>
      rw [hcall] at hp
      cases hp
  | ok writes =>
      rw [hcall] at hp
      obtain ⟨c, rfl⟩ := Driver.writes_of_cncIoctl hcall
      obtain ⟨v, hv, hp⟩ := List.mem_flatMap.mp hp
      obtain ⟨hoffset, hlow, hhigh⟩ := writes_miss c v hv
      exact harmless_iowrite32 haligned hoffset hlow hhigh p hp w hw

end Host

namespace Rxproc

variable {c : Rxproc} {i : RxInput}

theorem idle_of_rdhead1 (h : c.nxtState i = .rdhead1) : c.preState = .idle ∧ rxen i = true := by
  unfold nxtState at h
  cases hs : c.preState with
  | idle =>
      rw [hs] at h
      simp only at h
      split at h
      · next hgo => exact ⟨rfl, (Bool.and_eq_true_iff.mp hgo).1⟩
      · cases h
  | _ => grind

theorem rdhead1_of_headpro1 (h : c.nxtState i = .headpro1) : c.preState = .rdhead1 := by
  unfold nxtState at h
  cases hs : c.preState <;> grind

theorem headpro1_of_rdhead2 (h : c.nxtState i = .rdhead2) : c.preState = .headpro1 := by
  unfold nxtState at h
  cases hs : c.preState <;> grind

theorem busy_of_extWr (h : (rxproc c i).extWr = true) : c.preState ≠ .idle := by
  intro hs
  have hnext : (rxproc c i).preState = c.nxtState i := rfl
  rw [extWr, hnext, nxtState, hs] at h
  simp only at h
  split at h <;> cases h

end Rxproc

namespace PcieCore

/-- No word that has come selects the registers, no write does, and they are 0. `addr` has
no reset, but it follows the header when `IDLE` is left. -/
structure Clear (s : PcieCore) : Prop where
  words : ∀ w ∈ s.rx.fifo.words, Harmless w.data
  header : Harmless s.rx.core.headregb
  rdhead1 : s.rx.core.preState = .rdhead1 → 2 ≤ s.rx.fifo.words.length
  headpro1 : s.rx.core.preState = .headpro1 → s.rx.fifo.words ≠ []
  rdhead2 : s.rx.core.preState = .rdhead2 → Harmless s.rx.core.rx.data
  addr : s.rx.core.preState ≠ .idle → Misses s.rx.core.addr
  unselected : s.rx.core.extWr = true →
    s.tx.regsel .mCwReg = false ∧ s.tx.regsel .mAtcwReg = false
  cleared : s.tx.regs .mCwReg = 0 ∧ s.tx.regs .mAtcwReg = 0

theorem clear_reset (s : PcieCore) : Clear s.reset where
  words _ hw := by cases hw
  header := harmless_append misses_zero misses_zero
  rdhead1 hs := by cases hs
  headpro1 hs := by cases hs
  rdhead2 hs := by cases hs
  addr hs := absurd rfl hs
  unselected hs := by cases hs
  cleared := ⟨rfl, rfl⟩

namespace Clear

variable {s : PcieCore} (i : CoreInput)

theorem addr_next (h : s.Clear) : Misses (pcieCore s i).rx.core.addr := by
  change Misses ((if s.rx.core.dw3sel then _ else _ : BitVec 30) ++ 0#2)
  cases s.rx.core.dw3sel with
  | true => exact (misses_low _).mpr h.header.low
  | false => exact (misses_high _).mpr h.header.high

theorem rdhead1_next (hs : (pcieCore s i).rx.core.preState = .rdhead1) :
    2 ≤ (pcieCore s i).rx.fifo.words.length := by
  obtain ⟨hidle, hen⟩ := Rxproc.idle_of_rdhead1 hs
  have htwo := RxPath.two_le_of_rxen hen
  have hquiet : s.rx.core.fiford = false := by
    rw [Rxproc.fiford, hidle]
    rfl
  change 2 ≤ (rxPath s.rx (s.rxInput i)).fifo.words.length
  rw [RxPath.length_of_quiet _ hquiet]
  omega

theorem headpro1_next (h : s.Clear)
    (hs : (pcieCore s i).rx.core.preState = .headpro1) :
    (pcieCore s i).rx.fifo.words ≠ [] := by
  have hstate := Rxproc.rdhead1_of_headpro1 hs
  have htwo := h.rdhead1 hstate
  have hread : s.rx.core.fiford = true := by
    rw [Rxproc.fiford, hstate]
    rfl
  rw [← List.length_pos_iff]
  change 0 < (rxPath s.rx (s.rxInput i)).fifo.words.length
  rw [RxPath.length_of_read _ hread]
  omega

theorem rdhead2_next (h : s.Clear)
    (hs : (pcieCore s i).rx.core.preState = .rdhead2) :
    Harmless (pcieCore s i).rx.core.rx.data := by
  obtain ⟨w, ws, hwords⟩ := List.exists_cons_of_ne_nil
    (h.headpro1 (Rxproc.headpro1_of_rdhead2 hs))
  change Harmless (s.rx.fifo.words.headD i.stale).data
  rw [hwords]
  exact h.words w (hwords ▸ List.mem_cons_self)

theorem unselected_next (h : s.Clear) (hs : (pcieCore s i).rx.core.extWr = true) :
    (pcieCore s i).tx.regsel .mCwReg = false ∧ (pcieCore s i).tx.regsel .mAtcwReg = false := by
  obtain ⟨hcw, hatcw⟩ := h.addr (Rxproc.busy_of_extWr hs)
  have hselect (r : Reg) (hr : aimed s.rx.core.addr ≠ r.address) :
      (pcieCore s i).tx.regsel r = false := by
    change (s.rx.core.memsel1 && aimed s.rx.core.addr == r.address) = false
    rw [beq_eq_false_iff_ne.mpr hr, Bool.and_false]
  exact ⟨hselect _ hcw, hselect _ hatcw⟩

theorem cleared_next (h : s.Clear) :
    (pcieCore s i).tx.regs .mCwReg = 0 ∧ (pcieCore s i).tx.regs .mAtcwReg = 0 := by
  have hkeep (r : Reg) (hr : s.rx.core.extWr = true → s.tx.regsel r = false) :
      s.tx.written (s.txInput i) r = false := by
    change (s.rx.core.extWr && s.tx.regsel r) = false
    cases hwr : s.rx.core.extWr with
    | true => exact hr hwr
    | false => rfl
  have hcw := hkeep .mCwReg fun hwr => (h.unselected hwr).1
  have hatcw := hkeep .mAtcwReg fun hwr => (h.unselected hwr).2
  change (if s.tx.written (s.txInput i) .mCwReg then _ else s.tx.regs .mCwReg) = 0 ∧
    (if s.tx.written (s.txInput i) .mAtcwReg then _ else s.tx.regs .mAtcwReg) = 0
  rw [hcw, hatcw]
  exact h.cleared

theorem next (h : s.Clear) (hnew : ∀ w, i.arrival = some w → Harmless w.data) :
    (pcieCore s i).Clear where
  words := Fifo.forall_clock h.words hnew s.rx.core.fiford
  header := by
    change Harmless (if s.rx.core.preState = .rdhead2 then _ else _)
    split
    · next hs => exact h.rdhead2 hs
    · exact h.header
  rdhead1 := rdhead1_next i
  headpro1 := h.headpro1_next i
  rdhead2 := h.rdhead2_next i
  addr _ := h.addr_next i
  unselected := h.unselected_next i
  cleared := h.cleared_next i

end Clear

end PcieCore

/-- A run from the reset in which the packets of some calls, and no others, arrive. -/
structure SpindleSession where
  cmds : List (BitVec 32)
  host : Host
  start : PcieCore
  inp : Nat → CoreInput
  aligned : host.Aligned
  arrived : ∀ t, log (fun k => (inp k).arrival.toList) t <+:
    (host.packets cmds).flatMap Tlp.words

namespace SpindleSession

variable (x : SpindleSession)

def run : Nat → PcieCore := PcieCore.run x.start x.inp

/-- Both directions are on. -/
def Both (t : Nat) : Prop := (x.run t).tx.regs .mCwReg = 1 ∧ (x.run t).tx.regs .mAtcwReg = 1

/-- All packets of the calls have come. -/
def Complete (t : Nat) : Prop :=
  log (fun k => (x.inp k).arrival.toList) t = (x.host.packets x.cmds).flatMap Tlp.words

/-- The directions are never on together, and the call of one does not leave the other on. -/
structure Interlocked : Prop where
  exclusive : ∀ t, ¬ x.Both t
  forward : ∀ t, x.cmds.getLast? = some Driver.Command.spindlePos.code → x.Complete t →
    (x.run t).tx.regs .mAtcwReg ≠ 1
  reverse : ∀ t, x.cmds.getLast? = some Driver.Command.spindleRev.code → x.Complete t →
    (x.run t).tx.regs .mCwReg ≠ 1

theorem harmless_arrival {t : Nat} {w : RxWord} (hw : (x.inp t).arrival = some w) :
    Harmless w.data := by
  have hlog : w ∈ log (fun k => (x.inp k).arrival.toList) (t + 1) := by
    rw [log_succ, hw]
    exact List.mem_append_right _ List.mem_cons_self
  exact Host.harmless_packets x.aligned ((x.arrived (t + 1)).subset hlog)

theorem run_clear (t : Nat) : (x.run t).Clear := by
  induction t with
  | zero => exact PcieCore.clear_reset x.start
  | succ t ih => exact ih.next (x.inp t) fun _ hw => x.harmless_arrival hw

theorem run_regs (t : Nat) :
    (x.run t).tx.regs .mCwReg = 0 ∧ (x.run t).tx.regs .mAtcwReg = 0 :=
  (x.run_clear t).cleared

/-- No calls of `cnc_ioctl` turn both directions on: they turn on neither. -/
theorem interlocked (x : SpindleSession) : x.Interlocked where
  exclusive t hboth := by
    rw [Both, (x.run_regs t).1] at hboth
    cases hboth.1
  forward t _ _ hon := by
    rw [(x.run_regs t).2] at hon
    cases hon
  reverse t _ _ hon := by
    rw [(x.run_regs t).1] at hon
    cases hon

/-- `SPINDLE_POS`, then `SPINDLE_REV`, with the card at `0xF0000000`. -/
def posThenRev : SpindleSession where
  cmds := [Driver.Command.spindlePos.code, Driver.Command.spindleRev.code]
  host := ⟨0xF0000000, 0, 0, false⟩
  start := PcieCore.powerUp
  inp t :=
    { PcieCore.readTraffic.inp t with
      arrival := (((⟨0xF0000000, 0, 0, false⟩ : Host).packets
        [Driver.Command.spindlePos.code, Driver.Command.spindleRev.code]).flatMap Tlp.words)[t]? }
  aligned := rfl
  arrived t := by
    rw [log_getElem?]
    exact List.take_prefix _ _

/-- All packets are read: what they write are the registers at `0x44` and `0x48`. -/
example : (posThenRev.run 80).rx.fifo.words = [] ∧
    (posThenRev.run 80).rx.core.preState = .idle := by
  decide +kernel

end SpindleSession

end CncCard.Pcie
