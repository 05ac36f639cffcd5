import CncCard.Clocked.Log
import CncCard.Pcie.Dma
import CncCard.Pcie.Window

/-!
DMA reads. `DMARDHEAD2` moves the address, the block count and the tag in each of its
cycles, whether the request leaves in it or not, and it is left for good by a request
that finds the block count at zero. So a stall skips a block, and without one there
is a request too many.
-/

namespace CncCard.Pcie
open Clocked

namespace Txproc

def requestLeaves (s : Txproc) (i : TxInput) : Bool :=
  s.preState == .dmardhead2 && i.txStReady

/-- The addresses of the requests that leave in the first `n` cycles. -/
def requests (start : Txproc) (inp : Nat → TxInput) : Nat → List Word :=
  log fun t =>
    if (trace txproc start inp t).requestLeaves (inp t)
    then [(trace txproc start inp t).dmardheadregb.extractLsb 31 0]
    else []

end Txproc

/-- A DMA read that has just been started, and what happens behind it. Nobody touches
its registers meanwhile, and completion words come for requests that have left. -/
structure DmaRead where
  start : Txproc
  inp : Nat → TxInput
  blocks : Nat
  pos : 0 < blocks
  fits : blocks < 2 ^ 14
  state : start.preState = .dmardwaitst1
  aligned : (start.regs .headreg).extractLsb 1 0 = 0
  countreg : start.regs .countreg = BitVec.ofNat 32 (512 * blocks)
  rdcountreg : start.rdcountreg = BitVec.ofNat 32 (512 * blocks)
  clrcmd : start.clrcmd = false
  alone : ∀ t, ∀ r ∈ [Reg.headreg, .countreg, .cmdreg],
    (trace txproc start inp t).written (inp t) r = false
  caused : ∀ n, Txproc.received inp n ≤ 64 * (Txproc.requests start inp n).length

namespace DmaRead

def run (r : DmaRead) : Nat → Txproc := trace txproc r.start r.inp

def leavesAt (r : DmaRead) (t : Nat) : Bool := (r.run t).requestLeaves (r.inp t)

def addresses (r : DmaRead) : Nat → List Word := Txproc.requests r.start r.inp

def tags (r : DmaRead) : Nat → List (BitVec 8) :=
  log fun t =>
    if (r.run t).preState == .dmardhead1 && (r.inp t).txStReady
    then [((r.run t).dmardheadrega (r.inp t)).extractLsb 47 40]
    else []

def block (r : DmaRead) (k : Nat) : Word := r.start.regs .headreg + BitVec.ofNat 32 (512 * k)

def tag (r : DmaRead) (k : Nat) : BitVec 8 :=
  0#3 ++ (r.start.dmardtag + BitVec.ofNat 8 k).extractLsb 4 0

/-- The link does not stop for good. -/
def Served (r : DmaRead) : Prop :=
  (∀ n, ∃ t, n ≤ t ∧ (r.inp t).txStReady = true) ∧
    ∀ n, ∃ t, n ≤ t ∧ (Credits.sample (r.inp t).txCred).npheaden = true

/-- The requests ask for the blocks of the buffer, each once and in order, with
consecutive tags; the three registers move with a request that leaves and not with one
that is held. -/
structure Tiles (r : DmaRead) : Prop where
  addresses : ∀ n, r.addresses n <+: (List.range r.blocks).map r.block
  tags : ∀ n, r.tags n <+: (List.range r.blocks).map r.tag
  all : r.Served → ∃ n, r.addresses n = (List.range r.blocks).map r.block
  moved : ∀ t, r.leavesAt t = true →
    (r.run (t + 1)).regs .headreg = (r.run t).regs .headreg + 512 ∧
      (r.run (t + 1)).rdcountreg.extractLsb 22 9 = (r.run t).rdcountreg.extractLsb 22 9 - 1 ∧
      (r.run (t + 1)).dmardtag = (r.run t).dmardtag + 1
  held : ∀ t, (r.run t).preState = .dmardhead2 → (r.inp t).txStReady = false →
    (r.run (t + 1)).regs .headreg = (r.run t).regs .headreg ∧
      (r.run (t + 1)).rdcountreg = (r.run t).rdcountreg ∧
      (r.run (t + 1)).dmardtag = (r.run t).dmardtag

variable (r : DmaRead)

/-- `DMARDHEAD2` neither stalls in this cycle nor finds the block count at zero. -/
def Orderly (t : Nat) : Prop :=
  (r.run t).preState = .dmardhead2 → (r.inp t).txStReady = true ∧ (r.run t).rdcount ≠ 0

structure Tracks (n : Nat) : Prop where
  reading : (r.run n).preState.reading = true
  addresses : r.addresses n = (List.range (r.addresses n).length).map r.block
  tags : r.tags n = (List.range ((r.addresses n).length +
    if (r.run n).preState = .dmardhead2 then 1 else 0)).map r.tag
  headreg : (r.run n).regs .headreg = r.block (r.addresses n).length
  dmardtag : (r.run n).dmardtag = r.start.dmardtag + BitVec.ofNat 8 (r.addresses n).length
  rdcount : (r.run n).rdcount + (r.addresses n).length = r.blocks
  count : (r.addresses n).length = r.blocks ∨ (r.run n).clrcmd = false ∧
    (r.run n).count + Txproc.received r.inp n = 64 * r.blocks

theorem run_succ (t : Nat) : r.run (t + 1) = txproc (r.run t) (r.inp t) := rfl

theorem addresses_succ (t : Nat) : r.addresses (t + 1) = r.addresses t ++
    if r.leavesAt t then [(r.run t).dmardheadregb.extractLsb 31 0] else [] := rfl

theorem start_count : r.start.count = 64 * r.blocks := by
  have hfits := r.fits
  rw [Txproc.count, r.countreg, BitVec.extractLsb_toNat, BitVec.toNat_ofNat,
    Nat.shiftRight_eq_div_pow]
  omega

theorem start_rdcount : r.start.rdcount = r.blocks := by
  have hfits := r.fits
  rw [Txproc.rdcount, r.rdcountreg, BitVec.extractLsb_toNat, BitVec.toNat_ofNat,
    Nat.shiftRight_eq_div_pow]
  omega

theorem block_succ (k : Nat) : r.block (k + 1) = r.block k + 512 := by
  rw [block, block, Nat.mul_add, BitVec.ofNat_add, ← BitVec.add_assoc]
  rfl

theorem tracks_zero : r.Tracks 0 where
  reading := by
    change r.start.preState.reading = true
    rw [r.state]
    rfl
  addresses := rfl
  tags := by
    change [] = (List.range (0 + if r.start.preState = .dmardhead2 then 1 else 0)).map r.tag
    rw [r.state]
    rfl
  headreg := (BitVec.add_zero _).symm
  dmardtag := (BitVec.add_zero _).symm
  rdcount := r.start_rdcount
  count := .inr ⟨r.clrcmd, r.start_count⟩

variable {r} {n : Nat}

theorem written_headreg (t : Nat) : (r.run t).written (r.inp t) .headreg = false :=
  r.alone t .headreg (by simp)

theorem written_countreg (t : Nat) : (r.run t).written (r.inp t) .countreg = false :=
  r.alone t .countreg (by simp)

theorem dmaWriteBeat_of_reading {s : Txproc} (i : TxInput) (h : s.preState.reading = true) :
    s.dmaWriteBeat i = false := by
  unfold Txproc.dmaWriteBeat
  cases hs : s.preState <;> first | rfl | (rw [hs] at h; cases h)

theorem block_aligned (r : DmaRead) (k : Nat) : (r.block k).extractLsb 1 0 = 0 := by
  have hbase := congrArg BitVec.toNat r.aligned
  apply BitVec.eq_of_toNat_eq
  rw [BitVec.extractLsb_toNat] at hbase ⊢
  rw [block, BitVec.toNat_add, BitVec.toNat_ofNat]
  change _ % 4 = 0 at hbase
  change _ % 4 = 0
  simp only [Nat.shiftRight_zero] at hbase ⊢
  omega

theorem reading_nxtState {s : Txproc} (i : TxInput) (h : s.preState.reading = true)
    (hstate : s.preState ≠ .dmardhead2) : (s.nxtState i).reading = true := by
  unfold Txproc.nxtState
  cases hs : s.preState with
  | dmardwaitst1 => rfl
  | dmardwaitst2 | dmardhead1 =>
      simp only
      split <;> rfl
  | dmardhead2 => exact absurd hs hstate
  | _ => rw [hs] at h; cases h

theorem head1_leaves_iff {s : Txproc} (i : TxInput) (h : s.preState.reading = true)
    (hstate : s.preState ≠ .dmardhead2) :
    (s.preState == .dmardhead1 && i.txStReady) = true ↔ s.nxtState i = .dmardhead2 := by
  unfold Txproc.nxtState
  cases hs : s.preState with
  | dmardwaitst1 => simp
  | dmardwaitst2 => simp only; split <;> simp
  | dmardhead1 => cases i.txStReady <;> simp
  | dmardhead2 => exact absurd hs hstate
  | _ => rw [hs] at h; cases h

namespace Tracks

/-- While blocks are left, their words have not all come back, and the count says so. -/
theorem counting (h : r.Tracks n) (hleft : (r.addresses n).length ≠ r.blocks) :
    (r.run n).clrcmd = false ∧ (r.run n).count + Txproc.received r.inp n = 64 * r.blocks ∧
      (r.run n).count ≠ 0 := by
  have hcaused : _ ≤ 64 * (r.addresses n).length := r.caused n
  have hrd := h.rdcount
  rcases h.count with hall | ⟨hclr, hcount⟩
  · exact absurd hall hleft
  · exact ⟨hclr, hcount, by omega⟩

theorem count_succ (h : r.Tracks n) (hleft : (r.addresses n).length ≠ r.blocks) :
    (r.run (n + 1)).clrcmd = false ∧
      (r.run (n + 1)).count + Txproc.received r.inp (n + 1) = 64 * r.blocks := by
  obtain ⟨hclr, hcount, hpos⟩ := h.counting hleft
  have hlow : (r.run (n + 1)).clrcmd = false := by
    rw [← Bool.not_eq_true, run_succ, Txproc.clrcmd_txproc]
    exact hpos
  have hbeat := dmaWriteBeat_of_reading (r.inp n) h.reading
  refine ⟨hlow, ?_⟩
  rw [Txproc.received_succ, run_succ]
  cases hword : (r.inp n).rxfifowr with
  | true =>
      have hlt := (r.run n).count_lt
      rw [Txproc.count_step (written_countreg n) hclr (by rw [hbeat, hword]; rfl), if_pos rfl]
      omega
  | false =>
      rw [Txproc.count_keep (written_countreg n) hclr (by rw [hbeat, hword]; rfl), if_neg (by simp)]
      omega

theorem leave (h : r.Tracks n) (hstate : (r.run n).preState = .dmardhead2)
    (hready : (r.inp n).txStReady = true) (hrd : (r.run n).rdcount ≠ 0) :
    r.Tracks (n + 1) := by
  have hrdcount := h.rdcount
  have hleft : (r.addresses n).length ≠ r.blocks := by omega
  obtain ⟨hclr, -, -⟩ := h.counting hleft
  have hleaves : r.leavesAt n = true := by
    simp [leavesAt, Txproc.requestLeaves, hstate, hready]
  have haddress : (r.run n).dmardheadregb.extractLsb 31 0 = r.block (r.addresses n).length := by
    rw [← h.headreg]
    apply Txproc.address_of_aligned
    rw [h.headreg]
    exact r.block_aligned _
  have hlist : r.addresses (n + 1) = r.addresses n ++ [r.block (r.addresses n).length] := by
    rw [addresses_succ, hleaves, if_pos rfl, haddress]
  have hlength : (r.addresses (n + 1)).length = (r.addresses n).length + 1 := by
    rw [hlist, List.length_append]
    rfl
  have hnext : (r.run (n + 1)).preState = .dmardwaitst2 := by
    change (r.run n).nxtState (r.inp n) = _
    have hzero : ((r.run n).rdcountreg.extractLsb 22 9 == 0) = false := by
      rw [← Bool.not_eq_true, Txproc.rdcount_eq_zero]
      exact hrd
    simp only [Txproc.nxtState, hstate, hready, hzero, Bool.and_false, Bool.false_eq_true,
      if_false, if_true]
  constructor
  · rw [hnext]
    rfl
  · rw [hlength, List.range_succ, List.map_append, ← h.addresses]
    exact hlist
  · have htags : r.tags (n + 1) = r.tags n := by
      rw [DmaRead.tags, log_succ, hstate]
      exact List.append_nil _
    rw [htags, h.tags, hstate, hnext, hlength]
    rfl
  · rw [run_succ, Txproc.headreg_step (written_headreg n) hstate, h.headreg, hlength, block_succ]
  · rw [run_succ, Txproc.dmardtag_step hstate, h.dmardtag, hlength, BitVec.ofNat_add,
      ← BitVec.add_assoc]
    rfl
  · have hlt := (r.run n).rdcount_lt
    rw [run_succ, Txproc.rdcount_step (written_countreg n) hclr hstate, hlength]
    omega
  · exact .inr (h.count_succ hleft)

theorem stay (h : r.Tracks n) (hstate : (r.run n).preState ≠ .dmardhead2) :
    r.Tracks (n + 1) := by
  have hleaves : r.leavesAt n = false := by
    simp [leavesAt, Txproc.requestLeaves, hstate]
  have hlist : r.addresses (n + 1) = r.addresses n := by
    rw [addresses_succ, hleaves]
    exact List.append_nil _
  have hnext : (r.run (n + 1)).preState = (r.run n).nxtState (r.inp n) := rfl
  have hbeat := dmaWriteBeat_of_reading (r.inp n) h.reading
  constructor
  · rw [hnext]
    exact reading_nxtState _ h.reading hstate
  · rw [hlist]
    exact h.addresses
  · rw [DmaRead.tags, log_succ, ← DmaRead.tags, hlist, h.tags, if_neg hstate, hnext]
    simp only [← head1_leaves_iff (r.inp n) h.reading hstate]
    split
    · rw [List.range_succ, List.map_append, Txproc.dmardheadrega_tag, h.dmardtag]
      rfl
    · exact List.append_nil _
  · rw [run_succ, Txproc.headreg_keep (written_headreg n) hbeat hstate, hlist, h.headreg]
  · rw [run_succ, Txproc.dmardtag_keep hstate, hlist, h.dmardtag]
  · rw [hlist]
    by_cases hleft : (r.addresses n).length = r.blocks
    · have hrd := h.rdcount
      have hzero : (r.run (n + 1)).rdcount = 0 := by
        cases hclr : (r.run n).clrcmd with
        | true => exact Txproc.rdcount_clear hclr
        | false =>
            rw [run_succ, Txproc.rdcount_keep (written_countreg n) hclr hstate]
            omega
      omega
    · obtain ⟨hclr, -, -⟩ := h.counting hleft
      rw [run_succ, Txproc.rdcount_keep (written_countreg n) hclr hstate, h.rdcount]
  · rw [hlist]
    by_cases hleft : (r.addresses n).length = r.blocks
    · exact .inl hleft
    · exact .inr (h.count_succ hleft)

end Tracks

theorem tracks_of_orderly (n : Nat) (h : ∀ t < n, r.Orderly t) : r.Tracks n := by
  induction n with
  | zero => exact r.tracks_zero
  | succ n ih =>
      have htracks := ih fun t ht => h t (Nat.lt_succ_of_lt ht)
      by_cases hstate : (r.run n).preState = .dmardhead2
      · obtain ⟨hready, hrd⟩ := h n (Nat.lt_succ_self n) hstate
        exact htracks.leave hstate hready hrd
      · exact htracks.stay hstate

section Liveness

variable (hserved : r.Served)
include hserved

theorem reach_of_head1 (hstate : (r.run n).preState = .dmardhead1) :
    ∃ t, n ≤ t ∧ (r.run t).preState = .dmardhead2 := by
  obtain ⟨t, hle, hlasts, hready⟩ := exists_event (n := n)
    (p := fun t => (r.run t).preState = .dmardhead1)
    (e := fun t => (r.inp t).txStReady = true) hstate
    (fun t _ hwaits hready => by
      change (r.run t).nxtState (r.inp t) = .dmardhead1
      simp only [Txproc.nxtState, hwaits, hready, if_false, Bool.false_eq_true])
    (hserved.1 n)
  have hwaits := hlasts t hle (Nat.le_refl t)
  refine ⟨t + 1, Nat.le_succ_of_le hle, ?_⟩
  change (r.run t).nxtState (r.inp t) = .dmardhead2
  simp only [Txproc.nxtState, hwaits, hready, if_true]

theorem reach_of_waitst2 (hstate : (r.run n).preState = .dmardwaitst2) :
    ∃ t, n ≤ t ∧ (r.run t).preState = .dmardhead2 := by
  obtain ⟨t, hle, hlasts, hcredit⟩ := exists_event (n := n)
    (p := fun t => (r.run t).preState = .dmardwaitst2)
    (e := fun t => (r.run t).credits.npheaden = true) hstate
    (fun t _ hwaits hcredit => by
      change (r.run t).nxtState (r.inp t) = .dmardwaitst2
      simp only [Txproc.nxtState, hwaits, hcredit, if_false, Bool.false_eq_true])
    (by
      obtain ⟨t, hle, hcredit⟩ := hserved.2 n
      exact ⟨t + 1, Nat.le_succ_of_le hle, hcredit⟩)
  have hwaits := hlasts t hle (Nat.le_refl t)
  have hnext : (r.run (t + 1)).preState = .dmardhead1 := by
    change (r.run t).nxtState (r.inp t) = .dmardhead1
    simp only [Txproc.nxtState, hwaits, hcredit, if_true]
  obtain ⟨t', hle', hstate'⟩ := reach_of_head1 hserved hnext
  exact ⟨t', by omega, hstate'⟩

/-- On a link that does not stop for good there is always another request. -/
theorem reach_head2 (h : r.Tracks n) : ∃ t, n ≤ t ∧ (r.run t).preState = .dmardhead2 := by
  have hreading := h.reading
  cases hstate : (r.run n).preState with
  | dmardwaitst1 =>
      have hnext : (r.run (n + 1)).preState = .dmardwaitst2 := by
        change (r.run n).nxtState (r.inp n) = .dmardwaitst2
        simp only [Txproc.nxtState, hstate]
      obtain ⟨t, hle, ht⟩ := reach_of_waitst2 hserved hnext
      exact ⟨t, by omega, ht⟩
  | dmardwaitst2 => exact reach_of_waitst2 hserved hstate
  | dmardhead1 => exact reach_of_head1 hserved hstate
  | dmardhead2 => exact ⟨n, Nat.le_refl n, hstate⟩
  | _ => rw [hstate] at hreading; cases hreading

theorem not_orderly : ¬ ∀ t, r.Orderly t := by
  intro horderly
  have htracks (n : Nat) := tracks_of_orderly n fun t _ => horderly t
  have hmore (k : Nat) : ∃ n, k ≤ (r.addresses n).length := by
    induction k with
    | zero => exact ⟨0, Nat.zero_le _⟩
    | succ k ih =>
        obtain ⟨n, hk⟩ := ih
        obtain ⟨t, hle, hstate⟩ := reach_head2 hserved (htracks n)
        have hgrows : (r.addresses n).length ≤ (r.addresses t).length :=
          (log_begins _ hle).length_le
        have hleaves : r.leavesAt t = true := by
          simp [leavesAt, Txproc.requestLeaves, hstate, (horderly t hstate).1]
        refine ⟨t + 1, ?_⟩
        rw [addresses_succ, hleaves, if_pos rfl, List.length_append, List.length_singleton]
        omega
  obtain ⟨n, hn⟩ := hmore (r.blocks + 1)
  have hrd := (htracks n).rdcount
  omega

end Liveness

theorem range_begins {a b : Nat} (h : a ≤ b) : List.range a <+: List.range b := by
  obtain ⟨k, rfl⟩ := Nat.exists_eq_add_of_le h
  rw [List.range_add]
  exact List.prefix_append _ _

theorem tiles_of_orderly (h : ∀ t, r.Orderly t) : r.Tiles := by
  have htracks (n : Nat) := tracks_of_orderly n fun t _ => h t
  constructor
  · intro n
    have hrd := (htracks n).rdcount
    rw [(htracks n).addresses]
    exact (range_begins (by omega)).map _
  · intro n
    have hrd := (htracks n).rdcount
    rw [(htracks n).tags]
    apply (range_begins _).map
    split
    · next hstate =>
        have hleft := (h n hstate).2
        omega
    · omega
  · intro hserved
    exact absurd h (not_orderly hserved)
  · intro t hleaves
    simp only [leavesAt, Txproc.requestLeaves, Bool.and_eq_true, beq_iff_eq] at hleaves
    have hrd := (htracks t).rdcount
    have hpos := (h t hleaves.1).2
    obtain ⟨hclr, -, -⟩ := (htracks t).counting (by omega)
    exact ⟨Txproc.headreg_step (written_headreg t) hleaves.1,
      Txproc.rdcountreg_step (written_countreg t) hclr hleaves.1,
      Txproc.dmardtag_step hleaves.1⟩
  · intro t hstate hheld
    have hready := (h t hstate).1
    rw [hheld] at hready
    cases hready

theorem orderly_of_tiles (h : r.Tiles) (t : Nat) : r.Orderly t := by
  induction t using Nat.strong_induction_on with
  | _ t ih =>
      intro hstate
      have htracks := tracks_of_orderly t ih
      have hready : (r.inp t).txStReady = true := by
        by_contra hheld
        rw [Bool.not_eq_true] at hheld
        have hkeeps := (h.held t hstate hheld).2.2
        rw [run_succ, Txproc.dmardtag_step hstate] at hkeeps
        have hzero : (1 : BitVec 8) = 0 := BitVec.add_right_eq_self.mp hkeeps
        exact absurd hzero (by decide)
      refine ⟨hready, ?_⟩
      intro hzero
      have hrd := htracks.rdcount
      have hleaves : r.leavesAt t = true := by
        simp [leavesAt, Txproc.requestLeaves, hstate, hready]
      have hlength := (h.addresses (t + 1)).length_le
      rw [addresses_succ, hleaves, if_pos rfl, List.length_append, List.length_singleton,
        List.length_map, List.length_range] at hlength
      omega

/-- The requests of a read tile its buffer if and only if `DMARDHEAD2` never stalls and
never finds the block count at zero. -/
theorem tiles_iff_orderly (r : DmaRead) : r.Tiles ↔ ∀ t, r.Orderly t :=
  ⟨orderly_of_tiles, tiles_of_orderly⟩

/-- So the requests of no read tile its buffer on a link that does not stop for good. -/
theorem not_tiles_of_served (hserved : r.Served) : ¬ r.Tiles :=
  fun h => not_orderly hserved (orderly_of_tiles h)

/-- One block at address 0, and a link that is always ready. -/
def oneBlock : DmaRead where
  start :=
    { Txproc.powerUp with
      preState := .dmardwaitst1
      regs := fun r => if r = .countreg then 512 else if r = .cmdreg then 0x200 else 0
      rdcountreg := 512 }
  inp := fun _ => .quiet
  blocks := 1
  pos := Nat.one_pos
  fits := by decide
  state := rfl
  aligned := by decide
  countreg := by decide
  rdcountreg := by decide
  clrcmd := rfl
  alone := fun _ _ _ => rfl
  caused n := (Txproc.received_none (fun _ => rfl) n).le.trans (Nat.zero_le _)

theorem tiles_oneBlock_false : ¬ oneBlock.Tiles := by
  intro h
  have htwo : (oneBlock.addresses 7).length = 2 := by decide +kernel
  have hlength := (h.addresses 7).length_le
  rw [htwo] at hlength
  exact absurd hlength (by decide)

end DmaRead

end CncCard.Pcie
