import CncCard.Clocked.Last
import CncCard.EtherCat.MainLoop

/-!
Where the process data go. The handler of the step from PREOP to SAFEOP keeps the start
and the length of both sync managers as the master has set them, since the check of the
settings accepts everything; the loops of `free_run` then use them as they are.
-/

namespace CncCard.EtherCat
open Clocked

/-- The command bits leave the upper 13 bits of the word to the address. -/
theorem command_address (address command : BitVec 16) (h : command.toNat < 2 ^ 3) :
    (escAddress (address <<< 3 ||| command)).toNat = address.toNat % 2 ^ 13 := by
  simp only [escAddress, BitVec.toNat_setWidth, BitVec.toNat_ushiftRight, BitVec.toNat_or,
    BitVec.toNat_shiftLeft, Nat.shiftLeft_eq, Nat.shiftRight_eq_div_pow]
  rw [Nat.mul_comm, show 2 ^ 16 = 2 ^ 3 * 2 ^ 13 by decide, Nat.mul_mod_mul_left,
    ← Nat.two_pow_add_eq_or_of_lt h]
  omega

theorem readCommand_address (address : BitVec 16) :
    (escAddress (readCommand address)).toNat = address.toNat % 2 ^ 13 :=
  command_address address 0x02 (by decide)

theorem writeCommand_address (address : BitVec 16) :
    (escAddress (writeCommand address)).toNat = address.toNat % 2 ^ 13 :=
  command_address address 0x04 (by decide)

theorem pdLoop_eq (n : Nat) (i address : BitVec 16) :
    pdLoop n i address =
      (List.range n).map fun k => (i + BitVec.ofNat 16 k, address + BitVec.ofNat 16 k) := by
  induction n generalizing i address with
  | zero => rfl
  | succ n ih =>
      rw [pdLoop, ih, List.range_succ_eq_map, List.map_cons, List.map_map]
      refine congrArg₂ List.cons (by simp) (List.map_congr_left fun k _ => ?_)
      simp only [Function.comp, Nat.succ_eq_add_one, Nat.add_comm k, BitVec.ofNat_add,
        BitVec.add_assoc]

def maxPdOutputSize : Nat := 0x40

def minPdWriteAddress : Nat := 0x1000

def maxPdAddress : Nat := 0x2000

namespace Program

/-- `readoutputdata` runs in the pass. -/
def reads (p : Program) (i : Pass) : Bool :=
  !p.slave.bEscIntEnabled && i.moves && p.slave.bEcatOutputUpdateRunning

/-- `writeinputdata` runs in the pass. -/
def writes (p : Program) (i : Pass) : Bool := !p.slave.bEscIntEnabled && i.moves

/-- The indices of `aPdOutputData` that the pass stores to. -/
def stored (p : Program) (i : Pass) : List (BitVec 16) :=
  if p.reads i then p.slave.outputLoop.map Prod.fst else []

/-- The addresses that the controller reads for the pass. -/
def readFrom (p : Program) (i : Pass) : List (BitVec 13) :=
  if p.reads i then p.slave.outputLoop.map fun x => escAddress (readCommand x.2) else []

/-- The addresses that it writes. -/
def writtenTo (p : Program) (i : Pass) : List (BitVec 13) :=
  if p.writes i then p.slave.inputLoop.map fun x => escAddress (writeCommand x.2) else []

end Program

/-- The addresses are those of the configured area, no more and no less. -/
def Covers (l : List (BitVec 13)) (m : SyncMan) : Prop :=
  ∀ a : Nat, (∃ x ∈ l, x.toNat = a) ↔
    m.smPhysicalAddr.toNat ≤ a ∧ a < m.smPhysicalAddr.toNat + m.smLength.toNat

theorem stored_lt_iff (size start : BitVec 16) (bound : Nat) :
    (∀ i ∈ (pdLoop size.toNat 0#16 start).map Prod.fst, i.toNat < bound) ↔
      size.toNat ≤ bound := by
  have hsize := size.isLt
  simp only [pdLoop_eq, List.map_map, List.forall_mem_map, List.mem_range, Function.comp,
    BitVec.zero_add, BitVec.toNat_ofNat]
  constructor
  · intro h
    by_contra hlt
    have hlast := h (size.toNat - 1) (by omega)
    rw [Nat.mod_eq_of_lt (by omega)] at hlast
    omega
  · intro hle k hk
    rw [Nat.mod_eq_of_lt (by omega)]
    omega

theorem address_toNat (m : SyncMan) (k : Nat) :
    (m.smPhysicalAddr + BitVec.ofNat 16 k).toNat % 2 ^ 13 =
      (m.smPhysicalAddr.toNat + k) % 2 ^ 13 := by
  rw [BitVec.toNat_add, BitVec.toNat_ofNat, Nat.add_mod_mod,
    Nat.mod_mod_of_dvd _ (by decide : 2 ^ 13 ∣ 2 ^ 16)]

theorem mem_addresses (m : SyncMan) {command : BitVec 16 → BitVec 16}
    (hcommand : ∀ a, (escAddress (command a)).toNat = a.toNat % 2 ^ 13) (a : Nat) :
    (∃ x ∈ (pdLoop m.smLength.toNat 0#16 m.smPhysicalAddr).map
        fun x => escAddress (command x.2), x.toNat = a) ↔
      ∃ k < m.smLength.toNat, (m.smPhysicalAddr.toNat + k) % 2 ^ 13 = a := by
  simp only [pdLoop_eq, List.map_map, List.mem_map, List.mem_range, Function.comp,
    exists_exists_and_eq_and, hcommand, address_toNat]

/-- An area that the 13 bits of an address reach. -/
def SyncMan.Reachable (m : SyncMan) : Prop :=
  m.smLength.toNat = 0 ∨ m.smPhysicalAddr.toNat + m.smLength.toNat ≤ maxPdAddress

theorem covers_iff (m : SyncMan) {command : BitVec 16 → BitVec 16}
    (hcommand : ∀ a, (escAddress (command a)).toNat = a.toNat % 2 ^ 13) :
    Covers ((pdLoop m.smLength.toNat 0#16 m.smPhysicalAddr).map
        fun x => escAddress (command x.2)) m ↔ m.Reachable := by
  simp only [Covers, mem_addresses m hcommand, SyncMan.Reachable, maxPdAddress]
  constructor
  · intro h
    by_contra hnot
    -- the last byte of the area is out of reach of 13 bits
    obtain ⟨k, -, hk⟩ := (h (m.smPhysicalAddr.toNat + m.smLength.toNat - 1)).mpr (by omega)
    omega
  · intro hfits a
    constructor
    · rintro ⟨k, hk, rfl⟩
      omega
    · intro ha
      exact ⟨a - m.smPhysicalAddr.toNat, by omega, by omega⟩

/-- The areas of the output and the input data. -/
def Slave.area (s : Slave) : SyncMan × SyncMan :=
  (⟨s.nEscAddrOutputData, s.nPdOutputSize⟩, ⟨s.nEscAddrInputData, s.nPdInputSize⟩)

def EscRegs.area (r : EscRegs) : SyncMan × SyncMan := (r.processDataOut, r.processDataIn)

theorem handlers_area (r : EscRegs) (x y : AlState) (s : Slave) :
    (handlers r x y s).area = if x = .preop ∧ y = .safeop then r.area else s.area := by
  cases x <;> cases y <;> simp [handlers, Slave.area, EscRegs.area]

theorem Consistent.call_area {s : Slave} {a : Al} (h : Consistent s a) (c : Call) :
    (s.call c).area =
      if a.state = .preop ∧ (a.step c.alcontrol).state = .safeop then c.regs.area
      else s.area := by
  cases h.shows.call_cases c with
  | inl hstay =>
      obtain ⟨hsame, _, _, _, _, hcall⟩ := hstay
      rw [hcall, hsame, if_neg fun hboth => AlState.noConfusion (hboth.1.symm.trans hboth.2)]
      rfl
  | inr hmove =>
      obtain ⟨y, -, -, hy, shown, _, _, _, _, hcall⟩ := hmove
      rw [hcall, hy]
      exact handlers_area c.regs a.state y { s with nAlStatus := shown }

section Run

variable (maxsyncman : BitVec 8) (pdictl : Fin 4 → BitVec 8) (passes : Nat → Pass)

/-- The pass takes the slave from PREOP to SAFEOP. -/
def Enters (n : Nat) : Prop :=
  (loop maxsyncman pdictl passes n).slave.In .preop ∧
    (loop maxsyncman pdictl passes (n + 1)).slave.In .safeop

/-- The registers that the last step from PREOP to SAFEOP before pass `n` has found. -/
def Configured (n : Nat) (r : EscRegs) : Prop :=
  ∃ m < n, Enters maxsyncman pdictl passes m ∧
    (∀ k, m < k → k < n → ¬ Enters maxsyncman pdictl passes k) ∧ r = (passes m).call.regs

variable {maxsyncman pdictl passes} {n : Nat}

instance : Decidable (Enters maxsyncman pdictl passes n) :=
  inferInstanceAs (Decidable (_ ∧ _))

theorem enters_iff :
    Enters maxsyncman pdictl passes n ↔
      (alLoop passes n).state = .preop ∧ (alLoop passes (n + 1)).state = .safeop := by
  rw [Enters, (loop_follows _ _ _ n).consistent.shows.in_iff,
    (loop_follows _ _ _ (n + 1)).consistent.shows.in_iff]

theorem loop_area_succ (n : Nat) :
    (loop maxsyncman pdictl passes (n + 1)).slave.area =
      if Enters maxsyncman pdictl passes n then (passes n).call.regs.area
      else (loop maxsyncman pdictl passes n).slave.area := by
  have h := loop_follows maxsyncman pdictl passes n
  have hfree : ((loop maxsyncman pdictl passes n).freeRun (passes n)).slave.area =
      (loop maxsyncman pdictl passes n).slave.area := by
    obtain ⟨_, _, _, _, hslave⟩ := (loop maxsyncman pdictl passes n).freeRun_slave (passes n)
    rw [hslave]
    rfl
  simp only [enters_iff, loop_succ, alLoop_succ, h.mainLoop_slave, Al.pass]
  split
  · rw [(h.freeRun (passes n)).consistent.call_area, hfree]
  · next hasks =>
      rw [hfree, if_neg fun hboth => AlState.noConfusion (hboth.1.symm.trans hboth.2)]

theorem loop_area_of_enters (n : Nat) :
    (loop maxsyncman pdictl passes (n + 1)).slave.area =
      if decide (Enters maxsyncman pdictl passes n) = true then (passes n).call.regs.area
      else (loop maxsyncman pdictl passes n).slave.area := by
  simp only [decide_eq_true_eq]
  exact loop_area_succ n

/-- The slave works with what the last step to SAFEOP has found. -/
theorem Configured.area {r : EscRegs} (h : Configured maxsyncman pdictl passes n r) :
    (loop maxsyncman pdictl passes n).slave.area = r.area := by
  obtain ⟨m, hmn, henters, hlast, rfl⟩ := h
  exact register_of_last (x := fun n => (loop maxsyncman pdictl passes n).slave.area)
    loop_area_of_enters hmn (decide_eq_true henters)
    fun k hmk hkn => decide_eq_false (hlast k hmk hkn)

theorem Configured.outputSize {r : EscRegs} (h : Configured maxsyncman pdictl passes n r) :
    r.processDataOut.smLength = (loop maxsyncman pdictl passes n).slave.nPdOutputSize :=
  congrArg (fun area => area.1.smLength) h.area.symm

/-- Before the first step it works with nothing. -/
theorem area_of_not_configured (h : ∀ r, ¬ Configured maxsyncman pdictl passes n r) :
    (loop maxsyncman pdictl passes n).slave.area = (⟨0, 0⟩, ⟨0, 0⟩) := by
  rcases register_eq (x := fun n => (loop maxsyncman pdictl passes n).slave.area)
    loop_area_of_enters n with ⟨-, hnone⟩ | ⟨m, hmn, henters, hsilent, -⟩
  · exact hnone
  · exact absurd ⟨m, hmn, of_decide_eq_true henters,
      fun k hmk hkn => of_decide_eq_false (hsilent k hmk hkn), rfl⟩ (h (passes m).call.regs)

end Run

section Access

variable {p : Program} {a : Al} {i : Pass}

theorem Follows.reads_iff (h : Follows p a) :
    p.reads i = true ↔ i.moves = true ∧ p.slave.In .op := by
  rw [Program.reads, h.polled, Bool.and_eq_true, h.consistent.outputUpdate,
    h.consistent.shows.in_iff]
  simp only [Bool.not_false, Bool.true_and]

theorem Follows.writes_iff (h : Follows p a) : p.writes i = i.moves := by
  rw [Program.writes, h.polled, Bool.not_false, Bool.true_and]

theorem Program.stored_lt_iff (bound : Nat) :
    (∀ x ∈ p.stored i, x.toNat < bound) ↔
      (p.reads i = true → p.slave.nPdOutputSize.toNat ≤ bound) := by
  rw [Program.stored]
  split
  · next hreads =>
      rw [Slave.outputLoop, EtherCat.stored_lt_iff]
      exact ⟨fun h _ => h, fun h => h hreads⟩
  · next hreads => simp [hreads]

end Access

/-- Every store to `aPdOutputData` is in bounds if and only if the output data are never
read in OP with a length above the 64 bytes of the array. -/
theorem stored_lt_iff_fits (maxsyncman : BitVec 8) (pdictl : Fin 4 → BitVec 8)
    (passes : Nat → Pass) :
    (∀ n, ∀ x ∈ (loop maxsyncman pdictl passes n).stored (passes n),
        x.toNat < maxPdOutputSize) ↔
      ∀ n r, Configured maxsyncman pdictl passes n r → (passes n).moves = true →
        (loop maxsyncman pdictl passes n).slave.In .op →
        r.processDataOut.smLength.toNat ≤ maxPdOutputSize := by
  refine forall_congr' fun n => ?_
  rw [Program.stored_lt_iff, (loop_follows maxsyncman pdictl passes n).reads_iff]
  constructor
  · intro h r hr hmoves hop
    exact hr.outputSize ▸ h ⟨hmoves, hop⟩
  · rintro h ⟨hmoves, hop⟩
    by_cases hconf : ∃ r, Configured maxsyncman pdictl passes n r
    · obtain ⟨r, hr⟩ := hconf
      exact hr.outputSize ▸ h r hr hmoves hop
    · have hsize : (loop maxsyncman pdictl passes n).slave.nPdOutputSize = 0 :=
        congrArg (fun area => area.1.smLength)
          (area_of_not_configured fun r hr => hconf ⟨r, hr⟩)
      rw [hsize]
      exact Nat.zero_le _

/-- One byte more than the array has. -/
theorem stored_lt_long_false :
    ¬ ∀ n, ∀ x ∈ (loop 8 (fun _ => 0) (upAndBack ⟨⟨0x1000, 65⟩, ⟨0x1400, 4⟩, 0⟩) n).stored
        (upAndBack ⟨⟨0x1000, 65⟩, ⟨0x1400, 4⟩, 0⟩ n), x.toNat < maxPdOutputSize := by
  intro h
  exact absurd (h 3 64 (by decide +kernel)) (by decide)

/-- The bytes that the pass moves are those of the configured areas. -/
structure InArea (p : Program) (i : Pass) (r : EscRegs) : Prop where
  output : p.reads i = true → Covers (p.readFrom i) r.processDataOut
  input : p.writes i = true → Covers (p.writtenTo i) r.processDataIn

/-- An area clear of the registers. -/
def SyncMan.Clear (m : SyncMan) : Prop :=
  m.smLength.toNat = 0 ∨ minPdWriteAddress ≤ m.smPhysicalAddr.toNat

section Access

variable {p : Program} {i : Pass} {r : EscRegs}

theorem Program.readFrom_covers_iff (harea : p.slave.area = r.area) (hreads : p.reads i = true) :
    Covers (p.readFrom i) r.processDataOut ↔ r.processDataOut.Reachable := by
  have hout : (⟨p.slave.nEscAddrOutputData, p.slave.nPdOutputSize⟩ : SyncMan) =
      r.processDataOut := congrArg Prod.fst harea
  rw [Program.readFrom, if_pos hreads, ← hout]
  exact covers_iff ⟨p.slave.nEscAddrOutputData, p.slave.nPdOutputSize⟩ readCommand_address

theorem Program.writtenTo_covers_iff (harea : p.slave.area = r.area)
    (hwrites : p.writes i = true) :
    Covers (p.writtenTo i) r.processDataIn ↔ r.processDataIn.Reachable := by
  have hin : (⟨p.slave.nEscAddrInputData, p.slave.nPdInputSize⟩ : SyncMan) =
      r.processDataIn := congrArg Prod.snd harea
  rw [Program.writtenTo, if_pos hwrites, ← hin]
  exact covers_iff ⟨p.slave.nEscAddrInputData, p.slave.nPdInputSize⟩ writeCommand_address

theorem Covers.clear_iff {l : List (BitVec 13)} {m : SyncMan} (h : Covers l m) :
    (∀ x ∈ l, minPdWriteAddress ≤ x.toNat) ↔ m.Clear := by
  constructor
  · intro hclear
    by_cases hempty : m.smLength.toNat = 0
    · exact .inl hempty
    · obtain ⟨x, hx, hfirst⟩ := (h m.smPhysicalAddr.toNat).mpr ⟨Nat.le_refl _, by omega⟩
      exact .inr (hfirst ▸ hclear x hx)
  · intro hclear x hx
    obtain ⟨hlow, hhigh⟩ := (h x.toNat).mp ⟨x, hx, rfl⟩
    cases hclear with
    | inl hempty => omega
    | inr hstart => exact Nat.le_trans hstart hlow

theorem Program.quiet_of_empty (h : p.slave.area = (⟨0, 0⟩, ⟨0, 0⟩)) :
    p.readFrom i = [] ∧ p.writtenTo i = [] := by
  have hout : p.slave.nPdOutputSize = 0 := congrArg (fun area => area.1.smLength) h
  have hin : p.slave.nPdInputSize = 0 := congrArg (fun area => area.2.smLength) h
  simp [Program.readFrom, Program.writtenTo, Slave.outputLoop, Slave.inputLoop, hout, hin, pdLoop]

end Access

/-- The process data stay in the configured areas and off the registers if and only if
no pass moves data with an area out of reach or, for the input data, on the registers. -/
theorem inArea_iff_fits (maxsyncman : BitVec 8) (pdictl : Fin 4 → BitVec 8)
    (passes : Nat → Pass) :
    (∀ n, (∀ x ∈ (loop maxsyncman pdictl passes n).writtenTo (passes n),
          minPdWriteAddress ≤ x.toNat) ∧
        ((∀ r, ¬ Configured maxsyncman pdictl passes n r) →
          (loop maxsyncman pdictl passes n).readFrom (passes n) = [] ∧
            (loop maxsyncman pdictl passes n).writtenTo (passes n) = []) ∧
        ∀ r, Configured maxsyncman pdictl passes n r →
          InArea (loop maxsyncman pdictl passes n) (passes n) r) ↔
      ∀ n r, Configured maxsyncman pdictl passes n r → (passes n).moves = true →
        ((loop maxsyncman pdictl passes n).slave.In .op → r.processDataOut.Reachable) ∧
          r.processDataIn.Reachable ∧ r.processDataIn.Clear := by
  refine forall_congr' fun n => ?_
  have hfollows := loop_follows maxsyncman pdictl passes n
  constructor
  · rintro ⟨hregisters, -, harea⟩ r hr hmoves
    have hwrites := hfollows.writes_iff.trans hmoves
    have hin := (harea r hr).input hwrites
    refine ⟨fun hop => ?_, (Program.writtenTo_covers_iff hr.area hwrites).mp hin,
      hin.clear_iff.mp hregisters⟩
    have hreads := hfollows.reads_iff.mpr ⟨hmoves, hop⟩
    exact (Program.readFrom_covers_iff hr.area hreads).mp ((harea r hr).output hreads)
  · intro hfits
    refine ⟨?_, fun hnone => Program.quiet_of_empty (area_of_not_configured hnone), ?_⟩
    · by_cases hwrites : (loop maxsyncman pdictl passes n).writes (passes n) = true
      · by_cases hconf : ∃ r, Configured maxsyncman pdictl passes n r
        · obtain ⟨r, hr⟩ := hconf
          obtain ⟨-, hreach, hclear⟩ := hfits r hr (hfollows.writes_iff.symm.trans hwrites)
          exact ((Program.writtenTo_covers_iff hr.area hwrites).mpr hreach).clear_iff.mpr hclear
        · rw [(Program.quiet_of_empty
            (area_of_not_configured fun r hr => hconf ⟨r, hr⟩)).2]
          exact List.forall_mem_nil _
      · rw [Program.writtenTo, if_neg hwrites]
        exact List.forall_mem_nil _
    · intro r hr
      refine ⟨fun hreads => ?_, fun hwrites => ?_⟩
      · obtain ⟨hmoves, hop⟩ := hfollows.reads_iff.mp hreads
        exact (Program.readFrom_covers_iff hr.area hreads).mpr ((hfits r hr hmoves).1 hop)
      · have hmoves := hfollows.writes_iff.symm.trans hwrites
        exact (Program.writtenTo_covers_iff hr.area hwrites).mpr (hfits r hr hmoves).2.1

/-- Input data that start on the registers of the sync managers. -/
theorem inArea_registers_false :
    ¬ ∀ n, ∀ x ∈ (loop 8 (fun _ => 0) (upAndBack ⟨⟨0x1000, 4⟩, ⟨0x0800, 4⟩, 0⟩) n).writtenTo
        (upAndBack ⟨⟨0x1000, 4⟩, ⟨0x0800, 4⟩, 0⟩ n), minPdWriteAddress ≤ x.toNat := by
  intro h
  exact absurd (h 3 0x0800 (by decide +kernel)) (by decide)

end CncCard.EtherCat
