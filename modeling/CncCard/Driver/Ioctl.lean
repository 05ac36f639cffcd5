import CncCard.Pcie.Registers

/-!
`cnc_ioctl`: a command is one register write, two for the stop of the spindle. Families
of commands take the number of the axis, output or tool as an argument.
-/

namespace CncCard.Driver

inductive Command where
  /-- `AXIS1_ON` to `AXIS8_OFF`. -/
  | axis (n : Fin 8) (on : Bool)
  /-- `XP_ON` to `AP_OFF`. -/
  | jogPos (k : Pcie.Axis) (on : Bool)
  /-- `XN_ON` to `AN_OFF`. -/
  | jogNeg (k : Pcie.Axis) (on : Bool)
  | return0 (on : Bool)
  | coolant (on : Bool)
  | spindlePos | spindleRev | spindleStop
  | auxClr
  | set (on : Bool)
  | mag (on : Bool)
  | magGo | magBack
  | loose (on : Bool)
  /-- `TOOL_1` to `TOOL_8`. -/
  | tool (n : Fin 8)
  deriving DecidableEq

inductive Errno where
  | einval
  deriving DecidableEq

namespace Command

def number : Command → Nat
  | axis n on => (if on then 1 else 9) + n
  | jogPos k on => (if on then 17 else 27) + 2 * k.index
  | jogNeg k on => (if on then 18 else 28) + 2 * k.index
  | return0 on => if on then 38 else 37
  | coolant on => if on then 39 else 40
  | spindlePos => 41
  | spindleRev => 42
  | spindleStop => 43
  | set on => if on then 44 else 45
  | mag on => if on then 46 else 47
  | magGo => 48
  | magBack => 49
  | loose on => if on then 50 else 51
  | auxClr => 52
  | tool n => 53 + n

/-- `_IO(TEST_MAGIC, nr)`. -/
def code (c : Command) : BitVec 32 := 0#16 ++ 0x78#8 ++ BitVec.ofNat 8 c.number

def level (on : Bool) : BitVec 32 := if on then 0x00000001 else 0x00000000

/-- The values that are written, with their offsets from `mem_addr`. -/
def writes : Command → List (BitVec 32 × Nat)
  | axis n on => [(level on, 0x18 + n)]
  | jogPos k on => [(level on, 0x20 + k.index)]
  | jogNeg k on => [(level on, 0x24 + k.index)]
  | return0 on => [(level on, 0x28)]
  | coolant on => [(level on, 0x44)]
  | spindlePos => [(0x00000001, 0x45)]
  | spindleRev => [(0x00000001, 0x46)]
  | spindleStop => [(0x00000000, 0x45), (0x00000000, 0x46)]
  | auxClr => [(0x00000000, 0x2B)]
  | set on => [(if on then 0x00000002 else 0x00000003, 0x2B)]
  | mag on => [(if on then 0x00000004 else 0x00000005, 0x2B)]
  | magGo => [(0x00000006, 0x2B)]
  | magBack => [(0x00000007, 0x2B)]
  | loose on => [(if on then 0x00000008 else 0x00000009, 0x2B)]
  | tool n => [(BitVec.ofNat 32 (0x1A + 0x10 * n), 0x2B)]

def all : List Command :=
  (List.finRange 8).flatMap (fun n => [axis n true, axis n false, tool n]) ++
    [Pcie.Axis.x, .y, .z, .a].flatMap (fun k =>
      [jogPos k true, jogPos k false, jogNeg k true, jogNeg k false]) ++
    [true, false].flatMap (fun on => [return0 on, coolant on, set on, mag on, loose on]) ++
    [spindlePos, spindleRev, spindleStop, auxClr, magGo, magBack]

def ofCode (cmd : BitVec 32) : Option Command := all.find? fun c => c.code == cmd

theorem mem_all (c : Command) : c ∈ all := by
  cases c with
  | axis n on => cases on <;> simp [all]
  | jogPos k on | jogNeg k on => cases k <;> cases on <;> simp [all]
  | tool n => simp [all]
  | return0 on | coolant on | set on | mag on | loose on => cases on <;> simp [all]
  | _ => simp [all]

end Command

def cncIoctl (cmd : BitVec 32) : Except Errno (List (BitVec 32 × Nat)) :=
  if cmd.extractLsb 15 8 ≠ 0x78 then .error .einval
  else if 60 < (cmd.extractLsb 7 0).toNat then .error .einval
  else
    match Command.ofCode cmd with
    | some c => .ok c.writes
    | none => .error .einval

theorem writes_of_cncIoctl {cmd : BitVec 32} {writes : List (BitVec 32 × Nat)}
    (h : cncIoctl cmd = .ok writes) : ∃ c : Command, writes = c.writes := by
  unfold cncIoctl at h
  split at h
  · cases h
  · split at h
    · cases h
    · split at h
      · next c _ => exact ⟨c, (Except.ok.inj h).symm⟩
      · cases h

theorem cncIoctl_code (c : Command) : cncIoctl c.code = .ok c.writes := by
  have hall : ∀ c ∈ Command.all, cncIoctl c.code = .ok c.writes := by decide +kernel
  exact hall c c.mem_all

end CncCard.Driver
