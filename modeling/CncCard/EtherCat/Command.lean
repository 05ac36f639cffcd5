import CncCard.Clocked.Bits
import CncCard.Clocked.Last
import CncCard.EtherCat.ProcessData

/-!
The word that `readoutputdata` puts together for the interpolator. It is made of the first
four bytes of `aPdOutputData`, and a read stores as many bytes there as the frame has: a
frame of less than four leaves the others as an earlier, longer one has set them.
-/

namespace CncCard.EtherCat
open Clocked

namespace Program

/-- Byte `k` of the output frame. -/
def frame (p : Program) (i : Pass) (k : Nat) : BitVec 8 :=
  i.ram (escAddress (readCommand (p.slave.nEscAddrOutputData + BitVec.ofNat 16 k)))

/-- The pass reads byte `k` of the frame. -/
def takes (p : Program) (i : Pass) (k : Nat) : Bool :=
  p.reads i && decide (k < p.slave.nPdOutputSize.toNat)

/-- The word of the current frame, whose missing bytes are zero. -/
def command (p : Program) (i : Pass) : BitVec 32 :=
  littleEndian fun k => if k < p.slave.nPdOutputSize.toNat then p.frame i k else 0

/-- `readoutputdata` returns the word of the frame, and `free_run` sends it on. -/
structure Decodes (p : Program) (i : Pass) : Prop where
  word : (p.readoutputdata i.ram).1 = p.command i
  port : (p.mainLoop i).pioDda = p.command i

theorem foldl_update_range (data : BitVec 16 → BitVec 8) (value : Nat → BitVec 8) {n k : Nat}
    (hn : n ≤ 2 ^ 16) (hk : k < 2 ^ 16) :
    (List.range n).foldl (fun data j => Function.update data (BitVec.ofNat 16 j) (value j)) data
        (BitVec.ofNat 16 k) =
      if k < n then value k else data (BitVec.ofNat 16 k) := by
  induction n with
  | zero => rfl
  | succ n ih =>
      rw [List.range_succ, List.foldl_append, List.foldl_cons, List.foldl_nil]
      by_cases heq : k = n
      · rw [heq, Function.update_self, if_pos (Nat.lt_succ_self n)]
      · have hindex : BitVec.ofNat 16 k ≠ BitVec.ofNat 16 n := by
          intro h
          have hval := congrArg BitVec.toNat h
          rw [BitVec.toNat_ofNat, BitVec.toNat_ofNat] at hval
          omega
        have hlt : k < n + 1 ↔ k < n := by omega
        rw [Function.update_of_ne hindex, ih (by omega)]
        simp only [hlt]

theorem readoutputdata_byte (p : Program) (i : Pass) {k : Nat} (hk : k < 2 ^ 16) :
    (p.readoutputdata i.ram).2.aPdOutputData (BitVec.ofNat 16 k) =
      if k < p.slave.nPdOutputSize.toNat then p.frame i k
      else p.aPdOutputData (BitVec.ofNat 16 k) := by
  rw [← foldl_update_range p.aPdOutputData (p.frame i)
    (Nat.le_of_lt p.slave.nPdOutputSize.isLt) hk]
  simp only [readoutputdata, Slave.outputLoop, pdLoop_eq, List.foldl_map, BitVec.zero_add]
  rfl

theorem readoutputdata_word (p : Program) (i : Pass) : (p.readoutputdata i.ram).1 =
    littleEndian fun k => (p.readoutputdata i.ram).2.aPdOutputData (BitVec.ofNat 16 k) :=
  littleEndian_eq_add fun k => (p.readoutputdata i.ram).2.aPdOutputData (BitVec.ofNat 16 k)

/-- The word is right if and only if the bytes behind the frame are zero. -/
theorem readoutputdata_word_iff (p : Program) (i : Pass) :
    (p.readoutputdata i.ram).1 = p.command i ↔
      ∀ k < 4, p.slave.nPdOutputSize.toNat ≤ k → p.aPdOutputData (BitVec.ofNat 16 k) = 0 := by
  rw [readoutputdata_word, command, littleEndian_eq_iff]
  refine forall₂_congr fun k hk => ?_
  rw [readoutputdata_byte p i (by omega)]
  by_cases hin : k < p.slave.nPdOutputSize.toNat
  · simp [hin]
  · simp [hin, Nat.le_of_not_lt hin]

theorem freeRun_data (p : Program) (i : Pass) : (p.freeRun i).aPdOutputData =
    if i.moves then
      if p.slave.bEcatOutputUpdateRunning then (p.readoutputdata i.ram).2.aPdOutputData
      else p.aPdOutputData
    else p.aPdOutputData := by
  simp only [freeRun, Pass.moves, bne_iff_ne]
  split
  · split <;> rfl
  · rfl

theorem mainLoop_data (p : Program) (i : Pass) : (p.mainLoop i).aPdOutputData =
    if p.reads i then (p.readoutputdata i.ram).2.aPdOutputData else p.aPdOutputData := by
  have hdata : (p.mainLoop i).aPdOutputData =
      (if p.slave.bEscIntEnabled then p else p.freeRun i).aPdOutputData := rfl
  rw [hdata, reads]
  cases p.slave.bEscIntEnabled with
  | true => rfl
  | false =>
      rw [if_neg Bool.false_ne_true, freeRun_data]
      cases i.moves <;> cases p.slave.bEcatOutputUpdateRunning <;> rfl

theorem mainLoop_port {p : Program} {i : Pass} (h : p.reads i = true) :
    (p.mainLoop i).pioDda = (p.readoutputdata i.ram).1 := by
  simp only [reads, Bool.and_eq_true, Bool.not_eq_true'] at h
  obtain ⟨⟨hpolled, hmoves⟩, hrunning⟩ := h
  have hport : (p.mainLoop i).pioDda =
      (if p.slave.bEscIntEnabled then p else p.freeRun i).pioDda := rfl
  rw [hport, hpolled, if_neg Bool.false_ne_true, freeRun_pioDda, hmoves, hrunning, if_pos rfl,
    if_pos rfl]

theorem decodes_iff {p : Program} {i : Pass} (h : p.reads i = true) :
    p.Decodes i ↔
      ∀ k < 4, p.slave.nPdOutputSize.toNat ≤ k → p.aPdOutputData (BitVec.ofNat 16 k) = 0 := by
  rw [← readoutputdata_word_iff p i]
  exact ⟨fun hdecodes => hdecodes.word, fun hword => ⟨hword, (mainLoop_port h).trans hword⟩⟩

end Program

section Run

variable (maxsyncman : BitVec 8) (pdictl : Fin 4 → BitVec 8) (passes : Nat → Pass)

/-- A byte of the array is that of the last frame that had one there. -/
theorem loop_byte (n : Nat) {k : Nat} (hk : k < 2 ^ 16) :
    (loop maxsyncman pdictl passes (n + 1)).aPdOutputData (BitVec.ofNat 16 k) =
      if (loop maxsyncman pdictl passes n).takes (passes n) k then
        (loop maxsyncman pdictl passes n).frame (passes n) k
      else (loop maxsyncman pdictl passes n).aPdOutputData (BitVec.ofNat 16 k) := by
  rw [loop_succ, Program.mainLoop_data, Program.takes]
  cases (loop maxsyncman pdictl passes n).reads (passes n) with
  | false => rfl
  | true =>
      rw [if_pos rfl, Program.readoutputdata_byte _ _ hk]
      simp

/-- No frame in which byte `k` is missing comes behind one in which it is not zero. -/
def NoneStale : Prop :=
  ∀ m n k, k < 4 → m < n → (loop maxsyncman pdictl passes m).takes (passes m) k = true →
    Silent (fun j => (loop maxsyncman pdictl passes j).takes (passes j) k) m n →
    (loop maxsyncman pdictl passes n).reads (passes n) = true →
    (loop maxsyncman pdictl passes n).slave.nPdOutputSize.toNat ≤ k →
    (loop maxsyncman pdictl passes m).frame (passes m) k = 0

end Run

/-- The words are those of their frames, whatever the sessions before, if and only if no
byte that is missing in a frame is left over from an earlier one. -/
theorem decodes_iff_noneStale (maxsyncman : BitVec 8) (pdictl : Fin 4 → BitVec 8)
    (passes : Nat → Pass) :
    (∀ n, (loop maxsyncman pdictl passes n).reads (passes n) = true →
        (loop maxsyncman pdictl passes n).Decodes (passes n)) ↔
      NoneStale maxsyncman pdictl passes := by
  have hindex {k : Nat} (hk : k < 4) : k < 2 ^ 16 := by omega
  constructor
  · intro h m n k hk hmn htakes hsilent hreads hmissing
    rw [← (Program.decodes_iff hreads).mp (h n hreads) k hk hmissing]
    exact (register_of_last
      (x := fun n => (loop maxsyncman pdictl passes n).aPdOutputData (BitVec.ofNat 16 k))
      (fun n => loop_byte maxsyncman pdictl passes n (hindex hk)) hmn htakes hsilent).symm
  · intro h n hreads
    rw [Program.decodes_iff hreads]
    intro k hk hmissing
    rcases register_eq
      (x := fun n => (loop maxsyncman pdictl passes n).aPdOutputData (BitVec.ofNat 16 k))
      (fun n => loop_byte maxsyncman pdictl passes n (hindex hk)) n
      with ⟨-, hstart⟩ | ⟨m, hmn, htakes, hsilent, hleft⟩
    · exact hstart
    · exact hleft.trans (h m n k hk hmn htakes hsilent hreads hmissing)

/-- A session with four bytes out, and behind it one with two. -/
def twoSessions (n : Nat) : Pass where
  freeRunEvent := if n = 3 ∨ n = 6 then 0x0400 else 0
  alEvent := 1
  ram := fun _ => 1
  call :=
    if n < 4 then asked ⟨⟨0x1000, 4⟩, ⟨0x1400, 4⟩, 0⟩ [2, 4, 8, 2] n
    else asked ⟨⟨0x1000, 2⟩, ⟨0x1400, 4⟩, 0⟩ [4, 8, 8] (n - 4)

/-- The word of the second session has the high bytes of the first. -/
theorem decodes_twoSessions_false :
    ¬ ∀ n, (loop 8 (fun _ => 0) twoSessions n).reads (twoSessions n) = true →
      (loop 8 (fun _ => 0) twoSessions n).Decodes (twoSessions n) := by
  intro h
  exact absurd (h 6 (by decide +kernel)).word (by decide +kernel)

end CncCard.EtherCat
