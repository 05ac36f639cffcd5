import CncCard.Driver.Write
import Mathlib.Data.List.Nodup

/-!
`cnc_read`. Any number of calls exclude each other, and the writes and the `ioctl`s, by
`dev->mutex`, while the registers of the card go on changing. The local variables of
`pos_readfrom_card` are named by the register that each of them is read from.
-/

namespace CncCard.Driver.Read
open Transition

def posSize : Nat := 34

/-- The registers in the order in which they are read. -/
def posReads : List Nat :=
  [0x2a, 0x2b, 0x08, 0x09, 0x0a, 0x0b, 0x0c, 0x0d, 0x0e, 0x0f, 0x10, 0x11, 0x12, 0x13,
    0x14, 0x15, 0x16, 0x17, 0x06, 0x30, 0x31, 0x32, 0x33, 0x38, 0x39, 0x3a, 0x3b,
    0x40, 0x41, 0x42, 0x43, 0x34, 0x35, 0x36, 0x37]

/-- The registers that the slots of `pos_data_buf` get: the tool words stand where the break
positions of X and Y would, and the first of them once more at the end. -/
def posSlots : List Nat :=
  [0x08, 0x09, 0x0a, 0x0b, 0x0c, 0x0d, 0x0e, 0x0f, 0x10, 0x11, 0x12, 0x13,
    0x2a, 0x2b, 0x16, 0x17, 0x06, 0x34, 0x35, 0x36, 0x37, 0x30, 0x31, 0x32, 0x33,
    0x38, 0x39, 0x3a, 0x3b, 0x40, 0x41, 0x42, 0x43, 0x2a]

theorem posReads_nodup : posReads.Nodup := by decide

theorem length_posSlots : posSlots.length = posSize := rfl

structure ReadCall where
  size : Nat
  size_le : size ≤ 0x7ffff000

inductive Pc where
  | entry
  | load (n : Nat)
  | store (n : Nat)
  | storeNum | clamp
  | copy (count : Int) (i : Nat)
  | unlock (ret : Ret)
  | done (ret : Ret)
  deriving DecidableEq

/-- A call with its local variables and what it has copied to the user. -/
structure Reader where
  pc : Pc
  vars : Nat → Word
  user : List Word

/-- `mutex` is held by one of these calls or by another one, `mem` are the registers of the
card, and `log` are the reads of them. -/
structure Dev (ι : Type) where
  posDataBuf : Nat → Word
  currentPosBufNum : Int
  mutex : Option (Option ι)
  mem : Nat → Word
  log : List (ι × Nat × Word)

structure State (ι : Type) where
  dev : Dev ι
  readers : ι → Reader

variable {ι : Type}

def Reader.goto (r : Reader) (pc : Pc) : Reader := { r with pc := pc }

/-- The next access of a call, where it has one. -/
def readerStep (c : ReadCall) (w : ι) (d : Dev ι) (r : Reader) : Option (Dev ι × Reader) :=
  match r.pc with
  | .entry =>
      if d.mutex.isNone then some ({ d with mutex := some (some w) }, r.goto (.load 0)) else none
  | .load n =>
      match posReads[n]? with
      | some off =>
          some ({ d with log := d.log ++ [(w, off, d.mem off)] },
            { r with vars := Function.update r.vars off (d.mem off), pc := .load (n + 1) })
      | none => some (d, r.goto (.store 0))
  | .store n =>
      match posSlots[n]? with
      | some off =>
          some ({ d with posDataBuf := Function.update d.posDataBuf n (r.vars off) },
            r.goto (.store (n + 1)))
      | none => some (d, r.goto .storeNum)
  | .storeNum => some ({ d with currentPosBufNum := posSize }, r.goto .clamp)
  | .clamp =>
      let count : Int := (c.size / 4 : Nat)
      some (d, r.goto
        (.copy (if count > d.currentPosBufNum then d.currentPosBufNum else count) 0))
  | .copy count i =>
      if (i : Int) < count then
        some (d, { r with user := r.user ++ [d.posDataBuf i], pc := .copy count (i + 1) })
      else some (d, r.goto (.unlock (.bytes (count * 4))))
  | .unlock ret => some ({ d with mutex := none }, r.goto (.done ret))
  | .done _ => none

/-- `copy_to_user` gives up on a word. -/
def faultStep (d : Dev ι) (r : Reader) : Option (Dev ι × Reader) :=
  match r.pc with
  | .copy count i => if (i : Int) < count then some (d, r.goto (.unlock .efault)) else none
  | _ => none

/-- The card changes its registers, and calls of the other kinds take and release the mutex. -/
inductive Event (ι : Type) where
  | read (w : ι)
  | fault (w : ι)
  | card (mem : Nat → Word)
  | lock
  | unlock

variable [DecidableEq ι]

def State.put (s : State ι) (w : ι) (r : Dev ι × Reader) : State ι :=
  ⟨r.1, Function.update s.readers w r.2⟩

def step (call : ι → ReadCall) (s : State ι) : Event ι → Option (State ι)
  | .read w => (readerStep (call w) w s.dev (s.readers w)).map (s.put w)
  | .fault w => (faultStep s.dev (s.readers w)).map (s.put w)
  | .card mem => some { s with dev := { s.dev with mem := mem } }
  | .lock =>
      if s.dev.mutex = none then some { s with dev := { s.dev with mutex := some none } } else none
  | .unlock =>
      if s.dev.mutex = some none then some { s with dev := { s.dev with mutex := none } } else none

def initial (mem : Nat → Word) : State ι where
  dev := ⟨fun _ => 0, 0, none, mem, []⟩
  readers := fun _ => ⟨.entry, fun _ => 0, []⟩

def Reachable (call : ι → ReadCall) (s : State ι) : Prop :=
  ∃ mem, Reach (step call) anyEvent (initial mem) s

/-- The first `n` reads of a call, with the values that it keeps. -/
def block (w : ι) (vars : Nat → Word) (n : Nat) : List (ι × Nat × Word) :=
  (posReads.take n).map fun off => (w, off, vars off)

/-- A finished read: its own reads are one stretch of the log, and the user has the values of
that stretch in the order of the table. -/
structure Snapshot (c : ReadCall) (d : Dev ι) (w : ι) (r : Reader) (n : Int) : Prop where
  bytes : n = 4 * min (c.size / 4 : Nat) posSize
  user : r.user = (posSlots.take (c.size / 4)).map r.vars
  reads : ∃ before after, d.log = before ++ block w r.vars posReads.length ++ after

variable {c : ReadCall} {w w' : ι} {d d' : Dev ι} {r r' : Reader}

omit [DecidableEq ι] in
/-- The next read of the block; no register is read twice. -/
theorem block_succ {n off : Nat} (hoff : posReads[n]? = some off) (vars : Nat → Word)
    (v : Word) : block w vars n ++ [(w, off, v)] =
      block w (Function.update vars off v) (n + 1) := by
  have hnot : off ∉ posReads.take n := by
    intro hmem
    obtain ⟨k, hk, hget⟩ := List.mem_take_iff_getElem.mp hmem
    obtain ⟨hn, hget'⟩ := List.getElem?_eq_some_iff.mp hoff
    have hsame : k = n := (posReads_nodup.getElem_inj_iff).mp (hget.trans hget'.symm)
    omega
  rw [block, block, List.take_add_one, hoff, List.map_append]
  congr 1
  · apply List.map_congr_left
    intro off' hoff'
    have hne : off' ≠ off := fun heq => hnot (heq ▸ hoff')
    rw [Function.update_of_ne hne]
  · simp

def Pc.critical : Pc → Bool
  | .entry | .done _ => false
  | _ => true

/-- The reads of the call are the last of the log. -/
def Latest (w : ι) (vars : Nat → Word) (n : Nat) (d : Dev ι) : Prop :=
  ∃ before, d.log = before ++ block w vars n

/-- The slots below `n` have been filled. -/
def Filled (vars : Nat → Word) (n : Nat) (d : Dev ι) : Prop :=
  ∀ k < n, ∀ off, posSlots[k]? = some off → d.posDataBuf k = vars off

/-- What a call has done at each program point. -/
def Local (c : ReadCall) (w : ι) (d : Dev ι) (r : Reader) : Prop :=
  match r.pc with
  | .entry => r.user = []
  | .load n => r.user = [] ∧ n ≤ posReads.length ∧ Latest w r.vars n d
  | .store n => r.user = [] ∧ Latest w r.vars posReads.length d ∧ Filled r.vars n d
  | .storeNum => r.user = [] ∧ Latest w r.vars posReads.length d ∧ Filled r.vars posSize d
  | .clamp => r.user = [] ∧ Latest w r.vars posReads.length d ∧ Filled r.vars posSize d ∧
      d.currentPosBufNum = posSize
  | .copy count i => Latest w r.vars posReads.length d ∧ Filled r.vars posSize d ∧
      count = min (c.size / 4 : Nat) posSize ∧ i ≤ count ∧ r.user = (posSlots.take i).map r.vars
  | .unlock ret => ∀ n, ret = .bytes n → Snapshot c d w r n
  | .done ret => ∀ n, ret = .bytes n → Snapshot c d w r n

omit [DecidableEq ι] in
theorem filled_store {n off : Nat} {vars : Nat → Word} (h : Filled vars n d)
    (hoff : posSlots[n]? = some off) : Filled vars (n + 1)
      { d with posDataBuf := Function.update d.posDataBuf n (vars off) } := by
  intro k hk off' hoff'
  cases Nat.lt_or_eq_of_le (Nat.le_of_lt_succ hk) with
  | inl hlt =>
      rw [← h k hlt off' hoff']
      exact Function.update_of_ne (Nat.ne_of_lt hlt) _ _
  | inr heq =>
      subst heq
      rw [hoff] at hoff'
      cases hoff'
      exact Function.update_self _ _ _

omit [DecidableEq ι] in
theorem readerStep_local (hlocal : Local c w d r) (h : readerStep c w d r = some (d', r')) :
    Local c w d' r' := by
  obtain ⟨pc, vars, user⟩ := r
  cases pc with
  | entry =>
      simp only [readerStep] at h
      split at h <;> cases h
      exact ⟨hlocal, Nat.zero_le _, d.log, (List.append_nil _).symm⟩
  | load n =>
      obtain ⟨huser, hn, before, hlog⟩ := hlocal
      simp only [readerStep] at h
      split at h
      · next off hoff =>
          cases h
          refine ⟨huser, (List.getElem?_eq_some_iff.mp hoff).1, before, ?_⟩
          rw [hlog, List.append_assoc, block_succ hoff]
      · next hnone =>
          cases h
          have hlast : n = posReads.length :=
            Nat.le_antisymm hn (List.getElem?_eq_none_iff.mp hnone)
          refine ⟨huser, ⟨before, ?_⟩, fun k hk => absurd hk (Nat.not_lt_zero k)⟩
          rw [hlog, hlast]
          rfl
  | store n =>
      obtain ⟨huser, hlatest, hfilled⟩ := hlocal
      simp only [readerStep] at h
      split at h
      · next off hoff =>
          cases h
          exact ⟨huser, hlatest, filled_store hfilled hoff⟩
      · next hnone =>
          cases h
          have hall := List.getElem?_eq_none_iff.mp hnone
          exact ⟨huser, hlatest, fun k hk => hfilled k (Nat.lt_of_lt_of_le hk hall)⟩
  | storeNum =>
      obtain ⟨huser, hlatest, hfilled⟩ := hlocal
      cases h
      exact ⟨huser, hlatest, hfilled, rfl⟩
  | clamp =>
      obtain ⟨huser, hlatest, hfilled, hnum⟩ := hlocal
      cases h
      refine ⟨hlatest, hfilled, ?_, ?_, huser⟩
      · rw [hnum]
        split <;> omega
      · rw [hnum]
        split <;> omega
  | copy count i =>
      obtain ⟨hlatest, hfilled, hcount, hi, huser⟩ := hlocal
      change user = (posSlots.take i).map vars at huser
      simp only [readerStep] at h
      split at h
      · next hlt =>
          cases h
          have hslot : i < posSlots.length := by
            rw [length_posSlots]
            omega
          have hget := List.getElem?_eq_getElem hslot
          refine ⟨hlatest, hfilled, hcount, by omega, ?_⟩
          change user ++ [d.posDataBuf i] = (posSlots.take (i + 1)).map vars
          rw [huser, hfilled i hslot _ hget, List.take_add_one, hget, List.map_append]
          rfl
      · next hge =>
          cases h
          intro n hn
          obtain rfl := Ret.bytes.inj hn
          obtain ⟨before, hlog⟩ := hlatest
          refine ⟨by omega, ?_, before, [], hlog.trans (List.append_nil _).symm⟩
          have htake : posSlots.take i = posSlots.take (c.size / 4) := by
            rw [List.take_eq_take_iff, length_posSlots]
            omega
          exact htake ▸ huser
  | unlock ret =>
      cases h
      intro n hn
      obtain ⟨hbytes, huser, before, after, hlog⟩ := hlocal n hn
      exact ⟨hbytes, huser, before, after, hlog⟩
  | done ret => cases h

omit [DecidableEq ι] in
theorem readerStep_log (h : readerStep c w d r = some (d', r')) :
    ∃ new, d'.log = d.log ++ new := by
  obtain ⟨pc, vars, user⟩ := r
  cases pc with
  | load n =>
      simp only [readerStep] at h
      split at h <;> cases h
      · exact ⟨_, rfl⟩
      · exact ⟨[], (List.append_nil _).symm⟩
  | entry | store n | copy count i =>
      simp only [readerStep] at h
      split at h <;> cases h <;> exact ⟨[], (List.append_nil _).symm⟩
  | done ret => cases h
  | _ =>
      cases h
      exact ⟨[], (List.append_nil _).symm⟩

omit [DecidableEq ι] in
/-- Who steps holds the mutex, or takes it. -/
theorem readerStep_mutex (hmutex : r.pc.critical = true → d.mutex = some (some w))
    (h : readerStep c w d r = some (d', r')) :
    (d.mutex = none ∨ d.mutex = some (some w)) ∧
      (r'.pc.critical = true → d'.mutex = some (some w)) := by
  obtain ⟨pc, vars, user⟩ := r
  cases pc with
  | entry =>
      simp only [readerStep] at h
      split at h
      · next hfree =>
          cases h
          exact ⟨.inl (Option.isNone_iff_eq_none.mp hfree), fun _ => rfl⟩
      · cases h
  | load n | store n | copy count i =>
      have hheld := hmutex rfl
      simp only [readerStep] at h
      split at h <;> cases h <;> exact ⟨.inr hheld, fun _ => hheld⟩
  | unlock ret =>
      cases h
      exact ⟨.inr (hmutex rfl), fun hc => by cases hc⟩
  | done ret => cases h
  | _ =>
      cases h
      exact ⟨.inr (hmutex rfl), fun _ => hmutex rfl⟩

omit [DecidableEq ι] in
/-- Outside its critical section a call does not mind further reads. -/
theorem Local.grow (h : Local c w d r) (hc : r.pc.critical = false)
    (hlog : ∃ new, d'.log = d.log ++ new) : Local c w d' r := by
  obtain ⟨pc, vars, user⟩ := r
  cases pc with
  | entry => exact h
  | done ret =>
      intro n hn
      obtain ⟨hbytes, huser, before, after, hold⟩ := h n hn
      obtain ⟨new, hnew⟩ := hlog
      refine ⟨hbytes, huser, before, after ++ new, ?_⟩
      rw [hnew, hold, List.append_assoc _ after]
  | _ => cases hc

omit [DecidableEq ι] in
/-- Neither the mutex nor the card is the concern of a call at its program point. -/
theorem Local.congr (h : Local c w d r) (mutex : Option (Option ι)) (mem : Nat → Word) :
    Local c w { d with mutex := mutex, mem := mem } r := by
  obtain ⟨pc, vars, user⟩ := r
  cases pc with
  | unlock ret | done ret =>
      intro n hn
      obtain ⟨hbytes, huser, hreads⟩ := h n hn
      exact ⟨hbytes, huser, hreads⟩
  | _ => exact h

structure Inv (call : ι → ReadCall) (s : State ι) : Prop where
  owner : ∀ w, (s.readers w).pc.critical = true → s.dev.mutex = some (some w)
  at_pc : ∀ w, Local (call w) w s.dev (s.readers w)

section Runs

variable {call : ι → ReadCall} {s s' : State ι} {e : Event ι}

theorem Inv.put (hi : Inv call s)
    (hmutex : s.dev.mutex = none ∨ s.dev.mutex = some (some w))
    (hlog : ∃ new, d'.log = s.dev.log ++ new)
    (howner : r'.pc.critical = true → d'.mutex = some (some w))
    (hlocal : Local (call w) w d' r') : Inv call (s.put w (d', r')) := by
  have hfree {w' : ι} (hne : w' ≠ w) : (s.readers w').pc.critical = false := by
    refine Bool.eq_false_iff.mpr fun hc => ?_
    have hheld := hi.owner w' hc
    rcases hmutex with hnone | hw
    · rw [hnone] at hheld
      cases hheld
    · rw [hw] at hheld
      exact hne (Option.some.inj (Option.some.inj hheld)).symm
  refine ⟨fun w' hc => ?_, fun w' => ?_⟩
  · by_cases hw' : w' = w
    · subst hw'
      refine howner ?_
      simpa only [State.put, Function.update_self] using hc
    · simp only [State.put, Function.update_of_ne hw', hfree hw', Bool.false_eq_true] at hc
  · by_cases hw' : w' = w
    · subst hw'
      simpa only [State.put, Function.update_self] using hlocal
    · simp only [State.put, Function.update_of_ne hw']
      exact (hi.at_pc w').grow (hfree hw') hlog

theorem inv_step (hi : Inv call s) (h : step call s e = some s') : Inv call s' := by
  cases e with
  | read w =>
      obtain ⟨⟨d', r'⟩, hw, rfl⟩ := Option.map_eq_some_iff.mp h
      obtain ⟨hmutex, howner⟩ := readerStep_mutex (hi.owner w) hw
      exact hi.put hmutex (readerStep_log hw) howner (readerStep_local (hi.at_pc w) hw)
  | fault w =>
      obtain ⟨⟨d', r'⟩, hw, rfl⟩ := Option.map_eq_some_iff.mp h
      have howner := hi.owner w
      generalize s.readers w = r at hw howner
      obtain ⟨pc, vars, user⟩ := r
      cases pc with
      | copy count i =>
          simp only [faultStep] at hw
          split at hw
          · cases hw
            exact hi.put (.inr (howner rfl)) ⟨[], (List.append_nil _).symm⟩
              (fun _ => howner rfl) fun _ hn => by cases hn
          · cases hw
      | _ => cases hw
  | card mem =>
      cases h
      exact ⟨hi.owner, fun w => (hi.at_pc w).congr s.dev.mutex mem⟩
  | lock =>
      simp only [step] at h
      split at h
      · next hfree =>
          cases h
          refine ⟨fun w hc => ?_, fun w => (hi.at_pc w).congr (some none) s.dev.mem⟩
          have hheld := hi.owner w hc
          rw [hfree] at hheld
          cases hheld
      · cases h
  | unlock =>
      simp only [step] at h
      split at h
      · next hother =>
          cases h
          refine ⟨fun w hc => ?_, fun w => (hi.at_pc w).congr none s.dev.mem⟩
          have hheld := hi.owner w hc
          rw [hother] at hheld
          cases hheld
      · cases h

omit [DecidableEq ι] in
theorem inv_initial (mem : Nat → Word) : Inv call (initial mem) :=
  ⟨fun _ hc => (by cases hc), fun _ => rfl⟩

/-- What a call has returned is what it has read itself between its lock and its unlock, and no
other call has read in between. -/
theorem snapshot_of_done (call : ι → ReadCall) (s : State ι) (h : Reachable call s) (w : ι)
    (n : Int) (hdone : (s.readers w).pc = .done (.bytes n)) :
    Snapshot (call w) s.dev w (s.readers w) n := by
  obtain ⟨mem, hreach⟩ := h
  have hi := hreach.invariant (P := Inv call) (inv_initial mem)
    fun _ _ _ hi _ hstep => inv_step hi hstep
  have hlocal := hi.at_pc w
  rw [Local, hdone] at hlocal
  exact hlocal n rfl

end Runs

def twoWords : ReadCall := ⟨8, by decide⟩

/-- The card changes its registers behind the reads of the call. -/
def events : List (Event (Fin 2)) :=
  .lock :: .unlock :: (List.replicate 37 (.read 0) ++ .card (fun _ => 9) ::
    List.replicate 41 (.read 0))

theorem snapshot_of_done_twoWords : ∃ s : State (Fin 2), (s.readers 0).user = [8, 9] ∧
    Snapshot twoWords s.dev 0 (s.readers 0) 8 := by
  have hrun : ((events.foldlM (step fun _ => twoWords) (initial fun off => off)).map
      fun s => ((s.readers 0).pc, (s.readers 0).user)) = some (.done (.bytes 8), [8, 9]) := by
    decide
  obtain ⟨s, hs, hend⟩ := Option.map_eq_some_iff.mp hrun
  obtain ⟨hpc, huser⟩ := Prod.mk.inj hend
  exact ⟨s, huser, snapshot_of_done _ s ⟨_, reach_of_events events hs⟩ 0 8 hpc⟩

end CncCard.Driver.Read
