import CncCard.Clocked.Trace

/-!
The debouncer `key_gen`: three channels, each counting how long its key has been
held and raising `rdy` for the one cycle behind the count `cButton`. The counter
stops at `cMax`, the largest value of its 22 bits.
-/

namespace CncCard
open Clocked

def cMax : Nat := 4194303

def cButton : Nat := 4000000

structure KeyChannel where
  count : Nat
  rdy : Bool

namespace KeyChannel

def cleared : KeyChannel := ⟨0, false⟩

def clock (s : KeyChannel) (key : Bool) : KeyChannel where
  count := if key then (if s.count < cMax then s.count + 1 else s.count) else 0
  rdy := s.count == cButton

theorem clock_count_le (s : KeyChannel) (key : Bool) : (s.clock key).count ≤ s.count + 1 := by
  simp only [clock]
  split
  · split <;> omega
  · omega

theorem clock_released (s : KeyChannel) : (s.clock false).count = 0 := rfl

theorem clock_held {s : KeyChannel} (h : s.count < cMax) :
    (s.clock true).count = s.count + 1 := by
  simp [clock, h]

theorem clock_rdy (s : KeyChannel) (key : Bool) :
    (s.clock key).rdy = true ↔ s.count = cButton := by
  simp [clock]

section Run

variable (key : Nat → Bool)

def run : Nat → KeyChannel := trace clock cleared key

theorem run_succ (t : Nat) : run key (t + 1) = (run key t).clock (key t) := rfl

variable {key}

/-- A key held for `n` cycles has been counted, as far as the counter goes. -/
theorem le_count_of_held {s n : Nat} (h : ∀ k, s ≤ k → k < s + n → key k = true)
    (hn : n ≤ cMax) : n ≤ (run key (s + n)).count := by
  induction n with
  | zero => exact Nat.zero_le _
  | succ n ih =>
      have hcount := ih (fun k hk hkn => h k hk (by omega)) (by omega)
      rw [← Nat.add_assoc, run_succ, h (s + n) (by omega) (by omega)]
      simp only [clock, if_true]
      split <;> omega

variable (key) in
theorem count_of_held {t : Nat} (h : ∀ k < t, key k = true) (ht : t ≤ cMax) :
    (run key t).count = t := by
  induction t with
  | zero => rfl
  | succ t ih =>
      have hcount := ih (fun k hk => h k (by omega)) (by omega)
      rw [run_succ, h t (by omega), clock_held (by omega), hcount]

variable (key) in
/-- The channel does not notice how long its key has been up. -/
theorem run_open_first (h : key 0 = false) (t : Nat) :
    run key (t + 1) = run (fun k => key (k + 1)) t := by
  have hfirst : run key 1 = cleared := by rw [run_succ, h]; rfl
  rw [Nat.add_comm, run, trace_add]
  exact (congrArg (fun s => trace clock s (fun k => key (1 + k)) t) hfirst).trans
    (trace_congr _ _ _ t fun k _ => by rw [Nat.add_comm])

theorem held_of_count {t k : Nat} (h : k < (run key t).count) :
    ∃ s, t = s + k + 1 ∧ key s = true := by
  induction t generalizing k with
  | zero => exact absurd h (Nat.not_lt_zero k)
  | succ t ih =>
      rw [run_succ] at h
      cases hkey : key t with
      | false => simp [hkey, clock_released] at h
      | true =>
          cases k with
          | zero => exact ⟨t, rfl, hkey⟩
          | succ k =>
              have hle := clock_count_le (run key t) (key t)
              obtain ⟨s, rfl, hs⟩ := ih (k := k) (by omega)
              exact ⟨s, rfl, hs⟩

end Run

end KeyChannel

structure KeyGen where
  key1 : KeyChannel
  key2 : KeyChannel
  key3 : KeyChannel

def KeyGen.cleared : KeyGen := ⟨.cleared, .cleared, .cleared⟩

def keyGen (s : KeyGen) (key1 key2 key3 : Bool) : KeyGen :=
  ⟨s.key1.clock key1, s.key2.clock key2, s.key3.clock key3⟩

end CncCard
