import CncCard.Transition.Holding
import CncCard.Transition.System

/-!
The driver between `probe` and `remove`: `cnc_probe` takes eleven resources one after the
other, and a call that fails jumps to the label that gives back what is held; `cnc_remove`
gives back all of it. Between any two of these statements files are opened, used and closed,
and interrupts come in.

The device record is allocated with `devm_kzalloc`: the driver core frees it after a `probe`
that has failed and after `remove`.
-/

namespace CncCard.Driver
open Transition

/-- What `cnc_probe` takes, in the order of its calls. -/
inductive Resource where
  | devmKzalloc | pciDevice | ioRegion | memRegion | memAddr | ioAddr
  | chrdevRegion | cdev | cls | device | irq
  deriving DecidableEq

namespace Resource

def ladder : List Resource :=
  [devmKzalloc, pciDevice, ioRegion, memRegion, memAddr, ioAddr, chrdevRegion, cdev, cls,
    device, irq]

def rank : Resource → Nat
  | devmKzalloc => 0
  | pciDevice => 1
  | ioRegion => 2
  | memRegion => 3
  | memAddr => 4
  | ioAddr => 5
  | chrdevRegion => 6
  | cdev => 7
  | cls => 8
  | device => 9
  | irq => 10

end Resource

/-- The statement that comes next. A statement that takes or gives back a resource is named
after it; `err r` is the label whose statement gives `r` back. -/
inductive Line where
  | unbound
  | probe (r : Resource)
  | initIntcsr | initPctocard | setDrvdata
  | err (r : Resource)
  | ret
  | bound
  | remove (r : Resource)
  | devres
  deriving DecidableEq

def eio : Int := 5

def enomem : Int := 12

/-- The line behind a call of `cnc_probe` that succeeds. -/
def onSuccess : Resource → Line
  | .devmKzalloc => .probe .pciDevice
  | .pciDevice => .probe .ioRegion
  | .ioRegion => .probe .memRegion
  | .memRegion => .probe .memAddr
  | .memAddr => .probe .ioAddr
  | .ioAddr => .initIntcsr
  | .chrdevRegion => .probe .cdev
  | .cdev => .probe .cls
  | .cls => .probe .device
  | .device => .probe .irq
  | .irq => .setDrvdata

/-- Where a call of `cnc_probe` that fails goes on; without a record there is nothing left
to do. -/
def onError : Resource → Line
  | .devmKzalloc => .unbound
  | .pciDevice => .ret
  | .ioRegion => .err .pciDevice
  | .memRegion => .err .ioRegion
  | .memAddr => .err .memRegion
  | .ioAddr => .err .memAddr
  | .chrdevRegion => .err .ioAddr
  | .cdev => .err .chrdevRegion
  | .cls => .err .cdev
  | .device => .err .cls
  | .irq => .err .device

/-- The value of `ret` behind a call that fails with an error number: two calls answer with
a null pointer. -/
def errorCode (errno : Int) : Resource → Int
  | .devmKzalloc => -enomem
  | .memAddr | .ioAddr => -eio
  | _ => -errno

/-- The labels of `cnc_probe` stand in this order and fall through. -/
def afterLabel : Resource → Line
  | .device => .err .cls
  | .cls => .err .cdev
  | .cdev => .err .chrdevRegion
  | .chrdevRegion => .err .ioAddr
  | .ioAddr => .err .memAddr
  | .memAddr => .err .memRegion
  | .memRegion => .err .ioRegion
  | .ioRegion => .err .pciDevice
  | .pciDevice | .devmKzalloc | .irq => .ret

/-- The statements of `cnc_remove`. -/
def afterRemove : Resource → Line
  | .irq => .remove .device
  | .device => .remove .cls
  | .cls => .remove .cdev
  | .cdev => .remove .chrdevRegion
  | .chrdevRegion => .remove .ioAddr
  | .ioAddr => .remove .memAddr
  | .memAddr => .remove .memRegion
  | .memRegion => .remove .ioRegion
  | .ioRegion => .remove .pciDevice
  | .pciDevice | .devmKzalloc => .devres

/-- An open file: the device record in its `private_data`, and the length of the log when
it was opened. -/
structure File where
  privateData : Nat
  openedAt : Nat

/-- The driver with its one card. Device records are numbered; the log has what was taken
and given back since the driver was loaded. -/
structure Card (φ : Type) where
  line : Line
  ret : Int
  /-- The last record that was allocated. -/
  dev : Nat
  log : List (Holding Resource)
  files : φ → Option File

inductive CardEvent (φ : Type) where
  /-- The driver core calls `cnc_probe`. -/
  | probe
  /-- The call at hand succeeds. -/
  | succeed
  /-- The call at hand fails. -/
  | fail (errno : Nat)
  /-- A statement that cannot fail. -/
  | proceed
  /-- The driver core calls `cnc_remove`. -/
  | remove
  | openFile (f : φ)
  | closeFile (f : φ)

variable {φ : Type}

namespace Card

/-- What is held, the latest first. -/
def stack (s : Card φ) : List Resource := (held [] s.log).getD []

def goto (s : Card φ) (line : Line) : Card φ := { s with line := line }

def take (s : Card φ) (r : Resource) : Card φ := { s with log := s.log ++ [.take r] }

def give (s : Card φ) (r : Resource) : Card φ := { s with log := s.log ++ [.give r] }

/-- The call for `r` has returned it. -/
def succeed (s : Card φ) (r : Resource) : Card φ :=
  { (s.take r).goto (onSuccess r) with
    dev := if r = .devmKzalloc then s.dev + 1 else s.dev }

def fail (s : Card φ) (r : Resource) (errno : Nat) : Card φ :=
  { s.goto (onError r) with ret := errorCode errno r }

/-- A statement that cannot fail. The driver core takes a negative result of `cnc_probe` for
a failure, and frees the record then and after `cnc_remove`. -/
def proceed (s : Card φ) : Option (Card φ) :=
  match s.line with
  | .initIntcsr => some (s.goto .initPctocard)
  | .initPctocard => some (s.goto (.probe .chrdevRegion))
  | .setDrvdata => some { s.goto .ret with ret := 0 }
  | .err r => some ((s.give r).goto (afterLabel r))
  | .ret => some (s.goto (if s.ret < 0 then .devres else .bound))
  | .remove r => some ((s.give r).goto (afterRemove r))
  | .devres => some ((s.give .devmKzalloc).goto .unbound)
  | .unbound | .bound | .probe _ => none

variable [DecidableEq φ]

/-- `cnc_open` finds the record around the `cdev` of the inode. -/
def cncOpen (s : Card φ) (f : φ) : Card φ :=
  { s with files := Function.update s.files f (some ⟨s.dev, s.log.length⟩) }

def cncRelease (s : Card φ) (f : φ) : Card φ :=
  { s with files := Function.update s.files f none }

def step (s : Card φ) : CardEvent φ → Option (Card φ)
  | .probe => if s.line = .unbound then some (s.goto (.probe .devmKzalloc)) else none
  | .succeed =>
      match s.line with
      | .probe r => some (s.succeed r)
      | _ => none
  | .fail errno =>
      match s.line with
      | .probe r => if errno = 0 then none else some (s.fail r errno)
      | _ => none
  | .proceed => s.proceed
  | .remove => if s.line = .bound then some (s.goto (.remove .irq)) else none
  | .openFile f => if .cdev ∈ s.stack ∧ s.files f = none then some (s.cncOpen f) else none
  | .closeFile f => if s.files f = none then none else some (s.cncRelease f)

def loaded : Card φ := ⟨.unbound, 0, 0, [], fun _ => none⟩

end Card

namespace Resource

theorem ladder_rank (r : Resource) : ladder[r.rank]? = some r := by
  cases r <;> rfl

theorem rank_lt (r : Resource) : r.rank < 11 := by
  cases r <;> decide

theorem rank_inj {r r' : Resource} : r.rank = r'.rank ↔ r = r' := by
  constructor
  · intro h
    have hr := r.ladder_rank
    rw [h, r'.ladder_rank] at hr
    exact (Option.some.inj hr).symm
  · rintro rfl
    rfl

theorem ladder_nodup : ladder.Nodup := by decide

end Resource

namespace Card

/-- How many resources are held before the line, in the order of the ladder. -/
def count (s : Card φ) : Nat :=
  match s.line with
  | .unbound => 0
  | .probe r => r.rank
  | .initIntcsr | .initPctocard => 6
  | .setDrvdata | .bound => 11
  | .err r | .remove r => r.rank + 1
  | .ret => if s.ret < 0 then 1 else 11
  | .devres => 1

/-- What a line can rely on: labels are only reached with an error. -/
def Sound (s : Card φ) : Prop :=
  match s.line with
  | .err r => s.ret < 0 ∧ 0 < r.rank ∧ r.rank < 10
  | .ret => s.ret ≤ 0
  | .bound => s.ret = 0
  | .remove r => 0 < r.rank
  | _ => True

/-- What a step does to the resources. -/
inductive Moves (s s' : Card φ) : Prop where
  | keeps (hlog : s'.log = s.log) (hdev : s'.dev = s.dev) (hcount : s'.count = s.count)
  | takes (r : Resource) (hline : s.line = .probe r) (hlog : s'.log = s.log ++ [.take r])
      (hdev : s'.dev = if r = .devmKzalloc then s.dev + 1 else s.dev)
      (hcount : s'.count = r.rank + 1)
  | gives (r : Resource) (hlog : s'.log = s.log ++ [.give r]) (hdev : s'.dev = s.dev)
      (hcount : s.count = r.rank + 1) (hcount' : s'.count = r.rank)

variable {s s' : Card φ}

theorem errorCode_neg {errno : Nat} (h : errno ≠ 0) (r : Resource) :
    errorCode errno r < 0 := by
  cases r <;> simp only [errorCode, eio, enomem] <;> omega

theorem succeed_moves {r : Resource} (h : s.line = .probe r) :
    Moves s (s.succeed r) ∧ Sound (s.succeed r) := by
  refine ⟨.takes r h rfl rfl ?_, ?_⟩
  · cases r <;> rfl
  · cases r <;> trivial

theorem fail_moves {r : Resource} {errno : Nat} (h : s.line = .probe r) (hne : errno ≠ 0) :
    Moves s (s.fail r errno) ∧ Sound (s.fail r errno) := by
  have hneg := errorCode_neg hne r
  refine ⟨.keeps rfl rfl ?_, ?_⟩
  · rw [count, count, h]
    cases r with
    | pciDevice => exact if_pos hneg
    | _ => rfl
  · cases r with
    | devmKzalloc => trivial
    | pciDevice => exact Int.le_of_lt hneg
    | _ => exact ⟨hneg, by decide, by decide⟩

theorem proceed_moves (hsound : Sound s) (h : s.proceed = some s') : Moves s s' ∧ Sound s' := by
  cases hline : s.line with
  | unbound | bound | probe r => simp [proceed, hline] at h
  | initIntcsr | initPctocard =>
      simp only [proceed, hline, Option.some.injEq] at h
      subst h
      refine ⟨.keeps rfl rfl ?_, trivial⟩
      rw [count, count, hline]
      rfl
  | setDrvdata =>
      simp only [proceed, hline, Option.some.injEq] at h
      subst h
      refine ⟨.keeps rfl rfl ?_, Int.le_refl 0⟩
      rw [count, count, hline]
      rfl
  | err r =>
      simp only [proceed, hline, Option.some.injEq] at h
      simp only [Sound, hline] at hsound
      subst h
      obtain ⟨hneg, hlow, hhigh⟩ := hsound
      refine ⟨.gives r rfl rfl (by rw [count, hline]) ?_, ?_⟩
      · cases r with
        | devmKzalloc => cases hlow
        | irq => exact absurd hhigh (by decide)
        | pciDevice => exact if_pos hneg
        | _ => rfl
      · cases r with
        | devmKzalloc | irq | pciDevice => exact Int.le_of_lt hneg
        | _ => exact ⟨hneg, by decide, by decide⟩
  | ret =>
      simp only [proceed, hline, Option.some.injEq] at h
      simp only [Sound, hline] at hsound
      subst h
      by_cases hneg : s.ret < 0
      · rw [if_pos hneg]
        refine ⟨.keeps rfl rfl ?_, trivial⟩
        rw [count, count, hline]
        exact (if_pos hneg).symm
      · rw [if_neg hneg]
        refine ⟨.keeps rfl rfl ?_, Int.le_antisymm hsound (Int.not_lt.mp hneg)⟩
        rw [count, count, hline]
        exact (if_neg hneg).symm
  | remove r =>
      simp only [proceed, hline, Option.some.injEq] at h
      simp only [Sound, hline] at hsound
      subst h
      refine ⟨.gives r rfl rfl (by rw [count, hline]) ?_, ?_⟩
      · cases r with
        | devmKzalloc => cases hsound
        | _ => rfl
      · cases r with
        | devmKzalloc | pciDevice => trivial
        | _ => exact Nat.succ_pos _
  | devres =>
      simp only [proceed, hline, Option.some.injEq] at h
      subst h
      exact ⟨.gives .devmKzalloc rfl rfl (by rw [count, hline]; rfl) rfl, trivial⟩

/-- The log so far nests, and what is held is the part of the ladder below the line. -/
structure OnLadder (s : Card φ) : Prop where
  sound : Sound s
  held_log : held [] s.log = some (Resource.ladder.take s.count).reverse

theorem OnLadder.stack_eq (h : OnLadder s) :
    s.stack = (Resource.ladder.take s.count).reverse := by
  rw [stack, h.held_log]
  rfl

theorem OnLadder.mem_stack (h : OnLadder s) (r : Resource) : r ∈ s.stack ↔ r.rank < s.count := by
  rw [h.stack_eq, List.mem_reverse]
  exact mem_climbed_iff Resource.ladder_nodup r.ladder_rank

variable [DecidableEq φ]

/-- The inversion of a step: it leaves the resources alone, or moves one rung up or down. -/
theorem step_moves {e : CardEvent φ} (hsound : Sound s) (h : s.step e = some s') :
    Moves s s' ∧ Sound s' := by
  cases e with
  | probe =>
      simp only [step, Option.ite_none_right_eq_some, Option.some.injEq] at h
      obtain ⟨hline, rfl⟩ := h
      exact ⟨.keeps rfl rfl (by rw [count, count, hline]; rfl), trivial⟩
  | succeed =>
      cases hline : s.line <;> simp only [step, hline, reduceCtorEq, Option.some.injEq] at h
      subst h
      exact succeed_moves hline
  | fail errno =>
      cases hline : s.line <;> simp only [step, hline, reduceCtorEq,
        Option.ite_none_left_eq_some, Option.some.injEq] at h
      obtain ⟨hne, rfl⟩ := h
      exact fail_moves hline hne
  | proceed => exact proceed_moves hsound h
  | remove =>
      simp only [step, Option.ite_none_right_eq_some, Option.some.injEq] at h
      obtain ⟨hline, rfl⟩ := h
      exact ⟨.keeps rfl rfl (by rw [count, count, hline]; rfl), Nat.succ_pos _⟩
  | openFile f =>
      simp only [step, Option.ite_none_right_eq_some, Option.some.injEq] at h
      obtain ⟨-, rfl⟩ := h
      exact ⟨.keeps rfl rfl rfl, hsound⟩
  | closeFile f =>
      simp only [step, Option.ite_none_left_eq_some, Option.some.injEq] at h
      obtain ⟨-, rfl⟩ := h
      exact ⟨.keeps rfl rfl rfl, hsound⟩

theorem OnLadder.step {e : CardEvent φ} (h : OnLadder s) (hstep : s.step e = some s') :
    OnLadder s' := by
  obtain ⟨hmoves, hsound⟩ := step_moves h.sound hstep
  refine ⟨hsound, ?_⟩
  have hheld := h.held_log
  cases hmoves with
  | keeps hlog _ hcount => rw [hlog, hcount, hheld]
  | takes r hline hlog _ hcount =>
      rw [count, hline] at hheld
      rw [hlog, hcount]
      exact held_climb hheld r.ladder_rank
  | gives r hlog _ hcount hcount' =>
      rw [hcount] at hheld
      rw [hlog, hcount']
      exact held_descend hheld r.ladder_rank

theorem onLadder_of_reach (h : Reach step anyEvent loaded s) : OnLadder s :=
  h.invariant ⟨trivial, rfl⟩ fun _ _ _ hs _ hstep => hs.step hstep

/-- The resources of a run: everything is given back in the reverse order and at most once,
nothing is left over when the driver is not bound, and all eleven are held when it is. -/
structure Balanced (s : Card φ) : Prop where
  nested : ∃ k, held [] s.log = some (Resource.ladder.take k).reverse
  given : ∀ r, s.log.count (.take r) = s.log.count (.give r) + (decide (r ∈ s.stack)).toNat
  unbound : s.line = .unbound → s.stack = []
  bound : s.line = .bound → s.stack = Resource.ladder.reverse ∧ s.ret = 0

/-- In every run, whatever the kernel answers to the calls and whenever files are opened and
closed and the card is removed. -/
theorem balanced_of_reach (s : Card φ) (h : Reach step anyEvent loaded s) : Balanced s := by
  have hladder := onLadder_of_reach h
  refine ⟨⟨s.count, hladder.held_log⟩, ?_, ?_, ?_⟩
  · intro r
    have hcount := count_of_held hladder.held_log r
    have hnodup : (Resource.ladder.take s.count).reverse.Nodup :=
      List.nodup_reverse.mpr (Resource.ladder_nodup.sublist (List.take_sublist _ _))
    rw [List.count_nil, Nat.add_zero, hnodup.count, ← hladder.stack_eq] at hcount
    rw [hcount]
    by_cases hmem : r ∈ s.stack <;> simp [hmem]
  · intro hline
    rw [hladder.stack_eq, count, hline]
    rfl
  · intro hline
    have hsound := hladder.sound
    simp only [Sound, hline] at hsound
    refine ⟨?_, hsound⟩
    rw [hladder.stack_eq, count, hline]
    rfl

/-- `cdev_add` fails with error 12. -/
def failedProbe : List (CardEvent Unit) :=
  [.probe] ++ List.replicate 6 .succeed ++ [.proceed, .proceed, .succeed, .fail 12] ++
    List.replicate 8 .proceed

theorem balanced_failedProbe : ∃ s, failedProbe.foldlM step loaded = some s ∧
    s.line = .unbound ∧ s.ret = -12 ∧ s.log.length = 14 ∧ Balanced s :=
  ⟨_, rfl, rfl, rfl, rfl, balanced_of_reach _ (reach_of_events failedProbe rfl)⟩

end Card

end CncCard.Driver
