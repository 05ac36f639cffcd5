import CncCard.Driver.Lifecycle

/-!
What the calls on an open file and the interrupt handler touch: the device record, and
through `mem_addr` the registers of the card. The handler is registered last and freed
first. A file keeps the record that it was opened with, and nothing counts the open files
when the card goes away.
-/

namespace CncCard.Driver
open Transition

/-- The calls of `cnc_fops` on an open file. -/
inductive FileOp where
  | write | read | unlockedIoctl

/-- What the code of a call touches: `cnc_write` leaves the registers to the handler. -/
def FileOp.touches : FileOp → List Resource
  | .write => [.devmKzalloc]
  | .read | .unlockedIoctl => [.devmKzalloc, .memAddr]

def interruptTouches : List Resource := [.devmKzalloc, .memAddr]

namespace Card

variable {φ : Type} {s s' : Card φ} {file : File} {r : Resource}

/-- The resource is there, and it is the one of this record. -/
def Live (s : Card φ) (record : Nat) (r : Resource) : Prop := record = s.dev ∧ r ∈ s.stack

/-- A probe is between the allocation of the record and the `cdev`. -/
def Rising (s : Card φ) : Prop :=
  match s.line with
  | .probe r => 0 < r.rank ∧ r.rank < 8
  | .initIntcsr | .initPctocard => True
  | _ => False

theorem Rising.count_lt (h : Rising s) : s.count < 8 := by
  cases hline : s.line <;> simp only [Rising, hline] at h
  · rw [count, hline]
    exact h.2
  · rw [count, hline]
    exact Nat.lt_of_sub_eq_succ rfl
  · rw [count, hline]
    exact Nat.lt_of_sub_eq_succ rfl

theorem OnLadder.live_iff (h : OnLadder s) (record : Nat) (r : Resource) :
    Live s record r ↔ record = s.dev ∧ r.rank < s.count :=
  and_congr_right fun _ => h.mem_stack r

/-- Only the first two register writes go on with a probe that rises. -/
theorem rising_proceed (hstep : s.proceed = some s') (h : Rising s') : Rising s := by
  cases hline : s.line with
  | unbound | bound | probe r => simp [proceed, hline] at hstep
  | initIntcsr | initPctocard =>
      rw [Rising, hline]
      trivial
  | setDrvdata | devres =>
      simp only [proceed, hline, Option.some.injEq] at hstep
      subst hstep
      exact h.elim
  | err r | remove r =>
      simp only [proceed, hline, Option.some.injEq] at hstep
      subst hstep
      cases r <;> exact h.elim
  | ret =>
      simp only [proceed, hline, Option.some.injEq] at hstep
      subst hstep
      by_cases hneg : s.ret < 0
      · rw [if_pos hneg] at h
        exact h.elim
      · rw [if_neg hneg] at h
        exact h.elim

variable [DecidableEq φ]

/-- A probe that rises did so before, or its record is new. -/
theorem rising_step {e : CardEvent φ} (hstep : s.step e = some s') (h : Rising s') :
    Rising s ∨ s.dev < s'.dev := by
  cases e with
  | probe =>
      simp only [step, Option.ite_none_right_eq_some, Option.some.injEq] at hstep
      obtain ⟨-, rfl⟩ := hstep
      exact absurd h.1 (Nat.lt_irrefl 0)
  | succeed =>
      cases hline : s.line <;> simp only [step, hline, reduceCtorEq, Option.some.injEq] at hstep
      next r =>
      subst hstep
      cases r with
      | devmKzalloc => exact .inr (Nat.lt_succ_self _)
      | cdev | cls | device => exact absurd h.2 (by decide)
      | irq => exact h.elim
      | _ =>
          left
          rw [Rising, hline]
          exact ⟨by decide, by decide⟩
  | fail errno =>
      cases hline : s.line <;> simp only [step, hline, reduceCtorEq,
        Option.ite_none_left_eq_some, Option.some.injEq] at hstep
      next r =>
      obtain ⟨-, rfl⟩ := hstep
      cases r <;> exact h.elim
  | proceed => exact .inl (rising_proceed hstep h)
  | remove =>
      simp only [step, Option.ite_none_right_eq_some, Option.some.injEq] at hstep
      obtain ⟨-, rfl⟩ := hstep
      exact h.elim
  | openFile f =>
      simp only [step, Option.ite_none_right_eq_some, Option.some.injEq] at hstep
      obtain ⟨-, rfl⟩ := hstep
      exact .inl h
  | closeFile f =>
      simp only [step, Option.ite_none_left_eq_some, Option.some.injEq] at hstep
      obtain ⟨-, rfl⟩ := hstep
      exact .inl h

/-- A file that is open after a step was open before, or it has just been opened. -/
theorem files_step {e : CardEvent φ} (hstep : s.step e = some s') {f : φ}
    (hfile : s'.files f = some file) :
    s.files f = some file ∨
      file = ⟨s.dev, s.log.length⟩ ∧ .cdev ∈ s.stack ∧ s' = s.cncOpen f := by
  cases e with
  | probe | remove =>
      simp only [step, Option.ite_none_right_eq_some, Option.some.injEq] at hstep
      obtain ⟨-, rfl⟩ := hstep
      exact .inl hfile
  | succeed =>
      cases hline : s.line <;> simp only [step, hline, reduceCtorEq, Option.some.injEq] at hstep
      subst hstep
      exact .inl hfile
  | fail errno =>
      cases hline : s.line <;> simp only [step, hline, reduceCtorEq,
        Option.ite_none_left_eq_some, Option.some.injEq] at hstep
      obtain ⟨-, rfl⟩ := hstep
      exact .inl hfile
  | proceed =>
      left
      cases hline : s.line <;> simp only [step, proceed, hline, reduceCtorEq,
        Option.some.injEq] at hstep
      all_goals
        subst hstep
        exact hfile
  | openFile g =>
      simp only [step, Option.ite_none_right_eq_some, Option.some.injEq] at hstep
      obtain ⟨⟨hcdev, -⟩, rfl⟩ := hstep
      by_cases hfg : f = g
      · subst hfg
        simp only [cncOpen, Function.update_self, Option.some.injEq] at hfile
        exact .inr ⟨hfile.symm, hcdev, rfl⟩
      · simp only [cncOpen, Function.update_of_ne hfg] at hfile
        exact .inl hfile
  | closeFile g =>
      simp only [step, Option.ite_none_left_eq_some, Option.some.injEq] at hstep
      obtain ⟨-, rfl⟩ := hstep
      by_cases hfg : f = g
      · subst hfg
        simp [cncRelease] at hfile
      · simp only [cncRelease, Function.update_of_ne hfg] at hfile
        exact .inl hfile

/-- What a state knows of an open file: whatever the `cdev` rests on is there, and the one
of its record, as long as it has not been given back since the file was opened. -/
structure Tracks (s : Card φ) (file : File) : Prop where
  opened : file.openedAt ≤ s.log.length
  record_le : file.privateData ≤ s.dev
  settled : file.privateData = s.dev → ¬ Rising s
  live_iff : ∀ r : Resource, r.rank < 8 →
    (Live s file.privateData r ↔ .give r ∉ s.log.drop file.openedAt)

theorem tracks_open (hladder : OnLadder s) (hcdev : .cdev ∈ s.stack) (f : φ) :
    Tracks (s.cncOpen f) ⟨s.dev, s.log.length⟩ := by
  rw [hladder.mem_stack] at hcdev
  refine ⟨Nat.le_refl _, Nat.le_refl _, fun _ hrising => ?_, fun r hr => ?_⟩
  · have hlt := hrising.count_lt
    have hcount : (s.cncOpen f).count = s.count := rfl
    have hrank : Resource.cdev.rank = 7 := rfl
    omega
  · have hlog : (s.cncOpen f).log = s.log := rfl
    have hlive : Live (s.cncOpen f) s.dev r ↔ Live s s.dev r := Iff.rfl
    have hrank : Resource.cdev.rank = 7 := rfl
    rw [hlog, List.drop_length, hlive, hladder.live_iff]
    simp only [true_and, List.not_mem_nil, not_false_eq_true, iff_true]
    omega

theorem Tracks.step {e : CardEvent φ} (h : Tracks s file) (hladder : OnLadder s)
    (hstep : s.step e = some s') : Tracks s' file := by
  have hladder' := hladder.step hstep
  obtain ⟨hmoves, -⟩ := step_moves hladder.sound hstep
  have hlive := h.live_iff
  have hle := h.record_le
  have hsettled (hdev : s'.dev = s.dev) : file.privateData = s'.dev → ¬ Rising s' := by
    rw [hdev]
    intro heq hrising
    exact (rising_step hstep hrising).elim (h.settled heq) fun hlt => by omega
  cases hmoves with
  | keeps hlog hdev hcount =>
      refine ⟨hlog ▸ h.opened, hdev ▸ hle, hsettled hdev, fun r hr => ?_⟩
      rw [hlog, ← hlive r hr, hladder'.live_iff, hladder.live_iff, hdev, hcount]
  | takes x hline hlog hdev hcount =>
      have hbefore : s.count = x.rank := by rw [count, hline]
      have hdrop : s'.log.drop file.openedAt = s.log.drop file.openedAt ++ [.take x] := by
        rw [hlog, List.drop_append_of_le_length h.opened]
      have hopened : file.openedAt ≤ s'.log.length := by
        rw [hlog, List.length_append]
        exact Nat.le_trans h.opened (Nat.le_add_right _ _)
      by_cases hnew : x = .devmKzalloc
      · -- the record of the file is not the new one, and nothing is left of its own
        subst hnew
        rw [if_pos rfl] at hdev
        refine ⟨hopened, by omega, by omega, fun r hr => ?_⟩
        have hold : .give r ∈ s.log.drop file.openedAt := by
          refine not_not.mp (mt (hlive r hr).mpr ?_)
          rw [hladder.live_iff, hbefore]
          exact fun hlt => absurd hlt.2 (Nat.not_lt_zero _)
        rw [hdrop, hladder'.live_iff]
        simp only [List.mem_append, hold, true_or, not_true_eq_false, iff_false]
        omega
      · rw [if_neg hnew] at hdev
        refine ⟨hopened, hdev ▸ hle, hsettled hdev, fun r hr => ?_⟩
        have hhigh (heq : file.privateData = s.dev) : 8 ≤ x.rank := by
          by_contra hlow
          refine h.settled heq ?_
          rw [Rising, hline]
          refine ⟨Nat.pos_of_ne_zero fun hzero => hnew ?_, by omega⟩
          exact Resource.rank_inj.mp hzero
        have hsame : Live s' file.privateData r ↔ Live s file.privateData r := by
          rw [hladder'.live_iff, hladder.live_iff, hdev, hcount, hbefore]
          exact and_congr_right fun heq => by
            have := hhigh heq
            omega
        rw [hdrop, hsame, hlive r hr]
        simp
  | gives x hlog hdev hcount hcount' =>
      have hdrop : s'.log.drop file.openedAt = s.log.drop file.openedAt ++ [.give x] := by
        rw [hlog, List.drop_append_of_le_length h.opened]
      refine ⟨?_, hdev ▸ hle, hsettled hdev, fun r hr => ?_⟩
      · rw [hlog, List.length_append]
        exact Nat.le_trans h.opened (Nat.le_add_right _ _)
      · have hless : Live s' file.privateData r ↔ Live s file.privateData r ∧ r ≠ x := by
          rw [hladder'.live_iff, hladder.live_iff, hdev, hcount, hcount', and_assoc, Ne,
            ← Resource.rank_inj]
          exact and_congr_right fun _ => by omega
        rw [hdrop, hless, hlive r hr]
        simp

/-- Every open file is tracked. -/
structure FilesTracked (s : Card φ) : Prop where
  ladder : OnLadder s
  tracks : ∀ f file, s.files f = some file → Tracks s file

theorem filesTracked_of_reach (h : Reach step anyEvent loaded s) : FilesTracked s := by
  refine h.invariant ⟨⟨trivial, rfl⟩, fun f file hfile => by cases hfile⟩ ?_
  intro s e s' hs _ hstep
  refine ⟨hs.ladder.step hstep, fun f file hfile => ?_⟩
  obtain hold | ⟨rfl, hcdev, rfl⟩ := files_step hstep hfile
  · exact (hs.tracks f file hold).step hs.ladder hstep
  · exact tracks_open hs.ladder hcdev f

/-- What is safe to touch: the interrupt handler finds the registers mapped whenever it is
registered, and a call on a file finds what it touches unless one of these resources has
been given back since the file was opened. -/
structure Touches (s : Card φ) : Prop where
  interrupt : .irq ∈ s.stack → ∀ r ∈ interruptTouches, Live s s.dev r
  file : ∀ f file, s.files f = some file → ∀ op : FileOp,
    (∀ r ∈ op.touches, Live s file.privateData r) ↔
      ∀ r ∈ op.touches, .give r ∉ s.log.drop file.openedAt

theorem touches_of_reach (s : Card φ) (h : Reach step anyEvent loaded s) : Touches s := by
  have htracked := filesTracked_of_reach h
  refine ⟨fun hirq r hr => ⟨rfl, ?_⟩, fun f file hfile op => ?_⟩
  · rw [htracked.ladder.mem_stack] at hirq ⊢
    have hrank : Resource.irq.rank = 10 := rfl
    have := r.rank_lt
    have hlow : r.rank < 8 := by
      simp only [interruptTouches, List.mem_cons, List.not_mem_nil, or_false] at hr
      rcases hr with rfl | rfl <;> decide
    omega
  · refine forall₂_congr fun r hr => (htracked.tracks f file hfile).live_iff r ?_
    cases op <;> simp only [FileOp.touches, List.mem_cons, List.not_mem_nil, or_false] at hr
    · subst hr
      decide
    · rcases hr with rfl | rfl <;> decide
    · rcases hr with rfl | rfl <;> decide

/-- A file is opened, and the card is removed before it is closed. -/
def orphaned : List (CardEvent Unit) :=
  [.probe] ++ List.replicate 6 .succeed ++ [.proceed, .proceed] ++ List.replicate 5 .succeed ++
    [.proceed, .proceed, .openFile (), .remove] ++ List.replicate 11 .proceed

theorem touches_orphaned : ∃ s file, orphaned.foldlM step loaded = some s ∧
    s.line = .unbound ∧ s.files () = some file ∧ file.openedAt = 11 ∧ Touches s :=
  ⟨_, _, rfl, rfl, rfl, rfl, touches_of_reach _ (reach_of_events orphaned rfl)⟩

end Card

end CncCard.Driver
