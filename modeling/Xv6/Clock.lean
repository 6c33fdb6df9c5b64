import Xv6.ExclusiveExecution
import Xv6.ProcFrame

/-!
# The clock

CPU 0 counts the ticks: in `clockintr`, under `tickslock`, it increments
`ticks`, lets `update_time` charge the running processes slot by slot, and
wakes up the sleepers on `&ticks`.  Meanwhile the other CPUs go on, and
`allocproc` and `exit` read `ticks` without the lock.
-/

namespace Xv6

open ProcSystem Machine

/-- Where CPU 0 is under `tickslock`. -/
inductive ClockPc
  | idle
  | updateTime (i : ℕ)
  | wakeup (i : ℕ)
  deriving DecidableEq

structure ClockSystem where
  proc : ProcSystem
  clock : ClockPc

inductive ClockLabel
  | proc (l : ProcLabel)
  | clockintr

/-- These steps are taken by `clockintr` alone. -/
def ProcLabel.ofClock : ProcLabel → Bool
  | .tick | .updateTime _ => true
  | .scheduler _ | .act .. | .wakeup .. => false

/-- The channel `&ticks`. -/
def ticksChan : ℕ := 0

namespace ClockSystem

/-- One step of `clockintr` under `tickslock`. -/
def clockintr (mode : SchedMode) (s : ClockSystem) : Option ClockSystem :=
  match s.clock with
  | .idle =>
    match s.proc.step mode .tick with
    | none => none
    | some proc => some ⟨proc, .updateTime 0⟩
  | .updateTime i =>
    if hi : i < nproc then
      match s.proc.step mode (.updateTime ⟨i, hi⟩) with
      | none => none
      | some proc => some ⟨proc, .updateTime (i + 1)⟩
    else some { s with clock := .wakeup 0 }
  | .wakeup i =>
    if hi : i < nproc then
      match s.proc.step mode (.wakeup 0 ticksChan ⟨i, hi⟩) with
      | none => none
      | some proc => some ⟨proc, .wakeup (i + 1)⟩
    else some { s with clock := .idle }

def step (mode : SchedMode) (l : ClockLabel) (s : ClockSystem) : Option ClockSystem :=
  match l with
  | .proc l =>
    if l.ofClock = true then none
    else
      match s.proc.step mode l with
      | none => none
      | some proc => some { s with proc := proc }
  | .clockintr => s.clockintr mode

end ClockSystem

def clockInit : ClockSystem := ⟨userinit, .idle⟩

namespace ClockSystem

/-- `update_time` has still to visit slot `p` for the last tick. -/
def due (s : ClockSystem) (p : Slot) : ℕ :=
  match s.clock with
  | .updateTime i => if i ≤ p then 1 else 0
  | .idle | .wakeup _ => 0

/-- This step does not make `allocproc` read `ticks` for a slot that
`update_time` has still to visit for the last tick. -/
def CreatesAfterVisit (l : ClockLabel) (s : ClockSystem) : Prop :=
  match l with
  | .proc (.act c (.next true)) =>
    match s.proc.cpu c with
    | .run p =>
      match s.proc.pc p with
      | .forkAlloc np => s.due np = 0
      | _ => True
    | _ => True
  | _ => True

instance (l : ClockLabel) (s : ClockSystem) : Decidable (s.CreatesAfterVisit l) := by
  unfold CreatesAfterVisit
  split
  · split
    · split <;> infer_instance
    · infer_instance
  · infer_instance

/-- `ticks` is not incremented beyond 32 bits. -/
def TicksFit (l : ClockLabel) (s : ClockSystem) : Prop :=
  match l with
  | .clockintr => s.clock = .idle → s.proc.ticks.toNat + 1 < 2 ^ 32
  | .proc _ => True

instance (l : ClockLabel) (s : ClockSystem) : Decidable (s.TicksFit l) := by
  unfold TicksFit
  split <;> infer_instance

end ClockSystem

/-- `exit` has filled in the times without wrapping around. -/
structure ProcTimes.Accounted (t : ProcTimes) : Prop where
  bound : t.creationTime.toNat + t.runTime.toNat ≤ t.finishTime.toNat
  turnaround : t.turnaroundTime = t.finishTime - t.creationTime
  waiting : t.waitingTime = t.turnaroundTime - t.runTime

theorem ProcTimes.accounted_finish {t : ProcTimes} {ticks : UInt32}
    (h : t.creationTime.toNat + t.runTime.toNat ≤ ticks.toNat) :
    (t.finish ticks).Accounted := ⟨h, rfl, rfl⟩

namespace ProcTimes.Accounted

variable {t : ProcTimes}

theorem toNat_turnaround (h : t.Accounted) :
    t.turnaroundTime.toNat = t.finishTime.toNat - t.creationTime.toNat := by
  rw [h.turnaround, UInt32.toNat_sub_of_le]
  have := h.bound
  exact UInt32.le_iff_toNat_le.mpr (by omega)

theorem runTime_le (h : t.Accounted) : t.runTime ≤ t.turnaroundTime := by
  rw [UInt32.le_iff_toNat_le, h.toNat_turnaround]
  have := h.bound
  omega

theorem run_add_waiting (h : t.Accounted) :
    t.runTime.toNat + t.waitingTime.toNat = t.turnaroundTime.toNat := by
  rw [h.waiting, UInt32.toNat_sub_of_le _ _ h.runTime_le]
  have := UInt32.le_iff_toNat_le.mp h.runTime_le
  omega

end ProcTimes.Accounted

namespace ClockSystem

variable {s s' : ClockSystem} {mode : SchedMode} {p : Slot}

/-- No process has been charged for more ticks than there were since it was
created, where the last tick counts once `update_time` has visited it. -/
structure Charged (s : ClockSystem) : Prop where
  ticked : ∀ i, s.clock = .updateTime i → 1 ≤ s.proc.ticks.toNat
  charged : ∀ p, (s.proc.times p).creationTime.toNat +
    (s.proc.times p).runTime.toNat + s.due p ≤ s.proc.ticks.toNat
  zombie : ∀ p, s.proc.state p = .zombie → (s.proc.times p).Accounted

namespace Charged

theorem due_le (h : s.Charged) (p : Slot) : s.due p ≤ s.proc.ticks.toNat := by
  have := h.charged p
  omega

theorem keep (h : s.Charged) (hclock : s'.clock = s.clock) (hticks : s'.proc.ticks = s.proc.ticks)
    (hcharged : ∀ p, (s'.proc.times p).creationTime.toNat +
      (s'.proc.times p).runTime.toNat + s.due p ≤ s.proc.ticks.toNat)
    (hzombie : ∀ p, s'.proc.state p = .zombie → (s'.proc.times p).Accounted) : s'.Charged := by
  refine ⟨?_, ?_, hzombie⟩
  · rw [hclock, hticks]
    exact h.ticked
  · intro p
    have hdue : s'.due p = s.due p := by rw [due, due, hclock]
    rw [hticks, hdue]
    exact hcharged p

theorem act {c : ℕ} {a : ProcAction} {proc : ProcSystem} (h : s.Charged) (hsched : s.proc.Sched)
    (hvisit : s.CreatesAfterVisit (.proc (.act c a))) (hact : s.proc.act c a = some proc) :
    { s with proc := proc }.Charged := by
  obtain ⟨hticks, p, hcpu, htimes⟩ := act_times hact
  refine h.keep rfl hticks ?_ ?_
  · intro q
    cases htimes q with
    | same heq _ | finished _ heq =>
      rw [heq]
      exact h.charged q
    | created hok hpc hstate heq =>
      have hdue : s.due q = 0 := by
        cases a with
        | next ok =>
          obtain rfl : ok = true := hok
          simpa [CreatesAfterVisit, hcpu, hpc] using hvisit
        | _ => simp [ProcAction.ok] at hok
      rw [heq, hdue]
      simp [ProcTimes.zero]
    | freed heq _ =>
      rw [heq]
      simpa [ProcTimes.zero] using h.due_le q
  · intro q hq
    cases htimes q with
    | same heq hstate =>
      rw [heq]
      exact h.zombie q (hstate hq)
    | created hok hpc hstate heq =>
      have hused := hsched.forks.used p q (by rw [hpc]; rfl)
      rw [← hstate] at hused
      simp [hused] at hq
    | finished _ heq =>
      rw [heq]
      refine ProcTimes.accounted_finish ?_
      have := h.charged q
      omega
    | freed _ hstate => simp [hstate] at hq

theorem updateTime {i : ℕ} {hi : i < nproc} {proc : ProcSystem}
    (h : s.Charged) (hclock : s.clock = .updateTime i)
    (hstep : s.proc.step mode (.updateTime ⟨i, hi⟩) = some proc) :
    Charged ⟨proc, .updateTime (i + 1)⟩ := by
  have hdue : ∀ q : Slot, q ≠ ⟨i, hi⟩ → due ⟨proc, .updateTime (i + 1)⟩ q = s.due q := by
    intro q hq
    have hne : (q : ℕ) ≠ i := fun hqi => hq (Fin.ext hqi)
    simp only [due, hclock]
    congr 1
    exact propext (by omega)
  have hvisited : due ⟨proc, .updateTime (i + 1)⟩ ⟨i, hi⟩ = 0 := by
    simp [due]
  have hat : s.due ⟨i, hi⟩ = 1 := by simp [due, hclock]
  have hcharged := h.charged ⟨i, hi⟩
  have hlt := s.proc.ticks.toNat_lt
  rw [hat] at hcharged
  simp only [ProcSystem.step, ProcSystem.updateTime] at hstep
  split at hstep
  · split at hstep <;> simp only [Option.some.injEq] at hstep
    · rename_i hrun
      subst hstep
      refine ⟨fun _ _ => h.ticked i hclock, ?_, ?_⟩
      · intro q
        by_cases hq : q = ⟨i, hi⟩
        · rw [hq, hvisited]
          simp only [Function.update_self]
          rw [UInt32.toNat_add, UInt32.toNat_one, Nat.mod_eq_of_lt (by omega)]
          omega
        · simp only [Function.update_of_ne hq, hdue q hq]
          exact h.charged q
      · intro q hq
        have hne : q ≠ ⟨i, hi⟩ := by
          rintro rfl
          simp [hrun] at hq
        simp only [Function.update_of_ne hne]
        exact h.zombie q hq
    · subst hstep
      refine ⟨fun _ _ => h.ticked i hclock, ?_, h.zombie⟩
      intro q
      by_cases hq : q = ⟨i, hi⟩
      · rw [hq, hvisited]
        exact (Nat.le_succ _).trans hcharged
      · rw [hdue q hq]
        exact h.charged q
  · contradiction

theorem clockintr (h : s.Charged) (hfit : s.TicksFit .clockintr)
    (hstep : s.clockintr mode = some s') : s'.Charged := by
  unfold ClockSystem.clockintr at hstep
  cases hclock : s.clock with
  | idle =>
    simp only [hclock, ProcSystem.step, Option.some.injEq] at hstep
    have hlt := hfit hclock
    have hticks : (s.proc.ticks + 1).toNat = s.proc.ticks.toNat + 1 := by
      rw [UInt32.toNat_add, UInt32.toNat_one, Nat.mod_eq_of_lt hlt]
    subst hstep
    refine ⟨?_, ?_, h.zombie⟩
    · intro i _
      simp only [hticks]
      omega
    · intro p
      have := h.charged p
      simp only [due, hclock, Nat.zero_le, if_true, hticks] at this ⊢
      omega
  | updateTime i =>
    simp only [hclock] at hstep
    split at hstep
    · rename_i hi
      cases hproc : s.proc.step mode (.updateTime ⟨i, hi⟩) with
      | none => simp [hproc] at hstep
      | some proc =>
        rw [hproc] at hstep
        cases hstep
        exact h.updateTime hclock hproc
    · cases hstep
      refine ⟨by simp, ?_, h.zombie⟩
      intro p
      exact (Nat.le_add_right _ (s.due p)).trans (h.charged p)
  | wakeup i =>
    simp only [hclock] at hstep
    split at hstep
    · rename_i hi
      cases hproc : s.proc.step mode (.wakeup 0 ticksChan ⟨i, hi⟩) with
      | none => simp [hproc] at hstep
      | some proc =>
        simp only [hproc, Option.some.injEq] at hstep
        obtain ⟨hticks, htimes, hzombie⟩ := times_of_step hproc (by simp) (by simp) (by simp)
        subst hstep
        refine ⟨by simp, ?_, ?_⟩
        · intro p
          have := h.charged p
          simp only [due, htimes, hticks, hclock] at this ⊢
          exact this
        · intro p hp
          simp only [htimes]
          exact h.zombie p (hzombie p hp)
    · cases hstep
      refine ⟨by simp, ?_, h.zombie⟩
      intro p
      have := h.charged p
      simp only [due, hclock] at this ⊢
      exact this

theorem step {l : ClockLabel} (h : s.Charged) (hsched : s.proc.Sched)
    (hvisit : s.CreatesAfterVisit l) (hfit : s.TicksFit l)
    (hstep : s.step mode l = some s') : s'.Charged := by
  cases l with
  | clockintr => exact h.clockintr hfit hstep
  | proc l =>
    simp only [ClockSystem.step, Option.ite_none_left_eq_some] at hstep
    obtain ⟨hl, hstep⟩ := hstep
    cases hproc : s.proc.step mode l with
    | none => simp [hproc] at hstep
    | some proc =>
      rw [hproc] at hstep
      cases hstep
      by_cases hact : ∃ c a, l = .act c a
      · obtain ⟨c, a, rfl⟩ := hact
        exact h.act hsched hvisit hproc
      · obtain ⟨hticks, htimes, hzombie⟩ := times_of_step hproc (fun c a hl => hact ⟨c, a, hl⟩)
          (fun htick => hl (by rw [htick]; rfl)) (fun q hq => hl (by rw [hq]; rfl))
        refine h.keep rfl hticks ?_ ?_
        · simp only [htimes]
          exact h.charged
        · intro p hp
          simp only [htimes]
          exact h.zombie p (hzombie p hp)

end Charged

theorem proc_of_step {l : ProcLabel} (hstep : s.step mode (.proc l) = some s') :
    s.proc.step mode l = some s'.proc ∧ s'.clock = s.clock := by
  simp only [step, Option.ite_none_left_eq_some] at hstep
  obtain ⟨_, hstep⟩ := hstep
  split at hstep <;> cases hstep
  exact ⟨‹_›, rfl⟩

theorem proc_of_clockintr (hstep : s.step mode .clockintr = some s') : s'.proc = s.proc ∨
    ∃ k, s.proc.step mode k = some s'.proc ∧ (∀ c a, k ≠ .act c a) ∧ ∀ c, k ≠ .scheduler c := by
  simp only [step, clockintr] at hstep
  (repeat' split at hstep) <;>
    simp only [Option.some.injEq, reduceCtorEq] at hstep <;> rw [← hstep]
  case h_2.isFalse => exact Or.inl rfl
  case h_3.isFalse => exact Or.inl rfl
  all_goals exact Or.inr ⟨_, ‹_›, by simp, by simp⟩

theorem step_move {l : ClockLabel} (hstep : s.step mode l = some s') : ProcMove s.proc s'.proc := by
  cases l with
  | proc l => exact ProcSystem.step_move (proc_of_step hstep).1
  | clockintr =>
    rcases proc_of_clockintr hstep with heq | ⟨k, hk, _⟩
    · rw [heq]
      exact .stay
    · exact ProcSystem.step_move hk

theorem ticks_of_step {l : ProcLabel} (hstep : s.step mode (.proc l) = some s') :
    s'.proc.ticks = s.proc.ticks := by
  have hproc := (proc_of_step hstep).1
  simp only [step, Option.ite_none_left_eq_some] at hstep
  have hl := hstep.1
  by_cases hact : ∃ c a, l = .act c a
  · obtain ⟨c, a, rfl⟩ := hact
    exact (act_times hproc).1
  · exact (times_of_step hproc (fun c a hl => hact ⟨c, a, hl⟩)
      (fun htick => hl (by rw [htick]; rfl))
      (fun q hq => hl (by rw [hq]; rfl))).1

theorem ticks_of_clockintr (hstep : s.step mode .clockintr = some s') : s'.proc.ticks =
      if s.clock = .idle then s.proc.ticks + 1 else s.proc.ticks := by
  simp only [step, clockintr] at hstep
  cases hclock : s.clock with
  | idle =>
    rw [hclock, ProcSystem.step] at hstep
    cases hstep
    rfl
  | updateTime i =>
    simp only [hclock] at hstep
    split at hstep
    · split at hstep <;> simp only [Option.some.injEq, reduceCtorEq] at hstep
      rename_i proc hproc
      rw [← hstep]
      simp only [ProcSystem.step, ProcSystem.updateTime] at hproc
      (repeat' split at hproc) <;>
        simp only [Option.some.injEq, reduceCtorEq] at hproc <;>
        rw [← hproc] <;> rfl
    · cases hstep
      rfl
  | wakeup i =>
    simp only [hclock] at hstep
    split at hstep
    · split at hstep <;> cases hstep
      exact (times_of_step ‹_› (by simp) (by simp) (by simp)).1
    · cases hstep
      rfl

theorem charged_of_run {labels : List ClockLabel}
    (hrun : Machine.run (restrict
      (fun l s => s.CreatesAfterVisit l ∧ s.TicksFit l) (step mode)) labels
      clockInit = some s) : s.Charged := by
  have h : s.proc.Sched ∧ s.Charged := by
    refine run_invariant (I := fun s => s.proc.Sched ∧ s.Charged) ?_ ⟨userinit_sched, ?_⟩ hrun
    · rintro l s s' ⟨hsched, hcharged⟩ hstep
      obtain ⟨⟨hvisit, hfit⟩, hstep⟩ := Machine.restrict_eq_some.mp hstep
      exact ⟨hsched.move (step_move hstep), hcharged.step hsched hvisit hfit hstep⟩
    · refine ⟨by simp [clockInit], ?_, ?_⟩
      · intro p
        simp [clockInit, userinit, due, ProcTimes.zero]
      · intro p hp
        by_cases hq : p = initproc <;> simp [clockInit, userinit, hq] at hp
  exact h.2

end ClockSystem

/-- In every run with fewer than 2^32 ticks in which no process is created
between a tick and the visit of `update_time` to its slot, the times of a
process that has exited add up: `run_time` is at most `turnaround_time`, which
is `finish_time - creation_time`, and `waiting_time` is the rest. -/
theorem times_do_not_wrap (mode : SchedMode) (labels : List ClockLabel) (s : ClockSystem)
    (hrun : Machine.run (restrict (fun l s => s.CreatesAfterVisit l ∧ s.TicksFit l)
      (ClockSystem.step mode)) labels clockInit = some s)
    (p : Slot) (hp : s.proc.state p = .zombie) :
    let t := s.proc.times p
    t.turnaroundTime = t.finishTime - t.creationTime ∧ t.runTime ≤ t.finishTime - t.creationTime ∧
      t.waitingTime = t.turnaroundTime - t.runTime ∧
      t.runTime.toNat + t.waitingTime.toNat = t.turnaroundTime.toNat := by
  have h := (ClockSystem.charged_of_run hrun).zombie p hp
  exact ⟨h.turnaround, h.turnaround ▸ h.runTime_le, h.waiting, h.run_add_waiting⟩

/-- The first process runs on CPU 1 and has allocated slot 1. -/
def allocChild : List ClockLabel :=
  [.proc (.scheduler 1), .proc (.scheduler 1), .proc (.scheduler 1),
    .proc (.act 1 (.next true)), .proc (.act 1 .fork),
    .proc (.act 1 (.next true)), .proc (.act 1 (.next true))]

/-- `fork` goes on and CPU 2 runs the child. -/
def runChild : List ClockLabel :=
  List.replicate 4 (.proc (.act 1 (.next true))) ++
    List.replicate 4 (.proc (.scheduler 2)) ++ [.proc (.act 2 (.next true))]

/-- `update_time` visits slots 0 and 1, and the child exits. -/
def chargeAndExit : List ClockLabel :=
  [.clockintr, .clockintr, .proc (.act 2 (.exit 0))] ++
    List.replicate (2 * nproc + 3) (.proc (.act 2 (.next true)))

/-- The child is created before the tick. -/
theorem times_do_not_wrap_child :
    ∃ s, Machine.run (restrict (fun l s => s.CreatesAfterVisit l ∧ s.TicksFit l)
        (ClockSystem.step .roundRobin))
        (allocChild ++ runChild ++ [.clockintr] ++ chargeAndExit) clockInit = some s ∧
      (s.proc.times 1).runTime = 1 ∧
      (s.proc.times 1).runTime.toNat + (s.proc.times 1).waitingTime.toNat =
        (s.proc.times 1).turnaroundTime.toNat := by
  refine exists_run (P := fun s => decide (s.proc.state 1 = .zombie ∧ (s.proc.times 1).runTime = 1))
    (by decide +kernel) ?_
  intro s hrun hs
  obtain ⟨hzombie, hcharged⟩ := of_decide_eq_true hs
  exact ⟨hcharged, (times_do_not_wrap _ _ s hrun 1 hzombie).2.2.2⟩

/-- The child is created after the tick and charged for it: it exits with
`turnaround_time` 0 and `run_time` 1. -/
theorem waiting_time_wraps :
    ∃ s, Machine.run (restrict (fun l s => s.TicksFit l) (ClockSystem.step .roundRobin))
        (allocChild ++ [.clockintr] ++ runChild ++ chargeAndExit) clockInit = some s ∧
      s.proc.state 1 = .zombie ∧ (s.proc.times 1).runTime = 1 ∧
      (s.proc.times 1).turnaroundTime = 0 ∧
      (s.proc.times 1).waitingTime = 4294967295 := by
  exact exists_run_decide (by decide +kernel)

end Xv6
