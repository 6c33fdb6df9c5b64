import Xv6.Clock

/-!
# What `getprocinfo` reports

The times of a process that has exited are those that `exit` has computed, for
as long as its parent does not ask for them.  `getprocinfo` copies them, but
for `creation_time`, which it takes from `ticks`.
-/

namespace Xv6

open ProcSystem

namespace ClockSystem

variable {s s' : ClockSystem} {mode : SchedMode} {q : Slot}

theorem times_of_zombie {l : ClockLabel} (hsched : s.proc.Sched) (hstep : s.step mode l = some s')
    (hq : s'.proc.state q = .zombie) : s.proc.state q = .zombie ∧ s'.proc.times q = s.proc.times q ∨
    (∃ status, s.proc.pc q = .exitLock status) ∧
    s'.proc.times q = (s.proc.times q).finish s.proc.ticks := by
  cases l with
  | proc l =>
    have hproc := (proc_of_step hstep).1
    by_cases hact : ∃ c a, l = .act c a
    · obtain ⟨c, a, rfl⟩ := hact
      obtain ⟨-, p, -, htimes⟩ := act_times hproc
      cases htimes q with
      | same heq hstate => exact Or.inl ⟨hstate hq, heq⟩
      | created hok hpc hstate heq =>
        have hused := hsched.forks.used p q (by rw [hpc]; rfl)
        rw [← hstate] at hused
        simp [hused] at hq
      | finished hexit heq => exact Or.inr ⟨hexit, heq⟩
      | freed _ hstate => simp [hstate] at hq
    · simp only [step, Option.ite_none_left_eq_some] at hstep
      have hl := hstep.1
      obtain ⟨-, htimes, hzombie⟩ := times_of_step hproc (fun c a hca => hact ⟨c, a, hca⟩)
        (by rintro rfl; exact hl rfl) (by rintro q rfl; exact hl rfl)
      exact Or.inl ⟨hzombie q hq, by rw [htimes]⟩
  | clockintr =>
    left
    rcases proc_of_clockintr hstep with heq | ⟨k, hk, hact, -⟩
    · rw [heq] at hq ⊢
      exact ⟨hq, rfl⟩
    · cases k with
      | act c a => exact absurd rfl (hact c a)
      | tick =>
        simp only [ProcSystem.step, Option.some.injEq] at hk
        rw [← hk] at hq ⊢
        exact ⟨hq, rfl⟩
      | updateTime r =>
        simp only [ProcSystem.step, ProcSystem.updateTime, Option.ite_none_right_eq_some] at hk
        obtain ⟨-, hk⟩ := hk
        split at hk <;> simp only [Option.some.injEq] at hk <;>
          rw [← hk] at hq ⊢
        · rename_i hrunning
          have hne : q ≠ r := by
            rintro rfl
            rw [hrunning] at hq
            cases hq
          exact ⟨hq, Function.update_of_ne hne _ _⟩
        · exact ⟨hq, rfl⟩
      | scheduler c | wakeup c n r =>
        obtain ⟨-, htimes, hzombie⟩ := times_of_step hk (by simp) (by simp) (by simp)
        exact ⟨hzombie q hq, by rw [htimes]⟩

theorem exit_of_run {labels : List ClockLabel}
    (hrun : Machine.run (step mode) labels clockInit = some s) (hq : s.proc.state q = .zombie) :
    ∃ before after s1, labels = before ++ after ∧ Machine.run (step mode) before clockInit = some
    s1 ∧ Machine.run (step mode) after s1 = some s ∧ ((∃ status, s1.proc.pc q = .exitLock status) ∧
    s.proc.times q = (s1.proc.times q).finish s1.proc.ticks) ∧ ∀ mid rest s2, after = mid ++ rest →
    mid ≠ [] → Machine.run (step mode) mid s1 = some s2 → s2.proc.state q = .zombie := by
  refine Machine.run_since (I := fun s => s.proc.Sched) (Z := fun s => s.proc.state q = .zombie)
    (v := fun s => s.proc.times q) (e := fun s t => (∃ status, s.proc.pc q = .exitLock status) ∧
    t = (s.proc.times q).finish s.proc.ticks) ?_ userinit_sched ?_ hrun hq
  · intro l s s' hsched hstep
    exact ⟨hsched.move (step_move hstep), fun hq => times_of_zombie hsched hstep hq⟩
  · intro hq
    by_cases h : q = initproc <;> simp [clockInit, userinit, h] at hq

/-- CPU `c` runs the parent `p`, which is in `getprocinfo` and finds that `q`
has exited. -/
structure Reaps (s : ClockSystem) (c : ℕ) (p q : Slot) (addr : UInt64) : Prop where
  runs : s.proc.Runs c p
  pc : ∃ havekids, s.proc.pc p = .waitScan .getprocinfo addr havekids q
  parent : s.proc.parent q = some p
  lock : s.proc.lock q = none
  zombie : s.proc.state q = .zombie

theorem Reaps.step {c : ℕ} {p : Slot} {addr : UInt64} (h : s.Reaps c p q addr) (mode : SchedMode)
    (haddr : addr ≠ 0) : ∃ s', s.step mode (.proc (.act c (.next true))) = some s' ∧ s'.proc.report
    p = some (.schedStat (s.proc.pid q) { s.proc.times q with creationTime := s.proc.ticks }) := by
  obtain ⟨havekids, hpc⟩ := h.pc
  refine ⟨{ s with proc := s.proc.waitReap p q .getprocinfo addr }, ?_, ?_⟩
  · simp [ClockSystem.step, ProcLabel.ofClock, ProcSystem.step, ProcSystem.act,
      h.runs.1, h.runs.2, actRunning, actNext, hpc, waitScan, h.parent, h.lock, h.zombie]
  · simp [waitReap, haddr, waitData]

end ClockSystem

/-- When `getprocinfo` finds an exited child in the tick in which that was
created, it reports the times that the child has had since its `exit`, however
long ago that was. -/
theorem getprocinfo_reports_life (mode : SchedMode) (labels : List ClockLabel) (s : ClockSystem)
    (hrun : Machine.run (ClockSystem.step mode) labels clockInit = some s)
    (c : ℕ) (p q : Slot) (addr : UInt64) (haddr : addr ≠ 0)
    (hreaps : s.Reaps c p q addr)
    (hticks : s.proc.ticks = (s.proc.times q).creationTime) :
    ∃ s' t, s.step mode (.proc (.act c (.next true))) = some s' ∧
      s'.proc.report p = some (.schedStat (s.proc.pid q) t) ∧
      t = s.proc.times q ∧
      t.finishTime - t.creationTime = t.turnaroundTime ∧
      t.turnaroundTime - t.runTime = t.waitingTime ∧
      ∃ before after s₁, labels = before ++ after ∧
        Machine.run (ClockSystem.step mode) before clockInit = some s₁ ∧
        (∃ status, s₁.proc.pc q = .exitLock status) ∧
        t = (s₁.proc.times q).finish s₁.proc.ticks ∧
        ∀ mid rest s₂, after = mid ++ rest → mid ≠ [] →
          Machine.run (ClockSystem.step mode) mid s₁ = some s₂ →
          s₂.proc.state q = .zombie := by
  obtain ⟨s', hstep, hreport⟩ := hreaps.step mode haddr
  obtain ⟨before, after, s₁, hlabels, hbefore, -, ⟨hexit, htimes⟩, hsince⟩ :=
    ClockSystem.exit_of_run hrun hreaps.zombie
  rw [hticks] at hreport
  refine ⟨s', s.proc.times q, hstep, hreport, rfl, ?_, ?_, before, after, s₁,
    hlabels, hbefore, hexit, htimes, hsince⟩
  · rw [htimes]
    rfl
  · rw [htimes]
    rfl

def exitChild : List ClockLabel := [.proc (.act 2 (.exit 0))] ++
    List.replicate (2 * nproc + 5) (.proc (.act 2 (.next true))) ++
    [.proc (.scheduler 2)]

/-- The parent calls `getprocinfo` and comes to the slot of the child. -/
def askForChild : List ClockLabel :=
  [.proc (.act 1 (.wait .getprocinfo 4096)), .proc (.act 1 (.next true)),
    .proc (.act 1 (.next true))]

instance (s : ClockSystem) (c : ℕ) (p q : Slot) (addr : UInt64) :
    Decidable (s.proc.Runs c p ∧ s.proc.pc p = .waitScan .getprocinfo addr false q ∧
      s.proc.parent q = some p ∧ s.proc.lock q = none ∧
      s.proc.state q = .zombie) := by
  unfold Runs
  infer_instance

theorem getprocinfo_reports_life_atOnce : ∃ s s' t, Machine.run (ClockSystem.step .roundRobin)
        (allocChild ++ runChild ++ exitChild ++ askForChild) clockInit = some s ∧
      s.step .roundRobin (.proc (.act 1 (.next true))) = some s' ∧
      s'.proc.report 0 = some (.schedStat 2 t) ∧
      t.finishTime - t.creationTime = t.turnaroundTime := by
  obtain ⟨s, hrun, ⟨hruns, hpc, hparent, hlock, hzombie⟩, hpid, hticks⟩ :=
    Machine.exists_run_decide (show (Machine.run (ClockSystem.step .roundRobin)
      (allocChild ++ runChild ++ exitChild ++ askForChild) clockInit).any
      (fun s => decide ((s.proc.Runs 1 0 ∧
        s.proc.pc 0 = .waitScan .getprocinfo 4096 false (1 : Slot) ∧
        s.proc.parent 1 = some 0 ∧ s.proc.lock 1 = none ∧
        s.proc.state 1 = .zombie) ∧ s.proc.pid 1 = 2 ∧
        s.proc.ticks = (s.proc.times 1).creationTime)) = true
      by decide +kernel)
  obtain ⟨s', t, hstep, hreport, -, hsum, -⟩ := getprocinfo_reports_life
    .roundRobin _ s hrun 1 0 1 4096 (by decide)
    ⟨hruns, ⟨false, hpc⟩, hparent, hlock, hzombie⟩ hticks
  rw [hpid] at hreport
  exact ⟨s, s', t, hrun, hstep, hreport, hsum⟩

/-- The clock ticks once between `exit` and `getprocinfo`: the child was
created, ran and exited at time 0, and is reported to be created at time 1. -/
theorem creation_time_is_ticks : ∃ s, Machine.run (ClockSystem.step .roundRobin)
        (allocChild ++ runChild ++ exitChild ++
          List.replicate (2 * nproc + 3) .clockintr ++ askForChild ++
          [.proc (.act 1 (.next true))]) clockInit = some s ∧
      s.proc.report 0 = some (.schedStat 2 ⟨1, 0, 0, 0, 0⟩) := by
  exact Machine.exists_run_decide (by decide +kernel)

end Xv6
