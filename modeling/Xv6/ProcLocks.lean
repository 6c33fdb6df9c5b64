import Xv6.ExitedChild

/-!
# What the locks of the process table protect

While a CPU has `p->lock`, no other changes the fields of the slot, and while a
process has `wait_lock`, no other changes a `parent`; a slot that `fork` is
filling belongs to this `fork`.
-/

namespace Xv6.ProcSystem

variable {s s' : ProcSystem} {c : ℕ} {p q : Slot}

/-- The fields of a slot that its lock protects. -/
def guarded (s : ProcSystem) (q : Slot) := (s.state q, s.chan q, s.killed q, s.xstate q, s.pid q)

theorem ne_of_child {np : Slot} (hchild : ∀ p, (s.pc p).child ≠ some q)
    (hpc : s.pc p = .forkAlloc np ∨ s.pc p = .forkCopy np) : q ≠ np := by
  rintro rfl
  rcases hpc with hpc | hpc <;> exact hchild p (by rw [hpc]; rfl)

section

variable (hmove : ProcMove s s') (hchild : ∀ p, (s.pc p).child ≠ some q)
include hmove hchild

theorem Sched.guarded_eq (h : s.Sched) (hlock : s.lock q = some c) (hrun : s.cpu c ≠ .run q) :
    s'.guarded q = s.guarded q := by
  obtain ⟨on, hseated⟩ := h.seated
  have hfree {r : Slot} (hr : s.lock r = none) : q ≠ r := by
    rintro rfl
    simp [hlock] at hr
  have hown {c' : ℕ} {r : Slot} (hr : s.cpu c' = .run r) (hthread : s.thread r ≠ .running) :
      q ≠ r := by
    rintro rfl
    have heq := hseated.lock_eq hr hthread
    rw [hlock, Option.some.injEq] at heq
    exact hrun (heq ▸ hr)
  cases hmove with
  | wakeup hr | dispatch _ hr | killWake _ _ hr | killMark _ _ hr | allocproc _ _ hr
  | forkRunnable _ _ hr | wakeInit _ _ hr | wakeParent _ _ hr | exitZombie _ _ hr
  | waitReap _ _ _ hr =>
    have hne := hfree hr
    simp [guarded, goto, forkRunnable, exitZombie, waitReap, waitReturn, freeproc, hne]
  | yield hr | setkilled hr =>
    have hne := hfree (hseated.running hr).2
    simp [guarded, yield, hne]
  | sleep hr hthread =>
    have hne := hown hr (by simp [hthread])
    simp [guarded, sleep, hne]
  | resume hr hthread =>
    have hne := hown hr (by simp [hthread])
    simp only [guarded, resume, goto]
    split <;> simp [hne]
  | forkFail _ hpc =>
    have hne := ne_of_child hchild hpc
    simp [guarded, forkFail, freeproc, goto, hne]
  | _ => rfl

theorem WaitHeld.parent_eq (h : s.WaitHeld) (hwait : s.waitLock = some p)
    (hparent : s.parent q ≠ some p) : s'.parent q = s.parent q := by
  -- the parent that changes the slot `r` has `wait_lock`
  have hown {p' r : Slot} (hr : s.parent r = some p')
      (hpc : (s.pc p').holdsWaitLock (s.thread p') = true) : q ≠ r := by
    rintro rfl
    rw [← h p', hwait, Option.some.injEq] at hpc
    exact hparent (hpc ▸ hr)
  cases hmove with
  | reparent _ hpc hr | waitReap _ hpc hr =>
    have hne := hown hr (by rw [hpc]; rfl)
    simp [waitReap, waitReturn, freeproc, ProcSystem.goto, hne]
  | forkParent _ _ hnone =>
    rw [hwait] at hnone
    cases hnone
  | forkFail _ hpc =>
    have hne := ne_of_child hchild hpc
    simp [forkFail, freeproc, ProcSystem.goto, hne]
  | _ => rfl

end

theorem locks_protect (mode : SchedMode) (labels : List ProcLabel) (l : ProcLabel)
    (hrun : Machine.run (step mode) labels userinit = some s) (hstep : s.step mode l = some s')
    (hchild : ∀ p, (s.pc p).child ≠ some q) :
    (∀ c, s.lock q = some c → s.cpu c ≠ .run q → s'.guarded q = s.guarded q) ∧
      ∀ p, s.waitLock = some p → s.parent q ≠ some p → s'.parent q = s.parent q := by
  have hmove := step_move hstep
  exact ⟨fun c => (sched_of_run hrun).guarded_eq hmove hchild,
    fun p => (watched_of_run hrun).1.parent_eq hmove hchild⟩

/-- A CPU has locked the first process and is about to switch to it. -/
theorem locks_protect_dispatched : ∃ s s',
      Machine.run (step .roundRobin) [.scheduler 0, .scheduler 0] userinit = some s ∧
      s.step .roundRobin (.scheduler 0) = some s' ∧
      s.lock initproc = some 0 ∧ s'.guarded initproc = s.guarded initproc := by
  refine ⟨_, _, rfl, rfl, rfl, ?_⟩
  exact (locks_protect .roundRobin [.scheduler 0, .scheduler 0] (.scheduler 0) rfl rfl
    (by decide)).1 0 rfl (by decide)

end Xv6.ProcSystem
