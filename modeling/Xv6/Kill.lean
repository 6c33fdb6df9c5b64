import Xv6.ExclusiveExecution

/-!
# `kill`

`kill` looks for the first slot that has the given pid and does not look at its
state.  A slot that is not in use has pid 0, so that `kill(0)` marks such a slot
and reports success; `allocproc` does not clear the mark, and the next process
in this slot is killed at once.  Every other pid is that of a process, and as
long as nobody calls `kill(0)` a new process is not marked.
-/

namespace Xv6

open Function (update update_of_ne update_self)
open Machine

/-- The thread has called `kill(0)`. -/
def ProcPc.killsZero : ProcPc → Bool
  | .killScan pid _ => pid = 0
  | _ => false

namespace ProcSystem

def NoKillZero (s : ProcSystem) : Prop := ∀ p, (s.pc p).killsZero = false

instance (s : ProcSystem) : Decidable s.NoKillZero := inferInstanceAs (Decidable (∀ _, _))

variable {s s' t : ProcSystem} {c : ℕ} {p q np : Slot} {pid : Int32} {i : ℕ} {k : ProcPc}

/-! ## One call -/

theorem Runs.goto (h : s.Runs c p) : (s.goto p k).Runs c p := h

/-- `kill` has found the slot `q`. -/
def markKilled (q : Slot) (s : ProcSystem) : ProcSystem :=
  { s with
    killed := update s.killed q true
    state := if s.state q = .sleeping then update s.state q .runnable
      else s.state }

theorem forkAlloc_of_afterSleep (h : k.afterSleep = .forkAlloc np) : k = .forkAlloc np := by
  cases k <;> simp_all [ProcPc.afterSleep]

theorem markKilled_goto : (s.goto p k).markKilled q = (s.markKilled q).goto p k := rfl

variable {mode : SchedMode}

theorem kill_step {ok : Bool} (hrun : s.Runs c p) (hpc : s.pc p = .killScan pid i)
    (hstep : s.step mode (.act c (.next ok)) = some t) : (i < nproc ∧
    t = s.goto p (.killScan pid (i + 1))) ∨ (nproc ≤ i ∧ t = s.goto p (.user (some (-1)))) ∨
    ∃ q : Slot, q = i ∧ s.pid q = pid ∧ t = (s.markKilled q).goto p (.user (some 0)) := by
  simp only [step, act, hrun.1, hrun.2, actRunning, actNext, hpc, kill] at hstep
  split at hstep
  · rename_i hi
    split at hstep
    · split at hstep
      · rename_i hpid
        simp only [Option.some.injEq] at hstep
        exact Or.inr (Or.inr ⟨⟨i, hi⟩, rfl, hpid, hstep.symm⟩)
      · simp only [Option.some.injEq] at hstep
        exact Or.inl ⟨hi, hstep.symm⟩
    · contradiction
  · simp only [Option.some.injEq] at hstep
    exact Or.inr (Or.inl ⟨by omega, hstep.symm⟩)

theorem call_returned {oks : List Bool} {ret : Option Int32} (hrun : s.Runs c p)
    (hpc : s.pc p = .user ret)
    (hcall : Machine.run (fun ok s => s.step mode (.act c (.next ok))) oks s = some t) : t = s := by
  cases oks with
  | nil =>
    simp only [run_nil, Option.some.injEq] at hcall
    exact hcall.symm
  | cons ok rest =>
    obtain ⟨u, hu, _⟩ := Machine.run_cons_eq_some.mp hcall
    simp [step, act, hrun.1, hrun.2, actRunning, actNext, hpc] at hu

theorem kill_call
    {oks : List Bool} {ret : Option Int32} (hrun : s.Runs c p) (hpc : s.pc p = .killScan pid i)
    (hcall : Machine.run (fun ok s => s.step mode (.act c (.next ok))) oks s = some t)
    (hret : t.pc p = .user ret) : (ret = some (-1) ∧ t = s.goto p (.user ret)) ∨
    (ret = some 0 ∧ ∃ q, s.pid q = pid ∧ t = (s.markKilled q).goto p (.user ret)) := by
  induction oks generalizing s i with
  | nil =>
    simp only [run_nil, Option.some.injEq] at hcall
    rw [← hcall, hpc] at hret
    contradiction
  | cons ok rest ih =>
    obtain ⟨u, hu, hrest⟩ := Machine.run_cons_eq_some.mp hcall
    rcases kill_step hrun hpc hu with ⟨_, rfl⟩ | ⟨_, rfl⟩ | ⟨q, _, hq, rfl⟩
    · -- in the loop nothing but the place of the thread changes
      have hpc' : (s.goto p (.killScan pid (i + 1))).pc p = .killScan pid (i + 1) := by simp [goto]
      rcases ih hrun.goto hpc' hrest with ⟨hr, ht⟩ | ⟨hr, q, hq, ht⟩
      · exact Or.inl ⟨hr, by rw [ht, goto_goto]⟩
      · refine Or.inr ⟨hr, q, hq, ?_⟩
        rw [ht, markKilled_goto, goto_goto]
    · have hpc' : (s.goto p (.user (some (-1)))).pc p = .user (some (-1)) := by
        simp [goto]
      have ht := call_returned hrun.goto hpc' hrest
      rw [ht, hpc', ProcPc.user.injEq] at hret
      exact Or.inl ⟨hret.symm, by rw [ht, hret]⟩
    · have hpc' : ((s.markKilled q).goto p (.user (some 0))).pc p = .user (some 0) := by simp [goto]
      have hrun' : ((s.markKilled q).goto p (.user (some 0))).Runs c p := hrun
      have ht := call_returned hrun' hpc' hrest
      rw [ht, hpc', ProcPc.user.injEq] at hret
      exact Or.inr ⟨hret.symm, q, hq, by rw [ht, hret]⟩

/-! ## Slots that are not in use -/

/-- Slots that are not in use have pid 0 and no mark, and `allocproc` has the
lock of its slot. -/
structure Marks (s : ProcSystem) : Prop where
  pid : ∀ q, s.state q = .unused → s.pid q = 0
  unused : ∀ q, s.state q = .unused → s.killed q = false
  locked : ∀ p np, s.pc p = .forkAlloc np → s.lock np ≠ none
  fresh : ∀ p np, s.pc p = .forkAlloc np → s.killed np = false

namespace Marks

section

variable (h : s.Marks)
include h

theorem keep (hunused : ∀ q, s'.state q = .unused → s.state q = .unused ∧ s'.pid q = s.pid q ∧
    s'.killed q = s.killed q) (halloc : ∀ p np, s'.pc p = .forkAlloc np → s.pc p = .forkAlloc np ∧
    (s.lock np ≠ none → s'.lock np ≠ none) ∧ s'.killed np = s.killed np) : s'.Marks := by
  refine ⟨?_, ?_, ?_, ?_⟩
  · intro q hq
    obtain ⟨hs, hp, _⟩ := hunused q hq
    rw [hp]
    exact h.pid q hs
  · intro q hq
    obtain ⟨hs, _, hk⟩ := hunused q hq
    rw [hk]
    exact h.unused q hs
  · intro p np hp
    obtain ⟨hp', hl, _⟩ := halloc p np hp
    exact hl (h.locked p np hp')
  · intro p np hp
    obtain ⟨hp', _, hk⟩ := halloc p np hp
    rw [hk]
    exact h.fresh p np hp'

theorem same (hstate : s'.state = s.state) (hpid : s'.pid = s.pid) (hkilled : s'.killed = s.killed)
    (hlock : s'.lock = s.lock) (hpc : s'.pc = s.pc) : s'.Marks := by
  apply h.keep
  · intro q hq
    rw [hstate] at hq
    rw [hpid, hkilled]
    exact ⟨hq, rfl, rfl⟩
  · intro p np hp
    rw [hpc] at hp
    rw [hlock, hkilled]
    exact ⟨hp, id, rfl⟩

theorem goto (hk : ∀ np, k ≠ .forkAlloc np) : (s.goto p k).Marks := by
  apply h.keep
  · intro q hq
    exact ⟨hq, rfl, rfl⟩
  · intro q np hq
    by_cases hqp : q = p
    · subst hqp
      simp only [ProcSystem.goto, update_self] at hq
      exact absurd hq (hk np)
    · simp only [ProcSystem.goto, update_of_ne hqp] at hq
      exact ⟨hq, id, rfl⟩

theorem change (hforks : s.Forks) (hq : s.state q ≠ .used) (hstate : s'.state q ≠ .unused)
    (hrest : ∀ r, r ≠ q → s'.state r = s.state r ∧ s'.lock r = s.lock r) (hpid : s'.pid = s.pid)
    (hkilled : s'.killed = s.killed) (hpc : s'.pc = s.pc) : s'.Marks := by
  apply h.keep
  · intro r hr
    have hrq : r ≠ q := by
      rintro rfl
      exact hstate hr
    rw [(hrest r hrq).1] at hr
    rw [hpid, hkilled]
    exact ⟨hr, rfl, rfl⟩
  · intro p np hp
    rw [hpc] at hp
    have hnp : np ≠ q := hforks.child_ne (p := p) (by rw [hp]; rfl) hq
    rw [(hrest np hnp).2, hkilled]
    exact ⟨hp, id, rfl⟩

theorem mark (hq : s.state q ≠ .unused) (halloc : ∀ p, s.pc p ≠ .forkAlloc q) :
    ({ s with killed := update s.killed q true } : ProcSystem).Marks := by
  apply h.keep
  · intro r hr
    have hrq : r ≠ q := by
      rintro rfl
      exact hq hr
    exact ⟨hr, rfl, update_of_ne hrq _ _⟩
  · intro p np hp
    have hnp : np ≠ q := by
      rintro rfl
      exact halloc p hp
    exact ⟨hp, id, update_of_ne hnp _ _⟩

theorem kill (hlock : s.lock q = none) (hq : s.pid q ≠ 0) :
    ({ s with killed := update s.killed q true } : ProcSystem).Marks := by
  apply h.mark
  · intro hst
    exact hq (h.pid q hst)
  · intro p hp
    exact h.locked p q hp hlock

theorem unlock (halloc : ∀ p, s.pc p ≠ .forkAlloc q) :
    ({ s with lock := update s.lock q none } : ProcSystem).Marks := by
  apply h.keep
  · intro r hr
    exact ⟨hr, rfl, rfl⟩
  · intro p np hp
    have hnp : np ≠ q := by
      rintro rfl
      exact halloc p hp
    exact ⟨hp, by simp [hnp], rfl⟩

theorem freeproc : (s.freeproc q).Marks := by
  refine ⟨?_, ?_, h.locked, ?_⟩
  · intro r hr
    by_cases hrq : r = q
    · simp [ProcSystem.freeproc, hrq]
    · simp only [ProcSystem.freeproc, update_of_ne hrq] at hr ⊢
      exact h.pid r hr
  · intro r hr
    by_cases hrq : r = q
    · simp [ProcSystem.freeproc, hrq]
    · simp only [ProcSystem.freeproc, update_of_ne hrq] at hr ⊢
      exact h.unused r hr
  · intro p np hp
    by_cases hnp : np = q
    · simp [ProcSystem.freeproc, hnp]
    · simp only [ProcSystem.freeproc, update_of_ne hnp]
      exact h.fresh p np hp

theorem move (hsched : s.Sched) (hzero : s.NoKillZero) (hmove : ProcMove s s') : s'.Marks := by
  obtain ⟨on, hseated⟩ := hsched.seated
  have hforks := hsched.forks
  have hrunning : ∀ {c p}, s.Runs c p → s.state p = .running := fun hrun => (hseated.running hrun).1
  -- the pid of a call of `kill` is not 0
  have hpid : ∀ {p q}, (∃ i, s.pc p = .killScan (s.pid q) i) → s.pid q ≠ 0 := by
    rintro p q ⟨i, hpc⟩ hq
    have := hzero p
    rw [hpc, hq] at this
    simp [ProcPc.killsZero] at this
  have hlocked : ∀ {p}, s.thread p = .locked → s.state p ≠ .used ∧ s.state p ≠ .unused := by
    intro p hthread
    have hseat := hseated.seat p
    rw [hthread] at hseat
    rcases hseat.of_locked with hst | hst <;> simp [hst]
  cases hmove with
  | stay => exact h
  | clock | scan | switchTo | sched => exact h.same rfl rfl rfl rfl rfl
  | wakeup hlock hstate | dispatch hcpu hlock hstate =>
    exact h.change hforks (q := _) (by rw [hstate]; decide) (by simp)
      (fun r hr => by simp [hr]) rfl rfl rfl
  | @retire c p hcpu =>
    have hseat := hseated.seat p
    rw [hseated.on_eq (c := c) (by rw [hcpu]; rfl)] at hseat
    have hleft := (hseat.of_after hcpu).1
    refine h.change hforks (q := p) ?_ ?_ (fun r hr => by simp [hr]) rfl rfl
      rfl <;> (rcases hleft with hst | hst | hst <;> simp [hst])
  | @resume c p hcpu hthread =>
    have hseat := hseated.seat p
    rw [hthread] at hseat
    have hst := hseat.of_resumed
    refine h.keep (fun q hq => ⟨hq, rfl, rfl⟩) ?_
    intro q np hq
    have hq' : s.pc q = .forkAlloc np := by
      by_cases hqp : q = p
      · subst hqp
        simp only [resume, ProcSystem.goto, update_self] at hq
        exact forkAlloc_of_afterSleep hq
      · simpa only [resume, ProcSystem.goto, update_of_ne hqp] using hq
    have hnp : np ≠ p := hforks.child_ne (p := q) (by rw [hq']; rfl) (by rw [hst]; decide)
    exact ⟨hq', by simp [resume, ProcSystem.goto, hnp], rfl⟩
  | @sleep c p chan hcpu hthread hpc =>
    exact h.change hforks (q := p) (hlocked hthread).1 (by simp [sleep])
      (fun r hr => by simp [sleep, hr]) rfl rfl rfl
  | exitUnlock | @allocprocContext c p np hrun hpc | forkParent |
      exit | reparent | waitStart | waitReturn =>
    exact Marks.goto (h.same rfl rfl rfl rfl rfl) (by simp)
  | yield hrun hpc =>
    exact h.change hforks (q := _) (by rw [hrunning hrun]; decide)
      (by simp [yield]) (fun r hr => by simp [yield, hr]) rfl rfl rfl
  | @sleepLock c p n hrun hpc =>
    refine Marks.goto (h.change hforks (q := p) ?_ ?_
      (fun r hr => by simp [hr]) rfl rfl rfl) (by simp)
    · rw [hrunning hrun]
      decide
    · simp [hrunning hrun]
  | plain hrun hpc hk =>
    apply h.goto
    rintro np rfl
    contradiction
  | @setkilled c p hrun =>
    apply h.mark
    · rw [hrunning hrun]
      decide
    · intro q hq
      exact hforks.child_ne (p := q) (by rw [hq]; rfl) (by rw [hrunning hrun]; decide) rfl
  | killWake hrun hpc hlock hstate hkill =>
    exact Marks.goto ((h.kill hlock (hpid hkill)).change
      ⟨hforks.used, hforks.unique, hforks.saved⟩ (q := _)
      (by rw [hstate]; decide) (by simp) (fun r hr => by simp [hr]) rfl rfl
      rfl) (by simp)
  | killMark hrun hpc hlock hkill =>
    exact Marks.goto (h.kill hlock (hpid hkill)) (by simp)
  | @allocproc c p np hrun hpc hlock hstate =>
    have hnone : ∀ q, s.pc q ≠ .forkAlloc np := by
      intro q hq
      exact h.locked q np hq hlock
    have hother : ∀ r, update s.state np .used r = .unused → r ≠ np ∧ s.state r = .unused := by
      intro r hr
      have hrn : r ≠ np := by
        rintro rfl
        simp at hr
      rw [update_of_ne hrn] at hr
      exact ⟨hrn, hr⟩
    have halloc : ∀ q n, update s.pc p (.forkAlloc np) q =
        .forkAlloc n → n = np ∨ n ≠ np ∧ s.pc q = .forkAlloc n := by
      intro q n hq
      by_cases hqp : q = p
      · rw [hqp, update_self, ProcPc.forkAlloc.injEq] at hq
        exact Or.inl hq.symm
      · rw [update_of_ne hqp] at hq
        refine Or.inr ⟨?_, hq⟩
        rintro rfl
        exact hnone q hq
    refine ⟨?_, ?_, ?_, ?_⟩
    · intro r hr
      obtain ⟨hrn, hr'⟩ := hother r hr
      simpa [ProcSystem.goto, hrn] using h.pid r hr'
    · intro r hr
      exact h.unused r (hother r hr).2
    · intro q n hq
      rcases halloc q n hq with rfl | ⟨hn, hq'⟩
      · simp [ProcSystem.goto]
      · simpa [ProcSystem.goto, hn] using h.locked q n hq'
    · intro q n hq
      rcases halloc q n hq with rfl | ⟨hn, hq'⟩
      · exact h.unused n hstate
      · exact h.fresh q n hq'
  | @forkFail c p np hrun hpc =>
    have hchild : (s.pc p).child = some np := by
      rcases hpc with hpc | hpc <;> rw [hpc] <;> rfl
    have hgoto : (s.goto p (.user (some (-1)))).Marks := h.goto (by simp)
    have hnone : ∀ q, (s.goto p (.user (some (-1)))).pc q ≠ .forkAlloc np := by
      intro q hq
      by_cases hqp : q = p
      · simp [ProcSystem.goto, hqp] at hq
      · simp only [ProcSystem.goto, update_of_ne hqp] at hq
        exact hforks.only hchild hqp (by rw [hq]; rfl)
    exact Marks.unlock hgoto.freeproc hnone
  | @forkCopied c p np hrun hpc =>
    have hchild : (s.pc p).child = some np := by rw [hpc]; rfl
    have hnone : ∀ q, s.pc q ≠ .forkAlloc np := by
      intro q hq
      by_cases hqp : q = p
      · rw [hqp, hpc] at hq
        contradiction
      · exact hforks.only hchild hqp (by rw [hq]; rfl)
    exact Marks.goto (Marks.goto (h.unlock hnone) (by simp)) (by simp)
  | @forkRunnable c p np pid hrun hpc hlock =>
    have hpublish : ({ s with
        state := update s.state np .runnable } : ProcSystem).Marks := by
      apply h.keep
      · intro r hr
        have hrn : r ≠ np := by
          rintro rfl
          simp at hr
        simp only [update_of_ne hrn] at hr
        exact ⟨hr, rfl, rfl⟩
      · intro q n hq
        exact ⟨hq, id, rfl⟩
    exact Marks.goto hpublish (by simp)
  | reparentSkip | reparentEnd | wakeInitSkip | wakeInitEnd | wakeParentSkip |
      wakeParentEnd | waitSkip | waitEnd => exact h.goto (by simp)
  | wakeInit hrun hpc hlock hstate | wakeParent hrun hpc hlock hstate =>
    exact Marks.goto (h.change hforks (q := _) (by rw [hstate]; decide)
      (by simp) (fun r hr => by simp [hr]) rfl rfl rfl) (by simp)
  | exitZombie hrun hpc hlock =>
    exact Marks.goto (h.change hforks (q := _) (by rw [hrunning hrun]; decide)
      (by simp) (fun r hr => by simp [hr]) rfl rfl rfl) (by simp)
  | @waitReap c p w addr havekids q hrun hpc hparent hlock hstate =>
    exact Marks.same (Marks.goto (Marks.freeproc (q := q) h)
      (p := p) (k := .user (some (s.pid q))) (by simp)) rfl rfl rfl rfl rfl
  | waitSleep hrun hpc =>
    exact h.change hforks (q := _) (by rw [hrunning hrun]; decide)
      (by simp [waitSleep, hrunning hrun]) (fun r hr => by simp [waitSleep, hr]) rfl rfl rfl

end

end Marks

theorem userinit_marks : userinit.Marks := by
  refine ⟨?_, ?_, ?_, ?_⟩
  · intro q hq
    by_cases hq0 : q = initproc
    · simp [userinit, hq0] at hq
    · simp [userinit, hq0]
  · intro q _
    rfl
  · intro p np hp
    simp [userinit] at hp
  · intro p np hp
    simp [userinit] at hp

theorem marks_of_run {labels : List ProcLabel}
    (hrun : Machine.run (restrict (fun _ s => s.NoKillZero)
      (step mode)) labels userinit = some s) : s.Sched ∧ s.Marks := by
  refine run_invariant (I := fun s => s.Sched ∧ s.Marks) ?_ ⟨userinit_sched, userinit_marks⟩ hrun
  rintro l s s' ⟨hsched, hmarks⟩ hstep
  obtain ⟨hzero, hstep⟩ := Machine.restrict_eq_some.mp hstep
  have hmove := step_move hstep
  exact ⟨hsched.move hmove, hmarks.move hsched hzero hmove⟩

end ProcSystem

open ProcSystem

/-- In every run in which nobody calls `kill(0)`, a call of `kill` returns -1 and
has changed nothing, or returns 0 and has marked one slot, which is in use and
has this pid, and woken it if it was asleep; in between other processes may run
(first part), or not (second part).  And a process that `allocproc` returns is
not marked. -/
theorem kill_affects_live_process (mode : SchedMode) (labels : List ProcLabel) (s : ProcSystem)
    (hrun : Machine.run (restrict (fun _ s => s.NoKillZero)
      (ProcSystem.step mode)) labels userinit = some s)
    (hzero : s.NoKillZero) :
    (∀ c p pid i ok t, s.Runs c p → s.pc p = .killScan pid i →
      s.step mode (.act c (.next ok)) = some t →
      t = s.goto p (.killScan pid (i + 1)) ∨
      t = s.goto p (.user (some (-1))) ∨
      ∃ q, s.state q ≠ .unused ∧ s.pid q = pid ∧ t = (s.markKilled q).goto p (.user (some 0))) ∧
    (∀ c p pid oks ret t, s.Runs c p → s.pc p = .killScan pid 0 →
      Machine.run (fun ok s => s.step mode (.act c (.next ok))) oks s =
        some t → t.pc p = .user ret →
      (ret = some (-1) ∧ t = s.goto p (.user ret)) ∨
      (ret = some 0 ∧ ∃ q, s.state q ≠ .unused ∧ s.pid q = pid ∧
        t = (s.markKilled q).goto p (.user ret))) ∧
    (∀ c p np t, s.Runs c p → s.pc p = .forkAlloc np → s.step mode (.act c (.next true)) = some t →
      t.pc p = .forkCopy np ∧ t.killed np = false) := by
  obtain ⟨_, hmarks⟩ := marks_of_run hrun
  have hlive : ∀ {p q pid i}, s.pc p = .killScan pid i → s.pid q = pid → s.state q ≠ .unused := by
    intro p q pid i hpc hq hst
    have hp := hzero p
    rw [hpc, ← hq, hmarks.pid q hst] at hp
    simp [ProcPc.killsZero] at hp
  refine ⟨?_, ?_, ?_⟩
  · intro c p pid i ok t hruns hpc hstep
    rcases kill_step hruns hpc hstep with ⟨_, ht⟩ | ⟨_, ht⟩ | ⟨q, _, hq, ht⟩
    · exact Or.inl ht
    · exact Or.inr (Or.inl ht)
    · exact Or.inr (Or.inr ⟨q, hlive hpc hq, hq, ht⟩)
  · intro c p pid oks ret t hruns hpc hcall hret
    rcases kill_call hruns hpc hcall hret with hfail | ⟨hr, q, hq, ht⟩
    · exact Or.inl hfail
    · exact Or.inr ⟨hr, q, hlive hpc hq, hq, ht⟩
  · intro c p np t hruns hpc hstep
    simp only [step, act, hruns.1, hruns.2, actRunning, actNext, hpc, if_true] at hstep
    cases hstep
    exact ⟨by simp [ProcSystem.goto], hmarks.fresh p np hpc⟩

/-- The first process is running and has called `kill(1)`. -/
def killSelf : List ProcLabel :=
  [.scheduler 0, .scheduler 0, .scheduler 0, .act 0 (.next true), .act 0 (.kill 1)]

theorem kill_affects_live_process_self :
    ∃ s t, Machine.run (restrict (fun _ s => s.NoKillZero)
        (ProcSystem.step .roundRobin)) killSelf userinit = some s ∧
      s.step .roundRobin (.act 0 (.next true)) = some t ∧
      (t = s.goto initproc (.killScan 1 1) ∨ t = s.goto initproc (.user (some (-1))) ∨
        ∃ q, s.state q ≠ .unused ∧ s.pid q = 1 ∧
          t = (s.markKilled q).goto initproc (.user (some 0))) := by
  refine exists_run₂ (P := fun s => decide (s.NoKillZero ∧ s.cpu 0 = .run initproc ∧
      s.thread initproc = .running ∧ s.pc initproc = .killScan 1 0 ∧
      (s.step .roundRobin (.act 0 (.next true))).isSome = true))
    (by decide +kernel) ?_
  intro s hrun hs
  obtain ⟨hzero, hcpu, hthread, hpc, hsome⟩ := of_decide_eq_true hs
  obtain ⟨t, ht⟩ := Option.isSome_iff_exists.mp hsome
  exact ⟨t, ht, (kill_affects_live_process _ _ s hrun hzero).1 0
    initproc 1 0 true t ⟨hcpu, hthread⟩ hpc ht⟩

/-- `kill(0)` by the first process, and then `fork` up to the return of
`allocproc`. -/
def killZero : List ProcLabel :=
  [.scheduler 0, .scheduler 0, .scheduler 0, .act 0 (.next true),
    .act 0 (.kill 0), .act 0 (.next true), .act 0 (.next true)]

/-- `kill(0)` returns 0 and has marked a slot that is not in use; the process
that `allocproc` returns next is marked. -/
theorem kill_zero_marks_unused :
    (∃ s, Machine.run (ProcSystem.step .roundRobin) killZero userinit =
        some s ∧ s.pc initproc = .user (some 0) ∧ s.state 1 = .unused ∧
        s.killed 1 = true) ∧
    ∃ s, Machine.run (ProcSystem.step .roundRobin)
        (killZero ++ [.act 0 .fork, .act 0 (.next true), .act 0 (.next true),
          .act 0 (.next true)]) userinit = some s ∧
        s.pc initproc = .forkCopy 1 ∧ s.killed 1 = true := by
  constructor <;> exact Machine.exists_run_decide (by decide +kernel)

end Xv6
