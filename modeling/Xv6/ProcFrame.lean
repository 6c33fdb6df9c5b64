import Xv6.ProcMove

/-!
# What a step leaves alone

`ProcMove` lists what the steps of the system do but forgets whose step it was.
A step of a thread does not move any CPU in `scheduler`, apart from its own in
`sched`; it does not touch the clock; and only `yield` makes a running thread
leave the CPU without having taken its lock first.
-/

namespace Xv6

open Function (update update_of_ne update_self)

def ProcAction.ok : ProcAction → Bool
  | .next ok => ok
  | _ => false

def ProcPc.isUser : ProcPc → Bool
  | .user _ => true
  | _ => false

namespace ProcSystem

variable {s s' : ProcSystem} {c c' : ℕ} {p q : Slot} {mode : SchedMode}
  {ok : Bool} {a : ProcAction} {k : ProcPc}

/-- What a step of the thread of `p` does to the times of slot `q`; `ok` is the
result of the allocations in it. -/
inductive TimesStep (ok : Bool) (p : Slot) (s s' : ProcSystem) (q : Slot) : Prop
  | same (htimes : s'.times q = s.times q)
      (hstate : s'.state q = .zombie → s.state q = .zombie)
  | created (hok : ok = true) (hpc : s.pc p = .forkAlloc q)
      (hstate : s'.state q = s.state q)
      (htimes : s'.times q = { ProcTimes.zero with creationTime := s.ticks })
  | finished (hexit : ∃ status, s.pc q = .exitLock status)
      (htimes : s'.times q = (s.times q).finish s.ticks)
  | freed (htimes : s'.times q = .zero) (hstate : s'.state q = .unused)

/-- A step of the thread of `p` that is not in `swtch` or `yield`.  It leaves the
other threads alone, apart from that of a process it creates. -/
structure OwnStep (a : ProcAction) (p : Slot) (s s' : ProcSystem) : Prop where
  cpu : s'.cpu = s.cpu
  ticks : s'.ticks = s.ticks
  times : ∀ q, TimesStep a.ok p s s' q
  stays : s.thread p = .running → s'.thread p ≠ .leaving
  others : ∀ q, q ≠ p → s.pc p ≠ .forkAlloc q → s'.thread q = s.thread q
  asleep : ∀ q n, s'.pc q = .sleepOn n → s.pc q = .sleepOn n ∨ a = .sleep n

variable {r np : Slot} {state : ProcState} {l : ProcLabel}

theorem zombie_of_update (hne : state ≠ .zombie)
    (h : update s.state r state q = .zombie) : s.state q = .zombie := by
  by_cases hq : q = r
  · rw [hq, update_self] at h
    exact absurd h hne
  · rwa [update_of_ne hq] at h

theorem sleepOn_goto (hk : ∀ n, k ≠ .sleepOn n) {n : ℕ}
    (h : (s.goto p k).pc q = .sleepOn n) : s.pc q = .sleepOn n := by
  by_cases hq : q = p
  · subst hq
    simp only [goto, update_self] at h
    exact absurd h (hk n)
  · simpa only [goto, update_of_ne hq] using h

theorem TimesStep.of_state (htimes : s'.times = s.times) (hne : state ≠ .zombie)
    (hstate : s'.state = update s.state r state) (q : Slot) : TimesStep ok p s s' q :=
  .same (by rw [htimes]) (by rw [hstate]; exact zombie_of_update hne)

theorem TimesStep.of_same (htimes : s'.times = s.times)
    (hstate : s'.state = s.state) (q : Slot) : TimesStep ok p s s' q :=
  .same (by rw [htimes]) (by rw [hstate]; exact id)

theorem TimesStep.freeproc (htimes : s'.times = update s.times np .zero)
    (hstate : s'.state = update s.state np .unused) (q : Slot) : TimesStep ok p s s' q := by
  by_cases hq : q = np
  · exact .freed (by rw [htimes, hq, update_self]) (by rw [hstate, hq, update_self])
  · refine .same (by rw [htimes, update_of_ne hq]) ?_
    rw [hstate, update_of_ne hq]
    exact id

theorem OwnStep.of_thread (hframe : (s'.cpu, s'.ticks, s'.thread) = (s.cpu, s.ticks, s.thread))
    (htimes : ∀ q, TimesStep a.ok p s s' q)
    (hpc : ∀ q n, s'.pc q = .sleepOn n → s.pc q = .sleepOn n) : OwnStep a p s s' := by
  simp only [Prod.mk.injEq] at hframe
  obtain ⟨hcpu, hticks, hthread⟩ := hframe
  refine ⟨hcpu, hticks, htimes, ?_, ?_, ?_⟩
  · intro hrun
    rw [hthread, hrun]
    decide
  · intro q _ _
    rw [hthread]
  · intro q n hq
    exact Or.inl (hpc q n hq)

theorem OwnStep.goto {u : ProcSystem}
    (hframe : (u.cpu, u.ticks, u.thread, u.times, u.state, u.pc) =
      (s.cpu, s.ticks, s.thread, s.times, s.state, s.pc))
    (hk : ∀ n, k ≠ .sleepOn n) : OwnStep a p s (u.goto p k) := by
  simp only [Prod.mk.injEq] at hframe
  obtain ⟨hcpu, hticks, hthread, htimes, hstate, hpc⟩ := hframe
  refine .of_thread ?_ (.of_same htimes hstate) ?_
  · simp only [ProcSystem.goto, hcpu, hticks, hthread]
  · intro q n hq
    rw [← hpc]
    exact sleepOn_goto hk hq

theorem OwnStep.goto_state {u : ProcSystem}
    (hframe : (u.cpu, u.ticks, u.thread, u.times, u.pc) = (s.cpu, s.ticks, s.thread, s.times, s.pc))
    (hstate : u.state = update s.state r state) (hne : state ≠ .zombie)
    (hk : ∀ n, k ≠ .sleepOn n) : OwnStep a p s (u.goto p k) := by
  simp only [Prod.mk.injEq] at hframe
  obtain ⟨hcpu, hticks, hthread, htimes, hpc⟩ := hframe
  refine .of_thread ?_ (.of_state htimes hne hstate) ?_
  · simp only [ProcSystem.goto, hcpu, hticks, hthread]
  · intro q n hq
    rw [← hpc]
    exact sleepOn_goto hk hq

theorem OwnStep.freeproc (hframe : (s'.cpu, s'.ticks, s'.thread) = (s.cpu, s.ticks, s.thread))
    (htimes : s'.times = update s.times r .zero) (hstate : s'.state = update s.state r .unused)
    (hpc : s'.pc = update s.pc p k) (hk : ∀ n, k ≠ .sleepOn n) : OwnStep a p s s' := by
  refine .of_thread hframe (.freeproc htimes hstate) ?_
  intro q n hq
  rw [hpc] at hq
  exact sleepOn_goto hk hq

theorem OwnStep.lockSelf
    (hframe : (s'.cpu, s'.ticks, s'.thread) = (s.cpu, s.ticks, update s.thread p .locked))
    (htimes : ∀ q, TimesStep a.ok p s s' q) (hpc : ∀ q n, s'.pc q = .sleepOn n →
    s.pc q = .sleepOn n ∨ a = .sleep n) : OwnStep a p s s' := by
  simp only [Prod.mk.injEq] at hframe
  obtain ⟨hcpu, hticks, hthread⟩ := hframe
  refine ⟨hcpu, hticks, htimes, ?_, ?_, hpc⟩
  · intro _
    rw [hthread, update_self]
    decide
  · intro q hq _
    rw [hthread, update_of_ne hq]

theorem OwnStep.wakeup_goto {chan : Option Chan} (hk : ∀ n, k ≠ .sleepOn n)
    (h : (match s.wakeup p chan q with
      | none => none
      | some u => some (u.goto p k)) = some s') : OwnStep a p s s' := by
  cases hwake : s.wakeup p chan q with
  | none => simp [hwake] at h
  | some u =>
    rw [hwake] at h
    cases h
    rcases wakeup_cases hwake with ⟨rfl, _⟩ | ⟨rfl, _⟩
    · exact .goto_state rfl rfl (by decide) hk
    · exact .goto rfl hk

theorem allocproc_own {i : ℕ} (h : s.allocproc c p i = some s') : OwnStep a p s s' := by
  simp only [allocproc] at h
  split at h
  · split at h
    · split at h <;> cases h
      · exact .goto_state rfl rfl (by decide) (by simp)
      · exact .goto rfl (by simp)
    · contradiction
  · cases h
    exact .goto rfl (by simp)

theorem forkFail_own : OwnStep a p s (s.forkFail p np) := .freeproc rfl rfl rfl rfl (by simp)

theorem allocprocContext_own (hpc : s.pc p = .forkAlloc np) : OwnStep (.next true) p s
      ((s.allocprocContext np).goto p (.forkCopy np)) := by
  refine ⟨rfl, rfl, ?_, ?_, ?_, ?_⟩
  · intro q
    by_cases hq : q = np
    · subst hq
      exact .created rfl hpc rfl (by simp [allocprocContext, ProcSystem.goto])
    · exact .same (by simp [allocprocContext, ProcSystem.goto, hq]) id
  · intro hrun
    by_cases hq : p = np
    · simp [allocprocContext, ProcSystem.goto, hq]
    · simp [allocprocContext, ProcSystem.goto, hq, hrun]
  · intro q _ hq
    have hne : q ≠ np := by
      rintro rfl
      exact hq hpc
    simp [allocprocContext, ProcSystem.goto, hne]
  · intro q n hq
    exact Or.inl (sleepOn_goto (s := s.allocprocContext np) (by simp) hq)

theorem exitZombie_own {status : Int32} (hpc : s.pc p = .exitLock status) :
    OwnStep a p s (s.exitZombie c p status) := by
  refine .lockSelf rfl ?_ ?_
  · intro q
    by_cases hq : q = p
    · subst hq
      exact .finished ⟨status, hpc⟩ (by simp [exitZombie, ProcSystem.goto])
    · exact .same (by simp [exitZombie, ProcSystem.goto, hq])
        (by simp [exitZombie, ProcSystem.goto, hq])
  · intro q n hq
    exact Or.inl (sleepOn_goto (s := s) (k := .exitUnlock) (by simp) hq)

theorem waitScan_own {w : WaitCall} {addr : UInt64} {copyout havekids : Bool}
    {i : ℕ} (h : s.waitScan p w addr copyout havekids i = some s') : OwnStep a p s s' := by
  simp only [waitScan] at h
  split at h
  · split at h
    · split at h
      · split at h
        · split at h <;> cases h
          · exact .goto rfl (by simp)
          · exact .freeproc rfl rfl rfl rfl (by simp)
        · cases h
          exact .goto rfl (by simp)
      · contradiction
    · cases h
      exact .goto rfl (by simp)
  · (repeat' split at h) <;>
      simp only [Option.some.injEq, reduceCtorEq] at h <;> rw [← h] <;>
      exact .goto rfl (by simp)

theorem kill_own {pid : Int32} {i : ℕ} (h : s.kill p pid i = some s') : OwnStep a p s s' := by
  simp only [kill] at h
  split at h
  · split at h
    · split at h <;> cases h
      · by_cases hsleep : s.state ⟨i, ‹_›⟩ = .sleeping
        · simp only [hsleep, if_true]
          exact .goto_state rfl rfl (by decide) (by simp)
        · simp only [hsleep, if_false]
          exact .goto rfl (by simp)
      · exact .goto rfl (by simp)
    · contradiction
  · cases h
    exact .goto rfl (by simp)

theorem actNext_own (h : s.actNext c p ok = some s') : OwnStep (.next ok) p s s' := by
  unfold actNext at h
  cases hpc : s.pc p with
  | user _ | sleepOn _ | exitUnlock | exited => simp [hpc] at h
  | forkScan i =>
    simp only [hpc] at h
    exact allocproc_own h
  | forkAlloc np =>
    simp only [hpc] at h
    split at h <;> cases h
    · rename_i hok
      rw [hok]
      exact allocprocContext_own hpc
    · exact forkFail_own
  | forkCopy np =>
    simp only [hpc] at h
    split at h <;> cases h
    · refine .of_thread rfl (.of_same rfl rfl) ?_
      intro q n hq
      exact sleepOn_goto (by simp) (sleepOn_goto (by simp) hq)
    · exact forkFail_own
  | forkParent np pid | waitStart w addr =>
    simp only [hpc, ite_eq_some] at h
    rw [← h.2]
    exact .goto rfl (by simp)
  | forkRunnable np pid =>
    simp only [hpc, ite_eq_some] at h
    rw [← h.2]
    exact .goto_state rfl rfl (by decide) (by simp)
  | exitReparent status i =>
    simp only [hpc, Option.some.injEq, reparent] at h
    rw [← h]
    split
    · split <;> exact .goto rfl (by simp)
    · exact .goto rfl (by simp)
  | exitWakeInit status i j =>
    simp only [hpc, exitWakeInit] at h
    split at h
    · exact .wakeup_goto (by simp) h
    · cases h
      exact .goto rfl (by simp)
  | exitWakeParent status chan j =>
    simp only [hpc, exitWakeParent] at h
    split at h
    · exact .wakeup_goto (by simp) h
    · cases h
      exact .goto rfl (by simp)
  | exitLock status =>
    simp only [hpc, ite_eq_some] at h
    rw [← h.2]
    exact exitZombie_own hpc
  | waitScan w addr havekids i =>
    simp only [hpc] at h
    exact waitScan_own h
  | waitSleep w addr =>
    simp only [hpc, ite_eq_some] at h
    rw [← h.2]
    exact .lockSelf rfl (.of_same rfl rfl) (fun _ _ hq => Or.inl hq)
  | killScan pid i =>
    simp only [hpc] at h
    exact kill_own h

theorem actCall_own (h : s.actCall c p a = some s') : OwnStep a p s s' := by
  cases a with
  | next _ | yield => simp [actCall] at h
  | sleep n =>
    simp only [actCall, ite_eq_some] at h
    rw [← h.2]
    refine .lockSelf rfl (.of_same rfl rfl) ?_
    intro q m hq
    by_cases hqp : q = p
    · subst hqp
      simp only [ProcSystem.goto, update_self, ProcPc.sleepOn.injEq] at hq
      exact Or.inr (by rw [hq])
    · simp only [ProcSystem.goto, update_of_ne hqp] at hq
      exact Or.inl hq
  | setkilled =>
    simp only [actCall, ite_eq_some] at h
    rw [← h.2]
    exact .of_thread rfl (.of_same rfl rfl) (fun _ _ hq => hq)
  | exit status =>
    simp only [actCall, Option.ite_none_left_eq_some, ite_eq_some] at h
    rw [← h.2.2]
    exact .goto rfl (by simp)
  | _ =>
    cases h
    exact .goto rfl (by simp)

theorem actRunning_own (h : s.actRunning c p a = some s') (ha : a ≠ .yield) : OwnStep a p s s' := by
  unfold actRunning at h
  split at h
  · exact actNext_own h
  · exact absurd rfl ha
  · split at h
    · exact actCall_own h
    · contradiction

theorem act_cpu (h : s.act c' a = some s') (c : ℕ) :
    s'.cpu c = s.cpu c ∨ c = c' ∧ ∃ p, s'.cpu c = .after p := by
  unfold act at h
  cases hcpu : s.cpu c' with
  | run p =>
    simp only [hcpu] at h
    cases hthread : s.thread p with
    | resumed =>
      rw [hthread] at h
      cases h
      exact Or.inl rfl
    | leaving =>
      rw [hthread] at h
      cases h
      by_cases hc : c = c'
      · exact Or.inr ⟨hc, p, by simp [sched, hc]⟩
      · exact Or.inl (by simp [sched, hc])
    | locked =>
      simp only [hthread, actLocked] at h
      split at h <;> cases h <;> exact Or.inl rfl
    | running =>
      simp only [hthread] at h
      by_cases ha : a = .yield
      · simp only [ha, actRunning, ite_eq_some] at h
        rw [← h.2]
        exact Or.inl rfl
      · rw [(actRunning_own h ha).cpu]
        exact Or.inl rfl
    | fresh | saved => simp [hthread] at h
  | _ => simp [hcpu] at h

theorem act_times (h : s.act c a = some s') : s'.ticks = s.ticks ∧
      ∃ p, s.cpu c = .run p ∧ ∀ q, TimesStep a.ok p s s' q := by
  unfold act at h
  cases hcpu : s.cpu c with
  | run p =>
    simp only [hcpu] at h
    cases hthread : s.thread p with
    | resumed | leaving =>
      rw [hthread] at h
      cases h
      exact ⟨rfl, p, rfl, .of_same rfl rfl⟩
    | locked =>
      simp only [hthread, actLocked] at h
      split at h <;> cases h
      · exact ⟨rfl, p, rfl, .of_state rfl (by decide) rfl⟩
      · exact ⟨rfl, p, rfl, .of_state rfl (by decide) rfl⟩
      · exact ⟨rfl, p, rfl, .of_same rfl rfl⟩
    | running =>
      simp only [hthread] at h
      by_cases ha : a = .yield
      · simp only [ha, actRunning, ite_eq_some] at h
        rw [← h.2]
        exact ⟨rfl, p, rfl, .of_state rfl (by decide) rfl⟩
      · have hown := actRunning_own h ha
        exact ⟨hown.ticks, p, rfl, hown.times⟩
    | fresh | saved => simp [hthread] at h
  | _ => simp [hcpu] at h

theorem scheduler_cpu (h : s.scheduler mode c' = some s') (hc : c ≠ c') : s'.cpu c = s.cpu c := by
  unfold scheduler at h
  (repeat' split at h) <;>
    simp only [Option.some.injEq, reduceCtorEq] at h <;> rw [← h] <;>
    simp [hc]

theorem cpu_of_step (h : s.step mode l = some s') (hl : l ≠ .scheduler c) :
    s'.cpu c = s.cpu c ∨ (∃ a, l = .act c a) ∧ ∃ p, s'.cpu c = .after p := by
  cases l with
  | scheduler c' =>
    have hc : c ≠ c' := fun hc => hl (by rw [hc])
    exact Or.inl (scheduler_cpu h hc)
  | act c' a =>
    rcases act_cpu h c with heq | ⟨rfl, hafter⟩
    · exact Or.inl heq
    · exact Or.inr ⟨⟨a, rfl⟩, hafter⟩
  | wakeup c' n q =>
    simp only [step, wakeupSlot] at h
    (repeat' split at h) <;>
      simp only [Option.some.injEq, reduceCtorEq] at h <;> rw [← h] <;>
      exact Or.inl rfl
  | tick =>
    cases h
    exact Or.inl rfl
  | updateTime q =>
    simp only [step, updateTime] at h
    (repeat' split at h) <;>
      simp only [Option.some.injEq, reduceCtorEq] at h <;> rw [← h] <;>
      exact Or.inl rfl

theorem times_of_step (h : s.step mode l = some s') (hl : ∀ c a, l ≠ .act c a)
    (htick : l ≠ .tick) (hupdate : ∀ q, l ≠ .updateTime q) :
    s'.ticks = s.ticks ∧ s'.times = s.times ∧ ∀ q, s'.state q = .zombie → s.state q = .zombie := by
  cases l with
  | scheduler c =>
    simp only [step, scheduler] at h
    (repeat' split at h) <;>
      simp only [Option.some.injEq, reduceCtorEq] at h <;> rw [← h]
    case isTrue.isTrue => exact ⟨rfl, rfl, fun _ => zombie_of_update (by decide)⟩
    all_goals exact ⟨rfl, rfl, fun _ => id⟩
  | act c a => exact absurd rfl (hl c a)
  | wakeup c n q =>
    simp only [step, wakeupSlot] at h
    (repeat' split at h) <;>
      simp only [Option.some.injEq, reduceCtorEq] at h <;> rw [← h]
    case isFalse.isTrue.isTrue => exact ⟨rfl, rfl, fun _ => zombie_of_update (by decide)⟩
    all_goals exact ⟨rfl, rfl, fun _ => id⟩
  | tick => exact absurd rfl htick
  | updateTime q => exact absurd rfl (hupdate q)

theorem act_stays (h : s.act c a = some s') (hcpu : s.cpu c = .run p)
    (ha : a ≠ .yield) (hrun : s.thread p = .running) : s'.thread p ≠ .leaving := by
  simp only [act, hcpu, hrun] at h
  exact (actRunning_own h ha).stays hrun

theorem act_others (h : s.act c a = some s') (hcpu : s.cpu c ≠ .run q)
    (hfork : ∀ p, s.pc p ≠ .forkAlloc q) : s'.thread q = s.thread q := by
  unfold act at h
  cases hc : s.cpu c with
  | run p =>
    have hq : q ≠ p := by
      rintro rfl
      exact hcpu hc
    simp only [hc] at h
    cases hthread : s.thread p with
    | resumed =>
      rw [hthread] at h
      cases h
      simp [resume, ProcSystem.goto, hq]
    | leaving =>
      rw [hthread] at h
      cases h
      simp [sched, hq]
    | locked =>
      simp only [hthread, actLocked] at h
      split at h <;> cases h
      · simp [sleep, hq]
      · simp [sleep, hq]
      · simp [exitUnlock, ProcSystem.goto, hq]
    | running =>
      simp only [hthread] at h
      by_cases ha : a = .yield
      · simp only [ha, actRunning, ite_eq_some] at h
        rw [← h.2]
        simp [yield, hq]
      · exact (actRunning_own h ha).others q hq (hfork p)
    | fresh | saved => simp [hthread] at h
  | _ => simp [hc] at h

theorem thread_of_step (h : s.step mode l = some s') (hfork : ∀ p, s.pc p ≠ .forkAlloc q) :
    s'.thread q = s.thread q ∨ (∃ c a, l = .act c a ∧ s.cpu c = .run q) ∨
      ∃ c, l = .scheduler c ∧ s.cpu c = .switchTo q ∧ s'.thread q = .resumed := by
  cases l with
  | scheduler c =>
    simp only [step, scheduler] at h
    cases hc : s.cpu c with
    | switchTo p =>
      rw [hc] at h
      cases h
      by_cases hq : q = p
      · subst hq
        exact Or.inr (Or.inr ⟨c, rfl, hc, update_self _ _ _⟩)
      · exact Or.inl (update_of_ne hq _ _)
    | _ =>
      simp only [hc] at h
      (repeat' split at h) <;>
        simp only [Option.some.injEq, reduceCtorEq] at h <;> rw [← h] <;>
        exact Or.inl rfl
  | act c a =>
    by_cases hc : s.cpu c = .run q
    · exact Or.inr (Or.inl ⟨c, a, rfl, hc⟩)
    · exact Or.inl (act_others h hc hfork)
  | wakeup c n r =>
    simp only [step, wakeupSlot] at h
    (repeat' split at h) <;>
      simp only [Option.some.injEq, reduceCtorEq] at h <;> rw [← h] <;>
      exact Or.inl rfl
  | tick =>
    cases h
    exact Or.inl rfl
  | updateTime r =>
    simp only [step, updateTime] at h
    (repeat' split at h) <;>
      simp only [Option.some.injEq, reduceCtorEq] at h <;> rw [← h] <;>
      exact Or.inl rfl

theorem asleep_of_step {n : ℕ} (h : s.step mode l = some s') (hq : s'.pc q = .sleepOn n) :
    s.pc q = .sleepOn n ∨ ∃ c, l = .act c (.sleep n) := by
  have hsame : s'.pc = s.pc → s.pc q = .sleepOn n ∨ ∃ c, l = .act c (.sleep n) := by
    intro heq
    rw [heq] at hq
    exact Or.inl hq
  cases l with
  | act c a =>
    simp only [step, act] at h
    cases hc : s.cpu c with
    | run p =>
      simp only [hc] at h
      cases hthread : s.thread p with
      | resumed =>
        simp only [hthread, Option.some.injEq] at h
        rw [← h] at hq
        refine Or.inl (sleepOn_goto ?_ hq)
        intro m
        cases s.pc p <;> simp [ProcPc.afterSleep]
      | leaving =>
        simp only [hthread, Option.some.injEq] at h
        exact hsame (by rw [← h]; rfl)
      | locked =>
        simp only [hthread, actLocked] at h
        split at h <;>
          simp only [Option.some.injEq, reduceCtorEq] at h
        · exact hsame (by rw [← h]; rfl)
        · exact hsame (by rw [← h]; rfl)
        · rw [← h] at hq
          exact Or.inl (sleepOn_goto (by simp) hq)
      | running =>
        simp only [hthread] at h
        by_cases ha : a = .yield
        · simp only [ha, actRunning, ite_eq_some] at h
          exact hsame (by rw [← h.2]; rfl)
        · rcases (actRunning_own h ha).asleep q n hq with hold | rfl
          · exact Or.inl hold
          · exact Or.inr ⟨c, rfl⟩
      | fresh | saved => simp [hthread] at h
    | _ => simp [hc] at h
  | scheduler c =>
    simp only [step, scheduler] at h
    (repeat' split at h) <;>
      simp only [Option.some.injEq, reduceCtorEq] at h <;>
      exact hsame (by rw [← h])
  | wakeup c m r =>
    simp only [step, wakeupSlot] at h
    (repeat' split at h) <;>
      simp only [Option.some.injEq, reduceCtorEq] at h <;>
      exact hsame (by rw [← h])
  | tick =>
    simp only [step, Option.some.injEq] at h
    exact hsame (by rw [← h])
  | updateTime r =>
    simp only [step, updateTime] at h
    (repeat' split at h) <;>
      simp only [Option.some.injEq, reduceCtorEq] at h <;>
      exact hsame (by rw [← h])

end ProcSystem

end Xv6
