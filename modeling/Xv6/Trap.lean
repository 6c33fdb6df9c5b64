import Xv6.Clock

/-!
# Timer and device interrupts

A CPU takes an interrupt where it has interrupts enabled: in the thread of a
process that holds no spinlock, or in the scan of `scheduler`.  The handler is
`usertrap` or `kerneltrap`, which call `devintr`, which calls `clockintr` for
the timer.  It runs with interrupts disabled, but `yield` in it switches to
`scheduler`, which enables them, and when `yield` returns the handler goes on
where it was, perhaps on another CPU.

The timer interrupt of a CPU is pending while `stimecmp` is not after `time`.
The history variables `tickTimes` and `fired` are the times at which `ticks`
was incremented, the last one first, and how often this was since CPU 0 last
wrote its `stimecmp`.
-/

namespace Xv6

open Function (update update_of_ne update_self)
open ProcSystem ClockSystem Machine

/-- `scause` of an interrupt. -/
inductive Cause
  | external
  | timer
  deriving DecidableEq

inductive Origin
  | user
  | kernel
  deriving DecidableEq

/-- Where a handler is: at the head of `devintr`, under `tickslock`, at the
switch on `sched_mode`, about to write `stimecmp`, back from `devintr` with
`which_dev`, or about to return. -/
inductive TrapPc
  | devintr (cause : Cause)
  | clockintr
  | policy
  | rearm
  | devdone (which : ℕ)
  | ret
  deriving DecidableEq

structure Trap where
  origin : Origin
  pc : TrapPc
  deriving DecidableEq

structure TrapSystem where
  clock : ClockSystem
  hart : ℕ → Option Trap
  trap : Slot → Option Trap
  time : ℕ
  stimecmp : ℕ → ℕ
  tickTimes : List ℕ
  fired : ℕ

inductive TrapLabel
  | proc (l : ProcLabel)
  | intr (c : ℕ) (origin : Origin) (cause : Cause)
  | handler (c : ℕ)
  | elapse (n : ℕ)

def ProcAction.isYield : ProcAction → Bool
  | .yield => true
  | _ => false

def timerInterval : ℕ := 1000000

namespace TrapSystem

/-- CPU `c` runs with interrupts enabled, in user or in kernel mode. -/
def Interruptible (c : ℕ) (origin : Origin) (s : TrapSystem) : Prop :=
  s.hart c = none ∧ match s.clock.proc.cpu c with
    | .run p =>
      s.clock.proc.thread p = .running ∧ s.trap p = none ∧ match origin with
        | .user => (s.clock.proc.pc p).isUser = true
        | .kernel => (s.clock.proc.pc p).preemptible = true
    | .choose .. | .dispatch _ | .wfi => origin = .kernel
    | .switchTo _ | .after _ => False

instance (c : ℕ) (origin : Origin) (s : TrapSystem) : Decidable (s.Interruptible c origin) := by
  unfold Interruptible
  cases s.clock.proc.cpu c <;> cases origin <;> infer_instance

/-- The thread or the scheduler takes this step itself: it is not in a handler,
and only handlers call `yield`. -/
def OwnStep (l : ProcLabel) (s : TrapSystem) : Prop :=
  match l with
  | .scheduler c => s.hart c = none
  | .act c a =>
    s.hart c = none ∧ match s.clock.proc.cpu c with
      | .run p =>
        s.clock.proc.thread p = .running → s.trap p = none ∧ a.isYield = false
      | _ => True
  | .wakeup .. | .tick | .updateTime _ => True

instance : ∀ l s, Decidable (OwnStep l s)
  | .scheduler _, _ => inferInstanceAs (Decidable (_ = _))
  | .act c a, s =>
    have : Decidable (match s.clock.proc.cpu c with
      | .run p =>
        s.clock.proc.thread p = .running → s.trap p = none ∧ a.isYield = false
      | _ => True) :=
      match s.clock.proc.cpu c with
      | .run _ => inferInstanceAs (Decidable (_ → _))
      | .choose .. | .dispatch _ | .switchTo _ | .after _ | .wfi =>
        instDecidableTrue
    instDecidableAnd
  | .wakeup .., _ | .tick, _ | .updateTime _, _ => instDecidableTrue

def goto (c : ℕ) (k : Trap) (s : TrapSystem) : TrapSystem :=
  { s with hart := update s.hart c (some k) }

/-- `yield` in a handler of process `p`; then the handler goes on at `k`. -/
def yield (mode : SchedMode) (c : ℕ) (p : Slot) (k : Trap) (s : TrapSystem) : Option TrapSystem :=
  match s.clock.step mode (.proc (.act c .yield)) with
  | none => none
  | some clock =>
    some { s with
      clock := clock
      hart := update s.hart c none
      trap := update s.trap p (some k) }

/-- `if(cpuid() == 0)` in `clockintr`, up to the increment of `ticks`. -/
def clockintrStart (mode : SchedMode) (c : ℕ) (origin : Origin)
    (s : TrapSystem) : Option TrapSystem :=
  if c = 0 then
    if s.clock.clock = .idle then
      match s.clock.step mode .clockintr with
      | none => none
      | some clock =>
        some ({ s with
          clock := clock
          tickTimes := s.time :: s.tickTimes
          fired := s.fired + 1 }.goto c ⟨origin, .clockintr⟩)
    else none
  else some (s.goto c ⟨origin, .policy⟩)

/-- `update_time` and `wakeup` in `clockintr`, up to the release of
`tickslock`. -/
def clockintrNext (mode : SchedMode) (c : ℕ) (origin : Origin)
    (s : TrapSystem) : Option TrapSystem :=
  if s.clock.clock = .idle then none
  else
    match s.clock.step mode .clockintr with
    | none => none
    | some clock =>
      some ({ s with clock := clock }.goto c
        ⟨origin, if clock.clock = ClockPc.idle then .policy
          else .clockintr⟩)

/-- The switch on `sched_mode` in `clockintr`. -/
def policy (mode : SchedMode) (c : ℕ) (origin : Origin) (s : TrapSystem) : Option TrapSystem :=
  match s.clock.proc.cpu c with
  | .run p =>
    if s.clock.proc.state p = .running ∧ mode ≠ .fcfs then
      s.yield mode c p ⟨origin, .rearm⟩
    else some (s.goto c ⟨origin, .rearm⟩)
  | _ => some (s.goto c ⟨origin, .rearm⟩)

/-- `w_stimecmp(r_time() + 1000000)`. -/
def rearm (c : ℕ) (origin : Origin) (s : TrapSystem) : TrapSystem :=
  { s with
    stimecmp := update s.stimecmp c (s.time + timerInterval)
    fired := if c = 0 then 0 else s.fired }.goto c ⟨origin, .devdone 2⟩

/-- `usertrap` and `kerneltrap` after `devintr`.  `usertrap` exits if the
process has been killed; both yield after a timer interrupt, if there is a
process. -/
def devdone (mode : SchedMode) (c : ℕ) (origin : Origin) (which : ℕ)
    (s : TrapSystem) : Option TrapSystem :=
  match s.clock.proc.cpu c with
  | .run p =>
    if origin = .user ∧ s.clock.proc.lock p ≠ none then none
    else if origin = .user ∧ s.clock.proc.killed p = true then
      match s.clock.step mode (.proc (.act c (.exit (-1)))) with
      | none => none
      | some clock =>
        some { s with
          clock := clock
          hart := update s.hart c none }
    else if which = 2 then s.yield mode c p ⟨origin, .ret⟩
    else some (s.goto c ⟨origin, .ret⟩)
  | _ => some (s.goto c ⟨origin, .ret⟩)

/-- `yield` returns into the handler. -/
def yieldReturn (c : ℕ) (s : TrapSystem) : Option TrapSystem :=
  match s.clock.proc.cpu c with
  | .run p =>
    match s.clock.proc.thread p, s.trap p with
    | .running, some k =>
      some ({ s with trap := update s.trap p none }.goto c k)
    | _, _ => none
  | _ => none

/-- One step of the handler on CPU `c`. -/
def handler (mode : SchedMode) (c : ℕ) (s : TrapSystem) : Option TrapSystem :=
  match s.hart c with
  | none => s.yieldReturn c
  | some ⟨origin, .devintr .external⟩ =>
    some (s.goto c ⟨origin, .devdone 1⟩)
  | some ⟨origin, .devintr .timer⟩ => s.clockintrStart mode c origin
  | some ⟨origin, .clockintr⟩ => s.clockintrNext mode c origin
  | some ⟨origin, .policy⟩ => s.policy mode c origin
  | some ⟨origin, .rearm⟩ => some (s.rearm c origin)
  | some ⟨origin, .devdone which⟩ => s.devdone mode c origin which
  | some ⟨_, .ret⟩ =>
    some { s with hart := update s.hart c none }

def step (mode : SchedMode) (l : TrapLabel) (s : TrapSystem) : Option TrapSystem :=
  match l with
  | .proc l =>
    if s.OwnStep l then
      match s.clock.step mode (.proc l) with
      | none => none
      | some clock => some { s with clock := clock }
    else none
  | .intr c origin cause =>
    if s.Interruptible c origin ∧ (cause = .timer → s.stimecmp c ≤ s.time) then
      some (s.goto c ⟨origin, .devintr cause⟩)
    else none
  | .handler c => s.handler mode c
  | .elapse n => some { s with time := s.time + n }

end TrapSystem

/-- The CPUs enter `scheduler`, with their timers armed. -/
def trapInit (time : ℕ) (stimecmp : ℕ → ℕ) : TrapSystem where
  clock := clockInit
  hart := fun _ => none
  trap := fun _ => none
  time := time
  stimecmp := stimecmp
  tickTimes := []
  fired := 0

namespace ProcSystem

variable {s s' : ProcSystem} {p : Slot}

theorem Sched.leaves (h : s.Sched) (hmove : ProcMove s s') (hp : s.state p = .running)
    (hp' : s'.state p ≠ .running) : (s.thread p = .running ∧ s'.thread p = .leaving) ∨
    (s'.state p = .sleeping ∧ (s.pc p).inSleep = true) ∨
    (s'.state p = .zombie ∧ ∃ status, s.pc p = .exitLock status) := by
  have hat : ∀ (q : Slot) (state : ProcState), s'.state = update s.state q state → q = p := by
    intro q state hstate
    by_contra hq
    exact hp' (by rw [hstate, update_of_ne (Ne.symm hq), hp])
  obtain ⟨on, hseated⟩ := h.seated
  cases hmove with
  | wakeup hlock hstate | dispatch hcpu hlock hstate
  | killWake hrun hpc hlock hstate | allocproc hrun hpc hlock hstate
  | wakeInit hrun hpc hlock hstate | wakeParent hrun hpc hlock hstate
  | waitReap hrun hpc hparent hlock hstate =>
    rw [hat _ _ rfl, hp] at hstate
    contradiction
  | @sleep c q chan hcpu hthread hpc =>
    obtain rfl := hat _ _ rfl
    refine Or.inr (Or.inl ⟨by simp [sleep], ?_⟩)
    cases hk : s.pc q <;> simp [hk, ProcPc.sleepChan] at hpc <;> rfl
  | @yield c q hrun hpc =>
    obtain rfl := hat _ _ rfl
    exact Or.inl ⟨hrun.2, by simp [yield]⟩
  | @forkFail c q np hrun hpc =>
    have hused := h.forks.used q np (by rcases hpc with hpc | hpc <;> rw [hpc] <;> rfl)
    rw [hat _ _ rfl, hp] at hused
    contradiction
  | @forkRunnable c q np pid hrun hpc hlock =>
    have hused := h.forks.used q np (by rw [hpc]; rfl)
    rw [hat _ _ rfl, hp] at hused
    contradiction
  | @exitZombie c q status hrun hpc hlock =>
    obtain rfl := hat _ _ rfl
    exact Or.inr (Or.inr ⟨by simp [exitZombie, goto], status, hpc⟩)
  | _ => exact absurd hp hp'

end ProcSystem

/-- The handler of a timer interrupt, before it yields or returns. -/
def TrapPc.ofTimer : TrapPc → Bool
  | .devintr cause => cause = .timer
  | .clockintr | .policy | .rearm => true
  | .devdone which => which = 2
  | .ret => false

namespace TrapSystem

variable {s s' : TrapSystem} {mode : SchedMode} {c : ℕ} {p : Slot}

/-- CPUs take timer interrupts only where they have no process. -/
def TimerOutsideProcess (l : TrapLabel) (s : TrapSystem) : Prop :=
  match l with
  | .intr c _ .timer => (s.clock.proc.cpu c).current = none
  | _ => True

instance (l : TrapLabel) (s : TrapSystem) : Decidable (s.TimerOutsideProcess l) := by
  unfold TimerOutsideProcess
  split <;> infer_instance

def Quiet (mode : SchedMode) (u u' : ProcSystem) : Prop :=
  u' = u ∨ ∃ l, u.step mode l = some u' ∧
    ∀ c, l = .act c .yield → ∀ p, u.cpu c = .run p → u.thread p ≠ .running

theorem Quiet.move {u u' : ProcSystem} (h : Quiet mode u u') : ProcMove u u' := by
  rcases h with rfl | ⟨l, hl, _⟩
  · exact .stay
  · exact step_move hl

theorem Quiet.thread {u u' : ProcSystem} (h : Quiet mode u u') (hsched : u.Sched)
    (hstate : u.state p = .running) (hp : u.thread p = .running) : u'.thread p ≠ .leaving := by
  rcases h with rfl | ⟨l, hl, hyield⟩
  · rw [hp]
    decide
  · have hfork : ∀ q, u.pc q ≠ .forkAlloc p := by
      intro q hq
      have := hsched.forks.used q p (by rw [hq]; rfl)
      simp [hstate] at this
    rcases thread_of_step hl hfork with
      heq | ⟨c, a, rfl, hcpu⟩ | ⟨_, _, _, heq⟩
    · rw [heq, hp]
      decide
    · refine act_stays hl hcpu ?_ hp
      rintro rfl
      exact hyield c rfl p hcpu hp
    · rw [heq]
      decide

theorem quiet_clockintr {clock : ClockSystem} (hstep : s.clock.step mode .clockintr = some clock) :
    Quiet mode s.clock.proc clock.proc ∧ clock.proc.cpu = s.clock.proc.cpu := by
  rcases proc_of_clockintr hstep with heq | ⟨k, hk, hact, hsched⟩
  · exact ⟨Or.inl heq, by rw [heq]⟩
  · refine ⟨Or.inr ⟨k, hk, fun c hc => absurd hc (hact c _)⟩, ?_⟩
    funext c
    rcases cpu_of_step hk (hsched c) with heq | ⟨⟨a, ha⟩, _⟩
    · exact heq
    · exact absurd ha (hact c a)

theorem quiet_proc {l : ProcLabel} {clock : ClockSystem} (hown : s.OwnStep l)
    (hstep : s.clock.step mode (.proc l) = some clock) : Quiet mode s.clock.proc clock.proc ∧
    ∀ c t, s.hart c = some t → clock.proc.cpu c = s.clock.proc.cpu c := by
  have hproc := (proc_of_step hstep).1
  refine ⟨Or.inr ⟨l, hproc, ?_⟩, ?_⟩
  · rintro c rfl p hcpu hthread
    simp only [OwnStep, hcpu] at hown
    have := (hown.2 hthread).2
    contradiction
  · intro c t hc
    have hl : l ≠ .scheduler c := by
      rintro rfl
      rw [OwnStep, hc] at hown
      contradiction
    rcases cpu_of_step hproc hl with heq | ⟨⟨a, rfl⟩, _⟩
    · exact heq
    · rw [OwnStep, hc] at hown
      exact absurd hown.1 (by simp)

theorem clockintrNext_eq {origin : Origin} (hstep : s.clockintrNext mode c origin = some s') :
    ∃ clock, s.clock.step mode .clockintr = some clock ∧ clock.proc.ticks = s.clock.proc.ticks ∧
    s' = { s with clock := clock }.goto c ⟨origin, if clock.clock = ClockPc.idle then .policy
          else .clockintr⟩ := by
  unfold clockintrNext at hstep
  split at hstep
  · contradiction
  · rename_i hbusy
    split at hstep <;> simp only [Option.some.injEq, reduceCtorEq] at hstep
    rename_i clock hclock
    have hticks := ticks_of_clockintr hclock
    rw [if_neg hbusy] at hticks
    exact ⟨clock, hclock, hticks, hstep.symm⟩

/-- No process is in a handler that will yield. -/
structure Cooperative (s : TrapSystem) : Prop where
  sched : s.clock.proc.Sched
  trap : ∀ p, s.trap p = none
  idle : ∀ c t, s.hart c = some t → t.pc.ofTimer = true → (s.clock.proc.cpu c).current = none

namespace Cooperative

section

variable (h : s.Cooperative)
include h

theorem goto {t : Trap} (ht : t.pc.ofTimer = true → (s.clock.proc.cpu c).current = none) :
    (s.goto c t).Cooperative := by
  refine ⟨h.sched, h.trap, ?_⟩
  intro c' t' hc' ht'
  by_cases hc : c' = c
  · subst hc
    simp only [TrapSystem.goto, update_self, Option.some.injEq] at hc'
    exact ht (hc' ▸ ht')
  · simp only [TrapSystem.goto, update_of_ne hc] at hc'
    exact h.idle c' t' hc' ht'

theorem leave : { s with hart := update s.hart c none }.Cooperative := by
  refine ⟨h.sched, h.trap, ?_⟩
  intro c' t' hc' ht'
  by_cases hc : c' = c
  · subst hc
    simp at hc'
  · simp only [update_of_ne hc] at hc'
    exact h.idle c' t' hc' ht'

theorem setClock {clock : ClockSystem}
    {tickTimes : List ℕ} {fired : ℕ} (hquiet : Quiet mode s.clock.proc clock.proc)
    (hcpu : ∀ c t, s.hart c = some t → clock.proc.cpu c = s.clock.proc.cpu c) : { s with
      clock := clock
      tickTimes := tickTimes
      fired := fired }.Cooperative := by
  refine ⟨h.sched.move hquiet.move, h.trap, ?_⟩
  intro c t hc ht
  simp only [hcpu c t hc]
  exact h.idle c t hc ht

theorem not_run {t : Trap} (ht : s.hart c = some t) (htimer : t.pc.ofTimer = true) :
    s.clock.proc.cpu c ≠ .run p := by
  intro hcpu
  have := h.idle c t ht htimer
  simp [hcpu, CpuPc.current] at this

theorem exit {clock : ClockSystem} {status : Int32}
    (hstep : s.clock.step mode (.proc (.act c (.exit status))) = some clock) : { s with
      clock := clock
      hart := update s.hart c none }.Cooperative ∧
    Quiet mode s.clock.proc clock.proc := by
  have hproc := (proc_of_step hstep).1
  have hquiet : Quiet mode s.clock.proc clock.proc := Or.inr ⟨_, hproc, by simp⟩
  refine ⟨setClock (s := { s with hart := update s.hart c none }) h.leave hquiet ?_, hquiet⟩
  intro c' t hc'
  have hne : c' ≠ c := by
    rintro rfl
    simp at hc'
  rcases cpu_of_step (c := c') hproc (by simp) with
    heq | ⟨⟨a, ha⟩, _⟩
  · exact heq
  · simp only [ProcLabel.act.injEq] at ha
    exact absurd ha.1.symm hne

theorem handler (hstep : s.handler mode c = some s') :
    s'.Cooperative ∧ Quiet mode s.clock.proc s'.clock.proc := by
  unfold TrapSystem.handler at hstep
  split at hstep
  · -- nobody has yielded in a handler
    simp only [yieldReturn] at hstep
    split at hstep
    · simp [h.trap] at hstep
    · contradiction
  · cases hstep
    exact ⟨h.goto (by simp [TrapPc.ofTimer]), Or.inl rfl⟩
  · rename_i origin hhart
    have hidle := h.idle c _ hhart rfl
    unfold clockintrStart at hstep
    split at hstep
    · split at hstep
      · split at hstep <;>
          simp only [Option.some.injEq, reduceCtorEq] at hstep
        rename_i clock hclock
        obtain ⟨hquiet, hcpu⟩ := quiet_clockintr hclock
        rw [← hstep]
        refine ⟨goto (h.setClock hquiet (by simp [hcpu])) ?_, hquiet⟩
        intro _
        simp only [hcpu]
        exact hidle
      · contradiction
    · cases hstep
      exact ⟨h.goto (fun _ => hidle), Or.inl rfl⟩
  · rename_i origin hhart
    have hidle := h.idle c _ hhart rfl
    obtain ⟨clock, hclock, _, hnext⟩ := clockintrNext_eq hstep
    obtain ⟨hquiet, hcpu⟩ := quiet_clockintr hclock
    rw [hnext]
    refine ⟨goto (h.setClock hquiet (by simp [hcpu])) ?_, hquiet⟩
    intro _
    simp only [hcpu]
    exact hidle
  · rename_i origin hhart
    have hidle := h.idle c _ hhart rfl
    unfold TrapSystem.policy at hstep
    split at hstep
    · exact absurd ‹_› (h.not_run hhart rfl)
    · cases hstep
      exact ⟨h.goto (fun _ => hidle), Or.inl rfl⟩
  · rename_i origin hhart
    have hidle := h.idle c _ hhart rfl
    cases hstep
    have hset : { s with
        stimecmp := update s.stimecmp c (s.time + timerInterval)
        fired := if c = 0 then 0 else s.fired }.Cooperative :=
      ⟨h.sched, h.trap, h.idle⟩
    exact ⟨hset.goto (fun _ => hidle), Or.inl rfl⟩
  · rename_i origin which hhart
    unfold TrapSystem.devdone at hstep
    split at hstep
    · rename_i p hcpu
      have hwhich : which ≠ 2 := by
        rintro rfl
        exact h.not_run hhart rfl hcpu
      split at hstep
      · contradiction
      · split at hstep
        · split at hstep <;>
            simp only [Option.some.injEq, reduceCtorEq] at hstep
          rename_i clock hclock
          rw [← hstep]
          exact h.exit hclock
        · cases hstep
          exact ⟨h.goto (by simp [TrapPc.ofTimer]), Or.inl rfl⟩
    · cases hstep
      exact ⟨h.goto (by simp [TrapPc.ofTimer]), Or.inl rfl⟩
  · cases hstep
    exact ⟨h.leave, Or.inl rfl⟩

theorem step {l : TrapLabel} (hl : s.TimerOutsideProcess l) (hstep : s.step mode l = some s') :
    s'.Cooperative ∧ Quiet mode s.clock.proc s'.clock.proc := by
  cases l with
  | proc l =>
    simp only [TrapSystem.step] at hstep
    split at hstep
    · rename_i hown
      split at hstep <;>
        simp only [Option.some.injEq, reduceCtorEq] at hstep
      rename_i clock hclock
      obtain ⟨hquiet, hcpu⟩ := quiet_proc hown hclock
      rw [← hstep]
      exact ⟨h.setClock hquiet hcpu, hquiet⟩
    · contradiction
  | intr c origin cause =>
    simp only [TrapSystem.step, ite_eq_some] at hstep
    rw [← hstep.2]
    refine ⟨h.goto ?_, Or.inl rfl⟩
    intro htimer
    simp only [TrapPc.ofTimer, decide_eq_true_eq] at htimer
    subst htimer
    exact hl
  | handler c => exact h.handler hstep
  | elapse n =>
    cases hstep
    exact ⟨⟨h.sched, h.trap, h.idle⟩, Or.inl rfl⟩

end

end Cooperative

end TrapSystem

/-- With `SCHED_FCFS`, in every run in which the CPUs take timer interrupts only
where they have no process, a process that stops being `RUNNING` does so in its
own call of `sleep` or `exit`. -/
theorem fcfs_not_preemptive (time : ℕ) (stimecmp : ℕ → ℕ) (labels : List TrapLabel) (s : TrapSystem)
    (hrun : Machine.run (restrict
      (fun l s => s.TimerOutsideProcess l) (TrapSystem.step .fcfs)) labels
      (trapInit time stimecmp) = some s)
    (l : TrapLabel) (hl : s.TimerOutsideProcess l) (s' : TrapSystem)
    (hstep : s.step .fcfs l = some s') (p : Slot)
    (hp : s.clock.proc.state p = .running)
    (hp' : s'.clock.proc.state p ≠ .running) :
    (s'.clock.proc.state p = .sleeping ∧ (s.clock.proc.pc p).inSleep = true) ∨
    (s'.clock.proc.state p = .zombie ∧ ∃ status, s.clock.proc.pc p = .exitLock status) := by
  have h : s.Cooperative := by
    refine run_invariant (I := TrapSystem.Cooperative) ?_ ?_ hrun
    · intro l s s' hs hstep
      obtain ⟨hl, hstep⟩ := Machine.restrict_eq_some.mp hstep
      exact (hs.step hl hstep).1
    · exact ⟨userinit_sched, fun _ => rfl, by simp [trapInit]⟩
  obtain ⟨_, hquiet⟩ := h.step hl hstep
  rcases h.sched.leaves hquiet.move hp hp' with ⟨hthread, hleave⟩ | hown
  · exact absurd hleave (hquiet.thread h.sched hp hthread)
  · exact hown

def runFirst : List TrapLabel :=
  List.replicate (nproc + 3) (.proc (.scheduler 0)) ++
    [.proc (.act 0 (.next true))]

theorem fcfs_not_preemptive_sleep :
    ∃ s s', Machine.run (restrict (fun l s => s.TimerOutsideProcess l) (TrapSystem.step .fcfs))
        (runFirst ++ [.proc (.act 0 (.sleep 1))])
        (trapInit 0 fun _ => timerInterval) = some s ∧
      s.step .fcfs (.proc (.act 0 (.next true))) = some s' ∧
      ((s'.clock.proc.state initproc = .sleeping ∧ (s.clock.proc.pc initproc).inSleep = true) ∨
      (s'.clock.proc.state initproc = .zombie ∧
        ∃ status, s.clock.proc.pc initproc = .exitLock status)) := by
  refine exists_run₂ (P := fun s => decide (s.clock.proc.state initproc = .running ∧
      (s.step .fcfs (.proc (.act 0 (.next true)))).any
        (fun s' => decide (s'.clock.proc.state initproc ≠ .running)) = true))
    (by decide +kernel) ?_
  intro s hrun hs
  obtain ⟨hp, hany⟩ := of_decide_eq_true hs
  obtain ⟨s', hstep, hp'⟩ := (Option.any_eq_true _ _).mp hany
  exact ⟨s', hstep, fcfs_not_preemptive _ _ _ s hrun
    (.proc (.act 0 (.next true))) trivial s' hstep initproc hp
    (of_decide_eq_true hp')⟩

/-- The timer interrupts the first process on CPU 0, and the handler runs up to
the end of `clockintr`, which takes `n` steps. -/
def timerInterrupt (n : ℕ) : List TrapLabel :=
  [.elapse timerInterval, .intr 0 .user .timer] ++ List.replicate n (.handler 0)

/-- `clockintr` returns without a `yield`; then `usertrap` yields. -/
theorem fcfs_preempted_by_timer : ∃ s s', Machine.run (TrapSystem.step .fcfs)
        (runFirst ++ timerInterrupt (2 * nproc + 5))
        (trapInit 0 fun _ => timerInterval) = some s ∧
      s.hart 0 = some ⟨.user, .devdone 2⟩ ∧
      s.step .fcfs (.handler 0) = some s' ∧
      s.clock.proc.state initproc = .running ∧
      s'.clock.proc.state initproc = .runnable := by
  refine exists_run₂ (P := fun s => decide (s.hart 0 = some ⟨.user, .devdone 2⟩ ∧
      s.clock.proc.state initproc = .running ∧
      (s.step .fcfs (.handler 0)).any
        (fun s' => decide (s'.clock.proc.state initproc = .runnable)) = true))
    (by decide +kernel) ?_
  intro s hrun hs
  obtain ⟨hhart, hp, hany⟩ := of_decide_eq_true hs
  obtain ⟨s', hstep, hp'⟩ := (Option.any_eq_true _ _).mp hany
  exact ⟨s', hhart, hstep, hp, of_decide_eq_true hp'⟩

/-- Between the increment of `ticks` and the write of `stimecmp`. -/
def TrapPc.afterTick : TrapPc → Bool
  | .clockintr | .policy | .rearm => true
  | .devintr _ | .devdone _ | .ret => false

/-- Before the switch on `sched_mode` is over. -/
def TrapPc.beforeYield : TrapPc → Bool
  | .devintr cause => cause = .timer
  | .clockintr | .policy => true
  | .rearm | .devdone _ | .ret => false

namespace TrapSystem

variable {s s' : TrapSystem} {mode : SchedMode} {c : ℕ} {p : Slot}

/-- CPU 0 does not take timer interrupts in a process, if `clockintr` yields
there. -/
def TimerKept (mode : SchedMode) (l : TrapLabel) (s : TrapSystem) : Prop :=
  match l with
  | .intr 0 _ .timer =>
    mode = .fcfs ∨ (s.clock.proc.cpu 0).current = none
  | _ => True

instance (l : TrapLabel) (s : TrapSystem) : Decidable (s.TimerKept mode l) := by
  unfold TimerKept
  split <;> infer_instance

/-- The state of the timer of CPU 0: `ticks` has been incremented at most once
for the present value of `stimecmp`, and if it has, the handler is on its way
to write the next one. -/
structure OneTick (mode : SchedMode) (s : TrapSystem) : Prop where
  counted : s.clock.proc.ticks = UInt32.ofNat s.tickTimes.length
  handling : s.fired = 0 ∨ s.fired = 1 ∧ ∃ t, s.hart 0 = some t ∧ t.pc.afterTick = true
  pending : ∀ o, s.hart 0 = some ⟨o, .devintr .timer⟩ → s.stimecmp 0 ≤ s.time
  alone : ∀ t, s.hart 0 = some t → t.pc.beforeYield = true →
    mode = .fcfs ∨ (s.clock.proc.cpu 0).current = none
  saved : ∀ p t, s.trap p = some t → t.pc.beforeYield = false
  last : ∀ t ∈ s.tickTimes.head?, t ≤ s.time ∧ (s.fired = 0 → t + timerInterval ≤ s.stimecmp 0)
  apart : s.tickTimes.IsChain
    (fun later earlier => earlier + timerInterval ≤ later)

theorem cpu_of_act {a : ProcAction} {clock : ClockSystem} (hc : 0 ≠ c)
    (hstep : s.clock.step mode (.proc (.act c a)) = some clock) :
    clock.proc.cpu 0 = s.clock.proc.cpu 0 := by
  have hproc := (proc_of_step hstep).1
  rcases cpu_of_step (c := 0) hproc (by simp) with
    heq | ⟨⟨a', ha⟩, _⟩
  · exact heq
  · simp only [ProcLabel.act.injEq] at ha
    exact absurd ha.1.symm hc

theorem yield_eq {t : Trap} (hstep : s.yield mode c p t = some s') :
    ∃ clock, s.clock.step mode (.proc (.act c .yield)) = some clock ∧ s' = { s with
        clock := clock
        hart := update s.hart c none
        trap := update s.trap p (some t) } := by
  unfold yield at hstep
  split at hstep <;> simp only [Option.some.injEq, reduceCtorEq] at hstep
  exact ⟨_, ‹_›, hstep.symm⟩

namespace OneTick

section

variable (h : s.OneTick mode)
include h

theorem keep (hhart : s'.hart 0 = s.hart 0) (hfired : s'.fired = s.fired)
    (hticks : s'.tickTimes = s.tickTimes) (hstimecmp : s'.stimecmp 0 = s.stimecmp 0)
    (htime : s.time ≤ s'.time) (hcount : s'.clock.proc.ticks = s.clock.proc.ticks)
    (hcpu : ∀ t, s.hart 0 = some t → s'.clock.proc.cpu 0 = s.clock.proc.cpu 0)
    (hsaved : ∀ p t, s'.trap p = some t → t.pc.beforeYield = false) : s'.OneTick mode := by
  refine ⟨by rw [hcount, hticks, h.counted], ?_, ?_, ?_, hsaved, ?_, ?_⟩
  · rw [hfired, hhart]
    exact h.handling
  · intro o ho
    rw [hhart] at ho
    rw [hstimecmp]
    exact (h.pending o ho).trans htime
  · intro t ht hpc
    rw [hhart] at ht
    rw [hcpu t ht]
    exact h.alone t ht hpc
  · intro t ht
    rw [hticks] at ht
    obtain ⟨hle, hnext⟩ := h.last t ht
    rw [hfired, hstimecmp]
    exact ⟨hle.trans htime, hnext⟩
  · rw [hticks]
    exact h.apart

theorem settle (hfired : s.fired = 0) (hfired' : s'.fired = s.fired)
    (hticks : s'.tickTimes = s.tickTimes) (hstimecmp : s'.stimecmp = s.stimecmp)
    (htime : s'.time = s.time) (hcount : s'.clock.proc.ticks = s.clock.proc.ticks)
    (hhart : ∀ t, s'.hart 0 = some t → t.pc.beforeYield = false)
    (hsaved : ∀ p t, s'.trap p = some t → t.pc.beforeYield = false) : s'.OneTick mode := by
  refine ⟨by rw [hcount, hticks, h.counted], Or.inl (hfired'.trans hfired), ?_, ?_, hsaved, ?_, ?_⟩
  · intro o ho
    have := hhart _ ho
    contradiction
  · intro t ht hpc
    rw [hhart t ht] at hpc
    contradiction
  · rw [hticks, htime, hfired', hstimecmp]
    exact h.last
  · rw [hticks]
    exact h.apart

theorem fired_eq_zero (hhart : ∀ t, s.hart 0 = some t → t.pc.afterTick = false) : s.fired = 0 := by
  rcases h.handling with hfired | ⟨_, t, ht, htick⟩
  · exact hfired
  · rw [hhart t ht] at htick
    contradiction

theorem saved_update {t : Trap} (p : Slot) (ht : t.pc.beforeYield = false) :
    ∀ q t', update s.trap p (some t) q = some t' → t'.pc.beforeYield = false := by
  intro q t' ht'
  by_cases hq : q = p
  · rw [hq, update_self, Option.some.injEq] at ht'
    exact ht' ▸ ht
  · rw [update_of_ne hq] at ht'
    exact h.saved q t' ht'

theorem saved_clear (p : Slot) :
    ∀ q t', update s.trap p none q = some t' → t'.pc.beforeYield = false := by
  intro q t' ht'
  by_cases hq : q = p
  · simp [hq] at ht'
  · rw [update_of_ne hq] at ht'
    exact h.saved q t' ht'

theorem goto_other (hc : 0 ≠ c) (t : Trap) : (s.goto c t).OneTick mode :=
  h.keep (update_of_ne hc _ _) rfl rfl rfl le_rfl rfl
    (fun _ _ => rfl) h.saved

theorem yield_other {t : Trap} (hc : 0 ≠ c) (ht : t.pc.beforeYield = false)
    (hstep : s.yield mode c p t = some s') : s'.OneTick mode := by
  obtain ⟨clock, hclock, rfl⟩ := yield_eq hstep
  exact h.keep (update_of_ne hc _ _) rfl rfl rfl le_rfl
    (ticks_of_step hclock) (fun _ _ => cpu_of_act hc hclock) (h.saved_update p ht)

theorem handler_other (hc : 0 ≠ c) (hstep : s.handler mode c = some s') : s'.OneTick mode := by
  unfold TrapSystem.handler at hstep
  split at hstep
  · unfold yieldReturn at hstep
    split at hstep
    · split at hstep <;> cases hstep
      exact h.keep (update_of_ne hc _ _) rfl rfl rfl le_rfl rfl (fun _ _ => rfl) (h.saved_clear _)
    · contradiction
  · cases hstep
    exact h.goto_other hc _
  · unfold clockintrStart at hstep
    rw [if_neg (Ne.symm hc), Option.some.injEq] at hstep
    rw [← hstep]
    exact h.goto_other hc _
  · obtain ⟨clock, hclock, hticks, hnext⟩ := clockintrNext_eq hstep
    obtain ⟨_, hcpu⟩ := quiet_clockintr hclock
    rw [hnext]
    exact h.keep (update_of_ne hc _ _) rfl rfl rfl le_rfl hticks
      (fun _ _ => congrFun hcpu 0) h.saved
  · unfold TrapSystem.policy at hstep
    split at hstep
    · split at hstep
      · exact h.yield_other hc rfl hstep
      · cases hstep
        exact h.goto_other hc _
    · cases hstep
      exact h.goto_other hc _
  · cases hstep
    refine h.keep (update_of_ne hc _ _) ?_ rfl
      (update_of_ne hc _ _) le_rfl rfl (fun _ _ => rfl) h.saved
    simp [rearm, TrapSystem.goto, Ne.symm hc]
  · unfold TrapSystem.devdone at hstep
    split at hstep
    · split at hstep
      · contradiction
      · split at hstep
        · split at hstep <;>
            simp only [Option.some.injEq, reduceCtorEq] at hstep
          rename_i clock hclock
          rw [← hstep]
          exact h.keep (update_of_ne hc _ _) rfl rfl rfl le_rfl (ticks_of_step hclock)
            (fun _ _ => cpu_of_act hc hclock) h.saved
        · split at hstep
          · exact h.yield_other hc rfl hstep
          · cases hstep
            exact h.goto_other hc _
    · cases hstep
      exact h.goto_other hc _
  · cases hstep
    exact h.keep (update_of_ne hc _ _) rfl rfl rfl le_rfl rfl (fun _ _ => rfl) h.saved

end

variable {origin : Origin}

section

variable (h : s.OneTick mode)
include h

theorem tick (hhart : s.hart 0 = some ⟨origin, .devintr .timer⟩)
    (hstep : s.clockintrStart mode 0 origin = some s') : s'.OneTick mode := by
  have hfired : s.fired = 0 := by
    refine h.fired_eq_zero ?_
    intro t ht
    rw [hhart, Option.some.injEq] at ht
    rw [← ht]
    rfl
  unfold clockintrStart at hstep
  rw [if_pos rfl] at hstep
  split at hstep
  · rename_i hidle
    split at hstep <;> simp only [Option.some.injEq, reduceCtorEq] at hstep
    rename_i clock hclock
    obtain ⟨_, hcpu⟩ := quiet_clockintr hclock
    have hticks := ticks_of_clockintr hclock
    rw [if_pos hidle] at hticks
    rw [← hstep]
    refine ⟨?_, ?_, ?_, ?_, h.saved, ?_, ?_⟩
    · simp [TrapSystem.goto, hticks, h.counted]
    · exact Or.inr ⟨by simp [TrapSystem.goto, hfired], ⟨origin, .clockintr⟩,
        by simp [TrapSystem.goto], rfl⟩
    · simp [TrapSystem.goto]
    · intro t _ _
      simp only [TrapSystem.goto, hcpu]
      exact h.alone _ hhart rfl
    · simp [TrapSystem.goto]
    · simp only [TrapSystem.goto]
      refine List.isChain_cons.mpr ⟨?_, h.apart⟩
      intro t ht
      exact ((h.last t ht).2 hfired).trans (h.pending origin hhart)
  · contradiction

theorem settle_goto (hfired : s.fired = 0) {t : Trap} (ht : t.pc.beforeYield = false) :
    (s.goto 0 t).OneTick mode := by
  refine h.settle hfired rfl rfl rfl rfl rfl ?_ h.saved
  intro t' ht'
  simp only [TrapSystem.goto, update_self, Option.some.injEq] at ht'
  exact ht' ▸ ht

theorem settle_none (hfired : s.fired = 0)
    {clock : ClockSystem} (hcount : clock.proc.ticks = s.clock.proc.ticks) : { s with
      clock := clock
      hart := update s.hart 0 none }.OneTick mode :=
  h.settle hfired rfl rfl rfl rfl hcount (by simp) h.saved

theorem goOn {t t' : Trap} {clock : ClockSystem} (hhart : s.hart 0 = some t)
    (hyield : t.pc.beforeYield = true) (hcount : clock.proc.ticks = s.clock.proc.ticks)
    (hcpu : clock.proc.cpu = s.clock.proc.cpu) (ht' : t'.pc.afterTick = true) :
    ({ s with clock := clock }.goto 0 t').OneTick mode := by
  refine ⟨hcount.trans h.counted, ?_, ?_, ?_, h.saved, h.last, h.apart⟩
  · rcases h.handling with hfired | ⟨hfired, _⟩
    · exact Or.inl hfired
    · exact Or.inr ⟨hfired, t', by simp [TrapSystem.goto], ht'⟩
  · intro o ho
    simp only [TrapSystem.goto, update_self, Option.some.injEq] at ho
    rw [ho] at ht'
    contradiction
  · intro t'' _ _
    simp only [TrapSystem.goto, hcpu]
    exact h.alone t hhart hyield

theorem policy (hhart : s.hart 0 = some ⟨origin, .policy⟩)
    (hstep : s.policy mode 0 origin = some s') : s'.OneTick mode := by
  have hgo : (s.goto 0 ⟨origin, .rearm⟩).OneTick mode := h.goOn hhart rfl rfl rfl rfl
  unfold TrapSystem.policy at hstep
  split at hstep
  · rename_i p hcpu
    split at hstep
    · rename_i hyield
      rcases h.alone _ hhart rfl with hmode | hnone
      · exact absurd hmode hyield.2
      · simp [hcpu, CpuPc.current] at hnone
    · cases hstep
      exact hgo
  · cases hstep
    exact hgo

theorem rearm (origin : Origin) : (s.rearm 0 origin).OneTick mode := by
  refine ⟨h.counted, Or.inl (by simp [TrapSystem.rearm, TrapSystem.goto]),
    ?_, ?_, h.saved, ?_, h.apart⟩
  · simp [TrapSystem.rearm, TrapSystem.goto]
  · intro t ht hpc
    simp only [TrapSystem.rearm, TrapSystem.goto, update_self, Option.some.injEq] at ht
    rw [← ht] at hpc
    contradiction
  · intro t ht
    have hle := (h.last t ht).1
    refine ⟨hle, fun _ => ?_⟩
    simp only [TrapSystem.rearm, TrapSystem.goto, update_self]
    exact Nat.add_le_add_right hle _

theorem devdone {which : ℕ} (hhart : s.hart 0 = some ⟨origin, .devdone which⟩)
    (hstep : s.devdone mode 0 origin which = some s') : s'.OneTick mode := by
  have hfired : s.fired = 0 := h.fired_eq_zero (by simp [hhart, TrapPc.afterTick])
  have hret : (s.goto 0 ⟨origin, .ret⟩).OneTick mode := h.settle_goto hfired rfl
  unfold TrapSystem.devdone at hstep
  split at hstep
  · split at hstep
    · contradiction
    · split at hstep
      · split at hstep <;> cases hstep
        exact h.settle_none hfired (ticks_of_step ‹_›)
      · split at hstep
        · obtain ⟨clock, hclock, rfl⟩ := yield_eq hstep
          exact h.settle hfired rfl rfl rfl rfl (ticks_of_step hclock) (by simp)
            (h.saved_update _ rfl)
        · cases hstep
          exact hret
  · cases hstep
    exact hret

theorem handler_zero (hstep : s.handler mode 0 = some s') : s'.OneTick mode := by
  unfold TrapSystem.handler at hstep
  split at hstep
  · rename_i hhart
    have hfired := h.fired_eq_zero (by simp [hhart])
    unfold yieldReturn at hstep
    split at hstep
    · split at hstep <;> simp only [Option.some.injEq, reduceCtorEq] at hstep
      rename_i t _ ht
      rw [← hstep]
      refine h.settle hfired rfl rfl rfl rfl rfl ?_ (h.saved_clear _)
      intro t' ht'
      simp only [TrapSystem.goto, update_self, Option.some.injEq] at ht'
      rw [← ht']
      exact h.saved _ t ht
    · contradiction
  · rename_i origin hhart
    cases hstep
    exact h.settle_goto (h.fired_eq_zero (by simp [hhart, TrapPc.afterTick])) rfl
  · exact h.tick ‹_› hstep
  · rename_i origin hhart
    obtain ⟨clock, hclock, hticks, hnext⟩ := clockintrNext_eq hstep
    rw [hnext]
    refine h.goOn hhart rfl hticks (quiet_clockintr hclock).2 ?_
    split <;> rfl
  · exact h.policy ‹_› hstep
  · cases hstep
    exact h.rearm _
  · exact h.devdone ‹_› hstep
  · rename_i origin hhart
    cases hstep
    exact h.settle_none (h.fired_eq_zero (by simp [hhart, TrapPc.afterTick])) rfl

theorem intr {cause : Cause} (hl : s.TimerKept mode (.intr c origin cause))
    (hintr : s.Interruptible c origin) (htimer : cause = .timer → s.stimecmp c ≤ s.time) :
    (s.goto c ⟨origin, .devintr cause⟩).OneTick mode := by
  by_cases hc : 0 = c
  · subst hc
    have hfired := h.fired_eq_zero (by simp [hintr.1])
    refine ⟨h.counted, Or.inl hfired, ?_, ?_, h.saved, h.last, h.apart⟩
    · intro o ho
      simp only [TrapSystem.goto, update_self, Option.some.injEq,
        Trap.mk.injEq, TrapPc.devintr.injEq] at ho
      exact htimer ho.2
    · intro t ht hpc
      simp only [TrapSystem.goto, update_self, Option.some.injEq] at ht
      simp only [← ht, TrapPc.beforeYield, decide_eq_true_eq] at hpc
      subst hpc
      exact hl
  · exact h.goto_other hc _

theorem step {l : TrapLabel} (hl : s.TimerKept mode l) (hstep : s.step mode l = some s') :
    s'.OneTick mode := by
  cases l with
  | proc l =>
    simp only [TrapSystem.step] at hstep
    split at hstep
    · rename_i hown
      split at hstep <;>
        simp only [Option.some.injEq, reduceCtorEq] at hstep
      rename_i clock hclock
      rw [← hstep]
      exact h.keep rfl rfl rfl rfl le_rfl (ticks_of_step hclock)
        ((quiet_proc hown hclock).2 0) h.saved
    · contradiction
  | intr c origin cause =>
    simp only [TrapSystem.step, ite_eq_some] at hstep
    rw [← hstep.2]
    exact h.intr hl hstep.1.1 hstep.1.2
  | handler c =>
    by_cases hc : 0 = c
    · subst hc
      exact h.handler_zero hstep
    · exact h.handler_other hc hstep
  | elapse n =>
    cases hstep
    exact h.keep rfl rfl rfl rfl (Nat.le_add_right _ _) rfl (fun _ _ => rfl) h.saved

end

end OneTick

end TrapSystem

/-- In every run in which CPU 0 takes timer interrupts only where it has no
process, or any run with `SCHED_FCFS`, `ticks` is incremented at most once for
each value that CPU 0 writes to `stimecmp`, and two increments are at least
1000000 time units apart. -/
theorem one_tick_per_deadline (mode : SchedMode) (time : ℕ) (stimecmp : ℕ → ℕ)
    (labels : List TrapLabel) (s : TrapSystem)
    (hrun : Machine.run (restrict (fun l s => s.TimerKept mode l)
      (TrapSystem.step mode)) labels (trapInit time stimecmp) = some s) :
    s.clock.proc.ticks = UInt32.ofNat s.tickTimes.length ∧ s.fired ≤ 1 ∧ s.tickTimes.IsChain
        (fun later earlier => earlier + 1000000 ≤ later) := by
  have h : s.OneTick mode := by
    refine run_invariant (I := TrapSystem.OneTick mode) ?_ ?_ hrun
    · intro l s s' hs hstep
      obtain ⟨hl, hstep⟩ := Machine.restrict_eq_some.mp hstep
      exact hs.step hl hstep
    · exact ⟨rfl, Or.inl rfl, by simp [trapInit], by simp [trapInit],
        by simp [trapInit], by simp [trapInit], by simp [trapInit]⟩
  refine ⟨h.counted, ?_, h.apart⟩
  rcases h.handling with hfired | ⟨hfired, _⟩ <;> omega

/-- CPU 0 takes two timer interrupts in `scheduler`, one interval apart. -/
def twoDeadlines : List TrapLabel :=
  [.elapse timerInterval, .intr 0 .kernel .timer] ++
    List.replicate (2 * nproc + 7) (.handler 0) ++
    [.elapse timerInterval, .intr 0 .kernel .timer, .handler 0]

theorem one_tick_per_deadline_idle :
    ∃ s, Machine.run (restrict (fun l s => s.TimerKept .roundRobin l) (TrapSystem.step .roundRobin))
        twoDeadlines (trapInit 0 fun _ => timerInterval) = some s ∧
      s.tickTimes = [2000000, 1000000] ∧
      s.clock.proc.ticks = UInt32.ofNat s.tickTimes.length ∧ s.fired ≤ 1 ∧
      s.tickTimes.IsChain
        (fun later earlier => earlier + 1000000 ≤ later) := by
  refine exists_run (P := fun s => decide (s.tickTimes = [2000000, 1000000])) (by decide +kernel) ?_
  intro s hrun hs
  exact ⟨of_decide_eq_true hs, one_tick_per_deadline _ _ _ _ s hrun⟩

/-- A CPU that can take a pending timer interrupt does nothing else. -/
def TrapSystem.Prompt (l : TrapLabel) (s : TrapSystem) : Prop :=
  match l with
  | .proc (.scheduler c) | .proc (.act c _) | .intr c _ .external =>
    ¬(s.Interruptible c .kernel ∧ s.stimecmp c ≤ s.time)
  | _ => True

instance (l : TrapLabel) (s : TrapSystem) : Decidable (s.Prompt l) := by
  unfold TrapSystem.Prompt
  split <;> infer_instance

/-- The timer interrupts the first process, `clockintr` yields before it writes
`stimecmp`, and CPU 0 takes the same interrupt again in `scheduler`. -/
def timerTwice : List TrapLabel :=
  List.replicate 3 (.proc (.scheduler 0)) ++ [.proc (.act 0 (.next true))] ++
    timerInterrupt (2 * nproc + 4) ++
    [.proc (.act 0 (.next true)), .proc (.scheduler 0), .intr 0 .kernel .timer, .handler 0]

theorem two_ticks_for_one_deadline :
    ∃ s, Machine.run (restrict (fun l s => s.Prompt l) (TrapSystem.step .roundRobin)) timerTwice
        (trapInit 0 fun _ => timerInterval) = some s ∧
      s.clock.proc.ticks = 2 ∧ s.fired = 2 ∧ s.stimecmp 0 = timerInterval ∧
      s.tickTimes = [1000000, 1000000] := by
  exact Machine.exists_run_decide (by decide +kernel)

end Xv6
