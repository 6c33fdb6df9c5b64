import Xv6.ExclusiveExecution
import Xv6.ProcFrame

/-!
# Sleep and wakeup under a lock

A condition is protected by a spinlock `lk`.  Sleepers wait for it,

    acquire(lk); while(!cond) sleep(chan, lk); ...; release(lk)

and wakers make it true,

    acquire(lk); cond = true; wakeup(chan); release(lk)

on any CPU, in the kernel code of a process or in an interrupt handler.
Everything else that the processes and CPUs do goes on as before, but nobody
else uses `chan`.  The history variable `fresh` says that the condition has
been true since the last `wakeup(chan)`.
-/

namespace Xv6

open Function (update update_of_ne update_self)

/-- Who has `lk`, and where it is. -/
inductive LkHolder
  | check (p : Slot)
  | toSleep (p : Slot)
  | asleep (p : Slot)
  | body (p : Slot)
  | setCond (c : ℕ)
  | waking (c i : ℕ)
  | woken (c : ℕ)
  deriving DecidableEq

def LkHolder.sleeper : LkHolder → Option Slot
  | .check p | .toSleep p | .asleep p | .body p => some p
  | .setCond _ | .waking .. | .woken _ => none

def LkHolder.waker : LkHolder → Option ℕ
  | .setCond c | .waking c _ | .woken c => some c
  | .check _ | .toSleep _ | .asleep _ | .body _ => none

/-- `inSleep p` says that `p` has released `lk` in `sleep` and has to get it
back. -/
structure CondSystem where
  proc : ProcSystem
  lk : Option LkHolder
  inSleep : Slot → Bool
  cond : Bool
  fresh : Bool

inductive CondLabel
  | proc (l : ProcLabel)
  | sleeper (c : ℕ)
  | body (c : ℕ) (cond : Bool)
  | waker (c : ℕ)

def ProcAction.sleepsOn : ProcAction → Option ℕ
  | .sleep n => some n
  | _ => none

/-- CPU `c` executes kernel code outside `swtch`, in a thread or in the loop of
`scheduler`. -/
def ProcSystem.InKernel (c : ℕ) (s : ProcSystem) : Prop :=
  match s.cpu c with
  | .run p => s.thread p = .running
  | .choose .. | .dispatch _ | .wfi => True
  | .switchTo _ | .after _ => False

instance (c : ℕ) (s : ProcSystem) : Decidable (s.InKernel c) := by
  unfold ProcSystem.InKernel
  split <;> infer_instance

namespace CondSystem

def Unconcerned (chan : ℕ) (l : ProcLabel) (s : CondSystem) : Prop :=
  match l with
  | .scheduler c => s.lk.bind LkHolder.waker ≠ some c
  | .act c a =>
    s.lk.bind LkHolder.waker ≠ some c ∧ a.sleepsOn ≠ some chan ∧ match s.proc.cpu c with
      | .run p =>
        s.lk.bind LkHolder.sleeper ≠ some p ∧ (s.inSleep p = true → s.proc.thread p ≠ .running)
      | _ => True
  | .wakeup _ n _ => n ≠ chan
  | .tick | .updateTime _ => True

instance (chan : ℕ) : ∀ l s, Decidable (Unconcerned chan l s)
  | .scheduler _, _ => instDecidableNot
  | .act c _, s =>
    have : Decidable (match s.proc.cpu c with
      | .run p =>
        s.lk.bind LkHolder.sleeper ≠ some p ∧ (s.inSleep p = true → s.proc.thread p ≠ .running)
      | _ => True) :=
      match s.proc.cpu c with
      | .run _ => inferInstanceAs (Decidable (_ ∧ (_ → _)))
      | .choose .. | .dispatch _ | .switchTo _ | .after _ | .wfi =>
        instDecidableTrue
    instDecidableAnd
  | .wakeup .., _ => instDecidableNot
  | .tick, _ | .updateTime _, _ => instDecidableTrue

/-- `sleep` up to `acquire(&p->lock)`. -/
def sleepLock (mode : SchedMode) (chan c : ℕ) (p : Slot) (s : CondSystem) : Option CondSystem :=
  match s.proc.step mode (.act c (.sleep chan)) with
  | none => none
  | some proc => some { s with proc := proc, lk := some (.asleep p) }

/-- The next step of a sleeper, whose thread CPU `c` runs.  `acquire(lk)` is the
first step and the end of `sleep`. -/
def sleeper (mode : SchedMode) (chan c : ℕ) (s : CondSystem) : Option CondSystem :=
  match s.proc.cpu c with
  | .run p =>
    match s.lk with
    | none =>
      if s.proc.thread p = .running ∧ (s.proc.pc p).isUser = true then
        some { s with
          lk := some (.check p)
          inSleep := update s.inSleep p false }
      else none
    | some (.check q) =>
      if q = p then
        some { s with
          lk := some (if s.cond = true then .body p else .toSleep p) }
      else none
    | some (.toSleep q) =>
      if q = p then s.sleepLock mode chan c p else none
    | some (.asleep q) =>
      if q = p then
        some { s with
          lk := none
          inSleep := update s.inSleep p true }
      else none
    | some (.body q) => if q = p then some { s with lk := none } else none
    | some (.setCond _) | some (.waking ..) | some (.woken _) => none
  | _ => none

/-- A sleeper that has found the condition true may change it. -/
def body (c : ℕ) (cond : Bool) (s : CondSystem) : Option CondSystem :=
  match s.proc.cpu c with
  | .run p =>
    if s.lk = some (.body p) then
      some { s with cond := cond, fresh := s.fresh && cond }
    else none
  | _ => none

/-- One slot in the loop of `wakeup(chan)`, or its end. -/
def wakeup (mode : SchedMode) (chan c i : ℕ) (s : CondSystem) : Option CondSystem :=
  if hi : i < nproc then
    match s.proc.step mode (.wakeup c chan ⟨i, hi⟩) with
    | none => none
    | some proc => some { s with proc := proc, lk := some (.waking c (i + 1)) }
  else some { s with fresh := s.cond, lk := some (.woken c) }

/-- The next step of a waker on CPU `c`. -/
def waker (mode : SchedMode) (chan c : ℕ) (s : CondSystem) : Option CondSystem :=
  match s.lk with
  | none =>
    if s.proc.InKernel c then some { s with lk := some (.setCond c) }
    else none
  | some (.setCond c') =>
    if c' = c then
      some { s with cond := true, lk := some (.waking c 0) }
    else none
  | some (.waking c' i) => if c' = c then s.wakeup mode chan c i else none
  | some (.woken c') => if c' = c then some { s with lk := none } else none
  | some (.check _) | some (.toSleep _) | some (.asleep _) |
      some (.body _) => none

def step (mode : SchedMode) (chan : ℕ) (l : CondLabel) (s : CondSystem) : Option CondSystem :=
  match l with
  | .proc l =>
    if s.Unconcerned chan l then
      match s.proc.step mode l with
      | none => none
      | some proc => some { s with proc := proc }
    else none
  | .sleeper c => s.sleeper mode chan c
  | .body c cond => s.body c cond
  | .waker c => s.waker mode chan c

end CondSystem

def condInit (cond : Bool) : CondSystem where
  proc := userinit
  lk := none
  inSleep := fun _ => false
  cond := cond
  fresh := false

namespace ProcSystem

variable {s s' : ProcSystem} {mode : SchedMode} {chan c : ℕ} {p q : Slot}

/-- `q` has taken its lock in `sleep(chan)`, and nobody has woken it since. -/
def Committed (chan : ℕ) (q : Slot) (s : ProcSystem) : Prop :=
  (s.thread q = .locked ∧ s.pc q = .sleepOn chan) ∨
    (s.state q = .sleeping ∧ s.chan q = some (.other chan))

theorem locked_of_move (hmove : ProcMove s s')
    (hpc : s.pc q = .sleepOn chan) (hthread : s'.thread q = .locked) : s.thread q = .locked := by
  have hupdate : ∀ (r : Slot) (thread : Thread), thread ≠ .locked →
      update s.thread r thread q = .locked → s.thread q = .locked := by
    intro r thread hne h
    by_cases hq : q = r
    · rw [hq, update_self] at h
      exact absurd h hne
    · rwa [update_of_ne hq] at h
  have hlock : ∀ r, s.pc r ≠ .sleepOn chan → update s.thread r .locked q = .locked →
      s.thread q = .locked := by
    intro r hr h
    have hq : q ≠ r := by
      rintro rfl
      exact hr hpc
    rwa [update_of_ne hq] at h
  cases hmove with
  | switchTo hcpu | sched hcpu hleave | resume hcpu hres
  | sleep hcpu hlocked hsleep | exitUnlock hcpu hlocked hexit
  | yield hrun hpre | allocprocContext hrun hfork =>
    exact hupdate _ _ (by decide) hthread
  | @sleepLock c r n hrun hplain =>
    refine hlock r ?_ hthread
    intro hr
    simp [hr, ProcPc.plain] at hplain
  | @exitZombie c r status hrun hexit hfree =>
    exact hlock r (by simp [hexit]) hthread
  | @waitSleep c r w addr hrun hwait =>
    exact hlock r (by simp [hwait]) hthread
  | _ => exact hthread

theorem sleeping_of_move (hmove : ProcMove s s') (hstate : s'.state q = .sleeping)
    (hchan : s'.chan q = some (.other chan)) : s.Committed chan q := by
  have hupdate : ∀ (r : Slot) (state : ProcState), state ≠ .sleeping →
      update s.state r state q = .sleeping → s.state q = .sleeping := by
    intro r state hne h
    by_cases hq : q = r
    · rw [hq, update_self] at h
      exact absurd h hne
    · rwa [update_of_ne hq] at h
  have hclear : ∀ r, update s.chan r none q = some (.other chan) →
      s.chan q = some (.other chan) := by
    intro r h
    by_cases hq : q = r
    · simp [hq] at h
    · rwa [update_of_ne hq] at h
  cases hmove with
  | wakeup | dispatch | yield | killWake | allocproc | forkRunnable | wakeInit |
      wakeParent | exitZombie =>
    exact Or.inr ⟨hupdate _ _ (by decide) hstate, hchan⟩
  | @sleep c r ch hcpu hlocked hsleep =>
    by_cases hq : q = r
    · subst hq
      simp only [sleep, update_self] at hchan
      cases hchan
      refine Or.inl ⟨hlocked, ?_⟩
      cases hpc : s.pc q <;> simp [hpc, ProcPc.sleepChan] at hsleep
      rw [hsleep]
    · simp only [sleep, update_of_ne hq] at hstate hchan
      exact Or.inr ⟨hstate, hchan⟩
  | @resume c r hcpu hres =>
    refine Or.inr ⟨hstate, ?_⟩
    simp only [resume, goto] at hchan
    split at hchan
    · exact hclear r hchan
    · exact hchan
  | forkFail | waitReap =>
    exact Or.inr ⟨hupdate _ _ (by decide) hstate, hclear _ hchan⟩
  | _ => exact Or.inr ⟨hstate, hchan⟩

theorem committed_of_step {l : ProcLabel} (hstep : s.step mode l = some s')
    (hl : ∀ c, l ≠ .act c (.sleep chan)) (h : s'.Committed chan q) : s.Committed chan q := by
  rcases h with ⟨hthread, hpc⟩ | ⟨hstate, hchan⟩
  · rcases asleep_of_step hstep hpc with hold | ⟨c, hc⟩
    · exact Or.inl ⟨locked_of_move (step_move hstep) hold hthread, hold⟩
    · exact absurd hc (hl c)
  · exact sleeping_of_move (step_move hstep) hstate hchan

theorem Sched.inKernel (h : s.Sched) {l : ProcLabel} (hc : s.InKernel c)
    (hstep : s.step mode l = some s') (hsched : l ≠ .scheduler c)
    (hact : ∀ a, l ≠ .act c a) : s'.InKernel c := by
  have hcpu : s'.cpu c = s.cpu c := by
    rcases cpu_of_step hstep hsched with heq | ⟨⟨a, ha⟩, _⟩
    · exact heq
    · exact absurd ha (hact a)
  unfold InKernel at hc ⊢
  rw [hcpu]
  cases hp : s.cpu c with
  | run p =>
    rw [hp] at hc
    dsimp only at hc ⊢
    obtain ⟨on, hseated⟩ := h.seated
    have hon := hseated.on_run hp
    have hrunning := (hseated.running ⟨hp, hc⟩).1
    have hfork : ∀ r, s.pc r ≠ .forkAlloc p := by
      intro r hr
      have := h.forks.used r p (by rw [hr]; rfl)
      simp [hrunning] at this
    rcases thread_of_step hstep hfork with
      heq | ⟨c', a, hl, hc'⟩ | ⟨c', hl, hc', _⟩
    · rw [heq, hc]
    · have := hseated.on_run hc'
      rw [hon, Option.some.injEq] at this
      exact absurd hl (this ▸ hact a)
    · have := hseated.on_eq (c := c') (p := p) (by rw [hc']; rfl)
      rw [hon, Option.some.injEq] at this
      exact absurd hl (this ▸ hsched)
  | _ => simp_all

theorem Sched.not_committed (h : s.Sched) (hc : s.InKernel c)
    (hstep : s.step mode (.wakeup c chan q) = some s') : ¬s'.Committed chan q := by
  obtain ⟨on, hseated⟩ := h.seated
  simp only [step] at hstep
  split at hstep
  · -- `p != myproc()` fails: the waker itself is running
    rename_i hproc
    cases hstep
    rw [hseated.cpuProc] at hproc
    have hrun : s.Runs c q := by
      unfold InKernel at hc
      cases hcpu : s.cpu c <;> simp_all [CpuPc.current, Runs]
    have hrunning := (hseated.running hrun).1
    rintro (⟨hthread, _⟩ | ⟨hstate, _⟩)
    · rw [hrun.2] at hthread
      contradiction
    · rw [hrunning] at hstate
      contradiction
  · simp only [wakeupSlot] at hstep
    split at hstep
    · rename_i hlock
      have hlocked : s.thread q ≠ .locked := by
        intro hthread
        have hseat := hseated.seat q
        rw [hthread] at hseat
        exact hseat.ne_none_of_locked hlock
      split at hstep <;> cases hstep
      · rintro (⟨hthread, _⟩ | ⟨hstate, _⟩)
        · exact hlocked hthread
        · simp at hstate
      · rename_i hawake
        rintro (⟨hthread, _⟩ | hasleep)
        · exact hlocked hthread
        · exact hawake hasleep
    · contradiction

end ProcSystem

namespace CondSystem

variable {s s' : CondSystem} {mode : SchedMode} {chan c : ℕ} {p : Slot}

/-- While the condition has been true since the last `wakeup`, nobody is
committed to sleep; a `wakeup` that is under way has reached this for the slots
that it has visited. -/
structure Awake (chan : ℕ) (s : CondSystem) : Prop where
  sched : s.proc.Sched
  fresh : s.fresh = true → s.cond = true ∧ ∀ q, ¬s.proc.Committed chan q
  toSleep : ∀ p, s.lk = some (.toSleep p) → s.cond = false
  kernel : ∀ c, s.lk.bind LkHolder.waker = some c → s.proc.InKernel c
  waking : ∀ c i, s.lk = some (.waking c i) → s.cond = true ∧
    ∀ q : Slot, q < i → ¬s.proc.Committed chan q

namespace Awake

section

variable (h : s.Awake chan)
include h

theorem hold {lk : Option LkHolder} (inSleep : Slot → Bool) (hlk : lk.bind LkHolder.waker = none)
    (hcond : ∀ p, lk = some (.toSleep p) → s.cond = false) :
    { s with lk := lk, inSleep := inSleep }.Awake chan := by
  refine ⟨h.sched, h.fresh, hcond, ?_, ?_⟩
  · intro c hc
    simp only [hlk] at hc
    contradiction
  · intro c i hc
    simp only at hc
    rw [hc] at hlk
    contradiction

theorem proc {l : ProcLabel} {proc : ProcSystem} (hl : s.Unconcerned chan l)
    (hstep : s.proc.step mode l = some proc) : { s with proc := proc }.Awake chan := by
  have hsleep : ∀ c, l ≠ .act c (.sleep chan) := by
    rintro c rfl
    exact hl.2.1 rfl
  have hkeep : ∀ q, ¬s.proc.Committed chan q → ¬proc.Committed chan q :=
    fun q hq hq' => hq (ProcSystem.committed_of_step hstep hsleep hq')
  refine ⟨h.sched.move (ProcSystem.step_move hstep), ?_, h.toSleep, ?_, ?_⟩
  · intro hfresh
    obtain ⟨hcond, hnone⟩ := h.fresh hfresh
    exact ⟨hcond, fun q => hkeep q (hnone q)⟩
  · intro c hc
    refine h.sched.inKernel (h.kernel c hc) hstep ?_ ?_
    · rintro rfl
      exact hl hc
    · rintro a rfl
      exact hl.1 hc
  · intro c i hc
    obtain ⟨hcond, hnone⟩ := h.waking c i hc
    exact ⟨hcond, fun q hq => hkeep q (hnone q hq)⟩

theorem sleepLock (hlk : s.lk = some (.toSleep p))
    (hstep : s.sleepLock mode chan c p = some s') : s'.Awake chan := by
  unfold CondSystem.sleepLock at hstep
  split at hstep <;> simp only [Option.some.injEq, reduceCtorEq] at hstep
  rename_i proc hproc
  rw [← hstep]
  have hcond := h.toSleep p hlk
  refine ⟨h.sched.move (ProcSystem.step_move hproc), ?_, by simp, by simp [LkHolder.waker], by simp⟩
  intro hfresh
  rw [(h.fresh hfresh).1] at hcond
  contradiction

theorem sleeper (hstep : s.sleeper mode chan c = some s') : s'.Awake chan := by
  unfold CondSystem.sleeper at hstep
  split at hstep
  · split at hstep
    · simp only [ite_eq_some] at hstep
      rw [← hstep.2]
      exact h.hold _ rfl (by simp)
    · simp only [ite_eq_some] at hstep
      rw [← hstep.2]
      refine h.hold s.inSleep ?_ ?_
      · split <;> rfl
      · intro q hq
        split at hq
        · simp at hq
        · simpa using ‹¬s.cond = true›
    · simp only [Option.ite_none_right_eq_some] at hstep
      obtain ⟨rfl, hstep⟩ := hstep
      exact h.sleepLock ‹_› hstep
    · simp only [ite_eq_some] at hstep
      rw [← hstep.2]
      exact h.hold _ rfl (by simp)
    · simp only [ite_eq_some] at hstep
      rw [← hstep.2]
      exact h.hold s.inSleep rfl (by simp)
    all_goals contradiction
  · contradiction

theorem body {cond : Bool} (hstep : s.body c cond = some s') : s'.Awake chan := by
  unfold CondSystem.body at hstep
  split at hstep
  · simp only [ite_eq_some] at hstep
    obtain ⟨hlk, rfl⟩ := hstep
    refine ⟨h.sched, ?_, by simp [hlk], by simp [hlk, LkHolder.waker], by simp [hlk]⟩
    intro hfresh
    simp only [Bool.and_eq_true] at hfresh
    exact ⟨hfresh.2, (h.fresh hfresh.1).2⟩
  · contradiction

theorem wakeup {i : ℕ} (hlk : s.lk = some (.waking c i))
    (hstep : s.wakeup mode chan c i = some s') : s'.Awake chan := by
  obtain ⟨hcond, hnone⟩ := h.waking c i hlk
  have hkernel := h.kernel c (by rw [hlk]; rfl)
  unfold CondSystem.wakeup at hstep
  split at hstep
  · rename_i hi
    split at hstep <;> simp only [Option.some.injEq, reduceCtorEq] at hstep
    rename_i proc hproc
    have hkeep : ∀ q, ¬s.proc.Committed chan q → ¬proc.Committed chan q := fun q hq hq' =>
        hq (ProcSystem.committed_of_step hproc (by simp) hq')
    rw [← hstep]
    refine ⟨h.sched.move (ProcSystem.step_move hproc), ?_, by simp, ?_, ?_⟩
    · intro hfresh
      exact ⟨hcond, fun q => hkeep q ((h.fresh hfresh).2 q)⟩
    · intro c' hc'
      simp only [Option.bind_some, LkHolder.waker, Option.some.injEq] at hc'
      subst hc'
      exact h.sched.inKernel hkernel hproc (by simp) (by simp)
    · intro c' j hj
      simp only [Option.some.injEq, LkHolder.waking.injEq] at hj
      refine ⟨hcond, ?_⟩
      intro q hq
      rcases Nat.lt_succ_iff_lt_or_eq.mp (hj.2 ▸ hq) with hlt | heq
      · exact hkeep q (hnone q hlt)
      · have hqi : q = ⟨i, hi⟩ := Fin.ext heq
        rw [hqi]
        exact h.sched.not_committed hkernel hproc
  · cases hstep
    refine ⟨h.sched, ?_, by simp, ?_, by simp⟩
    · intro _
      exact ⟨hcond, fun q => hnone q (by omega)⟩
    · intro c' hc'
      simp only [Option.bind_some, LkHolder.waker, Option.some.injEq] at hc'
      exact hc' ▸ hkernel

theorem waker (hstep : s.waker mode chan c = some s') : s'.Awake chan := by
  unfold CondSystem.waker at hstep
  split at hstep
  · simp only [ite_eq_some] at hstep
    obtain ⟨hkernel, rfl⟩ := hstep
    refine ⟨h.sched, h.fresh, by simp, ?_, by simp⟩
    intro c' hc'
    simp only [Option.bind_some, LkHolder.waker, Option.some.injEq] at hc'
    exact hc' ▸ hkernel
  · rename_i c' hlk
    simp only [ite_eq_some] at hstep
    obtain ⟨rfl, rfl⟩ := hstep
    have hkernel := h.kernel c' (by rw [hlk]; rfl)
    refine ⟨h.sched, ?_, by simp, ?_, ?_⟩
    · intro hfresh
      exact ⟨rfl, (h.fresh hfresh).2⟩
    · intro c hc
      simp only [Option.bind_some, LkHolder.waker, Option.some.injEq] at hc
      exact hc ▸ hkernel
    · intro c i hi
      simp only [Option.some.injEq, LkHolder.waking.injEq] at hi
      refine ⟨rfl, ?_⟩
      intro q hq
      omega
  · simp only [Option.ite_none_right_eq_some] at hstep
    obtain ⟨rfl, hstep⟩ := hstep
    exact h.wakeup ‹_› hstep
  · simp only [ite_eq_some] at hstep
    rw [← hstep.2]
    exact h.hold s.inSleep rfl (by simp)
  all_goals contradiction

theorem step {l : CondLabel} (hstep : s.step mode chan l = some s') : s'.Awake chan := by
  cases l with
  | proc l =>
    simp only [CondSystem.step] at hstep
    split at hstep
    · split at hstep <;> cases hstep
      exact h.proc ‹_› ‹_›
    · contradiction
  | sleeper c => exact h.sleeper hstep
  | body c cond => exact h.body hstep
  | waker c => exact h.waker hstep

end

end Awake

end CondSystem

/-- In no run is there a state in which `lk` is free, the condition has been
true since the last `wakeup(chan)`, and a process sleeps on `chan`. -/
theorem no_wakeup_lost (mode : SchedMode) (chan : ℕ) (cond : Bool) (labels : List CondLabel)
    (s : CondSystem)
    (hrun : Machine.run (CondSystem.step mode chan) labels (condInit cond) = some s) :
    ¬(s.lk = none ∧ s.fresh = true ∧ ∃ p, s.proc.state p = .sleeping ∧
      s.proc.chan p = some (.other chan)) := by
  have h : s.Awake chan := by
    refine Machine.run_invariant (I := CondSystem.Awake chan) ?_ ?_ hrun
    · intro l s s' hs hstep
      exact hs.step hstep
    · exact ⟨ProcSystem.userinit_sched, by simp [condInit],
        by simp [condInit], by simp [condInit], by simp [condInit]⟩
  rintro ⟨_, hfresh, p, hasleep⟩
  exact (h.fresh hfresh).2 p (Or.inr hasleep)

def sleepAndWake : List CondLabel :=
  List.replicate 3 (.proc (.scheduler 0)) ++ [.proc (.act 0 (.next true))] ++
    List.replicate 4 (.sleeper 0) ++
    [.proc (.act 0 (.next true)), .proc (.act 0 (.next true)), .proc (.scheduler 0)] ++
    List.replicate (nproc + 4) (.waker 1)

theorem no_wakeup_lost_first : ∃ s, Machine.run (CondSystem.step .roundRobin 7) sleepAndWake
        (condInit false) = some s ∧
      s.lk = none ∧ s.fresh = true ∧ s.inSleep initproc = true ∧
      s.proc.state initproc = .runnable ∧
      ¬(s.lk = none ∧ s.fresh = true ∧ ∃ p, s.proc.state p = .sleeping ∧
        s.proc.chan p = some (.other 7)) := by
  refine Machine.exists_run (P := fun s => decide (s.lk = none ∧
      s.fresh = true ∧ s.inSleep initproc = true ∧
      s.proc.state initproc = .runnable))
    (by decide +kernel) ?_
  intro s hrun hs
  obtain ⟨hlk, hfresh, hsleep, hstate⟩ := of_decide_eq_true hs
  exact ⟨hlk, hfresh, hsleep, hstate, no_wakeup_lost _ _ _ _ s hrun⟩

end Xv6
