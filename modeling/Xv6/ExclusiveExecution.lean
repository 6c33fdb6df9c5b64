import Xv6.ProcSeat

/-!
# Exclusive execution

Every move of the system keeps the invariants of `ProcSeat`: only a CPU that
holds `p->lock` and has seen `RUNNABLE` under it takes a process, and it
releases the lock only after `swtch` has saved the context.
-/

namespace Xv6

open Function (update update_of_ne update_self)

/-! ## Every move keeps the invariants -/

namespace ProcSystem

variable {s s' : ProcSystem} {on : Slot → Option ℕ} {c : ℕ} {p q np : Slot}

theorem afterSleep_ne {k : ProcPc} (hk : k ≠ .exitUnlock) : k.afterSleep ≠ .exitUnlock := by
  cases k <;> simp_all [ProcPc.afterSleep]

theorem afterSleep_child (k : ProcPc) : k.afterSleep.child = none ∨ k.afterSleep = k := by
  cases k <;> simp [ProcPc.afterSleep, ProcPc.child]

theorem Forks.move (h : s.Forks) (hseated : s.Seated on) (hmove : ProcMove s s') : s'.Forks := by
  have hrunning : ∀ {c p}, s.Runs c p → s.state p ≠ .used := by
    intro c p hrun
    rw [(hseated.running hrun).1]
    decide
  cases hmove with
  | stay => exact h
  | clock | scan | retire | setkilled => exact ⟨h.used, h.unique, h.saved⟩
  | wakeup hlock hstate | dispatch hcpu hlock hstate =>
    exact h.change (q := _) (by rw [hstate]; decide)
      (fun r hr => by simp [hr]) (fun r => Or.inr rfl)
  | @switchTo c p hcpu =>
    have hseat := hseated.seat p
    rw [hseated.on_eq (c := c) (by rw [hcpu]; rfl)] at hseat
    exact h.change (q := p) (by rw [(hseat.of_switchTo hcpu).1]; decide)
      (fun r hr => by simp [hr]) (fun r => Or.inr rfl)
  | @sched c p hcpu hthread =>
    have hseat := hseated.seat p
    rw [hthread] at hseat
    refine h.change (q := p) ?_ (fun r hr => by simp [sched, hr]) (fun r => Or.inr rfl)
    rcases hseat.of_leaving with hst | hst | hst <;> simp [hst]
  | @resume c p hcpu hthread =>
    have hseat := hseated.seat p
    rw [hthread] at hseat
    refine h.change (q := p) (by rw [hseat.of_resumed]; decide)
      (fun r hr => by simp [resume, ProcSystem.goto, hr]) ?_
    intro r
    by_cases hr : r = p
    · subst hr
      simpa [resume, ProcSystem.goto] using afterSleep_child (s.pc r)
    · simp [resume, ProcSystem.goto, hr]
  | @sleep c p chan hcpu hthread hpc =>
    have hseat := hseated.seat p
    rw [hthread] at hseat
    refine h.change (q := p) ?_ (fun r hr => by simp [sleep, hr]) (fun r => Or.inr rfl)
    rcases hseat.of_locked with hst | hst <;> simp [hst]
  | @exitUnlock c p hcpu hthread hpc =>
    have hseat := hseated.seat p
    rw [hthread] at hseat
    refine Forks.goto (h.change (q := p) ?_ (fun r hr => by simp [hr]) (fun r => Or.inr rfl)) rfl
    rcases hseat.of_locked with hst | hst <;> simp [hst]
  | yield hrun hpc =>
    exact h.change (q := _) (hrunning hrun) (fun r hr => by simp [yield, hr]) (fun r => Or.inr rfl)
  | sleepLock hrun hpc | exitZombie hrun hpc hlock =>
    exact Forks.goto (h.change (q := _) (hrunning hrun)
      (fun r hr => by simp [hr]) (fun r => Or.inr rfl)) rfl
  | plain hrun hpc hk => exact h.goto (ProcPc.child_of_plain hk)
  | killWake hrun hpc hlock hstate | wakeInit hrun hpc hlock hstate
  | wakeParent hrun hpc hlock hstate =>
    exact Forks.goto (h.change (q := _) (by rw [hstate]; decide)
      (fun r hr => by simp [hr]) (fun r => Or.inr rfl)) rfl
  | killMark hrun hpc | exit | reparent | waitStart | waitReturn =>
    exact Forks.goto ⟨h.used, h.unique, h.saved⟩ rfl
  | @allocproc c p np hrun hpc hlock hstate =>
    refine h.advance (n := np) (k := .forkAlloc np) (p := p) ?_ rfl ?_ ?_ ?_ ?_ ?_
    · intro q _ hq
      have := h.used q np hq
      rw [hstate] at this
      contradiction
    · simp [ProcSystem.goto]
    · simp [ProcPc.hasContext]
    · simp [ProcSystem.goto]
    · intro q hq
      simp [ProcSystem.goto, hq]
    · intro r hr
      simp [ProcSystem.goto, hr]
  | @allocprocContext c p np hrun hpc =>
    have hchild : (s.pc p).child = some np := by rw [hpc]; rfl
    refine h.advance (n := np) (k := .forkCopy np) (p := p)
      (fun q hq => h.only hchild hq) rfl ?_ ?_ ?_ ?_ ?_
    · exact h.used p np hchild
    · simp [ProcSystem.goto, ProcSystem.allocprocContext]
    · simp [ProcSystem.goto]
    · intro q hq
      simp [ProcSystem.goto, hq, ProcSystem.allocprocContext]
    · intro r hr
      simp [ProcSystem.goto, hr, ProcSystem.allocprocContext]
  | @forkFail c p np hrun hpc =>
    have hchild : (s.pc p).child = some np := by
      rcases hpc with hpc | hpc <;> rw [hpc] <;> rfl
    refine h.finish (n := np) (k := .user (some (-1))) hchild rfl rfl ?_
    intro r hr
    simp [forkFail, ProcSystem.goto, freeproc, hr]
  | @forkCopied c p np hrun hpc =>
    have hchild : (s.pc p).child = some np := by rw [hpc]; rfl
    have hne : np ≠ p := h.child_ne hchild (hrunning hrun)
    refine h.advance (n := np) (k := .forkParent np (s.pid np)) (p := p)
      (fun q hq => h.only hchild hq) rfl ?_ ?_ ?_ ?_ ?_
    · exact h.used p np hchild
    · intro _
      exact h.saved p np hchild (by rw [hpc]; rfl)
    · simp [forkCopied, ProcSystem.goto]
    · intro q hq
      by_cases hqnp : q = np
      · subst hqnp
        simp [forkCopied, ProcSystem.goto, hne, ProcPc.child]
      · simp [forkCopied, ProcSystem.goto, hq, hqnp]
    · intro r hr
      simp [forkCopied, ProcSystem.goto]
  | @forkParent c p np pid hrun hpc hwait =>
    have hchild : (s.pc p).child = some np := by rw [hpc]; rfl
    refine h.advance (n := np) (k := .forkRunnable np pid) (p := p)
      (fun q hq => h.only hchild hq) rfl ?_ ?_ ?_ ?_ ?_
    · exact h.used p np hchild
    · intro _
      exact h.saved p np hchild (by rw [hpc]; rfl)
    · simp [ProcSystem.forkParent, ProcSystem.goto]
    · intro q hq
      simp [ProcSystem.forkParent, ProcSystem.goto, hq]
    · intro r hr
      simp [ProcSystem.forkParent, ProcSystem.goto]
  | @forkRunnable c p np pid hrun hpc hlock =>
    have hchild : (s.pc p).child = some np := by rw [hpc]; rfl
    refine h.finish (n := np) (k := .user (some pid)) hchild rfl rfl ?_
    intro r hr
    simp [ProcSystem.forkRunnable, ProcSystem.goto, hr]
  | reparentSkip | reparentEnd | wakeInitSkip | wakeInitEnd | wakeParentSkip |
      wakeParentEnd | waitSkip | waitEnd => exact h.goto rfl
  | @waitReap c p w addr havekids q hrun hpc hparent hlock hstate =>
    refine h.change (q := q) (by rw [hstate]; decide) ?_ ?_
    · intro r hr
      simp [waitReap, waitReturn, ProcSystem.goto, freeproc, hr]
    · intro r
      by_cases hr : r = p
      · subst hr
        simp [waitReap, waitReturn, ProcSystem.goto, freeproc, ProcPc.child]
      · simp [waitReap, waitReturn, ProcSystem.goto, freeproc, hr]
  | waitSleep hrun hpc =>
    exact h.change (q := _) (hrunning hrun)
      (fun r hr => by simp [waitSleep, hr]) (fun r => Or.inr rfl)

section

variable (h : s.Seated on)
include h

theorem Seated.running_of_sleep {chan : Chan} (hthread : s.thread p = .locked)
    (hpc : (s.pc p).sleepChan p = some chan) : s.state p = .running := by
  have hseat := h.seat p
  rw [hthread] at hseat
  refine hseat.of_locked.resolve_right ?_
  intro hst
  have hfits := h.fits p
  rw [hst] at hfits
  rcases hfits with hexit | ⟨hexit, _⟩ <;> rw [hexit] at hpc <;> contradiction

theorem Seated.wake (hlock : s.lock q = none) (hstate : s.state q = .sleeping) :
    ({ s with state := update s.state q .runnable } : ProcSystem).Seated on := by
  have hoff := h.off_of_lock hlock (by rw [hstate]; decide)
  refine h.change (q := q) hoff rfl rfl ?_ ?_ (fun r hr => by simp [hr])
  · have hseat := h.seat q
    rw [hoff, hstate] at hseat
    cases hseat with
    | off _ hthread hlk =>
      simp only [update_self]
      refine .off (by decide) (Or.inl ?_) (Or.inl hlock)
      simpa using hthread
  · have hfits := h.fits q
    rw [hstate] at hfits
    simpa using hfits

theorem Seated.forkFail (hrun : s.Runs c p) (hne : np ≠ p)
    (hnp : s.state np = .used) : (s.forkFail p np).Seated on := by
  have hoff := h.off_of_unready (Or.inr hnp)
  have hfree : ({ s.freeproc np with
      lock := update s.lock np none } : ProcSystem).Seated on := by
    refine h.change (q := np) hoff rfl rfl ?_ ?_ (fun r hr => by simp [freeproc, hr])
    · have hseat := h.seat np
      rw [hoff, hnp] at hseat
      cases hseat with
      | off _ hthread hlk =>
        simp only [freeproc, update_self]
        exact .off (by decide) (hthread.imp_right fun hth => ⟨hth.1, Or.inl rfl⟩) (Or.inl rfl)
    · have hfits := h.fits np
      rw [hnp] at hfits
      simp only [freeproc, update_self]
      exact hfits
  exact hfree.goto (by simp [freeproc, Ne.symm hne, (h.running hrun).1])

theorem Seated.resume (hcpu : s.cpu c = .run p)
    (hthread : s.thread p = .resumed) : (s.resume p).Seated on := by
  have hseat := h.seat p
  rw [hthread] at hseat
  have hstate := hseat.of_resumed
  refine h.turn hcpu rfl rfl ?_ ?_ ?_
  · simp only [ProcSystem.resume, ProcSystem.goto, update_self, hstate]
    exact .running hcpu
  · have hfits := h.fits p
    rw [hstate] at hfits
    simp only [ProcSystem.resume, ProcSystem.goto, update_self, hstate, ProcState.fits_running]
    exact afterSleep_ne hfits
  · intro r hr
    simp [ProcSystem.resume, ProcSystem.goto, hr]

theorem Seated.lockSelf (hrun : s.Runs c p) : ({ s with
      lock := update s.lock p (some c)
      thread := update s.thread p .locked } : ProcSystem).Seated on := by
  have hrunning := (h.running hrun).1
  refine h.turn hrun.1 rfl rfl ?_ ?_ (fun r hr => by simp [hr])
  · simp only [update_self]
    exact .locked hrun.1 (Or.inl hrunning)
  · have hfits := h.fits p
    rw [hrunning] at hfits
    simpa [hrunning] using hfits

theorem Seated.exitZombie (hrun : s.Runs c p) (status : Int32) :
    (s.exitZombie c p status).Seated on := by
  refine h.turn hrun.1 rfl rfl ?_ ?_ ?_
  · simp only [ProcSystem.exitZombie, ProcSystem.goto, update_self]
    exact .locked hrun.1 (Or.inr rfl)
  · simp only [ProcSystem.exitZombie, ProcSystem.goto, update_self]
    exact Or.inr ⟨rfl, rfl⟩
  · intro r hr
    simp [ProcSystem.exitZombie, ProcSystem.goto, hr]

theorem Seated.exitUnlock (hcpu : s.cpu c = .run p)
    (hthread : s.thread p = .locked) (hpc : s.pc p = .exitUnlock) : (s.exitUnlock p).Seated on := by
  have hstate : s.state p = .zombie := by
    have hseat := h.seat p
    rw [hthread] at hseat
    refine hseat.of_locked.resolve_left ?_
    intro hrunning
    have hfits := h.fits p
    rw [hrunning] at hfits
    exact hfits hpc
  refine h.turn hcpu rfl rfl ?_ ?_ ?_
  · have hlock := h.lock_eq hcpu (by rw [hthread]; decide)
    simp only [ProcSystem.exitUnlock, ProcSystem.goto, update_self, hlock, hstate]
    exact .leaving hcpu (Or.inr (Or.inr rfl))
  · simp only [ProcSystem.exitUnlock, ProcSystem.goto, update_self, hstate]
    exact Or.inl rfl
  · intro r hr
    simp [ProcSystem.exitUnlock, ProcSystem.goto, hr]

theorem Seated.waitReap (hrun : s.Runs c p) (hlock : s.lock q = none) (hstate : s.state q = .zombie)
    (w : WaitCall) (addr : UInt64) : (s.waitReap p q w addr).Seated on := by
  have hrunning := (h.running hrun).1
  have hoff := h.off_of_lock hlock (by rw [hstate]; decide)
  have hne : p ≠ q := by
    rintro rfl
    rw [hrunning] at hstate
    contradiction
  have hseat := h.seat q
  rw [hoff, hstate] at hseat
  have hsaved : s.thread q = .saved := by
    cases hseat with
    | off _ hthread hlk => simpa using hthread
  have hfits := h.fits q
  rw [hstate, hsaved] at hfits
  have hfree : (s.freeproc q).Seated on := by
    refine h.change (q := q) hoff rfl rfl ?_ ?_ (fun r hr => by simp [freeproc, hr])
    · simp only [freeproc, update_self, hsaved]
      exact .off (by decide) (Or.inl rfl) (Or.inl hlock)
    · simp only [freeproc, update_self]
      exact Or.inl (by simpa [ProcState.Fits] using hfits)
  have hgoto := hfree.goto (p := p) (k := .user (some (s.pid q)))
    (by simp [freeproc, hne, hrunning])
  exact ⟨hgoto.current, hgoto.cpuProc, hgoto.seat, hgoto.fits⟩

theorem Seated.dispatch (hcpu : s.cpu c = .dispatch p)
    (hlock : s.lock p = none) (hstate : s.state p = .runnable) : ({ s with
      state := update s.state p .running
      lock := update s.lock p (some c)
      cpuProc := update s.cpuProc c (some p)
      cpu := update s.cpu c (.switchTo p) } : ProcSystem).Seated (update on p (some c)) := by
  have hoff := h.off_of_lock hlock (by rw [hstate]; decide)
  have hseat := h.seat p
  rw [hoff, hstate] at hseat
  have hsaved : s.thread p = .saved := by
    cases hseat with
    | off _ hthread _ => simpa using hthread
  have hfits := h.fits p
  rw [hstate] at hfits
  refine h.hand (c := c) (Or.inl hoff) (Or.inl (by rw [hcpu]; rfl)) (fun c' hc' => by simp [hc'])
    (fun c' hc' => by simp [hc']) ?_ (Or.inr ⟨rfl, ?_⟩) ?_ ?_ (fun r hr => by simp [hr])
  · simp [CpuPc.current]
  · simp [CpuPc.current]
  · simp only [update_self, hsaved]
    exact .switching (update_self ..)
  · simpa using hfits

theorem Seated.switchTo (hcpu : s.cpu c = .switchTo p) : ({ s with
      thread := update s.thread p .resumed
      cpu := update s.cpu c (.run p) } : ProcSystem).Seated (update on p (some c)) := by
  have hc : (s.cpu c).current = some p := by rw [hcpu]; rfl
  have hon := h.on_eq hc
  have hseat := h.seat p
  rw [hon] at hseat
  obtain ⟨hstate, _, hlock⟩ := hseat.of_switchTo hcpu
  have hfits := h.fits p
  rw [hstate] at hfits
  refine h.hand (c := c) (Or.inr hon) (Or.inr hc) (fun c' hc' => by simp [hc'])
    (fun c' hc' => rfl) ?_ (Or.inr ⟨rfl, ?_⟩) ?_ ?_ (fun r hr => by simp [hr])
  · simp [CpuPc.current, h.cpuProc, hcpu]
  · simp [CpuPc.current]
  · simp only [update_self, hstate, hlock]
    exact .resumed (update_self ..)
  · simpa [hstate] using hfits

theorem Seated.sched (hcpu : s.cpu c = .run p) (hthread : s.thread p = .leaving)
    : (s.sched c p).Seated (update on p (some c)) := by
  have hc : (s.cpu c).current = some p := by rw [hcpu]; rfl
  have hseat := h.seat p
  rw [hthread] at hseat
  have hleft := hseat.of_leaving
  have hlock := h.lock_eq hcpu (by rw [hthread]; decide)
  have hfits := h.fits p
  refine h.hand (c := c) (Or.inr (h.on_run hcpu)) (Or.inr hc)
    (fun c' hc' => by simp [ProcSystem.sched, hc']) (fun c' hc' => rfl) ?_
    (Or.inr ⟨rfl, ?_⟩) ?_ ?_ (fun r hr => by simp [ProcSystem.sched, hr])
  · simp [ProcSystem.sched, CpuPc.current, h.cpuProc, hcpu]
  · simp [ProcSystem.sched, CpuPc.current]
  · simp only [ProcSystem.sched, update_self, hlock]
    exact .left (update_self ..) hleft
  · rw [hthread] at hfits
    rcases hleft with hst | hst | hst <;>
      simpa [ProcSystem.sched, hst, ProcState.Fits] using hfits

theorem Seated.retire (hcpu : s.cpu c = .after p) : ({ s with
      cpuProc := update s.cpuProc c none
      lock := update s.lock p none
      cpu := update s.cpu c (.choose 0 none) } : ProcSystem).Seated (update on p none) := by
  have hc : (s.cpu c).current = some p := by rw [hcpu]; rfl
  have hon := h.on_eq hc
  have hseat := h.seat p
  rw [hon] at hseat
  obtain ⟨hleft, hsaved⟩ := hseat.of_after hcpu
  refine h.hand (c := c) (Or.inr hon) (Or.inr hc) (fun c' hc' => by simp [hc'])
    (fun c' hc' => by simp [hc']) ?_ (Or.inl ⟨rfl, ?_⟩) ?_ (h.fits p) (fun r hr => by simp [hr])
  · simp [CpuPc.current]
  · simp [CpuPc.current]
  · simp only [update_self]
    refine .off ?_ (Or.inl hsaved) (Or.inl rfl)
    rcases hleft with hst | hst | hst <;> simp [hst]

theorem Seated.yield (hrun : s.Runs c p) : (s.yield c p).Seated on := by
  have hfits := h.fits p
  rw [(h.running hrun).1] at hfits
  refine h.turn hrun.1 rfl rfl ?_ ?_ (fun r hr => by simp [ProcSystem.yield, hr])
  · simp only [ProcSystem.yield, update_self]
    exact .leaving hrun.1 (Or.inl rfl)
  · simpa [ProcSystem.yield] using hfits

theorem Seated.sleep {chan : Chan} (hcpu : s.cpu c = .run p) (hthread : s.thread p = .locked)
    (hpc : (s.pc p).sleepChan p = some chan) : (s.sleep p chan).Seated on := by
  have hlock := h.lock_eq hcpu (by rw [hthread]; decide)
  refine h.turn hcpu rfl rfl ?_ ?_ (fun r hr => by simp [ProcSystem.sleep, hr])
  · simp only [ProcSystem.sleep, update_self, hlock]
    exact .leaving hcpu (Or.inr (Or.inl rfl))
  · simp only [ProcSystem.sleep, update_self, ProcState.fits_sleeping]
    intro hexit
    rw [hexit] at hpc
    contradiction

theorem Seated.allocproc (hstate : s.state np = .unused)
    {pid : Slot → Int32} {nextpid : Int32} {serial : Slot → ℕ} {allocs : ℕ} : ({ s with
      pid := pid
      nextpid := nextpid
      serial := serial
      allocs := allocs
      state := update s.state np .used
      lock := update s.lock np (some c) } : ProcSystem).Seated on := by
  have hoff := h.off_of_unready (Or.inl hstate)
  have hseat := h.seat np
  rw [hoff, hstate] at hseat
  have hfits := h.fits np
  rw [hstate] at hfits
  refine h.change (q := np) hoff rfl rfl ?_ ?_ (fun r hr => by simp [hr])
  · cases hseat with
    | off _ hthread _ =>
      simp only [update_self]
      exact .off (by decide) (hthread.imp_right fun hth => ⟨hth.1, Or.inr rfl⟩) (Or.inr rfl)
  · simp only [update_self]
    exact hfits

theorem Seated.setUp (hnp : s.state np = .used) {times : Slot → ProcTimes} : ({ s with
      thread := update s.thread np .saved
      times := times } : ProcSystem).Seated on := by
  have hoff := h.off_of_unready (Or.inr hnp)
  refine h.change (q := np) hoff rfl rfl ?_ ?_ (fun r hr => by simp [hr])
  · simp only [update_self]
    exact .off (by rw [hnp]; decide) (Or.inl rfl) (Or.inr hnp)
  · have hfits := h.fits np
    rw [hnp] at hfits
    simp only [hnp]
    exact hfits

theorem Seated.forkCopied (hrun : s.Runs c p) (hnp : s.state np = .used) :
    (s.forkCopied p np).Seated on := by
  have hoff := h.off_of_unready (Or.inr hnp)
  have hseat := h.seat np
  rw [hoff, hnp] at hseat
  have hunlock : ({ s with lock := update s.lock np none } : ProcSystem).Seated on := by
    refine h.change (q := np) hoff rfl rfl ?_ (h.fits np) (fun r hr => by simp [hr])
    cases hseat with
    | off hstate hthread _ =>
      simp only [update_self, hnp]
      exact .off hstate hthread (Or.inl rfl)
  refine Seated.goto (hunlock.goto (p := np) ?_) ?_
  · dsimp only
    rw [hnp]
    exact Or.inr ⟨_, rfl⟩
  · simp [ProcSystem.goto, (h.running hrun).1]

theorem Seated.publish (hnp : s.state np = .used)
    (hsaved : s.thread np = .saved) (hlock : s.lock np = none) :
    ({ s with state := update s.state np .runnable } : ProcSystem).Seated on := by
  have hoff := h.off_of_unready (Or.inr hnp)
  refine h.change (q := np) hoff rfl rfl ?_ ?_ (fun r hr => by simp [hr])
  · simp only [update_self, hsaved, hlock]
    exact .off (by decide) (Or.inl rfl) (Or.inl rfl)
  · have hfits := h.fits np
    rw [hnp] at hfits
    simp only [update_self, ProcState.fits_runnable]
    rcases hfits with hpc | ⟨_, hpc⟩ <;> simp [hpc]

end

theorem plain_ne {k : ProcPc} (hk : k.plain = true) : k ≠ .exitUnlock := by
  rintro rfl
  contradiction

theorem Seated.move (h : s.Seated on) (hforks : s.Forks)
    (hmove : ProcMove s s') : ∃ on', s'.Seated on' := by
  have hgoto : ∀ {c p k}, s.Runs c p → k ≠ .exitUnlock → (s.goto p k).Seated on := by
    intro c p k hrun hk
    refine h.goto ?_
    rw [(h.running hrun).1]
    exact hk
  have hchild : ∀ {c p n}, s.Runs c p → (s.pc p).child = some n → n ≠ p ∧ s.state n = .used := by
    intro c p n hrun hn
    refine ⟨hforks.child_ne hn ?_, hforks.used p n hn⟩
    rw [(h.running hrun).1]
    decide
  -- a sleeper is woken by a thread that then moves on
  have hwake : ∀ {c p q k}, s.Runs c p → s.lock q = none → s.state q = .sleeping → k ≠ .exitUnlock →
      (({ s with state := update s.state q .runnable } : ProcSystem).goto p k).Seated on := by
    intro c p q k hrun hlock hstate hk
    refine (h.wake hlock hstate).goto ?_
    have hne : p ≠ q := by
      rintro rfl
      rw [(h.running hrun).1] at hstate
      contradiction
    simpa [hne, (h.running hrun).1] using hk
  cases hmove with
  | stay => exact ⟨on, h⟩
  | clock | setkilled => exact ⟨on, h.current, h.cpuProc, h.seat, h.fits⟩
  | wakeup hlock hstate => exact ⟨on, h.wake hlock hstate⟩
  | scan hc hk => exact ⟨on, h.scan hc hk⟩
  | dispatch hcpu hlock hstate => exact ⟨_, h.dispatch hcpu hlock hstate⟩
  | switchTo hcpu => exact ⟨_, h.switchTo hcpu⟩
  | retire hcpu => exact ⟨_, h.retire hcpu⟩
  | sched hcpu hthread => exact ⟨_, h.sched hcpu hthread⟩
  | resume hcpu hthread => exact ⟨on, h.resume hcpu hthread⟩
  | sleep hcpu hthread hpc => exact ⟨on, h.sleep hcpu hthread hpc⟩
  | exitUnlock hcpu hthread hpc => exact ⟨on, h.exitUnlock hcpu hthread hpc⟩
  | yield hrun hpc => exact ⟨on, h.yield hrun⟩
  | sleepLock hrun hpc =>
    refine ⟨on, (h.lockSelf hrun).goto ?_⟩
    dsimp only
    rw [(h.running hrun).1]
    simp
  | plain hrun hpc hk => exact ⟨on, hgoto hrun (plain_ne hk)⟩
  | killWake hrun hpc hlock hstate =>
    have hnew := hwake hrun hlock hstate (k := .user (some 0)) (by simp)
    exact ⟨on, hnew.current, hnew.cpuProc, hnew.seat, hnew.fits⟩
  | killMark hrun hpc =>
    have hnew := hgoto hrun (k := .user (some 0)) (by simp)
    exact ⟨on, hnew.current, hnew.cpuProc, hnew.seat, hnew.fits⟩
  | @allocproc c p np hrun hpc hlock hstate =>
    refine ⟨on, (h.allocproc hstate).goto ?_⟩
    have hne : p ≠ np := by
      rintro rfl
      rw [(h.running hrun).1] at hstate
      contradiction
    simp [hne, (h.running hrun).1]
  | allocprocContext hrun hpc =>
    obtain ⟨hne, hnp⟩ := hchild hrun (by rw [hpc]; rfl)
    refine ⟨on, (h.setUp hnp).goto ?_⟩
    simp [(h.running hrun).1]
  | @forkFail c p np hrun hpc =>
    obtain ⟨hne, hnp⟩ := hchild (n := np) hrun (by rcases hpc with hpc | hpc <;> rw [hpc] <;> rfl)
    exact ⟨on, h.forkFail hrun hne hnp⟩
  | forkCopied hrun hpc =>
    obtain ⟨hne, hnp⟩ := hchild hrun (by rw [hpc]; rfl)
    exact ⟨on, h.forkCopied hrun hnp⟩
  | @forkParent c p np pid hrun hpc hwait =>
    have hnew := hgoto hrun (k := .forkRunnable np pid) (by simp)
    exact ⟨on, hnew.current, hnew.cpuProc, hnew.seat, hnew.fits⟩
  | @forkRunnable c p np pid hrun hpc hlock =>
    obtain ⟨hne, hnp⟩ := hchild hrun (by rw [hpc]; rfl)
    have hsaved := hforks.saved p np (by rw [hpc]; rfl) (by rw [hpc]; rfl)
    refine ⟨on, (h.publish hnp hsaved hlock).goto ?_⟩
    simp [Ne.symm hne, (h.running hrun).1]
  | @exit c p status hrun hpc hinit hwait =>
    have hnew := hgoto hrun (k := .exitReparent status 0) (by simp)
    exact ⟨on, hnew.current, hnew.cpuProc, hnew.seat, hnew.fits⟩
  | reparentSkip hrun | reparentEnd hrun | wakeInitSkip hrun
  | wakeInitEnd hrun | wakeParentSkip hrun | wakeParentEnd hrun
  | waitSkip hrun | waitEnd hrun => exact ⟨on, hgoto hrun (by simp)⟩
  | @reparent c p status i hrun hpc hi =>
    have hnew := hgoto hrun (k := .exitWakeInit status i 0) (by simp)
    exact ⟨on, hnew.current, hnew.cpuProc, hnew.seat, hnew.fits⟩
  | wakeInit hrun hpc hlock hstate | wakeParent hrun hpc hlock hstate =>
    exact ⟨on, hwake hrun hlock hstate (by simp)⟩
  | exitZombie hrun hpc hlock => exact ⟨on, h.exitZombie hrun _⟩
  | @waitStart c p w addr hrun hpc hwait =>
    have hnew := hgoto hrun (k := .waitScan w addr false 0) (by simp)
    exact ⟨on, hnew.current, hnew.cpuProc, hnew.seat, hnew.fits⟩
  | waitReap hrun hpc hparent hlock hstate =>
    exact ⟨on, h.waitReap hrun hlock hstate _ _⟩
  | waitReturn hrun hpc =>
    have hnew := hgoto hrun (k := .user (some (-1))) (by simp)
    exact ⟨on, hnew.current, hnew.cpuProc, hnew.seat, hnew.fits⟩
  | waitSleep hrun hpc =>
    have hnew := h.lockSelf hrun
    exact ⟨on, hnew.current, hnew.cpuProc, hnew.seat, hnew.fits⟩

/-! ## Runs -/

theorem userinit_seated : userinit.Seated fun _ => none := by
  refine ⟨?_, fun c => rfl, ?_, ?_⟩
  · intro c p
    simp [userinit, CpuPc.current]
  · intro p
    by_cases hp : p = initproc
    · subst hp
      simp only [userinit, update_self]
      exact .off (by decide) (Or.inl rfl) (Or.inl rfl)
    · simp only [userinit, update_of_ne hp]
      exact .off (by decide) (Or.inr ⟨rfl, Or.inl rfl⟩) (Or.inl rfl)
  · intro p
    by_cases hp : p = initproc
    · subst hp
      simp [userinit]
    · simp only [userinit, update_of_ne hp]
      exact Or.inr ⟨none, rfl⟩

theorem userinit_forks : userinit.Forks := by
  refine ⟨?_, ?_, ?_⟩ <;> simp [userinit, ProcPc.child]

/-- The invariants of the scheduler. -/
structure Sched (s : ProcSystem) : Prop where
  seated : ∃ on, s.Seated on
  forks : s.Forks

theorem userinit_sched : userinit.Sched := ⟨⟨_, userinit_seated⟩, userinit_forks⟩

theorem Sched.move (h : s.Sched) (hmove : ProcMove s s') : s'.Sched := by
  obtain ⟨on, hseated⟩ := h.seated
  exact ⟨hseated.move h.forks hmove, h.forks.move hseated hmove⟩

theorem sched_of_run {mode : SchedMode} {labels : List ProcLabel}
    (hrun : Machine.run (step mode) labels userinit = some s) : s.Sched :=
  Machine.run_invariant (fun _ _ _ hs hstep => hs.move (step_move hstep))
    userinit_sched hrun

end ProcSystem

/-- The changes of `p->state`. -/
inductive ProcState.Next : ProcState → ProcState → Prop
  | alloc : Next .unused .used
  | publish : Next .used .runnable
  | dispatch : Next .runnable .running
  | yield : Next .running .runnable
  | sleep : Next .running .sleeping
  | exit : Next .running .zombie
  | wake : Next .sleeping .runnable
  | reap : Next .zombie .unused
  | fail : Next .used .unused

namespace ProcSystem

variable {s s' : ProcSystem} {c : ℕ} {p q : Slot}

theorem next_of_update {state : ProcState} (hnext : (s.state q).Next state) (p : Slot) :
    update s.state q state p = s.state p ∨ (s.state p).Next (update s.state q state p) := by
  by_cases hp : p = q
  · subst hp
    rw [update_self]
    exact Or.inr hnext
  · exact Or.inl (update_of_ne hp _ _)

theorem Sched.next (h : s.Sched) (hmove : ProcMove s s') (p : Slot) :
    s'.state p = s.state p ∨ (s.state p).Next (s'.state p) := by
  obtain ⟨on, hseated⟩ := h.seated
  cases hmove with
  | wakeup hlock hstate | killWake hrun hpc hlock hstate
  | wakeInit hrun hpc hlock hstate | wakeParent hrun hpc hlock hstate =>
    exact next_of_update (by rw [hstate]; exact .wake) p
  | dispatch hcpu hlock hstate =>
    exact next_of_update (by rw [hstate]; exact .dispatch) p
  | sleep hcpu hthread hpc =>
    exact next_of_update (by rw [hseated.running_of_sleep hthread hpc]; exact .sleep) p
  | yield hrun hpc =>
    exact next_of_update (by rw [(hseated.running hrun).1]; exact .yield) p
  | allocproc hrun hpc hlock hstate =>
    exact next_of_update (by rw [hstate]; exact .alloc) p
  | @forkFail c p' np hrun hpc =>
    refine next_of_update ?_ p
    rw [h.forks.used p' np (by rcases hpc with hpc | hpc <;> rw [hpc] <;> rfl)]
    exact .fail
  | @forkRunnable c p' np pid hrun hpc hlock =>
    refine next_of_update ?_ p
    rw [h.forks.used p' np (by rw [hpc]; rfl)]
    exact .publish
  | exitZombie hrun hpc hlock =>
    exact next_of_update (by rw [(hseated.running hrun).1]; exact .exit) p
  | waitReap hrun hpc hparent hlock hstate =>
    exact next_of_update (by rw [hstate]; exact .reap) p
  | _ => exact Or.inl rfl

end ProcSystem

/-- In every run, a process whose lock is free is `RUNNING` exactly when one
CPU has it as `c->proc`, every step changes states along `ProcState.Next`, and
a CPU about to `swtch` to a process finds its context saved and no other CPU
concerned with it. -/
theorem exclusive_execution (mode : SchedMode) (labels : List ProcLabel) (s : ProcSystem)
    (hrun : Machine.run (ProcSystem.step mode) labels userinit = some s) :
    (∀ p, s.lock p = none → (s.state p = .running ↔ ∃! c, s.cpuProc c = some p)) ∧
    (∀ l s', s.step mode l = some s' → ∀ p,
      s'.state p = s.state p ∨ (s.state p).Next (s'.state p)) ∧
    (∀ c p, s.cpu c = .switchTo p → s.thread p = .saved ∧
      ∀ c', (s.cpu c').current = some p → c' = c) := by
  have h := ProcSystem.sched_of_run hrun
  obtain ⟨on, hseated⟩ := h.seated
  refine ⟨?_, ?_, ?_⟩
  · intro p hlock
    have hseat := hseated.seat p
    rw [hlock] at hseat
    rw [hseat.running_iff]
    simp only [hseated.cpuProc, hseated.current]
    constructor
    · rintro ⟨c, hc⟩
      refine ⟨c, hc, ?_⟩
      intro c' hc'
      rw [hc, Option.some.injEq] at hc'
      exact hc'.symm
    · rintro ⟨c, hc, _⟩
      exact ⟨c, hc⟩
  · intro l s' hstep p
    exact h.next (ProcSystem.step_move hstep) p
  · intro c p hcpu
    have hon := hseated.on_eq (c := c) (p := p) (by rw [hcpu]; rfl)
    have hseat := hseated.seat p
    rw [hon] at hseat
    refine ⟨(hseat.of_switchTo hcpu).2.1, ?_⟩
    intro c' hc'
    have := hseated.on_eq hc'
    rw [hon, Option.some.injEq] at this
    exact this.symm

/-- Two CPUs choose the first process; the second one finds it taken. -/
theorem exclusive_execution_two_cpus : ∃ s, Machine.run (ProcSystem.step .roundRobin)
        [.scheduler 0, .scheduler 1, .scheduler 0, .scheduler 0,
          .act 0 (.next true), .scheduler 1] userinit = some s ∧
      s.state initproc = .running ∧ s.cpu 1 = .wfi ∧
      ∃! c, s.cpuProc c = some initproc := by
  refine Machine.exists_run (P := fun s => decide (s.lock initproc = none ∧
      s.state initproc = .running ∧ s.cpu 1 = .wfi)) (by decide) ?_
  intro s hrun hs
  obtain ⟨hlock, hstate, hcpu⟩ := of_decide_eq_true hs
  have h := (exclusive_execution _ _ s hrun).1 initproc hlock
  exact ⟨hstate, hcpu, h.mp hstate⟩

end Xv6
