import Xv6.ProcSystem

/-!
# What one step of the process system can do

`ProcMove s s'` lists the moves of the system with the facts under which they
are made.  Moves that differ only in places that no invariant speaks of are one
constructor.
-/

namespace Xv6

open Function (update update_of_ne update_self)

/-- The process that a CPU has in hand: it has locked it, and has not yet
released it for the last time. -/
def CpuPc.current : CpuPc → Option Slot
  | .switchTo p | .run p | .after p => some p
  | .choose .. | .dispatch _ | .wfi => none

/-- Places in calls that have no lock and nothing half done. -/
def ProcPc.plain : ProcPc → Bool
  | .user _ | .forkScan _ | .waitStart .. | .killScan .. => true
  | _ => false

/-- The channel that `sleep` was called with. -/
def ProcPc.sleepChan (p : Slot) : ProcPc → Option Chan
  | .sleepOn n => some (.other n)
  | .waitSleep .. => some (.proc p)
  | _ => none

/-- CPU `c` executes the thread of `p`, which does not hold `p->lock`. -/
def ProcSystem.Runs (s : ProcSystem) (c : ℕ) (p : Slot) : Prop :=
  s.cpu c = .run p ∧ s.thread p = .running

inductive ProcMove (s : ProcSystem) : ProcSystem → Prop
  | stay : ProcMove s s
  | clock {ticks times}
      (htimes : ∀ q, (times q).creationTime = (s.times q).creationTime) :
      ProcMove s { s with ticks := ticks, times := times }
  | wakeup {n q} (hlock : s.lock q = none) (hstate : s.state q = .sleeping)
      (hchan : s.chan q = some (.other n)) :
      ProcMove s { s with state := update s.state q .runnable }
  | scan {c k} (hc : (s.cpu c).current = none) (hk : k.current = none) :
      ProcMove s { s with cpu := update s.cpu c k }
  | dispatch {c p} (hcpu : s.cpu c = .dispatch p) (hlock : s.lock p = none)
      (hstate : s.state p = .runnable) :
      ProcMove s
        { s with
          state := update s.state p .running
          lock := update s.lock p (some c)
          cpuProc := update s.cpuProc c (some p)
          cpu := update s.cpu c (.switchTo p) }
  | switchTo {c p} (hcpu : s.cpu c = .switchTo p) : ProcMove s
        { s with
          thread := update s.thread p .resumed
          cpu := update s.cpu c (.run p) }
  | retire {c p} (hcpu : s.cpu c = .after p) : ProcMove s
        { s with
          cpuProc := update s.cpuProc c none
          lock := update s.lock p none
          cpu := update s.cpu c (.choose 0 none) }
  | sched {c p} (hcpu : s.cpu c = .run p) (hthread : s.thread p = .leaving) :
      ProcMove s (s.sched c p)
  | resume {c p} (hcpu : s.cpu c = .run p) (hthread : s.thread p = .resumed) :
      ProcMove s (s.resume p)
  | sleep {c p chan} (hcpu : s.cpu c = .run p)
      (hthread : s.thread p = .locked)
      (hpc : (s.pc p).sleepChan p = some chan) :
      ProcMove s (s.sleep p chan)
  | exitUnlock {c p} (hcpu : s.cpu c = .run p)
      (hthread : s.thread p = .locked) (hpc : s.pc p = .exitUnlock) :
      ProcMove s (s.exitUnlock p)
  | yield {c p} (hrun : s.Runs c p) (hpc : (s.pc p).preemptible = true) : ProcMove s (s.yield c p)
  | sleepLock {c p n} (hrun : s.Runs c p) (hpc : (s.pc p).plain = true) : ProcMove s
        ({ s with
          lock := update s.lock p (some c)
          thread := update s.thread p .locked }.goto p (.sleepOn n))
  | plain {c p k} (hrun : s.Runs c p) (hpc : (s.pc p).plain = true)
      (hk : k.plain = true) : ProcMove s (s.goto p k)
  | setkilled {c p} (hrun : s.Runs c p) : ProcMove s { s with killed := update s.killed p true }
  | killWake {c p q} (hrun : s.Runs c p) (hpc : (s.pc p).plain = true)
      (hlock : s.lock q = none) (hstate : s.state q = .sleeping)
      (hkill : ∃ i, s.pc p = .killScan (s.pid q) i) :
      ProcMove s
        ({ s with
          killed := update s.killed q true
          state := update s.state q .runnable }.goto p
            (.user (some 0)))
  | killMark {c p q} (hrun : s.Runs c p) (hpc : (s.pc p).plain = true)
      (hlock : s.lock q = none)
      (hkill : ∃ i, s.pc p = .killScan (s.pid q) i) :
      ProcMove s
        ({ s with killed := update s.killed q true }.goto p (.user (some 0)))
  | allocproc {c p np} (hrun : s.Runs c p) (hpc : (s.pc p).plain = true)
      (hlock : s.lock np = none) (hstate : s.state np = .unused) :
      ProcMove s
        ({ s with
          pid := update s.pid np s.nextpid
          nextpid := s.nextpid + 1
          serial := update s.serial np (s.allocs + 1)
          allocs := s.allocs + 1
          state := update s.state np .used
          lock := update s.lock np (some c) }.goto p (.forkAlloc np))
  | allocprocContext {c p np} (hrun : s.Runs c p)
      (hpc : s.pc p = .forkAlloc np) :
      ProcMove s ((s.allocprocContext np).goto p (.forkCopy np))
  | forkFail {c p np} (hrun : s.Runs c p)
      (hpc : s.pc p = .forkAlloc np ∨ s.pc p = .forkCopy np) :
      ProcMove s (s.forkFail p np)
  | forkCopied {c p np} (hrun : s.Runs c p) (hpc : s.pc p = .forkCopy np) :
      ProcMove s (s.forkCopied p np)
  | forkParent {c p np pid} (hrun : s.Runs c p)
      (hpc : s.pc p = .forkParent np pid) (hwait : s.waitLock = none) :
      ProcMove s (s.forkParent p np pid)
  | forkRunnable {c p np pid} (hrun : s.Runs c p)
      (hpc : s.pc p = .forkRunnable np pid) (hlock : s.lock np = none) :
      ProcMove s (s.forkRunnable p np pid)
  | exit {c p status} (hrun : s.Runs c p) (hpc : (s.pc p).plain = true)
      (hinit : p ≠ initproc) (hwait : s.waitLock = none) :
      ProcMove s
        ({ s with waitLock := some p }.goto p (.exitReparent status 0))
  | reparentSkip {c p status} {i : Slot} (hrun : s.Runs c p)
      (hpc : s.pc p = .exitReparent status i) (hi : s.parent i ≠ some p) :
      ProcMove s (s.goto p (.exitReparent status (i + 1)))
  | reparent {c p status} {i : Slot} (hrun : s.Runs c p)
      (hpc : s.pc p = .exitReparent status i) (hi : s.parent i = some p) :
      ProcMove s
        ({ s with
          parent := update s.parent i (some initproc) }.goto p
            (.exitWakeInit status i 0))
  | reparentEnd {c p status i} (hrun : s.Runs c p)
      (hpc : s.pc p = .exitReparent status i) (hi : nproc ≤ i) :
      ProcMove s
        (s.goto p (.exitWakeParent status ((s.parent p).map .proc) 0))
  | wakeInit {c p status i} {j : Slot} (hrun : s.Runs c p)
      (hpc : s.pc p = .exitWakeInit status i j)
      (hlock : s.lock j = none) (hstate : s.state j = .sleeping) :
      ProcMove s
        ({ s with state := update s.state j .runnable }.goto p (.exitWakeInit status i (j + 1)))
  | wakeInitSkip {c p status i} {j : Slot} (hrun : s.Runs c p)
      (hpc : s.pc p = .exitWakeInit status i j)
      (hskip : j ≠ p → s.lock j = none ∧
        ¬(s.state j = .sleeping ∧ s.chan j = some (.proc initproc))) :
      ProcMove s (s.goto p (.exitWakeInit status i (j + 1)))
  | wakeInitEnd {c p status i j} (hrun : s.Runs c p)
      (hpc : s.pc p = .exitWakeInit status i j) (hj : nproc ≤ j) :
      ProcMove s (s.goto p (.exitReparent status (i + 1)))
  | wakeParent {c p status chan} {j : Slot} (hrun : s.Runs c p)
      (hpc : s.pc p = .exitWakeParent status chan j)
      (hlock : s.lock j = none) (hstate : s.state j = .sleeping) :
      ProcMove s
        ({ s with state := update s.state j .runnable }.goto p
          (.exitWakeParent status chan (j + 1)))
  | wakeParentSkip {c p status chan} {j : Slot} (hrun : s.Runs c p)
      (hpc : s.pc p = .exitWakeParent status chan j)
      (hskip : j ≠ p → s.lock j = none ∧ ¬(s.state j = .sleeping ∧ s.chan j = chan)) :
      ProcMove s (s.goto p (.exitWakeParent status chan (j + 1)))
  | wakeParentEnd {c p status chan j} (hrun : s.Runs c p)
      (hpc : s.pc p = .exitWakeParent status chan j) (hj : nproc ≤ j) :
      ProcMove s (s.goto p (.exitLock status))
  | exitZombie {c p status} (hrun : s.Runs c p)
      (hpc : s.pc p = .exitLock status) (hlock : s.lock p = none) :
      ProcMove s (s.exitZombie c p status)
  | waitStart {c p w addr} (hrun : s.Runs c p)
      (hpc : s.pc p = .waitStart w addr) (hwait : s.waitLock = none) :
      ProcMove s
        ({ s with waitLock := some p }.goto p (.waitScan w addr false 0))
  | waitSkip {c p w addr havekids havekids'} {q : Slot} (hrun : s.Runs c p)
      (hpc : s.pc p = .waitScan w addr havekids q)
      (hskip : ¬(s.parent q = some p ∧ s.state q = .zombie)) :
      ProcMove s (s.goto p (.waitScan w addr havekids' (q + 1)))
  | waitReap {c p w addr havekids} {q : Slot} (hrun : s.Runs c p)
      (hpc : s.pc p = .waitScan w addr havekids q)
      (hparent : s.parent q = some p) (hlock : s.lock q = none)
      (hstate : s.state q = .zombie) :
      ProcMove s (s.waitReap p q w addr)
  | waitReturn {c p w addr havekids i} (hrun : s.Runs c p)
      (hpc : s.pc p = .waitScan w addr havekids i) :
      ProcMove s (s.waitReturn p (-1))
  | waitEnd {c p w addr havekids i} (hrun : s.Runs c p)
      (hpc : s.pc p = .waitScan w addr havekids i) (hi : nproc ≤ i) :
      ProcMove s (s.goto p (.waitSleep w addr))
  | waitSleep {c p w addr} (hrun : s.Runs c p)
      (hpc : s.pc p = .waitSleep w addr) :
      ProcMove s (s.waitSleep c p)

namespace ProcSystem

variable {s s' : ProcSystem} {c : ℕ} {p q : Slot}

variable {mode : SchedMode} {i : ℕ} {status : Int32} {a : ProcAction}

theorem chooseNextProcess_current {chosen : Option Slot} {k : CpuPc}
    (h : s.chooseNextProcess mode i chosen = some k) : k.current = none := by
  unfold chooseNextProcess at h
  split at h
  · cases mode with
    | roundRobin =>
      cases h
      split <;> rfl
    | fcfs =>
      cases h
      rfl
    | priority =>
      simp only [ite_eq_some] at h
      obtain ⟨_, rfl⟩ := h
      rfl
  · cases chosen <;>
    · cases h
      rfl

theorem scheduler_move (h : s.scheduler mode c = some s') : ProcMove s s' := by
  unfold scheduler at h
  cases hcpu : s.cpu c with
  | choose i chosen =>
    simp only [hcpu] at h
    cases hk : s.chooseNextProcess mode i chosen with
    | none => simp [hk] at h
    | some k =>
      rw [hk] at h
      cases h
      exact .scan (by rw [hcpu]; rfl) (chooseNextProcess_current hk)
  | dispatch p =>
    simp only [hcpu] at h
    split at h
    · rename_i hlock
      split at h
      · rename_i hstate
        cases h
        exact .dispatch hcpu hlock hstate
      · cases h
        exact .scan (by rw [hcpu]; rfl) rfl
    · contradiction
  | switchTo p =>
    rw [hcpu] at h
    cases h
    exact .switchTo hcpu
  | run p => simp [hcpu] at h
  | after p =>
    rw [hcpu] at h
    cases h
    exact .retire hcpu
  | wfi =>
    rw [hcpu] at h
    cases h
    exact .scan (by rw [hcpu]; rfl) rfl

theorem wakeup_cases {chan : Option Chan} (h : s.wakeup p chan q = some s') :
    (s' = { s with state := update s.state q .runnable } ∧
      s.lock q = none ∧ s.state q = .sleeping ∧ s.chan q = chan) ∨
    (s' = s ∧ (q ≠ p → s.lock q = none ∧ ¬(s.state q = .sleeping ∧ s.chan q = chan))) := by
  unfold wakeup wakeupSlot at h
  split at h
  · rename_i hqp
    simp only [Option.some.injEq] at h
    exact Or.inr ⟨h.symm, fun hne => absurd hqp hne⟩
  · split at h
    · rename_i hlock
      split at h
      · rename_i hasleep
        simp only [Option.some.injEq] at h
        exact Or.inl ⟨h.symm, hlock, hasleep⟩
      · rename_i hnot
        simp only [Option.some.injEq] at h
        exact Or.inr ⟨h.symm, fun _ => ⟨hlock, hnot⟩⟩
    · contradiction

section

variable (hrun : s.Runs c p)
include hrun

theorem allocproc_move (hpc : s.pc p = .forkScan i)
    (h : s.allocproc c p i = some s') : ProcMove s s' := by
  have hplain : (s.pc p).plain = true := by rw [hpc]; rfl
  unfold allocproc at h
  split at h
  · dsimp only at h
    split at h
    · rename_i hlock
      split at h
      · rename_i hstate
        cases h
        exact .allocproc hrun hplain hlock hstate
      · cases h
        exact .plain hrun hplain rfl
    · contradiction
  · cases h
    exact .plain hrun hplain rfl

theorem reparent_move (hpc : s.pc p = .exitReparent status i) :
    ProcMove s (s.reparent p status i) := by
  unfold reparent
  split
  · rename_i hi
    split
    · rename_i hparent
      exact .reparent (i := ⟨i, hi⟩) hrun hpc hparent
    · rename_i hparent
      exact .reparentSkip (i := ⟨i, hi⟩) hrun hpc hparent
  · exact .reparentEnd hrun hpc (by omega)

theorem exitWakeInit_move {j : ℕ} (hpc : s.pc p = .exitWakeInit status i j)
    (h : s.exitWakeInit p status i j = some s') : ProcMove s s' := by
  unfold exitWakeInit at h
  split at h
  · rename_i hj
    cases hwake : s.wakeup p (some (.proc initproc)) ⟨j, hj⟩ with
    | none => simp [hwake] at h
    | some s1 =>
      rw [hwake] at h
      cases h
      rcases wakeup_cases hwake with ⟨rfl, hlock, hstate, _⟩ | ⟨rfl, hskip⟩
      · exact .wakeInit (j := ⟨j, hj⟩) hrun hpc hlock hstate
      · exact .wakeInitSkip (j := ⟨j, hj⟩) hrun hpc hskip
  · cases h
    exact .wakeInitEnd hrun hpc (by omega)

theorem exitWakeParent_move {chan : Option Chan} {j : ℕ}
    (hpc : s.pc p = .exitWakeParent status chan j)
    (h : s.exitWakeParent p status chan j = some s') : ProcMove s s' := by
  unfold exitWakeParent at h
  split at h
  · rename_i hj
    cases hwake : s.wakeup p chan ⟨j, hj⟩ with
    | none => simp [hwake] at h
    | some s1 =>
      rw [hwake] at h
      cases h
      rcases wakeup_cases hwake with ⟨rfl, hlock, hstate, _⟩ | ⟨rfl, hskip⟩
      · exact .wakeParent (j := ⟨j, hj⟩) hrun hpc hlock hstate
      · exact .wakeParentSkip (j := ⟨j, hj⟩) hrun hpc hskip
  · cases h
    exact .wakeParentEnd hrun hpc (by omega)

theorem waitScan_move {w : WaitCall} {addr : UInt64} {ok havekids : Bool}
    (hpc : s.pc p = .waitScan w addr havekids i)
    (h : s.waitScan p w addr ok havekids i = some s') : ProcMove s s' := by
  unfold waitScan at h
  split at h
  · rename_i hi
    dsimp only at h
    split at h
    · rename_i hparent
      split at h
      · rename_i hlock
        split at h
        · rename_i hstate
          split at h
          · cases h
            exact .waitReturn hrun hpc
          · cases h
            exact .waitReap (q := ⟨i, hi⟩) hrun hpc hparent hlock hstate
        · rename_i hstate
          cases h
          exact .waitSkip (q := ⟨i, hi⟩) hrun hpc (fun hq => hstate hq.2)
      · contradiction
    · rename_i hparent
      cases h
      exact .waitSkip (q := ⟨i, hi⟩) hrun hpc (fun hq => hparent hq.1)
  · split at h
    · cases h
      exact .waitReturn hrun hpc
    · split at h
      · split at h
        · cases h
          exact .waitReturn hrun hpc
        · cases h
          exact .waitEnd hrun hpc (by omega)
      · contradiction

theorem kill_move {pid : Int32} (hpc : s.pc p = .killScan pid i)
    (h : s.kill p pid i = some s') : ProcMove s s' := by
  have hplain : (s.pc p).plain = true := by rw [hpc]; rfl
  unfold kill at h
  split at h
  · dsimp only at h
    split at h
    · rename_i hlock
      split at h
      · rename_i hpid
        have hkill : ∃ j, s.pc p = .killScan (s.pid ⟨i, ‹_›⟩) j := ⟨i, by rw [hpc, hpid]⟩
        cases h
        split
        · rename_i hstate
          exact .killWake hrun hplain hlock hstate hkill
        · exact .killMark hrun hplain hlock hkill
      · cases h
        exact .plain hrun hplain rfl
    · contradiction
  · cases h
    exact .plain hrun hplain rfl

theorem actNext_move {ok : Bool} (h : s.actNext c p ok = some s') : ProcMove s s' := by
  unfold actNext at h
  cases hpc : s.pc p with
  | user _ | sleepOn _ | exitUnlock | exited => simp [hpc] at h
  | forkScan i =>
    simp only [hpc] at h
    exact allocproc_move hrun hpc h
  | forkAlloc np =>
    simp only [hpc] at h
    split at h <;> cases h
    · exact .allocprocContext hrun hpc
    · exact .forkFail hrun (Or.inl hpc)
  | forkCopy np =>
    simp only [hpc] at h
    split at h <;> cases h
    · exact .forkCopied hrun hpc
    · exact .forkFail hrun (Or.inr hpc)
  | forkParent np pid =>
    simp only [hpc, ite_eq_some] at h
    obtain ⟨hwait, rfl⟩ := h
    exact .forkParent hrun hpc hwait
  | forkRunnable np pid =>
    simp only [hpc, ite_eq_some] at h
    obtain ⟨hlock, rfl⟩ := h
    exact .forkRunnable hrun hpc hlock
  | exitReparent status i =>
    rw [hpc] at h
    cases h
    exact reparent_move hrun hpc
  | exitWakeInit status i j =>
    simp only [hpc] at h
    exact exitWakeInit_move hrun hpc h
  | exitWakeParent status chan j =>
    simp only [hpc] at h
    exact exitWakeParent_move hrun hpc h
  | exitLock status =>
    simp only [hpc, ite_eq_some] at h
    obtain ⟨hlock, rfl⟩ := h
    exact .exitZombie hrun hpc hlock
  | waitStart w addr =>
    simp only [hpc, ite_eq_some] at h
    obtain ⟨hwait, rfl⟩ := h
    exact .waitStart hrun hpc hwait
  | waitScan w addr havekids i =>
    simp only [hpc] at h
    exact waitScan_move hrun hpc h
  | waitSleep w addr =>
    simp only [hpc, ite_eq_some] at h
    obtain ⟨_, rfl⟩ := h
    exact .waitSleep hrun hpc
  | killScan pid i =>
    simp only [hpc] at h
    exact kill_move hrun hpc h

theorem actCall_move {ret : Option Int32} (hpc : s.pc p = .user ret)
    (h : s.actCall c p a = some s') : ProcMove s s' := by
  have hplain : (s.pc p).plain = true := by rw [hpc]; rfl
  cases a with
  | next _ | yield => simp [actCall] at h
  | fork | wait w addr | kill pid =>
    cases h
    exact .plain hrun hplain rfl
  | exit status =>
    simp only [actCall, Option.ite_none_left_eq_some, ite_eq_some] at h
    obtain ⟨hinit, hwait, rfl⟩ := h
    exact .exit hrun hplain hinit hwait
  | sleep n =>
    simp only [actCall, ite_eq_some] at h
    obtain ⟨_, rfl⟩ := h
    exact .sleepLock hrun hplain
  | setkilled =>
    simp only [actCall, ite_eq_some] at h
    obtain ⟨_, rfl⟩ := h
    exact .setkilled hrun

theorem actRunning_move (h : s.actRunning c p a = some s') : ProcMove s s' := by
  unfold actRunning at h
  split at h
  · exact actNext_move hrun h
  · simp only [ite_eq_some] at h
    obtain ⟨⟨hpc, _⟩, rfl⟩ := h
    exact .yield hrun hpc
  · split at h
    · rename_i hpc
      exact actCall_move hrun hpc h
    · contradiction

end

theorem actLocked_move (hcpu : s.cpu c = .run p)
    (hthread : s.thread p = .locked) (h : s.actLocked p = some s') : ProcMove s s' := by
  unfold actLocked at h
  split at h
  · rename_i hpc
    cases h
    exact .sleep hcpu hthread (by rw [hpc]; rfl)
  · rename_i hpc
    cases h
    exact .sleep hcpu hthread (by rw [hpc]; rfl)
  · rename_i hpc
    cases h
    exact .exitUnlock hcpu hthread hpc
  · contradiction

theorem act_move (h : s.act c a = some s') : ProcMove s s' := by
  unfold act at h
  split at h
  · rename_i p hcpu
    split at h
    · rename_i hthread
      cases h
      exact .resume hcpu hthread
    · rename_i hthread
      cases h
      exact .sched hcpu hthread
    · rename_i hthread
      exact actLocked_move hcpu hthread h
    · rename_i hthread
      exact actRunning_move ⟨hcpu, hthread⟩ h
    · contradiction
    · contradiction
  · contradiction

theorem step_move {l : ProcLabel} (h : s.step mode l = some s') : ProcMove s s' := by
  cases l with
  | scheduler c => exact scheduler_move h
  | act c a => exact act_move h
  | wakeup c n q =>
    simp only [step] at h
    split at h
    · cases h
      exact .stay
    · unfold wakeupSlot at h
      split at h
      · rename_i hlock
        split at h
        · rename_i hasleep
          cases h
          exact .wakeup hlock hasleep.1 hasleep.2
        · cases h
          exact .stay
      · contradiction
  | tick =>
    cases h
    exact .clock (fun _ => rfl)
  | updateTime q =>
    simp only [step, updateTime] at h
    split at h
    · split at h
      · cases h
        refine .clock ?_
        intro r
        by_cases hr : r = q
        · rw [hr, update_self]
        · rw [update_of_ne hr]
      · cases h
        exact .stay
    · contradiction

end ProcSystem

end Xv6
