import Xv6.ProcTree

/-!
# No exited child is missed

`wait` and `getprocinfo` look for zombies and go to sleep under `wait_lock`,
and `exit` hands children over, wakes the parent and becomes a zombie under the
same lock.  The sleeper gives `wait_lock` up while it already holds its own
`p->lock`, so that the `wakeup` of an `exit` that comes next has to wait until
it is asleep.
-/

namespace Xv6

open Function (update update_of_ne update_self)
open ProcPc

/-- The thread holds `wait_lock`.  `sleep` releases it once it has its own
lock. -/
def ProcPc.holdsWaitLock (thread : Thread) : ProcPc → Bool
  | .exitReparent .. | .exitWakeInit .. | .exitWakeParent .. | .exitLock _ |
      .exitUnlock | .waitScan .. => true
  | .waitSleep .. => decide (thread = .running)
  | _ => false

/-- The slots below this one have been looked at by `wait`. -/
def ProcPc.scanned (thread : Thread) : ProcPc → Option ℕ
  | .waitScan _ _ _ i => some i
  | .waitSleep .. => if thread = .running then some nproc else none
  | _ => none

/-- The slots below this one have been visited by `wakeup(p->parent)`. -/
def ProcPc.woken : ProcPc → Option ℕ
  | .exitWakeParent _ _ j => some j
  | .exitLock _ => some nproc
  | _ => none

variable {k : ProcPc} {thread : Thread}

theorem ProcPc.holds_of_plain (hk : k.plain = true) (thread : Thread) :
    k.holdsWaitLock thread = false := by
  cases k <;> first | rfl | contradiction

theorem ProcPc.holds_of_preemptible (hk : k.preemptible = true)
    (thread : Thread) : k.holdsWaitLock thread = false := by
  cases k <;> first | rfl | contradiction

theorem ProcPc.holds_of_woken {j : ℕ} (hk : k.woken = some j) (thread : Thread) :
    k.holdsWaitLock thread = true := by
  cases k <;> first | rfl | contradiction

theorem ProcPc.holds_of_scanned {i : ℕ} (hk : k.scanned thread = some i) :
    k.holdsWaitLock thread = true := by
  cases k with
  | waitSleep w addr =>
    by_cases hthread : thread = .running
    · unfold holdsWaitLock
      simp [hthread]
    · simp [scanned, hthread] at hk
  | _ => first | rfl | contradiction

theorem ProcPc.holds_afterSleep (hthread : thread ≠ .running) :
    k.afterSleep.holdsWaitLock .running = k.holdsWaitLock thread := by
  unfold holdsWaitLock
  cases k <;> simp [afterSleep, hthread]

theorem ProcPc.holds_congr {thread' : Thread} (h : thread = .running ↔ thread' = .running) :
    k.holdsWaitLock thread = k.holdsWaitLock thread' := by
  unfold holdsWaitLock
  cases k <;> simp [h]

namespace ProcSystem

variable {s s' : ProcSystem} {on : Slot → Option ℕ} {c : ℕ} {p q r np : Slot} {k : ProcPc}

/-! ## Who holds `wait_lock` -/

def WaitHeld (s : ProcSystem) : Prop :=
  ∀ p, s.waitLock = some p ↔ (s.pc p).holdsWaitLock (s.thread p) = true

namespace WaitHeld

section

variable (h : s.WaitHeld)
include h

theorem unique (hp : (s.pc p).holdsWaitLock (s.thread p) = true)
    (hq : (s.pc q).holdsWaitLock (s.thread q) = true) : p = q := by
  have hp' := (h p).mpr hp
  rw [(h q).mpr hq, Option.some.injEq] at hp'
  exact hp'.symm

theorem free (hfree : s.waitLock = none) (p : Slot) :
    (s.pc p).holdsWaitLock (s.thread p) = false := by
  rw [← Bool.not_eq_true, ← h p, hfree]
  simp

theorem keep (hlock : s'.waitLock = s.waitLock)
    (hpc : ∀ q, (s'.pc q).holdsWaitLock (s'.thread q) = (s.pc q).holdsWaitLock (s.thread q)) :
    s'.WaitHeld := by
  intro p
  rw [hlock, hpc]
  exact h p

theorem step (hlock : s'.waitLock = s.waitLock)
    (hp : (s'.pc p).holdsWaitLock (s'.thread p) = (s.pc p).holdsWaitLock (s.thread p))
    (hrest : ∀ q, q ≠ p → s'.pc q = s.pc q ∧ s'.thread q = s.thread q) : s'.WaitHeld := by
  refine h.keep hlock ?_
  intro q
  by_cases hq : q = p
  · rw [hq, hp]
  · rw [(hrest q hq).1, (hrest q hq).2]

theorem goto (hk : k.holdsWaitLock (s.thread p) = (s.pc p).holdsWaitLock (s.thread p)) :
    (s.goto p k).WaitHeld := by
  refine h.step (p := p) rfl ?_ (fun q hq => by simp [ProcSystem.goto, hq])
  simpa [ProcSystem.goto] using hk

theorem take (hfree : s.waitLock = none) (hk : ∀ thread, k.holdsWaitLock thread = true) :
    (({ s with waitLock := some p } : ProcSystem).goto p k).WaitHeld := by
  intro q
  by_cases hq : q = p
  · simp [ProcSystem.goto, hq, hk]
  · have := h.free hfree q
    simp [ProcSystem.goto, hq, Ne.symm hq, this]

theorem drop (hp : (s.pc p).holdsWaitLock (s.thread p) = true) (hlock : s'.waitLock = none)
    (hnew : (s'.pc p).holdsWaitLock (s'.thread p) = false)
    (hrest : ∀ q, q ≠ p → s'.pc q = s.pc q ∧ s'.thread q = s.thread q) : s'.WaitHeld := by
  intro q
  rw [hlock]
  by_cases hq : q = p
  · simp [hq, hnew]
  · rw [(hrest q hq).1, (hrest q hq).2]
    have hne : (s.pc q).holdsWaitLock (s.thread q) ≠ true := fun hholds => hq (h.unique hholds hp)
    simp [hne]

end

end WaitHeld

theorem WaitHeld.move (h : s.WaitHeld) (hsched : s.Sched)
    (hmove : ProcMove s s') : s'.WaitHeld := by
  obtain ⟨on, hseated⟩ := hsched.seated
  -- the slot that `fork` has allocated is at a place without locks
  have hchild : ∀ {p n thread}, (s.pc p).child = some n →
      (s.pc n).holdsWaitLock thread = false := by
    intro p n thread hn
    have hfits := hseated.fits n
    rw [hsched.forks.used p n hn] at hfits
    rcases hfits with hpc | ⟨_, hpc⟩ <;> rw [hpc] <;> rfl
  cases hmove with
  | stay | clock | wakeup | scan | dispatch | retire | setkilled => exact h
  | @switchTo c p hcpu =>
    have hseat := hseated.seat p
    rw [hseated.on_eq (c := c) (by rw [hcpu]; rfl)] at hseat
    refine h.step (p := p) rfl ?_ (fun q hq => by simp [hq])
    refine holds_congr ?_
    simp [(hseat.of_switchTo hcpu).2.1]
  | @sched c p hcpu hthread =>
    refine h.step (p := p) rfl ?_ (fun q hq => by simp [ProcSystem.sched, hq])
    refine holds_congr ?_
    simp [ProcSystem.sched, hthread]
  | @resume c p hcpu hthread =>
    refine h.step (p := p) rfl ?_ (fun q hq => by simp [resume, ProcSystem.goto, hq])
    simp only [resume, ProcSystem.goto, update_self]
    exact holds_afterSleep (by simp [hthread])
  | @sleep c p chan hcpu hthread hpc =>
    refine h.step (p := p) rfl ?_ (fun q hq => by simp [ProcSystem.sleep, hq])
    refine holds_congr ?_
    simp [ProcSystem.sleep, hthread]
  | @exitUnlock c p hcpu hthread hpc =>
    refine h.drop (p := p) (by rw [hpc]; rfl) rfl ?_
      (fun q hq => by simp [ProcSystem.exitUnlock, ProcSystem.goto, hq])
    unfold holdsWaitLock
    simp [ProcSystem.exitUnlock, ProcSystem.goto]
  | @yield c p hrun hpc =>
    refine h.step (p := p) rfl ?_ (fun q hq => by simp [ProcSystem.yield, hq])
    exact (holds_of_preemptible hpc _).trans (holds_of_preemptible hpc _).symm
  | @sleepLock c p n hrun hpc =>
    refine h.step (p := p) rfl ?_ (fun q hq => by simp [ProcSystem.goto, hq])
    rw [holds_of_plain hpc]
    unfold holdsWaitLock
    simp [ProcSystem.goto]
  | plain hrun hpc hk =>
    exact h.goto ((holds_of_plain hk _).trans (holds_of_plain hpc _).symm)
  | killWake hrun hpc | killMark hrun hpc | allocproc hrun hpc =>
    exact WaitHeld.goto (by exact h) (holds_of_plain hpc _).symm
  | @allocprocContext c p np hrun hpc =>
    refine WaitHeld.goto (s := s.allocprocContext np) ?_ ?_
    · refine h.step (p := np) rfl ?_ (fun q hq => by simp [ProcSystem.allocprocContext, hq])
      have hn : ∀ thread, (s.pc np).holdsWaitLock thread = false :=
        fun _ => hchild (p := p) (by rw [hpc]; rfl)
      simp [ProcSystem.allocprocContext, hn]
    · unfold holdsWaitLock
      simp [ProcSystem.allocprocContext, hpc]
  | forkFail hrun hpc =>
    refine WaitHeld.goto (by exact h) ?_
    unfold holdsWaitLock
    rcases hpc with hpc | hpc <;> simp [freeproc, hpc]
  | @forkCopied c p np hrun hpc =>
    refine WaitHeld.goto (WaitHeld.goto (by exact h) ?_) ?_
    · exact (hchild (p := p) (by rw [hpc]; rfl)).symm
    · by_cases hpn : p = np
      · unfold holdsWaitLock
        simp [ProcSystem.goto, hpn]
      · unfold holdsWaitLock
        simp [ProcSystem.goto, hpn, hpc]
  | forkParent hrun hpc | forkRunnable hrun hpc | reparent hrun hpc
  | wakeInit hrun hpc | wakeParent hrun hpc | reparentSkip hrun hpc
  | reparentEnd hrun hpc | wakeInitSkip hrun hpc | wakeInitEnd hrun hpc
  | wakeParentSkip hrun hpc | wakeParentEnd hrun hpc | waitSkip hrun hpc =>
    exact WaitHeld.goto (by exact h) (by rw [hpc]; rfl)
  | exit hrun hpc hinit hwait | waitStart hrun hpc hwait =>
    exact h.take hwait (fun _ => rfl)
  | @exitZombie c p status hrun hpc hlock =>
    refine h.step (p := p) rfl ?_ (fun q hq => by simp [ProcSystem.exitZombie, ProcSystem.goto, hq])
    rw [hpc]
    unfold holdsWaitLock
    simp [ProcSystem.exitZombie, ProcSystem.goto]
  | @waitReap c p w addr havekids q hrun hpc =>
    refine h.drop (p := p) (by rw [hpc]; rfl) rfl ?_ (fun r hr => by
      simp [ProcSystem.waitReap, ProcSystem.waitReturn, freeproc, ProcSystem.goto, hr])
    unfold holdsWaitLock
    simp [ProcSystem.waitReap, ProcSystem.waitReturn, freeproc, ProcSystem.goto]
  | @waitReturn c p w addr havekids i hrun hpc =>
    refine h.drop (p := p) (by rw [hpc]; rfl) rfl ?_
      (fun r hr => by simp [ProcSystem.waitReturn, ProcSystem.goto, hr])
    unfold holdsWaitLock
    simp [ProcSystem.waitReturn, ProcSystem.goto]
  | waitEnd hrun hpc =>
    refine h.goto ?_
    rw [hpc, hrun.2]
    rfl
  | @waitSleep c p w addr hrun hpc =>
    refine h.drop (p := p) (by rw [hpc, hrun.2]; rfl) rfl ?_
      (fun r hr => by simp [ProcSystem.waitSleep, hr])
    unfold holdsWaitLock
    simp [ProcSystem.waitSleep, hpc]

theorem userinit_waitHeld : userinit.WaitHeld := by
  intro p
  unfold holdsWaitLock
  simp [userinit]

/-! ## Sleepers and zombies -/

/-- `r` sleeps in `wait` or `getprocinfo`, or has released `wait_lock` to do
so. -/
def SelfSleeps (s : ProcSystem) (r : Slot) : Prop :=
  (s.state r = .sleeping ∧ s.chan r = some (.proc r)) ∨
    (s.thread r = .locked ∧ ∃ w addr, s.pc r = .waitSleep w addr)

/-- A sleeper has a zombie child only while `exit` is on its way to wake it
in `reparent`; `wait` has passed no zombie; and `exit` has woken the parent by
the time it has visited its slot. -/
structure Watched (s : ProcSystem) : Prop where
  asleep : ∀ q r, s.state q = .zombie → s.parent q = some r →
    s.SelfSleeps r → r = initproc ∧ ∃ e status i j,
      s.pc e = .exitWakeInit status i j ∧ j ≤ initproc.val
  scan : ∀ p i, (s.pc p).scanned (s.thread p) = some i →
    ∀ q : Slot, q.val < i → s.parent q = some p → s.state q ≠ .zombie
  chan : ∀ e status chan j, s.pc e = .exitWakeParent status chan j → chan = (s.parent e).map .proc
  woken : ∀ e j r, (s.pc e).woken = some j → s.parent e = some r → r.val < j → ¬s.SelfSleeps r

theorem SelfSleeps.of_goto (hr : (s.goto p k).SelfSleeps r)
    (hlocked : s.thread p = .locked → ∀ w addr, k ≠ .waitSleep w addr) : s.SelfSleeps r := by
  obtain hr | ⟨hthread, w, addr, hr⟩ := hr
  · exact Or.inl hr
  · have hrp : r ≠ p := by
      rintro rfl
      simp only [ProcSystem.goto, update_self] at hr
      exact hlocked hthread w addr hr
    simp only [ProcSystem.goto, update_of_ne hrp] at hr
    exact Or.inr ⟨hthread, w, addr, hr⟩

namespace Watched

theorem keep (h : s.Watched) (hself : ∀ r, s'.SelfSleeps r → s.SelfSleeps r)
    (hzombie : ∀ q r, s'.state q = .zombie → s'.parent q = some r → s.state q = .zombie ∧
    s.parent q = some r) (hinit : ∀ e status i j, s.pc e = .exitWakeInit status i j →
    s'.pc e = s.pc e) (hscan : ∀ p i, (s'.pc p).scanned (s'.thread p) = some i →
    (s.pc p).scanned (s.thread p) = some i) (hwoken : ∀ e j, (s'.pc e).woken = some j →
    s'.pc e = s.pc e ∧ s'.parent e = s.parent e) : s'.Watched := by
  refine ⟨?_, ?_, ?_, ?_⟩
  · intro q r hq hr hsleeps
    obtain ⟨hq', hr'⟩ := hzombie q r hq hr
    obtain ⟨hr', e, status, i, j, he, hj⟩ := h.asleep q r hq' hr' (hself r hsleeps)
    exact ⟨hr', e, status, i, j, (hinit e status i j he).trans he, hj⟩
  · intro p i hp q hq hparent hzomb
    obtain ⟨hq', hparent'⟩ := hzombie q p hzomb hparent
    exact h.scan p i (hscan p i hp) q hq hparent' hq'
  · intro e status chan j he
    obtain ⟨hpc, hparent⟩ := hwoken e j (by rw [he]; rfl)
    rw [hparent]
    exact h.chan e status chan j (hpc ▸ he)
  · intro e j r he hr hj hsleeps
    obtain ⟨hpc, hparent⟩ := hwoken e j he
    exact h.woken e j r (hpc ▸ he) (hparent ▸ hr) hj (hself r hsleeps)

theorem step (h : s.Watched) (hlocked : s.thread p = .locked → ∀ w addr, k ≠ .waitSleep w addr)
    (hinit : ∀ status i j, s.pc p = .exitWakeInit status i j → j ≤ initproc.val →
    s.SelfSleeps initproc → ∃ status i j, k = .exitWakeInit status i j ∧ j ≤ initproc.val)
    (hscan : ∀ i, k.scanned (s.thread p) = some i → ∀ q : Slot, q.val < i → s.parent q = some p →
    s.state q ≠ .zombie) (hchan : ∀ status chan j, k = .exitWakeParent status chan j →
    chan = (s.parent p).map .proc) (hwoken : ∀ j, k.woken = some j →
    ∀ r, s.parent p = some r → r.val < j → ¬s.SelfSleeps r) : (s.goto p k).Watched := by
  have hself : ∀ r, (s.goto p k).SelfSleeps r → s.SelfSleeps r := fun r hr => hr.of_goto hlocked
  refine ⟨?_, ?_, ?_, ?_⟩
  · intro q r hq hr hsleeps
    obtain ⟨rfl, e, status, i, j, he, hj⟩ := h.asleep q r hq hr (hself r hsleeps)
    refine ⟨rfl, ?_⟩
    by_cases hep : e = p
    · subst hep
      obtain ⟨status', i', j', hk, hj'⟩ := hinit status i j he hj (hself _ hsleeps)
      exact ⟨e, status', i', j', by simp [ProcSystem.goto, hk], hj'⟩
    · exact ⟨e, status, i, j, by simpa [ProcSystem.goto, hep] using he, hj⟩
  · intro p' i hp' q hq hparent
    by_cases hpp : p' = p
    · subst hpp
      simp only [ProcSystem.goto, update_self] at hp'
      exact hscan i hp' q hq hparent
    · simp only [ProcSystem.goto, update_of_ne hpp] at hp'
      exact h.scan p' i hp' q hq hparent
  · intro e status chan j he
    by_cases hep : e = p
    · subst hep
      simp only [ProcSystem.goto, update_self] at he
      exact hchan status chan j he
    · simp only [ProcSystem.goto, update_of_ne hep] at he
      exact h.chan e status chan j he
  · intro e j r he hr hj hsleeps
    by_cases hep : e = p
    · subst hep
      simp only [ProcSystem.goto, update_self] at he
      exact hwoken j he r hr hj (hself r hsleeps)
    · simp only [ProcSystem.goto, update_of_ne hep] at he
      exact h.woken e j r he hr hj (hself r hsleeps)

theorem goto (h : s.Watched) (hp : ∀ status i j, s.pc p ≠ .exitWakeInit status i j)
    (hk : ∀ thread, k.scanned thread = none) (hwoken : k.woken = none) : (s.goto p k).Watched := by
  refine h.step ?_ ?_ ?_ ?_ ?_
  · rintro _ w addr rfl
    have := hk .running
    simp [scanned] at this
  · exact fun status i j hpc => absurd hpc (hp status i j)
  · intro i hi
    rw [hk] at hi
    contradiction
  · rintro status chan j rfl
    contradiction
  · intro j hj
    rw [hwoken] at hj
    contradiction

theorem frame (h : s.Watched) (hstate : s'.state = s.state)
    (hchan : s'.chan = s.chan) (hparent : s'.parent = s.parent)
    (hthread : s'.thread = s.thread) (hpc : s'.pc = s.pc) : s'.Watched := by
  refine h.keep ?_ ?_ ?_ ?_ ?_ <;>
    simp only [SelfSleeps, hstate, hchan, hparent, hthread, hpc, imp_self, implies_true, and_self]
  exact fun _ _ hq hr => ⟨hq, hr⟩

theorem setState (h : s.Watched) (q : Slot) (state : ProcState)
    (hsleeping : state ≠ .sleeping) (hzombie : state ≠ .zombie) :
    ({ s with state := update s.state q state } : ProcSystem).Watched := by
  have hold : ∀ r old, (old = .sleeping ∨ old = .zombie) →
      update s.state q state r = old → s.state r = old := by
    intro r old hcases hr
    by_cases hrq : r = q
    · rw [hrq, update_self] at hr
      rcases hcases with rfl | rfl <;> contradiction
    · rwa [update_of_ne hrq] at hr
  refine h.keep ?_ ?_ (fun _ _ _ _ _ => rfl) (fun _ _ hp => hp) (fun _ _ _ => ⟨rfl, rfl⟩)
  · rintro r (⟨hr, hchan⟩ | hr)
    · exact Or.inl ⟨hold r _ (Or.inl rfl) hr, hchan⟩
    · exact Or.inr hr
  · exact fun r r' hr hr' => ⟨hold r _ (Or.inr rfl) hr, hr'⟩

end Watched

/-! ## What the steps of `exit` and `wait` do -/

theorem not_selfSleeps (hseated : s.Seated on) (hlock : s.lock r = none)
    (hnot : ¬(s.state r = .sleeping ∧ s.chan r = some (.proc r))) : ¬s.SelfSleeps r := by
  rintro (hr | ⟨hthread, _⟩)
  · exact hnot hr
  · have hseat := hseated.seat r
    rw [hthread] at hseat
    exact hseat.ne_none_of_locked hlock

namespace Watched

variable {status : Int32}

theorem wakeInit (h : s.Watched) {i j : ℕ} (hpc : s.pc p = .exitWakeInit status i j)
    (hk : k = .exitWakeInit status i (j + 1) ∨ k = .exitReparent status (i + 1) ∧ initproc.val < j)
    (hawake : j = initproc.val → ¬s.SelfSleeps initproc) : (s.goto p k).Watched := by
  refine h.step ?_ ?_ ?_ ?_ ?_
  · rintro _ w addr rfl
    rcases hk with hk | ⟨hk, _⟩ <;> contradiction
  · intro status' i' j' hpc' hj hsleeps
    rw [hpc] at hpc'
    injection hpc' with _ _ hjj
    subst hjj
    have hlt : j < initproc.val := lt_of_le_of_ne hj (fun heq => hawake heq hsleeps)
    rcases hk with rfl | ⟨rfl, hgt⟩
    · exact ⟨status, i, j + 1, rfl, hlt⟩
    · omega
  · intro m hm
    rcases hk with rfl | ⟨rfl, _⟩ <;> contradiction
  · rintro status' chan j' rfl
    rcases hk with hk | ⟨hk, _⟩ <;> contradiction
  · intro m hm
    rcases hk with rfl | ⟨rfl, _⟩ <;> contradiction

theorem wakeParent (h : s.Watched)
    (hp : ∀ status i j, s.pc p ≠ .exitWakeInit status i j) {j : ℕ} (hk : k.woken = some j)
    (hchan : ∀ status chan j, k = .exitWakeParent status chan j → chan = (s.parent p).map .proc)
    (hawake : ∀ r, s.parent p = some r → r.val < j → ¬s.SelfSleeps r) : (s.goto p k).Watched := by
  refine h.step ?_ ?_ ?_ hchan ?_
  · rintro _ w addr rfl
    contradiction
  · exact fun status i j hpc => absurd hpc (hp status i j)
  · intro i hi
    cases k <;> contradiction
  · intro m hm
    rw [hk, Option.some.injEq] at hm
    exact hm ▸ hawake

theorem look (h : s.Watched) (hp : ∀ status i j, s.pc p ≠ .exitWakeInit status i j) {i : ℕ}
    (hthread : s.thread p = .running) (hk : k.scanned .running = some i)
    (hbelow : ∀ q : Slot, q.val < i → s.parent q = some p →
      s.state q ≠ .zombie) : (s.goto p k).Watched := by
  refine h.step ?_ ?_ ?_ ?_ ?_
  · intro hlocked
    rw [hthread] at hlocked
    contradiction
  · exact fun status i j hpc => absurd hpc (hp status i j)
  · intro m hm
    rw [hthread, hk, Option.some.injEq] at hm
    exact hm ▸ hbelow
  · rintro status chan j rfl
    contradiction
  · intro m hm
    cases k <;> contradiction

/-- While `exit` holds `wait_lock` no other process looks for zombies. -/
theorem of_holder (h : s.WaitHeld) (hp : (s.pc p).holdsWaitLock (s.thread p) = true)
    (hrest : ∀ e, e ≠ p → s'.pc e = s.pc e ∧ s'.thread e = s.thread e)
    (hscanned : (s'.pc p).scanned (s'.thread p) = none) (hwoken : (s'.pc p).woken = none)
    (hasleep : ∀ q r, s'.state q = .zombie → s'.parent q = some r → s'.SelfSleeps r → r = initproc ∧
    ∃ e status i j, s'.pc e = .exitWakeInit status i j ∧ j ≤ initproc.val) : s'.Watched := by
  have hother : ∀ e, e ≠ p → (s'.pc e).holdsWaitLock (s'.thread e) ≠ true := by
    intro e he
    rw [(hrest e he).1, (hrest e he).2]
    exact fun hholds => he (h.unique hholds hp)
  have hnone : ∀ e j, (s'.pc e).woken ≠ some j := by
    intro e j he
    by_cases hep : e = p
    · rw [hep, hwoken] at he
      contradiction
    · exact hother e hep (holds_of_woken he _)
  refine ⟨hasleep, fun p' i hp' => ?_, fun e status chan j he => ?_,
    fun e j r he => absurd he (hnone e j)⟩
  · by_cases hpp : p' = p
    · rw [hpp, hscanned] at hp'
      contradiction
    · exact absurd (holds_of_scanned hp') (hother p' hpp)
  · exact absurd (by rw [he]; rfl) (hnone e j)

theorem reparent (h : s.Watched) (hheld : s.WaitHeld) {i : Slot}
    (hpc : s.pc p = .exitReparent status i) :
    (({ s with parent := update s.parent i (some initproc) } :
      ProcSystem).goto p (.exitWakeInit status i 0)).Watched := by
  refine of_holder hheld (p := p) (by rw [hpc]; rfl) (fun e he => by simp [ProcSystem.goto, he])
    (by simp [ProcSystem.goto, scanned]) (by simp [ProcSystem.goto, ProcPc.woken]) ?_
  intro q r hq hr hsleeps
  refine ⟨?_, p, status, i, 0, by simp [ProcSystem.goto], Nat.zero_le _⟩
  by_cases hqi : q = i
  · simp only [ProcSystem.goto, hqi, update_self, Option.some.injEq] at hr
    exact hr.symm
  · simp only [ProcSystem.goto, update_of_ne hqi] at hr
    exact (h.asleep q r hq hr (hsleeps.of_goto (by simp))).1

theorem exitZombie (h : s.Watched) (hheld : s.WaitHeld)
    (hpc : s.pc p = .exitLock status) : (s.exitZombie c p status).Watched := by
  have hp : (s.pc p).holdsWaitLock (s.thread p) = true := by rw [hpc]; rfl
  refine of_holder hheld hp (fun e he => by simp [ProcSystem.exitZombie, ProcSystem.goto, he])
    (by simp [ProcSystem.exitZombie, ProcSystem.goto, scanned])
    (by simp [ProcSystem.exitZombie, ProcSystem.goto, ProcPc.woken]) ?_
  intro q r hq hr hsleeps
  have hrp : r ≠ p := by
    rintro rfl
    rcases hsleeps with ⟨hr, _⟩ | ⟨_, w, addr, hr⟩ <;>
      simp [ProcSystem.exitZombie, ProcSystem.goto] at hr
  have hold : s.SelfSleeps r := by
    simpa [SelfSleeps, ProcSystem.exitZombie, ProcSystem.goto, hrp] using hsleeps
  by_cases hqp : q = p
  · subst hqp
    exact absurd hold (h.woken q nproc r (by rw [hpc]; rfl) hr r.isLt)
  · simp only [ProcSystem.exitZombie, ProcSystem.goto, update_of_ne hqp] at hq
    obtain ⟨_, e, status', i, j, he, _⟩ := h.asleep q r hq hr hold
    obtain rfl := hheld.unique (p := e) (by rw [he]; rfl) hp
    rw [hpc] at he
    contradiction

theorem waitSleep (h : s.Watched) (hheld : s.WaitHeld) {w : WaitCall}
    {addr : UInt64} (hpc : s.pc p = .waitSleep w addr)
    (hthread : s.thread p = .running) : (s.waitSleep c p).Watched := by
  have hp : (s.pc p).holdsWaitLock (s.thread p) = true := by
    rw [hpc, hthread]
    rfl
  have hself : ∀ r, r ≠ p → (s.waitSleep c p).SelfSleeps r → s.SelfSleeps r := by
    intro r hr
    simp [SelfSleeps, ProcSystem.waitSleep, hr]
  refine ⟨?_, ?_, h.chan, ?_⟩
  · intro q r hq hr hsleeps
    by_cases hrp : r = p
    · subst hrp
      refine absurd hq (h.scan r nproc ?_ q q.isLt hr)
      simp [hpc, hthread, scanned]
    · exact h.asleep q r hq hr (hself r hrp hsleeps)
  · intro p' i hp'
    by_cases hpp : p' = p
    · subst hpp
      simp [ProcSystem.waitSleep, hpc, scanned] at hp'
    · simp only [ProcSystem.waitSleep, update_of_ne hpp] at hp'
      exact h.scan p' i hp'
  · intro e j r he hr hj hsleeps
    have hep : e = p := hheld.unique (holds_of_woken he _) hp
    subst hep
    have he' : (s.pc e).woken = some j := he
    rw [hpc] at he'
    contradiction

end Watched

theorem plain_ne_wakeInit (hk : k.plain = true) (status : Int32) (i j : ℕ) :
    k ≠ .exitWakeInit status i j := by
  rintro rfl
  contradiction

theorem plain_scanned (hk : k.plain = true) (thread : Thread) : k.scanned thread = none := by
  cases k <;> first | rfl | contradiction

theorem plain_woken (hk : k.plain = true) : k.woken = none := by
  cases k <;> first | rfl | contradiction

namespace Watched

theorem free (h : s.Watched) (hq : (s.pc q).woken = none) : (s.freeproc q).Watched := by
  refine h.keep ?_ ?_ (fun _ _ _ _ _ => rfl) (fun _ _ hp => hp) ?_
  · rintro r (⟨hr, hchan⟩ | hr)
    · have hrq : r ≠ q := by
        rintro rfl
        simp [freeproc] at hr
      simp only [freeproc, update_of_ne hrq] at hr hchan
      exact Or.inl ⟨hr, hchan⟩
    · exact Or.inr hr
  · intro r r' hr hr'
    have hrq : r ≠ q := by
      rintro rfl
      simp [freeproc] at hr
    simp only [freeproc, update_of_ne hrq] at hr hr'
    exact ⟨hr, hr'⟩
  · intro e j he
    have heq : e ≠ q := by
      rintro rfl
      have he' : (s.pc e).woken = some j := he
      rw [hq] at he'
      contradiction
    simp [freeproc, heq]

theorem resume (h : s.Watched) (hstate : s.state p = .running) : (s.resume p).Watched := by
  have hafter : ∀ e, (s.resume p).pc e = s.pc e ∨
      e = p ∧ (s.resume p).pc e = (s.pc e).afterSleep := by
    intro e
    by_cases hep : e = p <;> simp [ProcSystem.resume, ProcSystem.goto, hep]
  have hself : ∀ r, (s.resume p).SelfSleeps r → s.SelfSleeps r := by
    intro r hr
    have hrp : r ≠ p := by
      rintro rfl
      rcases hr with ⟨hr, _⟩ | ⟨hr, _⟩
      · simp [ProcSystem.resume, ProcSystem.goto, hstate] at hr
      · simp [ProcSystem.resume, ProcSystem.goto] at hr
    by_cases hsleep : (s.pc p).inSleep = true <;>
      simpa [SelfSleeps, ProcSystem.resume, ProcSystem.goto, hrp, hsleep] using hr
  refine h.keep hself (fun _ _ hq hr => ⟨hq, hr⟩) ?_ ?_ ?_
  · intro e status i j he
    rcases hafter e with heq | ⟨_, heq⟩
    · exact heq
    · rw [heq, he]
      rfl
  · intro p' i hp'
    by_cases hpp : p' = p
    · subst hpp
      simp only [ProcSystem.resume, ProcSystem.goto, update_self] at hp'
      cases hpc : s.pc p' <;> rw [hpc] at hp' <;> first | contradiction | exact hp'
    · simpa [ProcSystem.resume, ProcSystem.goto, hpp] using hp'
  · intro e j he
    rcases hafter e with heq | ⟨_, heq⟩
    · exact ⟨heq, rfl⟩
    · rw [heq] at he ⊢
      refine ⟨?_, rfl⟩
      cases hpc : s.pc e <;> rw [hpc] at he <;> first | contradiction | rfl

theorem sleep (h : s.Watched) {chan : Chan} (hthread : s.thread p = .locked)
    (hpc : (s.pc p).sleepChan p = some chan) : (s.sleep p chan).Watched := by
  refine h.keep ?_ ?_ (fun _ _ _ _ _ => rfl) ?_ (fun _ _ _ => ⟨rfl, rfl⟩)
  · intro r hr
    by_cases hrp : r = p
    · subst hrp
      right
      refine ⟨hthread, ?_⟩
      rcases hr with ⟨_, hchan⟩ | ⟨hr, _⟩
      · simp only [ProcSystem.sleep, update_self, Option.some.injEq] at hchan
        cases hk : s.pc r with
        | waitSleep w addr => exact ⟨w, addr, rfl⟩
        | sleepOn n =>
          rw [hk, hchan] at hpc
          simp [sleepChan] at hpc
        | _ => rw [hk] at hpc; contradiction
      · simp [ProcSystem.sleep] at hr
    · simpa [SelfSleeps, ProcSystem.sleep, hrp] using hr
  · intro q r hq hr
    have hqp : q ≠ p := by
      rintro rfl
      simp [ProcSystem.sleep] at hq
    simp only [ProcSystem.sleep, update_of_ne hqp] at hq
    exact ⟨hq, hr⟩
  · intro p' i hp'
    by_cases hpp : p' = p
    · subst hpp
      simp only [ProcSystem.sleep, update_self] at hp'
      cases hk : s.pc p' <;> rw [hk] at hp' <;>
        first | contradiction | exact hp'
    · simpa [ProcSystem.sleep, hpp] using hp'

theorem setThread (h : s.Watched) (p : Slot) (thread : Thread)
    (hcases : thread ≠ .locked ∧ thread ≠ .running ∨ ∀ w addr, s.pc p ≠ .waitSleep w addr) :
    ({ s with thread := update s.thread p thread } : ProcSystem).Watched := by
  refine h.keep ?_ (fun _ _ hq hr => ⟨hq, hr⟩) (fun _ _ _ _ _ => rfl) ?_ (fun _ _ _ => ⟨rfl, rfl⟩)
  · rintro r (hr | ⟨hthread, w, addr, hr⟩)
    · exact Or.inl hr
    · have hrp : r ≠ p := by
        rintro rfl
        rcases hcases with ⟨hlocked, _⟩ | hpc
        · simp [hlocked] at hthread
        · exact hpc w addr hr
      simp only [update_of_ne hrp] at hthread
      exact Or.inr ⟨hthread, w, addr, hr⟩
  · intro p' i hp'
    by_cases hpp : p' = p
    · subst hpp
      simp only [update_self] at hp'
      cases hk : s.pc p' with
      | waitSleep w addr =>
        rcases hcases with ⟨_, hrunning⟩ | hpc
        · rw [hk] at hp'
          simp [scanned, hrunning] at hp'
        · exact absurd hk (hpc w addr)
      | _ => rwa [hk] at hp'
    · simpa [hpp] using hp'

theorem adopt (h : s.Watched) (hq : s.state q ≠ .zombie) (hwoken : (s.pc q).woken = none) :
    ({ s with parent := update s.parent q (some p) } : ProcSystem).Watched := by
  refine h.keep (fun _ hr => hr) ?_ (fun _ _ _ _ _ => rfl) (fun _ _ hp => hp) ?_
  · intro r r' hr hr'
    have hrq : r ≠ q := by
      rintro rfl
      exact hq hr
    simp only [update_of_ne hrq] at hr'
    exact ⟨hr, hr'⟩
  · intro e j he
    have heq : e ≠ q := by
      rintro rfl
      have he' : (s.pc e).woken = some j := he
      rw [hwoken] at he'
      contradiction
    simp [heq]

end Watched

theorem Watched.move (h : s.Watched) (hsched : s.Sched) (htree : s.Tree)
    (hheld : s.WaitHeld) (hmove : ProcMove s s') : s'.Watched := by
  obtain ⟨on, hseated⟩ := hsched.seated
  have hused : ∀ {q}, s.state q = .used ∨ s.state q = .zombie →
      (s.pc q).woken = none ∧ ∀ status i j, s.pc q ≠ .exitWakeInit status i j := by
    intro q hq
    have hfits := hseated.fits q
    rcases hq with hq | hq
    · rw [hq] at hfits
      rcases hfits with hpc | ⟨_, hpc⟩ <;> simp [hpc, ProcPc.woken]
    · rw [hq] at hfits
      rcases hfits with hpc | ⟨hpc, _⟩ <;> simp [hpc, ProcPc.woken]
  cases hmove with
  | stay => exact h
  | clock | scan | retire | setkilled => exact h.frame rfl rfl rfl rfl rfl
  | wakeup => exact h.setState _ _ (by decide) (by decide)
  | @dispatch c p =>
    exact (h.setState p .running (by decide) (by decide)).frame rfl rfl rfl rfl rfl
  | @switchTo c p =>
    exact (h.setThread p .resumed (Or.inl (by decide))).frame rfl rfl rfl rfl rfl
  | @sched c p =>
    exact (h.setThread p .saved (Or.inl (by decide))).frame rfl rfl rfl rfl rfl
  | @resume c p hcpu hthread =>
    have hseat := hseated.seat p
    rw [hthread] at hseat
    exact h.resume hseat.of_resumed
  | sleep hcpu hthread hpc => exact h.sleep hthread hpc
  | @exitUnlock c p hcpu hthread hpc =>
    have hnew := h.setThread p .leaving (Or.inl (by decide))
    exact Watched.goto (hnew.frame rfl rfl rfl rfl rfl) (by simp [hpc]) (fun _ => rfl) rfl
  | @yield c p hrun hpc =>
    have hnew := h.setThread p .leaving (Or.inl (by decide))
    exact (hnew.setState p .runnable (by decide) (by decide)).frame rfl rfl rfl rfl rfl
  | @sleepLock c p n hrun hpc =>
    have hnew := h.goto (k := .sleepOn n) (plain_ne_wakeInit hpc) (fun _ => rfl) rfl
    exact (hnew.setThread p .locked (Or.inr (by simp [ProcSystem.goto]))).frame rfl rfl rfl rfl rfl
  | plain hrun hpc hk =>
    exact h.goto (plain_ne_wakeInit hpc) (plain_scanned hk) (plain_woken hk)
  | @killWake c p q hrun hpc hlock hstate =>
    have hnew := h.setState q .runnable (by decide) (by decide)
    exact Watched.goto (hnew.frame rfl rfl rfl rfl rfl) (plain_ne_wakeInit hpc) (fun _ => rfl) rfl
  | killMark hrun hpc | exit hrun hpc =>
    exact Watched.goto (h.frame rfl rfl rfl rfl rfl) (plain_ne_wakeInit hpc) (fun _ => rfl) rfl
  | @allocproc c p np hrun hpc =>
    have hnew := h.setState np .used (by decide) (by decide)
    exact Watched.goto (hnew.frame rfl rfl rfl rfl rfl) (plain_ne_wakeInit hpc) (fun _ => rfl) rfl
  | @allocprocContext c p np hrun hpc =>
    have hnew := h.setThread np .saved (Or.inl (by decide))
    exact Watched.goto (hnew.frame rfl rfl rfl rfl rfl)
      (by simp [ProcSystem.allocprocContext, hpc]) (fun _ => rfl) rfl
  | @forkFail c p np hrun hpc =>
    have hnp := hsched.forks.used p np (by rcases hpc with hpc | hpc <;> rw [hpc] <;> rfl)
    have hfree := h.free (hused (Or.inl hnp)).1
    refine Watched.goto (hfree.frame rfl rfl rfl rfl rfl) ?_ (fun _ => rfl) rfl
    rcases hpc with hpc | hpc <;> simp [freeproc, hpc]
  | @forkCopied c p np hrun hpc =>
    have hnp := hsched.forks.used p np (by rw [hpc]; rfl)
    refine Watched.goto (Watched.goto (h.frame rfl rfl rfl rfl rfl)
      (hused (Or.inl hnp)).2 (fun _ => rfl) rfl) ?_ (fun _ => rfl) rfl
    by_cases hpn : p = np
    · simp [ProcSystem.goto, hpn]
    · simp [ProcSystem.goto, hpn, hpc]
  | @forkParent c p np pid hrun hpc hwait =>
    have hnp := hsched.forks.used p np (by rw [hpc]; rfl)
    have hnew := h.adopt (p := p) (by rw [hnp]; decide) (hused (Or.inl hnp)).1
    exact hnew.goto (by simp [hpc]) (fun _ => rfl) rfl
  | @forkRunnable c p np pid hrun hpc hlock =>
    have hnew := h.setState np .runnable (by decide) (by decide)
    exact hnew.goto (by simp [hpc]) (fun _ => rfl) rfl
  | reparentSkip hrun hpc =>
    exact h.goto (by simp [hpc]) (fun _ => rfl) rfl
  | reparent hrun hpc hi => exact h.reparent hheld hpc
  | reparentEnd hrun hpc hi =>
    refine h.wakeParent (by simp [hpc]) (j := 0) rfl ?_ ?_
    · intro status chan j heq
      injection heq with _ hchan
      exact hchan.symm
    · exact fun r _ hr => absurd hr (Nat.not_lt_zero _)
  | @wakeInit c p status i j hrun hpc hlock hstate =>
    have hnew := h.setState j .runnable (by decide) (by decide)
    refine hnew.wakeInit hpc (Or.inl rfl) ?_
    intro hj
    obtain rfl : j = initproc := Fin.ext hj
    exact not_selfSleeps (hseated.wake hlock hstate) hlock (by simp)
  | @wakeInitSkip c p status i j hrun hpc hskip =>
    refine h.wakeInit hpc (Or.inl rfl) ?_
    intro hj
    obtain rfl : j = initproc := Fin.ext hj
    have hne := (htree.exiting p (i + 1) (by rw [hpc]; rfl)).1
    obtain ⟨hlock, hnot⟩ := hskip (Ne.symm hne)
    exact not_selfSleeps hseated hlock hnot
  | wakeInitEnd hrun hpc hj =>
    refine h.wakeInit hpc (Or.inr ⟨rfl, ?_⟩) ?_
    · have := initproc.isLt
      omega
    · have := initproc.isLt
      omega
  | @wakeParent c p status chan j hrun hpc hlock hstate =>
    have hnew := h.setState j .runnable (by decide) (by decide)
    refine hnew.wakeParent (by simp [hpc]) rfl ?_ ?_
    · intro status' chan' j' heq
      injection heq with _ hchan
      exact hchan ▸ h.chan p status chan j hpc
    · intro r hr hlt
      rcases Nat.lt_succ_iff_lt_or_eq.mp hlt with hlt | heq
      · exact hnew.woken p j r (by rw [hpc]; rfl) hr hlt
      · obtain rfl : r = j := Fin.ext heq
        exact not_selfSleeps (hseated.wake hlock hstate) hlock (by simp)
  | @wakeParentSkip c p status chan j hrun hpc hskip =>
    have hchan := h.chan p status chan j hpc
    refine h.wakeParent (by simp [hpc]) rfl ?_ ?_
    · intro status' chan' j' heq
      injection heq with _ heq
      exact heq ▸ hchan
    · intro r hr hlt
      rcases Nat.lt_succ_iff_lt_or_eq.mp hlt with hlt | heq
      · exact h.woken p j r (by rw [hpc]; rfl) hr hlt
      · obtain rfl : r = j := Fin.ext heq
        have hrp : r ≠ p := by
          rintro rfl
          exact (htree.exiting r nproc (by rw [hpc]; rfl)).2 r r.isLt hr
        obtain ⟨hlock, hnot⟩ := hskip hrp
        rw [hchan, hr] at hnot
        exact not_selfSleeps hseated hlock hnot
  | @wakeParentEnd c p status chan j hrun hpc hj =>
    refine h.wakeParent (by simp [hpc]) rfl (by simp) ?_
    intro r hr hlt
    exact h.woken p j r (by rw [hpc]; rfl) hr (by omega)
  | exitZombie hrun hpc hlock => exact h.exitZombie hheld hpc
  | waitStart hrun hpc hwait =>
    refine Watched.look (h.frame rfl rfl rfl rfl rfl) (by simp [hpc]) hrun.2 rfl ?_
    exact fun q hq => absurd hq (Nat.not_lt_zero _)
  | @waitSkip c p w addr havekids havekids' q hrun hpc hskip =>
    refine h.look (by simp [hpc]) hrun.2 rfl ?_
    intro r hr hparent
    rcases Nat.lt_succ_iff_lt_or_eq.mp hr with hlt | heq
    · exact h.scan p q (by rw [hpc]; rfl) r hlt hparent
    · obtain rfl : r = q := Fin.ext heq
      exact fun hzombie => hskip ⟨hparent, hzombie⟩
  | @waitReap c p w addr havekids q hrun hpc hparent hlock hstate =>
    have hfree := h.free (hused (Or.inr hstate)).1
    have hnew := hfree.goto (p := p) (k := .user (some (s.pid q)))
      (by simp [freeproc, hpc]) (fun _ => rfl) rfl
    exact hnew.frame rfl rfl rfl rfl rfl
  | waitReturn hrun hpc =>
    exact Watched.goto (h.frame rfl rfl rfl rfl rfl) (by simp [hpc]) (fun _ => rfl) rfl
  | @waitEnd c p w addr havekids i hrun hpc hi =>
    refine h.look (by simp [hpc]) hrun.2 rfl ?_
    intro q hq hparent
    exact h.scan p i (by rw [hpc]; rfl) q (by omega) hparent
  | waitSleep hrun hpc => exact h.waitSleep hheld hpc hrun.2

theorem userinit_watched : userinit.Watched := by
  refine ⟨?_, ?_, ?_, ?_⟩
  · intro q r hq hr
    simp [userinit] at hr
  · simp [userinit, scanned]
  · simp [userinit]
  · simp [userinit, ProcPc.woken]

theorem watched_of_run {mode : SchedMode} {labels : List ProcLabel}
    (hrun : Machine.run (ProcSystem.step mode) labels userinit = some s) :
    s.WaitHeld ∧ s.Watched := by
  have h : (s.Sched ∧ s.Tree) ∧ s.WaitHeld ∧ s.Watched := by
    refine Machine.run_invariant (I := fun s => (s.Sched ∧ s.Tree) ∧ s.WaitHeld ∧ s.Watched)
      ?_ ⟨⟨userinit_sched, userinit_tree⟩, userinit_waitHeld, userinit_watched⟩ hrun
    rintro l s s' ⟨⟨hsched, htree⟩, hheld, hwatched⟩ hstep
    have hmove := step_move hstep
    exact ⟨⟨hsched.move hmove, htree.move hsched hmove⟩,
      hheld.move hsched hmove, hwatched.move hsched htree hheld hmove⟩
  exact h.2

end ProcSystem

/-- In every run, while `wait_lock` is free, a process that sleeps in `wait` or
`getprocinfo`, with itself as the channel, has no zombie child. -/
theorem no_exited_child_missed (mode : SchedMode) (labels : List ProcLabel) (s : ProcSystem)
    (hrun : Machine.run (ProcSystem.step mode) labels userinit = some s)
    (hfree : s.waitLock = none) (p q : Slot)
    (hsleeping : s.state p = .sleeping) (hchan : s.chan p = some (.proc p))
    (hparent : s.parent q = some p) : s.state q ≠ .zombie := by
  obtain ⟨hheld, hwatched⟩ := ProcSystem.watched_of_run hrun
  intro hzombie
  obtain ⟨_, e, status, i, j, he, _⟩ :=
    hwatched.asleep q p hzombie hparent (Or.inl ⟨hsleeping, hchan⟩)
  have := hheld.free hfree e
  rw [he] at this
  contradiction

/-- The first process forks and sleeps in `wait` while its child is
runnable. -/
theorem no_exited_child_missed_init_waits : ∃ s, Machine.run (ProcSystem.step .roundRobin)
        ([.scheduler 0, .scheduler 0, .scheduler 0, .act 0 (.next true),
          .act 0 .fork] ++ List.replicate 6 (.act 0 (.next true)) ++
          [.act 0 (.wait .wait 0)] ++
          List.replicate 69 (.act 0 (.next true)))
        userinit = some s ∧
      s.waitLock = none ∧ s.state initproc = .sleeping ∧
      s.parent 1 = some initproc ∧ s.state 1 ≠ .zombie := by
  refine Machine.exists_run (P := fun s => decide (s.waitLock = none ∧ s.state initproc = .sleeping ∧
      s.chan initproc = some (.proc initproc) ∧
      s.parent 1 = some initproc))
    (by decide +kernel) ?_
  intro s hrun hs
  obtain ⟨hfree, hstate, hchan, hparent⟩ := of_decide_eq_true hs
  exact ⟨hfree, hstate, hparent,
    no_exited_child_missed _ _ s hrun hfree initproc 1 hstate hchan hparent⟩

end Xv6
