import Xv6.ExclusiveExecution

/-!
# The process tree

`fork` publishes a child in three critical sections and `exit` hands the
children of a process to `initproc` before the process becomes a zombie.  So
parents are alive at every moment: a process that `exit` has already walked
past in `reparent` cannot become a child of the caller again, since only the
caller itself could make it one.
-/

namespace Xv6

open Function (update update_of_ne update_self)
open ProcPc

def ProcState.alive : ProcState → Bool
  | .sleeping | .runnable | .running => true
  | .unused | .used | .zombie => false

/-- The slots below this one have no parent that is at this place of `exit`. -/
def ProcPc.reparented : ProcPc → Option ℕ
  | .exitReparent _ i => some i
  | .exitWakeInit _ i _ => some (i + 1)
  | .exitWakeParent .. | .exitLock _ => some nproc
  | _ => none

def ProcPc.treeless : ProcPc → Bool
  | .exitReparent .. | .exitWakeInit .. | .exitWakeParent .. | .exitLock _ |
      .forkRunnable .. => false
  | _ => true

theorem ProcPc.treeless_of_plain {k : ProcPc} (hk : k.plain = true) : k.treeless = true := by
  cases k <;> first | rfl | contradiction

theorem ProcPc.treeless_afterSleep {k : ProcPc} :
    k.afterSleep.treeless = true ∨ k.afterSleep = k := by
  cases k <;> simp [afterSleep, treeless]

theorem ProcPc.reparented_of_treeless {k : ProcPc} (hk : k.treeless = true) :
    k.reparented = none := by
  cases k <;> first | rfl | contradiction

namespace ProcSystem

structure Tree (s : ProcSystem) : Prop where
  init : (s.state initproc).alive = true
  root : s.parent initproc = none
  live : ∀ q r, s.parent q = some r → (s.state r).alive = true
  has : ∀ q, q ≠ initproc → s.state q ≠ .unused → s.state q ≠ .used → s.parent q ≠ none
  forked : ∀ p np pid, s.pc p = .forkRunnable np pid → s.parent np ≠ none
  exiting : ∀ e i, (s.pc e).reparented = some i →
    e ≠ initproc ∧ ∀ q : Slot, q.val < i → s.parent q ≠ some e

variable {s s' : ProcSystem} {on : Slot → Option ℕ} {c : ℕ} {p q np : Slot} {k : ProcPc}

namespace Tree

section

variable (h : s.Tree)
include h

theorem keep (hparent : s'.parent = s.parent)
    (halive : ∀ q, (s.state q).alive = true → (s'.state q).alive = true)
    (hready : ∀ q, s'.state q ≠ .unused → s'.state q ≠ .used → s.state q ≠ .unused ∧
    s.state q ≠ .used) (hpc : ∀ q, (s'.pc q).treeless = true ∨ s'.pc q = s.pc q) : s'.Tree := by
  refine ⟨halive _ h.init, hparent ▸ h.root, ?_, ?_, ?_, ?_⟩
  · intro q r hq
    rw [hparent] at hq
    exact halive r (h.live q r hq)
  · intro q hq hunused hused
    obtain ⟨hunused', hused'⟩ := hready q hunused hused
    rw [hparent]
    exact h.has q hq hunused' hused'
  · intro p np pid hp
    rw [hparent]
    rcases hpc p with hk | hk
    · rw [hp] at hk
      contradiction
    · exact h.forked p np pid (hk ▸ hp)
  · intro e i he
    rw [hparent]
    rcases hpc e with hk | hk
    · rw [reparented_of_treeless hk] at he
      contradiction
    · exact h.exiting e i (hk ▸ he)

theorem frame (hstate : s'.state = s.state) (hparent : s'.parent = s.parent)
    (hpc : s'.pc = s.pc) : s'.Tree :=
  h.keep hparent (fun _ hq => hstate ▸ hq)
    (fun _ hq hq' => hstate ▸ ⟨hq, hq'⟩) (fun _ => Or.inr (hpc ▸ rfl))

theorem setState {state : ProcState} (hq : (s.state q).alive = true) (halive : state.alive = true) :
    ({ s with state := update s.state q state } : ProcSystem).Tree := by
  refine h.keep rfl ?_ ?_ (fun r => Or.inr rfl)
  · intro r hr
    by_cases hrq : r = q
    · simpa [hrq] using halive
    · simpa [hrq] using hr
  · intro r hr hr'
    by_cases hrq : r = q
    · subst hrq
      constructor <;> intro hst <;> rw [hst] at hq <;> contradiction
    · simp only [update_of_ne hrq] at hr hr'
      exact ⟨hr, hr'⟩

theorem goto (hk : k.treeless = true) : (s.goto p k).Tree := by
  refine h.keep rfl (fun _ hq => hq) (fun _ hq hq' => ⟨hq, hq'⟩) ?_
  intro q
  by_cases hq : q = p
  · simp [ProcSystem.goto, hq, hk]
  · simp [ProcSystem.goto, hq]

theorem advance (hp : p ≠ initproc) {i : ℕ} (hk : k.reparented = some i)
    (hbelow : ∀ q : Slot, q.val < i → s.parent q ≠ some p) : (s.goto p k).Tree := by
  refine ⟨h.init, h.root, h.live, h.has, ?_, ?_⟩
  · intro p' np pid hp'
    by_cases hpp : p' = p
    · simp only [ProcSystem.goto, hpp, update_self] at hp'
      rw [hp'] at hk
      contradiction
    · simp only [ProcSystem.goto, update_of_ne hpp] at hp'
      exact h.forked p' np pid hp'
  · intro e j he
    by_cases hep : e = p
    · subst hep
      simp only [ProcSystem.goto, update_self, hk] at he
      cases he
      exact ⟨hp, hbelow⟩
    · simp only [ProcSystem.goto, update_of_ne hep] at he
      exact h.exiting e j he

theorem free (hq : (s.state q).alive = false) (hforked : ∀ p pid, s.pc p ≠ .forkRunnable q pid) :
    (s.freeproc q).Tree := by
  have hother : ∀ r, (s.state r).alive = true → r ≠ q := by
    rintro r hr rfl
    rw [hq] at hr
    contradiction
  have hinit := hother initproc h.init
  refine ⟨?_, ?_, ?_, ?_, ?_, ?_⟩
  · simpa [freeproc, hinit] using h.init
  · simpa [freeproc, hinit] using h.root
  · intro r r' hr
    have hrq : r ≠ q := by
      rintro rfl
      simp [freeproc] at hr
    simp only [freeproc, update_of_ne hrq] at hr
    have hlive := h.live r r' hr
    simpa [freeproc, hother r' hlive] using hlive
  · intro r hr hunused hused
    have hrq : r ≠ q := by
      rintro rfl
      simp [freeproc] at hunused
    simp only [freeproc, update_of_ne hrq] at hunused hused ⊢
    exact h.has r hr hunused hused
  · intro p np pid hp
    have hnp : np ≠ q := by
      rintro rfl
      exact hforked p pid hp
    simpa [freeproc, hnp] using h.forked p np pid hp
  · intro e i he
    obtain ⟨he', hbelow⟩ := h.exiting e i he
    refine ⟨he', ?_⟩
    intro r hr
    by_cases hrq : r = q
    · simp [freeproc, hrq]
    · simpa [freeproc, hrq] using hbelow r hr

theorem adopt {r : Slot} (hq : q ≠ initproc) (hr : (s.state r).alive = true)
    (hexit : ∀ i, (s.pc r).reparented ≠ some i) :
    ({ s with parent := update s.parent q (some r) } : ProcSystem).Tree := by
  refine ⟨h.init, ?_, ?_, ?_, ?_, ?_⟩
  · simpa [Ne.symm hq] using h.root
  · intro q' r' hq'
    by_cases hqq : q' = q
    · simp only [hqq, update_self, Option.some.injEq] at hq'
      exact hq' ▸ hr
    · simp only [update_of_ne hqq] at hq'
      exact h.live q' r' hq'
  · intro q' hinit hunused hused
    by_cases hqq : q' = q
    · simp [hqq]
    · simpa [hqq] using h.has q' hinit hunused hused
  · intro p np pid hp
    by_cases hqq : np = q
    · simp [hqq]
    · simpa [hqq] using h.forked p np pid hp
  · intro e i he
    obtain ⟨hinit, hbelow⟩ := h.exiting e i he
    refine ⟨hinit, ?_⟩
    intro q' hq'
    by_cases hqq : q' = q
    · simp only [hqq, update_self, ne_eq, Option.some.injEq]
      rintro rfl
      exact hexit i he
    · simpa [hqq] using hbelow q' hq'

theorem forkParent {pid : Int32} (hnp : np ≠ initproc) (hp : (s.state p).alive = true)
    (hpc : s.pc p = .forkParent np pid) : (s.forkParent p np pid).Tree := by
  have hadopt := h.adopt hnp hp (by simp [hpc, reparented])
  refine ⟨hadopt.init, hadopt.root, hadopt.live, hadopt.has, ?_, ?_⟩
  · intro p' np' pid' hp'
    by_cases hpp : p' = p
    · simp only [hpp, ProcSystem.forkParent, ProcSystem.goto,
        update_self, ProcPc.forkRunnable.injEq] at hp'
      simp [ProcSystem.forkParent, ProcSystem.goto, hp'.1]
    · simp only [ProcSystem.forkParent, ProcSystem.goto, update_of_ne hpp] at hp'
      exact hadopt.forked p' np' pid' hp'
  · intro e i he
    have hep : e ≠ p := by
      rintro rfl
      simp [ProcSystem.forkParent, ProcSystem.goto, reparented] at he
    simp only [ProcSystem.forkParent, ProcSystem.goto, update_of_ne hep] at he
    exact hadopt.exiting e i he

theorem publish (hnp : s.parent np ≠ none) :
    ({ s with state := update s.state np .runnable } : ProcSystem).Tree := by
  have halive : ∀ r, (s.state r).alive = true →
      (update s.state np ProcState.runnable r).alive = true := by
    intro r hr
    by_cases hrq : r = np
    · simp [hrq, ProcState.alive]
    · simpa [hrq] using hr
  refine ⟨halive _ h.init, h.root, fun q r hq => halive r (h.live q r hq), ?_, h.forked, h.exiting⟩
  intro q hq hunused hused
  by_cases hqnp : q = np
  · exact hqnp ▸ hnp
  · simp only [update_of_ne hqnp] at hunused hused
    exact h.has q hq hunused hused

theorem exitZombie {status : Int32} (hp : s.state p = .running)
    (hpc : s.pc p = .exitLock status) : (s.exitZombie c p status).Tree := by
  obtain ⟨hinit, hchild⟩ := h.exiting p nproc (by rw [hpc]; rfl)
  have hother : ∀ q r, s.parent q = some r → r ≠ p := by
    rintro q r hq rfl
    exact hchild q q.isLt hq
  refine ⟨?_, h.root, ?_, ?_, ?_, ?_⟩
  · simpa [ProcSystem.exitZombie, ProcSystem.goto, Ne.symm hinit] using h.init
  · intro q r hq
    simpa [ProcSystem.exitZombie, ProcSystem.goto, hother q r hq] using h.live q r hq
  · intro q hq hunused hused
    by_cases hqp : q = p
    · exact hqp ▸ h.has p hinit (by simp [hp]) (by simp [hp])
    · simp only [ProcSystem.exitZombie, ProcSystem.goto, update_of_ne hqp] at hunused hused
      exact h.has q hq hunused hused
  · intro p' np pid hp'
    by_cases hpp : p' = p
    · simp [hpp, ProcSystem.exitZombie, ProcSystem.goto] at hp'
    · simp only [ProcSystem.exitZombie, ProcSystem.goto, update_of_ne hpp] at hp'
      exact h.forked p' np pid hp'
  · intro e i he
    by_cases hep : e = p
    · simp [hep, ProcSystem.exitZombie, ProcSystem.goto, reparented] at he
    · simp only [ProcSystem.exitZombie, ProcSystem.goto, update_of_ne hep] at he
      exact h.exiting e i he

end

end Tree

theorem Tree.move (h : s.Tree) (hsched : s.Sched) (hmove : ProcMove s s') : s'.Tree := by
  obtain ⟨on, hseated⟩ := hsched.seated
  have hforks := hsched.forks
  have hchild : ∀ {p np}, (s.pc p).child = some np → np ≠ initproc := by
    rintro p np hnp rfl
    have := h.init
    rw [hforks.used p initproc hnp] at this
    contradiction
  cases hmove with
  | stay => exact h
  | clock | scan | switchTo | retire | sched | setkilled | waitSleep =>
    exact h.frame rfl rfl rfl
  | wakeup hlock hstate => exact h.setState (by rw [hstate]; rfl) rfl
  | @dispatch c p hcpu hlock hstate =>
    have hp : (s.state p).alive = true := by rw [hstate]; rfl
    exact (h.setState hp rfl).frame rfl rfl rfl
  | @resume c p hcpu hthread =>
    refine h.keep rfl (fun _ hq => hq) (fun _ hq hq' => ⟨hq, hq'⟩) ?_
    intro q
    by_cases hq : q = p
    · simpa [resume, ProcSystem.goto, hq] using treeless_afterSleep
    · simp [resume, ProcSystem.goto, hq]
  | @sleep c p chan hcpu hthread hpc =>
    have hp : (s.state p).alive = true := by
      rw [hseated.running_of_sleep hthread hpc]
      rfl
    exact (h.setState hp rfl).frame rfl rfl rfl
  | exitUnlock | sleepLock | killMark | allocprocContext | waitStart |
      waitReturn =>
    exact Tree.goto (h.frame rfl rfl rfl) rfl
  | @yield c p hrun hpc =>
    have hp : (s.state p).alive = true := by
      rw [(hseated.running hrun).1]
      rfl
    exact (h.setState hp rfl).frame rfl rfl rfl
  | plain hrun hpc hk => exact h.goto (treeless_of_plain hk)
  | @killWake c p q hrun hpc hlock hstate =>
    have hq : (s.state q).alive = true := by rw [hstate]; rfl
    exact Tree.goto ((h.setState hq rfl).frame rfl rfl rfl) rfl
  | @allocproc c p np hrun hpc hlock hstate =>
    refine Tree.goto (h.keep rfl ?_ ?_ (fun _ => Or.inr rfl)) rfl
    · intro q hq
      have hqnp : q ≠ np := by
        rintro rfl
        rw [hstate] at hq
        contradiction
      simpa [hqnp] using hq
    · intro q hq hq'
      have hqnp : q ≠ np := by
        rintro rfl
        simp at hq'
      simp only [update_of_ne hqnp] at hq hq'
      exact ⟨hq, hq'⟩
  | @forkFail c p np hrun hpc =>
    have hnp : (s.pc p).child = some np := by
      rcases hpc with hpc | hpc <;> rw [hpc] <;> rfl
    have hfree := h.free (q := np) (by rw [hforks.used p np hnp]; rfl) (by
        intro p' pid hp'
        have := hforks.unique p p' np hnp (by rw [hp']; rfl)
        subst this
        rcases hpc with hpc | hpc <;> simp [hpc] at hp')
    exact Tree.goto (hfree.frame rfl rfl rfl) rfl
  | forkCopied =>
    exact Tree.goto (Tree.goto (h.frame rfl rfl rfl) rfl) rfl
  | forkParent hrun hpc hwait =>
    exact h.forkParent (hchild (by rw [hpc]; rfl)) (by rw [(hseated.running hrun).1]; rfl) hpc
  | @forkRunnable c p np pid hrun hpc hlock =>
    exact (h.publish (h.forked p np pid hpc)).goto rfl
  | exit hrun hpc hinit hwait =>
    refine Tree.advance (h.frame rfl rfl rfl) hinit rfl ?_
    exact fun q hq => absurd hq (Nat.not_lt_zero _)
  | @reparentSkip c p status i hrun hpc hi =>
    obtain ⟨hinit, hbelow⟩ := h.exiting p i (by rw [hpc]; rfl)
    refine h.advance hinit rfl ?_
    intro q hq
    rcases Nat.lt_succ_iff_lt_or_eq.mp hq with hlt | heq
    · exact hbelow q hlt
    · rwa [Fin.ext heq]
  | @reparent c p status i hrun hpc hi =>
    obtain ⟨hinit, hbelow⟩ := h.exiting p i (by rw [hpc]; rfl)
    have hi' : i ≠ initproc := by
      rintro rfl
      rw [h.root] at hi
      contradiction
    refine Tree.advance (h.adopt hi' h.init ?_) hinit rfl ?_
    · intro j hj
      exact (h.exiting initproc j hj).1 rfl
    · intro q hq
      rcases Nat.lt_succ_iff_lt_or_eq.mp hq with hlt | heq
      · have hqi : q ≠ i := by
          rintro rfl
          exact absurd hlt (lt_irrefl _)
        simpa [hqi] using hbelow q hlt
      · simp [Fin.ext heq, Ne.symm hinit]
  | @reparentEnd c p status i hrun hpc hi =>
    obtain ⟨hinit, hbelow⟩ := h.exiting p i (by rw [hpc]; rfl)
    exact h.advance hinit rfl (fun q hq => hbelow q (by omega))
  | @wakeInit c p status i j hrun hpc hlock hstate =>
    obtain ⟨hinit, hbelow⟩ := h.exiting p (i + 1) (by rw [hpc]; rfl)
    exact (h.setState (by rw [hstate]; rfl) rfl).advance hinit rfl hbelow
  | @wakeInitSkip c p status i j hrun hpc hskip
  | @wakeInitEnd c p status i j hrun hpc hj =>
    obtain ⟨hinit, hbelow⟩ := h.exiting p (i + 1) (by rw [hpc]; rfl)
    exact h.advance hinit rfl hbelow
  | @wakeParent c p status chan j hrun hpc hlock hstate =>
    obtain ⟨hinit, hbelow⟩ := h.exiting p nproc (by rw [hpc]; rfl)
    exact (h.setState (by rw [hstate]; rfl) rfl).advance hinit rfl hbelow
  | @wakeParentSkip c p status chan j hrun hpc hskip
  | @wakeParentEnd c p status chan j hrun hpc hj =>
    obtain ⟨hinit, hbelow⟩ := h.exiting p nproc (by rw [hpc]; rfl)
    exact h.advance hinit rfl hbelow
  | exitZombie hrun hpc hlock =>
    exact h.exitZombie (hseated.running hrun).1 hpc
  | waitSkip | waitEnd => exact h.goto rfl
  | @waitReap c p w addr havekids q hrun hpc hparent hlock hstate =>
    have hfree := h.free (q := q) (by rw [hstate]; rfl) (by
      intro p' pid hp'
      have := hforks.used p' q (by rw [hp']; rfl)
      rw [hstate] at this
      contradiction)
    have hnew := hfree.goto (p := p) (k := .user (some (s.pid q))) rfl
    exact hnew.frame rfl rfl rfl

theorem userinit_tree : userinit.Tree := by
  refine ⟨?_, rfl, ?_, ?_, ?_, ?_⟩
  · simp [userinit, ProcState.alive]
  · simp [userinit]
  · intro q hq hunused
    simp [userinit, hq] at hunused
  · simp [userinit]
  · simp [userinit, reparented]

/-! ## Process numbers -/

/-- `pid`s are the numbers of the allocations, as far as 32 bits hold them,
and no allocation is reaped twice. -/
structure Numbered (s : ProcSystem) : Prop where
  nextpid : s.nextpid = Int32.ofNat (s.allocs + 1)
  pid : ∀ p, s.state p ≠ .unused → s.pid p = Int32.ofNat (s.serial p) ∧ s.serial p ≤ s.allocs
  inj : ∀ p q, s.state p ≠ .unused → s.state q ≠ .unused → s.serial p = s.serial q → p = q
  fresh : ∀ p, s.state p ≠ .unused → s.serial p ∉ s.reaped
  nodup : s.reaped.Nodup
  bound : ∀ n ∈ s.reaped, n ≤ s.allocs

namespace Numbered

theorem keep (h : s.Numbered) (hpid : s'.pid = s.pid) (hserial : s'.serial = s.serial)
    (hallocs : s'.allocs = s.allocs) (hnext : s'.nextpid = s.nextpid)
    (hreaped : s'.reaped = s.reaped) (hstate : ∀ q, s'.state q ≠ .unused → s.state q ≠ .unused) :
    s'.Numbered := by
  refine ⟨?_, ?_, ?_, ?_, ?_, ?_⟩
  · rw [hnext, hallocs]
    exact h.nextpid
  · intro p hp
    rw [hpid, hserial, hallocs]
    exact h.pid p (hstate p hp)
  · intro p q hp hq
    rw [hserial]
    exact h.inj p q (hstate p hp) (hstate q hq)
  · intro p hp
    rw [hserial, hreaped]
    exact h.fresh p (hstate p hp)
  · rw [hreaped]
    exact h.nodup
  · rw [hreaped, hallocs]
    exact h.bound

theorem frame (h : s.Numbered) (hpid : s'.pid = s.pid) (hserial : s'.serial = s.serial)
    (hallocs : s'.allocs = s.allocs) (hnext : s'.nextpid = s.nextpid)
    (hreaped : s'.reaped = s.reaped) (hstate : s'.state = s.state) : s'.Numbered :=
  h.keep hpid hserial hallocs hnext hreaped (fun _ hq => hstate ▸ hq)

theorem setState (h : s.Numbered) {state : ProcState} (hq : s.state q ≠ .unused)
    (hpid : s'.pid = s.pid) (hserial : s'.serial = s.serial) (hallocs : s'.allocs = s.allocs)
    (hnext : s'.nextpid = s.nextpid) (hreaped : s'.reaped = s.reaped)
    (hstate : s'.state = update s.state q state) : s'.Numbered := by
  refine h.keep hpid hserial hallocs hnext hreaped ?_
  intro r hr
  by_cases hrq : r = q
  · exact hrq ▸ hq
  · rwa [hstate, update_of_ne hrq] at hr

theorem alloc (h : s.Numbered) {lock : Slot → Option ℕ} {pc : Slot → ProcPc} : ({ s with
      pid := update s.pid np s.nextpid
      nextpid := s.nextpid + 1
      serial := update s.serial np (s.allocs + 1)
      allocs := s.allocs + 1
      state := update s.state np .used
      lock := lock
      pc := pc } : ProcSystem).Numbered := by
  have hold : ∀ q, q ≠ np → update s.state np .used q ≠ .unused → s.state q ≠ .unused := by
    intro q hq hst
    rwa [update_of_ne hq] at hst
  have hne : ∀ q, q ≠ np → update s.state np .used q ≠ .unused → s.serial q ≠ s.allocs + 1 := by
    intro q hq hst heq
    have := (h.pid q (hold q hq hst)).2
    omega
  refine ⟨?_, ?_, ?_, ?_, h.nodup, ?_⟩
  · simp only [h.nextpid]
    rw [Int32.ofNat_add, Int32.ofNat_add, Int32.ofNat_add]
    rfl
  · intro p hp
    by_cases hpn : p = np
    · simp [hpn, h.nextpid]
    · obtain ⟨hpid, hle⟩ := h.pid p (hold p hpn hp)
      simp only [update_of_ne hpn]
      exact ⟨hpid, by omega⟩
  · intro p q hp hq heq
    by_cases hpn : p = np <;> by_cases hqn : q = np
    · rw [hpn, hqn]
    · simp only [hpn, update_self, update_of_ne hqn] at heq
      exact absurd heq.symm (hne q hqn hq)
    · simp only [hqn, update_self, update_of_ne hpn] at heq
      exact absurd heq (hne p hpn hp)
    · simp only [update_of_ne hpn, update_of_ne hqn] at heq
      exact h.inj p q (hold p hpn hp) (hold q hqn hq) heq
  · intro p hp
    by_cases hpn : p = np
    · intro hmem
      have := h.bound _ hmem
      simp only [hpn, update_self] at this
      omega
    · simpa [hpn] using h.fresh p (hold p hpn hp)
  · intro n hn
    have := h.bound n hn
    dsimp only
    omega

theorem free (h : s.Numbered) (hpid : ∀ p, p ≠ q → s'.pid p = s.pid p)
    (hstate : s'.state = update s.state q .unused) (hserial : s'.serial = s.serial)
    (hallocs : s'.allocs = s.allocs) (hnext : s'.nextpid = s.nextpid)
    (hreaped : s'.reaped = s.reaped ∨ s.state q ≠ .unused ∧ s'.reaped = s.reaped ++ [s.serial q]) :
    s'.Numbered := by
  have hold : ∀ p, s'.state p ≠ .unused → p ≠ q ∧ s.state p ≠ .unused := by
    intro p hp
    have hpq : p ≠ q := by
      rintro rfl
      simp [hstate] at hp
    rw [hstate, update_of_ne hpq] at hp
    exact ⟨hpq, hp⟩
  refine ⟨?_, ?_, ?_, ?_, ?_, ?_⟩
  · rw [hnext, hallocs]
    exact h.nextpid
  · intro p hp
    rw [hpid p (hold p hp).1, hserial, hallocs]
    exact h.pid p (hold p hp).2
  · intro p r hp hr
    rw [hserial]
    exact h.inj p r (hold p hp).2 (hold r hr).2
  · intro p hp
    rw [hserial]
    rcases hreaped with hreaped | ⟨hq, hreaped⟩
    · rw [hreaped]
      exact h.fresh p (hold p hp).2
    · rw [hreaped, List.mem_append, List.mem_singleton]
      rintro (hmem | heq)
      · exact h.fresh p (hold p hp).2 hmem
      · exact (hold p hp).1 (h.inj p q (hold p hp).2 hq heq)
  · rcases hreaped with hreaped | ⟨hq, hreaped⟩
    · rw [hreaped]
      exact h.nodup
    · rw [hreaped, List.nodup_append]
      refine ⟨h.nodup, List.nodup_singleton _, ?_⟩
      intro n hn m hm
      rw [List.mem_singleton] at hm
      rw [hm]
      rintro rfl
      exact h.fresh q hq hn
  · intro n hn
    rw [hallocs]
    rcases hreaped with hreaped | ⟨hq, hreaped⟩
    · exact h.bound n (hreaped ▸ hn)
    · rw [hreaped, List.mem_append, List.mem_singleton] at hn
      rcases hn with hn | rfl
      · exact h.bound n hn
      · exact (h.pid q hq).2

theorem move (h : s.Numbered) (hsched : s.Sched) (hmove : ProcMove s s') : s'.Numbered := by
  obtain ⟨on, hseated⟩ := hsched.seated
  have hrunning : ∀ {c p}, s.Runs c p → s.state p ≠ .unused := by
    intro c p hrun
    rw [(hseated.running hrun).1]
    decide
  cases hmove with
  | wakeup hlock hstate | dispatch hcpu hlock hstate
  | killWake hrun hpc hlock hstate | wakeInit hrun hpc hlock hstate
  | wakeParent hrun hpc hlock hstate =>
    exact h.setState (by rw [hstate]; decide) rfl rfl rfl rfl rfl rfl
  | sleep hcpu hthread hpc =>
    exact h.setState (by rw [hseated.running_of_sleep hthread hpc]; decide) rfl rfl rfl rfl rfl rfl
  | yield hrun hpc | exitZombie hrun hpc hlock =>
    exact h.setState (hrunning hrun) rfl rfl rfl rfl rfl rfl
  | allocproc hrun hpc hlock hstate => exact h.alloc
  | @forkFail c p np hrun hpc =>
    exact h.free (q := np) (fun r hr => by simp [forkFail, freeproc, goto, hr])
      rfl rfl rfl rfl (Or.inl rfl)
  | @forkRunnable c p np pid hrun hpc hlock =>
    have hnp := hsched.forks.used p np (by rw [hpc]; rfl)
    exact h.setState (by rw [hnp]; decide) rfl rfl rfl rfl rfl rfl
  | @waitReap c p w addr havekids q hrun hpc hparent hlock hstate =>
    exact h.free (q := q) (fun r hr => by simp [waitReap, waitReturn, freeproc, goto, hr])
      rfl rfl rfl rfl (Or.inr ⟨by rw [hstate]; decide, rfl⟩)
  | _ => exact h.frame rfl rfl rfl rfl rfl rfl

end Numbered

theorem userinit_numbered : userinit.Numbered := by
  have honly : ∀ p, userinit.state p ≠ .unused → p = initproc := by
    intro p hp
    by_contra hne
    simp [userinit, hne] at hp
  refine ⟨rfl, ?_, ?_, by simp [userinit], by simp [userinit], by simp [userinit]⟩
  · intro p hp
    rw [honly p hp]
    simp [userinit]
  · intro p q hp hq _
    rw [honly p hp, honly q hq]

theorem Numbered.pid_inj (h : s.Numbered) (hallocs : s.allocs < 2 ^ 31)
    (hp : s.state p ≠ .unused) (hq : s.state q ≠ .unused) (heq : s.pid p = s.pid q) : p = q := by
  obtain ⟨hpid, hple⟩ := h.pid p hp
  obtain ⟨hqid, hqle⟩ := h.pid q hq
  refine h.inj p q hp hq ?_
  rw [hpid, hqid] at heq
  have hint := congrArg Int32.toInt heq
  rw [Int32.toInt_ofNat_of_lt (by omega), Int32.toInt_ofNat_of_lt (by omega)] at hint
  exact_mod_cast hint

/-! ## Runs -/

theorem tree_of_run {mode : SchedMode} {labels : List ProcLabel}
    (hrun : Machine.run (step mode) labels userinit = some s) : s.Sched ∧ s.Tree ∧ s.Numbered := by
  refine Machine.run_invariant (I := fun s => s.Sched ∧ s.Tree ∧ s.Numbered) ?_
    ⟨userinit_sched, userinit_tree, userinit_numbered⟩ hrun
  rintro l s s' ⟨hsched, htree, hnumbered⟩ hstep
  have hmove := step_move hstep
  exact ⟨hsched.move hmove, htree.move hsched hmove, hnumbered.move hsched hmove⟩

theorem Sched.reaped_by (h : s.Sched)
    (hmove : ProcMove s s') (hzombie : s.state q = .zombie) (hunused : s'.state q = .unused) :
    ∃ c p w addr havekids, s.Runs c p ∧ s.parent q = some p ∧ s.pc p = .waitScan w addr havekids q ∧
    s'.pc p = .user (some (s.pid q)) ∧ s'.reaped = s.reaped ++ [s.serial q] := by
  have hother : ∀ {r state}, state ≠ .unused → update s.state r state q ≠ .unused := by
    intro r state hstate
    by_cases hqr : q = r
    · rwa [hqr, update_self]
    · rw [update_of_ne hqr, hzombie]
      decide
  have hsame : s.state q ≠ .unused := by
    rw [hzombie]
    decide
  cases hmove with
  | wakeup | dispatch | sleep | yield | killWake | allocproc | forkRunnable |
    wakeInit | wakeParent | exitZombie =>
      exact absurd hunused (hother (by decide))
  | @forkFail c p np hrun hpc =>
    have hqnp : q ≠ np := by
      rintro rfl
      rw [h.forks.used p q (by rcases hpc with hpc | hpc <;> rw [hpc] <;> rfl)] at hzombie
      contradiction
    simp only [forkFail, freeproc, goto, update_of_ne hqnp] at hunused
    exact absurd hunused hsame
  | @waitReap c p w addr havekids r hrun hpc hparent hlock hstate =>
    by_cases hqr : q = r
    · subst hqr
      refine ⟨c, p, w, addr, havekids, hrun, hparent, hpc, ?_, rfl⟩
      simp [waitReap, waitReturn, goto]
    · simp only [waitReap, waitReturn, freeproc, goto, update_of_ne hqr] at hunused
      exact absurd hunused hsame
  | _ => exact absurd hunused hsame

end ProcSystem

/-- In every run, every process that is neither free nor still in `fork` has a
parent, except the first; parents are neither free nor zombies; slots in use
have different `pid`s for the first `2^31 - 1` allocations; and a zombie is
freed at most once, by its parent's `wait` or `getprocinfo`, which returns its
`pid`. -/
theorem process_tree (mode : SchedMode) (labels : List ProcLabel) (s : ProcSystem)
    (hrun : Machine.run (ProcSystem.step mode) labels userinit = some s) :
    (∀ p, p ≠ initproc → s.state p ≠ .unused → s.state p ≠ .used → ∃ r, s.parent p = some r) ∧
    (∀ p r, s.parent p = some r → s.state r ≠ .unused ∧ s.state r ≠ .zombie) ∧
    (s.allocs < 2 ^ 31 → ∀ p q, s.state p ≠ .unused → s.state q ≠ .unused →
      s.pid p = s.pid q → p = q) ∧
    s.reaped.Nodup ∧
    (∀ l s', s.step mode l = some s' → ∀ q, s.state q = .zombie → s'.state q = .unused →
      ∃ c p w addr havekids, s.Runs c p ∧ s.parent q = some p ∧
        s.pc p = .waitScan w addr havekids q ∧
        s'.pc p = .user (some (s.pid q)) ∧
        s'.reaped = s.reaped ++ [s.serial q]) := by
  obtain ⟨hsched, htree, hnumbered⟩ := ProcSystem.tree_of_run hrun
  refine ⟨?_, ?_, ?_, hnumbered.nodup, ?_⟩
  · intro p hp hunused hused
    exact Option.ne_none_iff_exists'.mp (htree.has p hp hunused hused)
  · intro p r hr
    have hlive := htree.live p r hr
    constructor <;> intro hst <;> rw [hst] at hlive <;> contradiction
  · intro hallocs p q hp hq heq
    exact hnumbered.pid_inj hallocs hp hq heq
  · intro l s' hstep q hzombie hunused
    exact hsched.reaped_by (ProcSystem.step_move hstep) hzombie hunused

/-- The first process forks. -/
theorem process_tree_fork : ∃ s, Machine.run (ProcSystem.step .roundRobin)
        [.scheduler 0, .scheduler 0, .scheduler 0, .act 0 (.next true),
          .act 0 .fork, .act 0 (.next true), .act 0 (.next true),
          .act 0 (.next true), .act 0 (.next true), .act 0 (.next true),
          .act 0 (.next true)] userinit = some s ∧
      s.state 1 = .runnable ∧ s.parent 1 = some initproc ∧
      s.state initproc ≠ .unused ∧ s.state initproc ≠ .zombie ∧
      s.pid 1 ≠ s.pid initproc := by
  refine Machine.exists_run (P := fun s => decide (s.state 1 = .runnable ∧
      s.parent 1 = some initproc ∧ s.allocs < 2 ^ 31)) (by decide) ?_
  intro s hrun hs
  obtain ⟨hstate, hparent, hallocs⟩ := of_decide_eq_true hs
  obtain ⟨_, hlive, hpid, _⟩ := process_tree _ _ s hrun
  obtain ⟨hunused, hzombie⟩ := hlive 1 initproc hparent
  refine ⟨hstate, hparent, hunused, hzombie, ?_⟩
  intro heq
  exact absurd (hpid hallocs 1 initproc (by rw [hstate]; decide) hunused heq) (by decide)

end Xv6
