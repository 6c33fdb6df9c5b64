import Xv6.ProcMove

/-!
# Who has a process

A process is in the hands of at most one CPU, from the moment `scheduler` has
found it runnable under `p->lock` until `scheduler` gives the lock back after
`swtch`.  `Seat` says what the state, the thread and the lock of a process are
in each part of that time, and what they are while no CPU has it.
-/

namespace Xv6

open Function (update update_of_ne update_self)

/-- What `p->state` says about the place of the thread. -/
def ProcState.Fits (thread : Thread) (k : ProcPc) : ProcState → Prop
  | .unused | .used => k = .exited ∨ ∃ ret, k = .user ret
  | .zombie => k = .exited ∨ k = .exitUnlock ∧ thread = .locked
  | .sleeping | .runnable | .running => k ≠ .exitUnlock

/-- The states in which a process calls `sched`. -/
def ProcState.Left (state : ProcState) : Prop :=
  state = .runnable ∨ state = .sleeping ∨ state = .zombie

/-- State, thread and lock of `p`, in the hands of a CPU or of none. -/
inductive Seat (cpu : ℕ → CpuPc) (p : Slot) : Option ℕ → ProcState → Thread → Option ℕ → Prop
  | off {state thread lock} (hstate : state ≠ .running)
      (hthread : thread = .saved ∨ thread = .fresh ∧ (state = .unused ∨ state = .used))
      (hlock : lock = none ∨ state = .used) :
      Seat cpu p none state thread lock
  | switching {c} (hcpu : cpu c = .switchTo p) : Seat cpu p (some c) .running .saved (some c)
  | resumed {c} (hcpu : cpu c = .run p) : Seat cpu p (some c) .running .resumed (some c)
  | running {c} (hcpu : cpu c = .run p) : Seat cpu p (some c) .running .running none
  | locked {c state} (hcpu : cpu c = .run p)
      (hstate : state = .running ∨ state = .zombie) :
      Seat cpu p (some c) state .locked (some c)
  | leaving {c state} (hcpu : cpu c = .run p) (hstate : state.Left) :
      Seat cpu p (some c) state .leaving (some c)
  | left {c state} (hcpu : cpu c = .after p) (hstate : state.Left) :
      Seat cpu p (some c) state .saved (some c)

namespace Seat

variable {cpu cpu' : ℕ → CpuPc} {p : Slot} {o : Option ℕ} {c : ℕ}
  {state : ProcState} {thread : Thread} {lock : Option ℕ}

theorem congr (h : Seat cpu p o state thread lock) (hcpu : ∀ c, o = some c → cpu' c = cpu c) :
    Seat cpu' p o state thread lock := by
  cases h with
  | off hstate hthread hlock => exact .off hstate hthread hlock
  | switching h => exact .switching ((hcpu _ rfl).trans h)
  | resumed h => exact .resumed ((hcpu _ rfl).trans h)
  | running h => exact .running ((hcpu _ rfl).trans h)
  | locked h hstate => exact .locked ((hcpu _ rfl).trans h) hstate
  | leaving h hstate => exact .leaving ((hcpu _ rfl).trans h) hstate
  | left h hstate => exact .left ((hcpu _ rfl).trans h) hstate

theorem running_iff (h : Seat cpu p o state thread none) : state = .running ↔ ∃ c, o = some c := by
  cases h with
  | off hstate => simp [hstate]
  | running => simp

theorem eq_none (h : Seat cpu p o state thread none) (hstate : state ≠ .running) : o = none := by
  cases h with
  | off => rfl
  | running => contradiction

theorem eq_none_of_unready (h : Seat cpu p o state thread lock)
    (hstate : state = .unused ∨ state = .used) : o = none := by
  cases h with
  | off => rfl
  | locked _ hlocked => grind
  | leaving _ hleft | left _ hleft => grind [ProcState.Left]
  | _ => simp at hstate

theorem of_running (h : Seat cpu p o state .running lock) : state = .running ∧ lock = none := by
  cases h with
  | off _ hthread => simp at hthread
  | running => exact ⟨rfl, rfl⟩

theorem of_locked (h : Seat cpu p o state .locked lock) : state = .running ∨ state = .zombie := by
  cases h with
  | off _ hthread => simp at hthread
  | locked _ hstate => exact hstate

theorem ne_none_of_locked (h : Seat cpu p o state .locked lock) : lock ≠ none := by
  cases h with
  | off _ hthread => simp at hthread
  | locked => simp

theorem of_leaving (h : Seat cpu p o state .leaving lock) : state.Left := by
  cases h with
  | off _ hthread => simp at hthread
  | leaving _ hstate => exact hstate

theorem of_resumed (h : Seat cpu p o state .resumed lock) : state = .running := by
  cases h with
  | off _ hthread => simp at hthread
  | resumed => rfl

theorem of_switchTo (h : Seat cpu p (some c) state thread lock)
    (hcpu : cpu c = .switchTo p) : state = .running ∧ thread = .saved ∧ lock = some c := by
  cases h <;> simp_all

theorem of_after (h : Seat cpu p (some c) state thread lock)
    (hcpu : cpu c = .after p) : state.Left ∧ thread = .saved := by
  cases h <;> simp_all

theorem lock_eq (h : Seat cpu p (some c) state thread lock)
    (hthread : thread ≠ .running) : lock = some c := by
  cases h with
  | running => contradiction
  | _ => rfl

end Seat

namespace ProcSystem

/-- `on` says which CPU has which process in its hands. -/
structure Seated (s : ProcSystem) (on : Slot → Option ℕ) : Prop where
  current : ∀ c p, (s.cpu c).current = some p ↔ on p = some c
  cpuProc : ∀ c, s.cpuProc c = (s.cpu c).current
  seat : ∀ p, Seat s.cpu p (on p) (s.state p) (s.thread p) (s.lock p)
  fits : ∀ p, (s.state p).Fits (s.thread p) (s.pc p)

variable {s s' : ProcSystem} {on : Slot → Option ℕ} {c : ℕ} {p q : Slot}

namespace Seated

section

variable (h : s.Seated on)
include h

theorem on_eq (hc : (s.cpu c).current = some p) : on p = some c := (h.current c p).mp hc

theorem on_run (hcpu : s.cpu c = .run p) : on p = some c := h.on_eq (by rw [hcpu]; rfl)

theorem running (hrun : s.Runs c p) : s.state p = .running ∧ s.lock p = none := by
  have hseat := h.seat p
  rw [hrun.2] at hseat
  exact hseat.of_running

theorem off_of_lock (hlock : s.lock q = none) (hstate : s.state q ≠ .running) : on q = none := by
  have hseat := h.seat q
  rw [hlock] at hseat
  exact hseat.eq_none hstate

theorem off_of_unready (hstate : s.state q = .unused ∨ s.state q = .used) : on q = none :=
  (h.seat q).eq_none_of_unready hstate

theorem lock_eq (hcpu : s.cpu c = .run p) (hthread : s.thread p ≠ .running) :
    s.lock p = some c := by
  have hseat := h.seat p
  rw [h.on_run hcpu] at hseat
  exact hseat.lock_eq hthread

theorem goto {k : ProcPc} (hfits : (s.state p).Fits (s.thread p) k) : (s.goto p k).Seated on := by
  refine ⟨h.current, h.cpuProc, h.seat, ?_⟩
  intro q
  by_cases hq : q = p
  · subst hq
    simpa [ProcSystem.goto] using hfits
  · simpa [ProcSystem.goto, hq] using h.fits q

theorem scan {k : CpuPc} (hc : (s.cpu c).current = none) (hk : k.current = none)
    : ({ s with cpu := update s.cpu c k } : ProcSystem).Seated on := by
  have hne : ∀ p, on p ≠ some c := by
    intro p hp
    rw [(h.current c p).mpr hp] at hc
    contradiction
  have hcurrent : ∀ c', (update s.cpu c k c').current = (s.cpu c').current := by
    intro c'
    by_cases hc' : c' = c
    · rw [hc', update_self, hk, hc]
    · rw [update_of_ne hc']
  refine ⟨?_, ?_, ?_, h.fits⟩
  · intro c' p
    dsimp only
    rw [hcurrent]
    exact h.current c' p
  · intro c'
    dsimp only
    rw [hcurrent]
    exact h.cpuProc c'
  · intro p
    refine (h.seat p).congr ?_
    intro c' hp
    refine update_of_ne ?_ _ _
    rintro rfl
    exact hne p hp

theorem change (hoff : on q = none) (hcpu : s'.cpu = s.cpu) (hproc : s'.cpuProc = s.cpuProc)
    (hseat : Seat s.cpu q none (s'.state q) (s'.thread q) (s'.lock q))
    (hfits : (s'.state q).Fits (s'.thread q) (s'.pc q))
    (hrest : ∀ r, r ≠ q → s'.state r = s.state r ∧ s'.thread r = s.thread r ∧
      s'.lock r = s.lock r ∧ s'.pc r = s.pc r) : s'.Seated on := by
  refine ⟨?_, ?_, ?_, ?_⟩
  · rw [hcpu]
    exact h.current
  · rw [hcpu, hproc]
    exact h.cpuProc
  · intro r
    rw [hcpu]
    by_cases hr : r = q
    · rw [hr, hoff]
      exact hseat
    · obtain ⟨hst, hth, hlk, _⟩ := hrest r hr
      rw [hst, hth, hlk]
      exact h.seat r
  · intro r
    by_cases hr : r = q
    · rw [hr]
      exact hfits
    · obtain ⟨hst, hth, _, hpc⟩ := hrest r hr
      rw [hst, hth, hpc]
      exact h.fits r

theorem hand {o : Option ℕ} (hp : on p = none ∨ on p = some c) (hc : (s.cpu c).current = none ∨
    (s.cpu c).current = some p) (hcpu : ∀ c', c' ≠ c → s'.cpu c' = s.cpu c')
    (hproc : ∀ c', c' ≠ c → s'.cpuProc c' = s.cpuProc c') (hnew : s'.cpuProc c = (s'.cpu c).current)
    (ho : o = none ∧ (s'.cpu c).current = none ∨ o = some c ∧ (s'.cpu c).current = some p)
    (hseat : Seat s'.cpu p o (s'.state p) (s'.thread p) (s'.lock p))
    (hfits : (s'.state p).Fits (s'.thread p) (s'.pc p)) (hrest : ∀ r, r ≠ p →
    s'.state r = s.state r ∧ s'.thread r = s.thread r ∧ s'.lock r = s.lock r ∧ s'.pc r = s.pc r) :
    s'.Seated (update on p o) := by
  have hother : ∀ r, r ≠ p → on r ≠ some c := by
    intro r hr hon
    have := (h.current c r).mpr hon
    rcases hc with hc | hc
    · rw [hc] at this
      contradiction
    · rw [hc, Option.some.injEq] at this
      exact hr this.symm
  refine ⟨?_, ?_, ?_, ?_⟩
  · intro c' r
    by_cases hr : r = p
    · subst hr
      rw [update_self]
      by_cases hc' : c' = c
      · subst hc'
        rcases ho with ⟨rfl, ho⟩ | ⟨rfl, ho⟩ <;> simp [ho]
      · rw [hcpu c' hc', h.current]
        rcases hp with hp | hp <;> rcases ho with ⟨rfl, _⟩ | ⟨rfl, _⟩ <;>
          simp [hp, Ne.symm hc']
    · rw [update_of_ne hr]
      by_cases hc' : c' = c
      · subst hc'
        have hcur : (s'.cpu c').current ≠ some r := by
          rcases ho with ⟨_, ho⟩ | ⟨_, ho⟩ <;> simp [ho, Ne.symm hr]
        exact iff_of_false hcur (hother r hr)
      · rw [hcpu c' hc']
        exact h.current c' r
  · intro c'
    by_cases hc' : c' = c
    · rw [hc']
      exact hnew
    · rw [hproc c' hc', hcpu c' hc']
      exact h.cpuProc c'
  · intro r
    by_cases hr : r = p
    · subst hr
      rw [update_self]
      exact hseat
    · obtain ⟨hst, hth, hlk, _⟩ := hrest r hr
      rw [update_of_ne hr, hst, hth, hlk]
      refine (h.seat r).congr ?_
      intro c' hon
      refine hcpu c' ?_
      rintro rfl
      exact hother r hr hon
  · intro r
    by_cases hr : r = p
    · rw [hr]
      exact hfits
    · obtain ⟨hst, hth, _, hpc⟩ := hrest r hr
      rw [hst, hth, hpc]
      exact h.fits r

theorem turn (hcur : s.cpu c = .run p) (hcpu : s'.cpu = s.cpu) (hproc : s'.cpuProc = s.cpuProc)
    (hseat : Seat s.cpu p (some c) (s'.state p) (s'.thread p) (s'.lock p))
    (hfits : (s'.state p).Fits (s'.thread p) (s'.pc p))
    (hrest : ∀ r, r ≠ p → s'.state r = s.state r ∧ s'.thread r = s.thread r ∧
      s'.lock r = s.lock r ∧ s'.pc r = s.pc r) : s'.Seated on := by
  have hon := h.on_run hcur
  have hc : (s.cpu c).current = some p := by rw [hcur]; rfl
  have hnew : s'.Seated (update on p (some c)) := h.hand (Or.inr hon) (Or.inr hc)
      (fun _ _ => by rw [hcpu]) (fun _ _ => by rw [hproc]) (by rw [hcpu, hproc]; exact h.cpuProc c)
      (Or.inr ⟨rfl, by rw [hcpu]; exact hc⟩) (by rw [hcpu]; exact hseat) hfits hrest
  rwa [← hon, Function.update_eq_self] at hnew

end

end Seated

/-! ## Children of `fork` -/

end ProcSystem

/-- The slot that `fork` has allocated and not yet published. -/
def ProcPc.child : ProcPc → Option Slot
  | .forkAlloc np | .forkCopy np | .forkParent np _ | .forkRunnable np _ =>
    some np
  | _ => none

def ProcPc.hasContext : ProcPc → Bool
  | .forkCopy _ | .forkParent .. | .forkRunnable .. => true
  | _ => false

namespace ProcSystem

structure Forks (s : ProcSystem) : Prop where
  used : ∀ p np, (s.pc p).child = some np → s.state np = .used
  unique : ∀ p p' np, (s.pc p).child = some np → (s.pc p').child = some np → p = p'
  saved : ∀ p np, (s.pc p).child = some np → (s.pc p).hasContext = true → s.thread np = .saved

variable {s s' : ProcSystem} {p q n : Slot} {k : ProcPc}

namespace Forks

theorem child_ne (h : s.Forks) (hp : (s.pc p).child = some n)
    (hstate : s.state q ≠ .used) : n ≠ q := by
  rintro rfl
  exact hstate (h.used p n hp)

theorem keep (h : s.Forks)
    (hslot : ∀ n, s.state n = .used → s'.state n = .used ∧ s'.thread n = s.thread n)
    (hpc : ∀ q, (s'.pc q).child = none ∨ s'.pc q = s.pc q) : s'.Forks := by
  have hold : ∀ q n, (s'.pc q).child = some n → s'.pc q = s.pc q := by
    intro q n hq
    rcases hpc q with hnone | heq
    · rw [hnone] at hq
      contradiction
    · exact heq
  refine ⟨?_, ?_, ?_⟩
  · intro p n hp
    have hp' := hp
    rw [hold p n hp] at hp'
    exact (hslot n (h.used p n hp')).1
  · intro p p' n hp hp'
    have hq := hp
    have hq' := hp'
    rw [hold p n hp] at hq
    rw [hold p' n hp'] at hq'
    exact h.unique p p' n hq hq'
  · intro p n hp hctx
    have hq := hp
    rw [hold p n hp] at hq hctx
    rw [(hslot n (h.used p n hq)).2]
    exact h.saved p n hq hctx

theorem change (h : s.Forks) (hq : s.state q ≠ .used)
    (hrest : ∀ r, r ≠ q → s'.state r = s.state r ∧ s'.thread r = s.thread r)
    (hpc : ∀ r, (s'.pc r).child = none ∨ s'.pc r = s.pc r) : s'.Forks := by
  refine h.keep ?_ hpc
  intro n hn
  have hne : n ≠ q := by
    rintro rfl
    exact hq hn
  obtain ⟨hst, hth⟩ := hrest n hne
  exact ⟨hst.trans hn, hth⟩

theorem goto (h : s.Forks) (hk : k.child = none) : (s.goto p k).Forks := by
  refine h.keep (fun n hn => ⟨hn, rfl⟩) ?_
  intro q
  by_cases hq : q = p
  · subst hq
    simp [ProcSystem.goto, hk]
  · simp [ProcSystem.goto, hq]

theorem only (h : s.Forks) (hp : (s.pc p).child = some n) (hq : q ≠ p) :
    (s.pc q).child ≠ some n := fun hchild => hq (h.unique q p n hchild hp)

theorem advance (h : s.Forks) (honly : ∀ q, q ≠ p → (s.pc q).child ≠ some n) (hk : k.child = some n)
    (hn : s'.state n = .used) (hsaved : k.hasContext = true → s'.thread n = .saved)
    (hpc : s'.pc p = k) (hother : ∀ q, q ≠ p → (s'.pc q).child = none ∨ s'.pc q = s.pc q)
    (hrest : ∀ r, r ≠ n → s'.state r = s.state r ∧ s'.thread r = s.thread r) : s'.Forks := by
  have hold : ∀ q m, q ≠ p → (s'.pc q).child = some m →
      s'.pc q = s.pc q ∧ (s.pc q).child = some m ∧ m ≠ n := by
    intro q m hq hm
    rcases hother q hq with hnone | heq
    · rw [hnone] at hm
      contradiction
    · have hm' := hm
      rw [heq] at hm'
      refine ⟨heq, hm', ?_⟩
      rintro rfl
      exact honly q hq hm'
  have hself : ∀ m, (s'.pc p).child = some m → m = n := by
    intro m hm
    rw [hpc, hk, Option.some.injEq] at hm
    exact hm.symm
  refine ⟨?_, ?_, ?_⟩
  · intro q m hm
    by_cases hq : q = p
    · subst hq
      rw [hself m hm]
      exact hn
    · obtain ⟨_, hm', hne⟩ := hold q m hq hm
      rw [(hrest m hne).1]
      exact h.used q m hm'
  · intro q q' m hm hm'
    by_cases hq : q = p <;> by_cases hq' : q' = p
    · rw [hq, hq']
    · subst hq
      exact absurd (hself m hm) (hold q' m hq' hm').2.2
    · subst hq'
      exact absurd (hself m hm') (hold q m hq hm).2.2
    · exact h.unique q q' m (hold q m hq hm).2.1 (hold q' m hq' hm').2.1
  · intro q m hm hctx
    by_cases hq : q = p
    · subst hq
      rw [hself m hm]
      rw [hpc] at hctx
      exact hsaved hctx
    · obtain ⟨heq, hm', hne⟩ := hold q m hq hm
      rw [heq] at hctx
      rw [(hrest m hne).2]
      exact h.saved q m hm' hctx

theorem finish (h : s.Forks) (hp : (s.pc p).child = some n)
    (hk : k.child = none) (hpc : s'.pc = update s.pc p k)
    (hrest : ∀ r, r ≠ n → s'.state r = s.state r ∧ s'.thread r = s.thread r) : s'.Forks := by
  have hold : ∀ q m, (s'.pc q).child = some m →
      s'.pc q = s.pc q ∧ (s.pc q).child = some m ∧ m ≠ n := by
    intro q m hm
    have hq : q ≠ p := by
      rintro rfl
      rw [hpc, update_self, hk] at hm
      contradiction
    have heq : s'.pc q = s.pc q := by rw [hpc, update_of_ne hq]
    rw [heq] at hm
    refine ⟨heq, hm, ?_⟩
    rintro rfl
    exact h.only hp hq hm
  refine ⟨?_, ?_, ?_⟩
  · intro q m hm
    obtain ⟨_, hm', hne⟩ := hold q m hm
    rw [(hrest m hne).1]
    exact h.used q m hm'
  · intro q q' m hm hm'
    exact h.unique q q' m (hold q m hm).2.1 (hold q' m hm').2.1
  · intro q m hm hctx
    obtain ⟨heq, hm', hne⟩ := hold q m hm
    rw [heq] at hctx
    rw [(hrest m hne).2]
    exact h.saved q m hm' hctx

end Forks

end ProcSystem

variable {k : ProcPc} {thread : Thread}

@[simp] theorem ProcPc.child_of_plain (hk : k.plain = true) : k.child = none := by
  cases k <;> first | rfl | contradiction

@[simp] theorem ProcState.fits_running :
    ProcState.running.Fits thread k ↔ k ≠ .exitUnlock := Iff.rfl

@[simp] theorem ProcState.fits_runnable :
    ProcState.runnable.Fits thread k ↔ k ≠ .exitUnlock := Iff.rfl

@[simp] theorem ProcState.fits_sleeping :
    ProcState.sleeping.Fits thread k ↔ k ≠ .exitUnlock := Iff.rfl

end Xv6
