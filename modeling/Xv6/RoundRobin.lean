import Xv6.SchedulerChoice

/-!
# Round robin on one CPU

With `SCHED_ROUND_ROBIN` the scan of `choose_next_process` begins at the first
slot in every call.  While the processes that are dispatched only yield, the
lowest slot of those that are runnable is dispatched each time.
-/

namespace Xv6

open Function (update update_of_ne update_self)

/-- CPU 0 runs the scheduler, the process that it dispatches yields, and the
clock goes on. -/
def ProcLabel.onlyYields : ProcLabel → Bool
  | .scheduler c => c = 0
  | .act c .yield => c = 0
  | .tick | .updateTime _ => true
  | _ => false

namespace ProcSystem

def dispatched (l : ProcLabel) (s : ProcSystem) : Option Slot :=
  match l with
  | .scheduler c =>
    match s.cpu c with
    | .dispatch p => if s.state p = .runnable then some p else none
    | _ => none
  | _ => none

def dispatches (labels : List ProcLabel) (s : ProcSystem) : List Slot := Machine.observe dispatched
    (Machine.restrict (fun l _ => l.onlyYields = true) (step .roundRobin))
    labels s

variable {s s' : ProcSystem} {S : Finset Slot} {p q : Slot}

/-- Where CPU 0 is while the processes of `S` take turns: the scan has passed
none of them, and the process that it has in hand is one of them. -/
def AtTurn (S : Finset Slot) (s : ProcSystem) : CpuPc → Prop
  | .choose i chosen => chosen = none ∧ ∀ q ∈ S, i ≤ q
  | .dispatch p => p ∈ S ∧ ∀ q ∈ S, p ≤ q
  | .switchTo p => p ∈ S
  | .run p => p ∈ S ∧ (s.thread p = .resumed ∨ s.thread p = .running ∨
      s.thread p = .leaving ∧ s.state p = .runnable)
  | .after p => p ∈ S ∧ s.state p = .runnable
  | .wfi => True

/-- The processes of `S`, and no others, are runnable, apart from the one that
CPU 0 has in hand. -/
structure Turn (S : Finset Slot) (s : ProcSystem) : Prop where
  ready : ∀ q, (s.cpu 0).current ≠ some q → (q ∈ S ↔ s.state q = .runnable)
  turn : s.AtTurn S (s.cpu 0)

namespace Turn

theorem choose {i : ℕ} {chosen : Option Slot} {k : CpuPc} (h : s.Turn S)
    (hcpu : s.cpu 0 = .choose i chosen) (hk : s.chooseNextProcess .roundRobin i chosen = some k) :
    { s with cpu := update s.cpu 0 k }.Turn S := by
  obtain ⟨hready, hturn⟩ := h
  rw [hcpu] at hready hturn
  obtain ⟨hnone, hturn⟩ := hturn
  have hall : ∀ q, q ∈ S ↔ s.state q = .runnable := fun q => hready q (by simp [CpuPc.current])
  have hcurrent := chooseNextProcess_current hk
  refine ⟨?_, ?_⟩ <;> simp only [update_self]
  · intro q _
    exact hall q
  · rcases chooseNextProcess_cases hk with
      ⟨r, hr, hstate, _, rfl⟩ | ⟨r, hr, hskip, rfl⟩ | ⟨hi, rfl⟩
    · refine ⟨(hall r).mpr hstate, ?_⟩
      intro q hq
      exact Fin.le_def.mpr (hr ▸ hturn q hq)
    · refine ⟨rfl, ?_⟩
      intro q hq
      have hne : i ≠ q := by
        intro hiq
        have hrq : r = q := Fin.ext (hr.trans hiq)
        exact (hskip (hrq ▸ (hall q).mp hq)).1 rfl
      have := hturn q hq
      omega
    · rw [hnone]
      trivial

theorem scheduler (h : s.Turn S) (hstep : s.scheduler .roundRobin 0 = some s') : s'.Turn S := by
  unfold ProcSystem.scheduler at hstep
  obtain ⟨hready, hturn⟩ := h
  cases hcpu : s.cpu 0 with
  | choose i chosen =>
    simp only [hcpu] at hstep
    cases hk : s.chooseNextProcess .roundRobin i chosen with
    | none => simp [hk] at hstep
    | some k =>
      rw [hk] at hstep
      cases hstep
      exact choose ⟨hready, hturn⟩ hcpu hk
  | dispatch p =>
    rw [hcpu] at hready hturn
    obtain ⟨hp, _⟩ := hturn
    have hall : ∀ q, q ∈ S ↔ s.state q = .runnable := fun q => hready q (by simp [CpuPc.current])
    simp only [hcpu, (hall p).mp hp, if_true, ite_eq_some] at hstep
    rw [← hstep.2]
    refine ⟨?_, ?_⟩ <;> simp only [update_self]
    · intro q hq
      have hne : q ≠ p := by
        rintro rfl
        exact hq rfl
      rw [update_of_ne hne]
      exact hall q
    · exact hp
  | switchTo p =>
    rw [hcpu] at hready hturn
    rw [hcpu] at hstep
    cases hstep
    refine ⟨?_, ?_⟩ <;> simp only [update_self]
    · exact hready
    · exact ⟨hturn, by simp⟩
  | run p => simp [hcpu] at hstep
  | after p =>
    rw [hcpu] at hready hturn
    rw [hcpu] at hstep
    cases hstep
    refine ⟨?_, ?_⟩ <;> simp only [update_self]
    · intro q _
      by_cases hq : q = p
      · rw [hq]
        exact ⟨fun _ => hturn.2, fun _ => hturn.1⟩
      · exact hready q (by simp [CpuPc.current, Ne.symm hq])
    · exact ⟨rfl, fun q _ => Nat.zero_le q⟩
  | wfi =>
    rw [hcpu] at hready
    rw [hcpu] at hstep
    cases hstep
    refine ⟨?_, ?_⟩ <;> simp only [update_self]
    · exact hready
    · exact ⟨rfl, fun q _ => Nat.zero_le q⟩

theorem yield (h : s.Turn S) (hstep : s.act 0 .yield = some s') : s'.Turn S := by
  obtain ⟨hready, hturn⟩ := h
  unfold act at hstep
  cases hcpu : s.cpu 0 with
  | run p =>
    rw [hcpu] at hready hturn
    obtain ⟨hp, hthread | hthread | ⟨hthread, hstate⟩⟩ := hturn
    · simp only [hcpu, hthread] at hstep
      cases hstep
      refine ⟨?_, ?_⟩
      · simp only [resume, goto, hcpu]
        exact hready
      · simp [resume, goto, hcpu, AtTurn, hp]
    · simp only [hcpu, hthread, actRunning, ite_eq_some] at hstep
      rw [← hstep.2]
      refine ⟨?_, ?_⟩
      · intro q hq
        have hne : q ≠ p := by
          rintro rfl
          exact hq (by simp [ProcSystem.yield, hcpu, CpuPc.current])
        simp only [ProcSystem.yield, update_of_ne hne]
        exact hready q (by simp [CpuPc.current, Ne.symm hne])
      · simp [ProcSystem.yield, hcpu, AtTurn, hp]
    · simp only [hcpu, hthread] at hstep
      cases hstep
      refine ⟨?_, ?_⟩
      · simp only [sched, update_self]
        exact hready
      · simp [sched, AtTurn, hp, hstate]
  | _ => simp [hcpu] at hstep

theorem step {l : ProcLabel} (h : s.Turn S) (hl : l.onlyYields = true)
    (hstep : s.step .roundRobin l = some s') : s'.Turn S := by
  cases l with
  | scheduler c =>
    obtain rfl : c = 0 := by simpa [ProcLabel.onlyYields] using hl
    exact h.scheduler hstep
  | act c a =>
    cases a with
    | yield =>
      obtain rfl : c = 0 := by simpa [ProcLabel.onlyYields] using hl
      exact h.yield hstep
    | _ => simp [ProcLabel.onlyYields] at hl
  | wakeup c n q => simp [ProcLabel.onlyYields] at hl
  | tick =>
    cases hstep
    exact ⟨h.ready, h.turn⟩
  | updateTime q =>
    simp only [ProcSystem.step, updateTime] at hstep
    (repeat' split at hstep) <;>
      simp only [Option.some.injEq, reduceCtorEq] at hstep <;>
      rw [← hstep] <;> exact ⟨h.ready, h.turn⟩

theorem lowest {l : ProcLabel} (h : s.Turn S) (hl : l.onlyYields = true)
    (hp : p ∈ s.dispatched l) : p ∈ S ∧ ∀ q ∈ S, p ≤ q := by
  cases l with
  | scheduler c =>
    obtain rfl : c = 0 := by simpa [ProcLabel.onlyYields] using hl
    have hturn := h.turn
    cases hcpu : s.cpu 0 with
    | dispatch p' =>
      rw [hcpu] at hturn
      simp only [dispatched, hcpu, Option.mem_def, ite_eq_some] at hp
      rw [← hp.2]
      exact hturn
    | _ => simp [dispatched, hcpu] at hp
  | _ => simp [dispatched] at hp

end Turn

theorem dispatches_lowest (labels : List ProcLabel) (h : s.Turn S) :
    ∀ p ∈ s.dispatches labels, p ∈ S ∧ ∀ q ∈ S, p ≤ q := by
  unfold dispatches
  refine Machine.forall_observe (I := Turn S) ?_ ?_ h
  · intro l s s' hs hstep
    obtain ⟨hl, hstep⟩ := Machine.restrict_eq_some.mp hstep
    exact hs.step hl hstep
  · intro l s s' hs hstep p hp
    exact hs.lowest (Machine.restrict_eq_some.mp hstep).1 hp

end ProcSystem

/-- With `SCHED_ROUND_ROBIN` on one CPU, if only the processes of `S` are
runnable and each process that is dispatched only yields, then any `|S|`
consecutive dispatches dispatch each process of `S` once, where `S` has at most
one process. -/
theorem round_robin_fair (S : Finset Slot) (hone : S.card ≤ 1) (s : ProcSystem)
    (hcpu : s.cpu 0 = .choose 0 none)
    (hS : ∀ p, p ∈ S ↔ s.state p = .runnable)
    (labels : List ProcLabel) (before window after : List Slot)
    (hsplit : s.dispatches labels = before ++ window ++ after)
    (hlength : window.length = S.card) :
    ∀ p ∈ S, window.count p = 1 := by
  have hturn : s.Turn S := by
    refine ⟨fun q _ => hS q, ?_⟩
    rw [hcpu]
    exact ⟨rfl, fun q _ => Nat.zero_le q⟩
  intro p hp
  have hcard : S.card = 1 := le_antisymm hone (Finset.card_pos.mpr ⟨p, hp⟩)
  rw [hcard] at hlength
  obtain ⟨q, rfl⟩ := List.length_eq_one_iff.mp hlength
  obtain ⟨hq, _⟩ := ProcSystem.dispatches_lowest labels hturn q (by rw [hsplit]; simp)
  rw [Finset.card_le_one.mp hone p hp q hq]
  simp

/-- CPU 0 dispatches the first slot, whose process yields. -/
def dispatchAndYield : List ProcLabel :=
  [.scheduler 0, .scheduler 0, .scheduler 0, .act 0 .yield, .act 0 .yield,
    .act 0 .yield, .scheduler 0]

/-- The first process is alone. -/
theorem round_robin_fair_alone : userinit.dispatches (dispatchAndYield ++ dispatchAndYield) =
        [initproc] ++ [initproc] ++ [] ∧
      ∀ p ∈ ({initproc} : Finset Slot), [initproc].count p = 1 := by
  have hdispatches : userinit.dispatches (dispatchAndYield ++ dispatchAndYield) =
        [initproc] ++ [initproc] ++ [] := by decide +kernel
  exact ⟨hdispatches, round_robin_fair {initproc} (by simp) userinit rfl
    (by decide) _ _ _ _ hdispatches rfl⟩

/-- The first process and its child are runnable, and two consecutive
dispatches both take the first process. -/
theorem round_robin_starves_child :
    ∃ s, Machine.run (ProcSystem.step .roundRobin) forkAndYield userinit = some s ∧
      s.cpu 0 = .choose 0 none ∧
      (∀ p, p ∈ ({0, 1} : Finset Slot) ↔ s.state p = .runnable) ∧
      s.dispatches (dispatchAndYield ++ dispatchAndYield) = [0, 0] := by
  exact Machine.exists_run_decide (by decide +kernel)

end Xv6
