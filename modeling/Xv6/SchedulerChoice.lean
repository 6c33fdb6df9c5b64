import Xv6.ExclusiveExecution
import Xv6.ProcFrame

/-!
# What the scheduler chooses

`choose_next_process` looks at one slot after another while other CPUs go on.
The process that it returns was runnable when it looked at it; another CPU may
have run this process since then, and its slot may even have been freed.
-/

namespace Xv6

open Function (update update_of_ne update_self)
open CpuPc Machine

namespace ProcSystem

variable {s s' : ProcSystem} {c c' : ℕ} {p q : Slot} {mode : SchedMode}

theorem chooseNextProcess_cases {i : ℕ} {chosen : Option Slot}
    {k : CpuPc} (h : s.chooseNextProcess mode i chosen = some k) : (∃ r : Slot, r = i ∧
    s.state r = .runnable ∧ (mode ≠ .roundRobin → s.better mode r chosen = true) ∧
    k = if mode = .roundRobin then .dispatch r
        else .choose (i + 1) (some r)) ∨
    (∃ r : Slot, r = i ∧
      (s.state r = .runnable → mode ≠ .roundRobin ∧ s.better mode r chosen = false) ∧
      k = .choose (i + 1) (if mode = .roundRobin then none else chosen)) ∨
    (nproc ≤ i ∧ k = chosen.elim .wfi .dispatch) := by
  unfold chooseNextProcess at h
  split at h
  · rename_i hi
    cases mode with
    | roundRobin =>
      simp only [Option.some.injEq] at h
      by_cases hstate : s.state ⟨i, hi⟩ = .runnable
      · rw [if_pos hstate] at h
        exact Or.inl ⟨⟨i, hi⟩, rfl, hstate, by simp, by simp [h]⟩
      · rw [if_neg hstate] at h
        exact Or.inr (Or.inl ⟨⟨i, hi⟩, rfl, fun h' => absurd h' hstate, by simp [h]⟩)
    | fcfs =>
      simp only [Option.some.injEq] at h
      by_cases hstate : s.state ⟨i, hi⟩ = .runnable ∧ s.better .fcfs ⟨i, hi⟩ chosen = true
      · rw [if_pos hstate] at h
        exact Or.inl ⟨⟨i, hi⟩, rfl, hstate.1, fun _ => hstate.2, by simp [h]⟩
      · rw [if_neg hstate] at h
        exact Or.inr (Or.inl ⟨⟨i, hi⟩, rfl, fun h' => ⟨by decide,
          by simpa [h'] using hstate⟩, by simp [h]⟩)
    | priority =>
      simp only [ite_eq_some] at h
      obtain ⟨_, h⟩ := h
      by_cases hstate : s.state ⟨i, hi⟩ = .runnable ∧ s.better .priority ⟨i, hi⟩ chosen = true
      · rw [if_pos hstate] at h
        exact Or.inl ⟨⟨i, hi⟩, rfl, hstate.1, fun _ => hstate.2, by simp [h]⟩
      · rw [if_neg hstate] at h
        exact Or.inr (Or.inl ⟨⟨i, hi⟩, rfl, fun h' => ⟨by decide,
          by simpa [h'] using hstate⟩, by simp [h]⟩)
  · right
    right
    refine ⟨by omega, ?_⟩
    cases chosen <;>
    · simp only [Option.some.injEq] at h
      exact h.symm

theorem Sched.taken (h : s.Sched) (hmove : ProcMove s s') (hp : s.state p = .runnable)
    (hp' : s'.state p ≠ .runnable) : ∃ c, s.cpu c = .dispatch p ∧ s'.cpu c = .switchTo p := by
  have hrunning : s'.state p = .running := by
    rcases h.next hmove p with heq | hnext
    · exact absurd (heq.trans hp) hp'
    · rw [hp] at hnext
      generalize s'.state p = state at hnext
      cases hnext
      rfl
  have hother : ∀ q state, state ≠ ProcState.running → update s.state q state p ≠ .running := by
    intro q state hstate
    by_cases hq : p = q
    · subst hq
      rwa [update_self]
    · rw [update_of_ne hq, hp]
      decide
  cases hmove with
  | @dispatch c p' hcpu hlock hstate =>
    by_cases hq : p = p'
    · subst hq
      exact ⟨c, hcpu, by simp⟩
    · simp [hq, hp] at hrunning
  | wakeup | sleep | yield | killWake | allocproc | forkFail | forkRunnable |
      wakeInit | wakeParent | exitZombie | waitReap =>
    exact absurd hrunning (hother _ _ (by decide))
  | _ => exact absurd (hp.symm.trans hrunning) (by decide)

end ProcSystem

/-- The process that a CPU in `scheduler` has in mind. -/
def CpuPc.candidate : CpuPc → Option Slot
  | .choose _ chosen => chosen
  | .dispatch p => some p
  | .switchTo _ | .run _ | .after _ | .wfi => none

namespace ProcSystem

/-- No other CPU takes the candidate of CPU `c` in this step. -/
def SparesCandidate (c : ℕ) (l : ProcLabel) (s : ProcSystem) : Prop :=
  ∀ p ∈ (s.cpu c).candidate, match l with
    | .scheduler c' => c' = c ∨ s.cpu c' ≠ .dispatch p
    | _ => True

instance (c : ℕ) (l : ProcLabel) (s : ProcSystem) : Decidable (s.SparesCandidate c l) := by
  unfold SparesCandidate
  cases l <;> infer_instance

variable {s s' : ProcSystem} {c : ℕ} {p q : Slot} {mode : SchedMode}

/-- While `q` is runnable, CPU `c` passes it only with a candidate, and the
candidate is runnable. -/
structure Finds (mode : SchedMode) (c : ℕ) (q : Slot) (s : ProcSystem) : Prop where
  passed : ∀ i chosen, s.cpu c = .choose i chosen → mode = .roundRobin ∨ chosen = none → i ≤ q
  runnable : ∀ p ∈ (s.cpu c).candidate, s.state p = .runnable
  busy : s.cpu c ≠ .wfi

theorem finds_of_current (hcpu : (s.cpu c).current ≠ none) : s.Finds mode c q := by
  refine ⟨?_, ?_, ?_⟩
  · intro i chosen hchoose
    simp [hchoose, current] at hcpu
  · intro p hp
    cases hpc : s.cpu c <;>
      simp [hpc, current, candidate] at hcpu hp
  · intro hwfi
    simp [hwfi, current] at hcpu

theorem finds_of_start (hcpu : s.cpu c = .choose 0 none) : s.Finds mode c q := by
  refine ⟨?_, ?_, ?_⟩ <;> simp [hcpu, candidate]

namespace Finds

theorem other {l : ProcLabel} (h : s.Finds mode c q) (hsched : s.Sched)
    (hspare : s.SparesCandidate c l) (hstep : s.step mode l = some s')
    (hl : l ≠ .scheduler c) : s'.Finds mode c q := by
  rcases cpu_of_step hstep hl with hcpu | ⟨_, p, hcpu⟩
  · refine ⟨by rw [hcpu]; exact h.passed, ?_, by rw [hcpu]; exact h.busy⟩
    rw [hcpu]
    intro p hp
    by_contra hp'
    obtain ⟨c', hdisp, hsw⟩ := hsched.taken (step_move hstep) (h.runnable p hp) hp'
    have hl' : l = .scheduler c' := by
      by_contra hne
      rcases cpu_of_step hstep hne with heq | ⟨_, p', hafter⟩
      · rw [hsw, hdisp] at heq
        contradiction
      · rw [hsw] at hafter
        contradiction
    have hsp := hspare p hp
    rw [hl'] at hsp
    rcases hsp with rfl | hne
    · exact hl hl'
    · exact hne hdisp
  · exact finds_of_current (by simp [hcpu, current])

theorem choose
    {i : ℕ} {chosen : Option Slot} {k : CpuPc} (h : s.Finds mode c q) (hq : s.state q = .runnable)
    (hcpu : s.cpu c = .choose i chosen) (hk : s.chooseNextProcess mode i chosen = some k) :
    { s with cpu := update s.cpu c k }.Finds mode c q := by
  have hpassed := h.passed i chosen hcpu
  have hchosen := h.runnable
  rw [hcpu] at hchosen
  rcases chooseNextProcess_cases hk with
    ⟨r, hr, hstate, _, hk⟩ | ⟨r, hr, hskip, hk⟩ | ⟨hi, hk⟩
  · rw [hk]
    refine ⟨?_, ?_, ?_⟩ <;> simp only [update_self] <;>
      cases mode <;> simp [candidate, hstate]
  · rw [hk]
    refine ⟨?_, ?_, ?_⟩ <;> simp only [update_self]
    · intro j chosen' hj hnone
      simp only [CpuPc.choose.injEq] at hj
      have hcase : mode = .roundRobin ∨ chosen = none := by
        rcases hnone with hmode | hnone
        · exact Or.inl hmode
        · by_cases hmode : mode = .roundRobin
          · exact Or.inl hmode
          · right
            rw [← hnone, ← hj.2, if_neg hmode]
      have hne : i ≠ q := by
        intro hiq
        have hrq : r = q := Fin.ext (hr.trans hiq)
        obtain ⟨hmode, hbetter⟩ := hskip (hrq ▸ hq)
        rcases hcase with hcase | hcase
        · exact hmode hcase
        · simp [hcase, better] at hbetter
      have := hpassed hcase
      omega
    · intro p hp
      apply hchosen p
      cases mode <;> simp_all [candidate]
    · simp
  · have hsome : chosen ≠ none := by
      intro hnone
      have := hpassed (Or.inr hnone)
      have := q.isLt
      omega
    obtain ⟨p, rfl⟩ := Option.ne_none_iff_exists'.mp hsome
    rw [hk, Option.elim_some]
    refine ⟨?_, ?_, ?_⟩ <;> simp only [update_self]
    · simp
    · exact hchosen
    · simp

theorem scheduler (h : s.Finds mode c q) (hq : s.state q = .runnable)
    (hstep : s.scheduler mode c = some s') : s'.Finds mode c q := by
  unfold ProcSystem.scheduler at hstep
  cases hcpu : s.cpu c with
  | choose i chosen =>
    simp only [hcpu] at hstep
    cases hk : s.chooseNextProcess mode i chosen with
    | none => simp [hk] at hstep
    | some k =>
      rw [hk] at hstep
      cases hstep
      exact h.choose hq hcpu hk
  | dispatch p =>
    have hp := h.runnable p (by simp [hcpu, candidate])
    simp only [hcpu, hp, if_true] at hstep
    split at hstep <;> cases hstep
    exact finds_of_current (by simp [current])
  | switchTo p =>
    rw [hcpu] at hstep
    cases hstep
    exact finds_of_current (by simp [current])
  | run p => simp [hcpu] at hstep
  | after p =>
    rw [hcpu] at hstep
    cases hstep
    exact finds_of_start (by simp)
  | wfi => exact absurd hcpu h.busy

theorem step {l : ProcLabel} (h : s.Finds mode c q) (hsched : s.Sched) (hq : s.state q = .runnable)
    (hspare : s.SparesCandidate c l) (hstep : s.step mode l = some s') : s'.Finds mode c q := by
  by_cases hl : l = .scheduler c
  · subst hl
    exact h.scheduler hq hstep
  · exact h.other hsched hspare hstep hl

end Finds

end ProcSystem

open ProcSystem

/-- In every run, a CPU that begins a scan while `q` is runnable does not reach
the `wfi` branch as long as `q` stays runnable and no other CPU takes the
candidate of the scan before this CPU has looked at it again. -/
theorem scheduler_finds_runnable
    (mode : SchedMode) (before labels : List ProcLabel) (s t : ProcSystem)
    (c : ℕ) (q : Slot)
    (hrun : Machine.run (ProcSystem.step mode) before userinit = some s)
    (hstart : s.cpu c = .choose 0 none)
    (hscan : Machine.run (restrict (fun l s => s.state q = .runnable ∧ s.SparesCandidate c l)
      (ProcSystem.step mode)) labels s = some t) :
    t.cpu c ≠ .wfi := by
  have h : t.Sched ∧ t.Finds mode c q := by
    refine run_invariant (I := fun s => s.Sched ∧ s.Finds mode c q) ?_
      ⟨sched_of_run hrun, finds_of_start hstart⟩ hscan
    rintro l s s' ⟨hsched, hfinds⟩ hstep
    obtain ⟨⟨hq, hspare⟩, hstep⟩ := Machine.restrict_eq_some.mp hstep
    exact ⟨hsched.move (step_move hstep), hfinds.step hsched hq hspare hstep⟩
  exact h.2.busy

def forkAndYield : List ProcLabel :=
  [.scheduler 0, .scheduler 0, .scheduler 0, .act 0 (.next true),
    .act 0 .fork, .act 0 (.next true), .act 0 (.next true),
    .act 0 (.next true), .act 0 (.next true), .act 0 (.next true),
    .act 0 (.next true), .act 0 .yield, .act 0 (.next true), .scheduler 0]

/-- CPU 1 looks at the child while CPU 0 takes its parent. -/
theorem scheduler_finds_runnable_child :
    ∃ s t, Machine.run (ProcSystem.step .roundRobin) forkAndYield userinit = some s ∧
      Machine.run (restrict (fun l s => s.state 1 = .runnable ∧ s.SparesCandidate 1 l)
        (ProcSystem.step .roundRobin))
        [.scheduler 0, .scheduler 0, .scheduler 1, .scheduler 1] s = some t ∧
      t.cpu 1 ≠ .wfi := by
  refine exists_run₂ (P := fun s => decide (s.cpu 1 = .choose 0 none ∧
      (Machine.run (restrict (fun l s => s.state 1 = .runnable ∧ s.SparesCandidate 1 l)
        (ProcSystem.step .roundRobin))
        [.scheduler 0, .scheduler 0, .scheduler 1, .scheduler 1] s).isSome = true))
    (by decide +kernel) ?_
  intro s hrun hs
  obtain ⟨hstart, hsome⟩ := of_decide_eq_true hs
  obtain ⟨t, ht⟩ := Option.isSome_iff_exists.mp hsome
  exact ⟨t, ht, scheduler_finds_runnable _ _ _ s t 1 1 hrun hstart ht⟩

/-- Both CPUs choose the first process and CPU 0 takes it; CPU 1 then waits for
an interrupt although the child is runnable all the time. -/
theorem scheduler_idles_past_runnable :
    ∃ s t, Machine.run (ProcSystem.step .roundRobin) forkAndYield userinit = some s ∧
      s.cpu 1 = .choose 0 none ∧
      Machine.run (restrict (fun _ s => s.state 1 = .runnable) (ProcSystem.step .roundRobin))
        [.scheduler 0, .scheduler 1, .scheduler 0, .scheduler 0,
          .act 0 (.next true), .scheduler 1] s = some t ∧
      t.state 1 = .runnable ∧ t.cpu 1 = .wfi := by
  refine exists_run₂ (P := fun s => decide (s.cpu 1 = .choose 0 none ∧
      (Machine.run (restrict (fun _ s => s.state 1 = .runnable) (ProcSystem.step .roundRobin))
        [.scheduler 0, .scheduler 1, .scheduler 0, .scheduler 0,
          .act 0 (.next true), .scheduler 1] s).any
        (fun t => decide (t.state 1 = .runnable ∧ t.cpu 1 = .wfi)) = true))
    (by decide +kernel) ?_
  intro s _ hs
  obtain ⟨hstart, hany⟩ := of_decide_eq_true hs
  obtain ⟨t, ht⟩ := Machine.exists_run_decide hany
  exact ⟨t, hstart, ht⟩

/-- The scan has passed slot `q`. -/
def CpuPc.passed (q : Slot) : CpuPc → Prop
  | .choose i _ => q < i
  | .dispatch _ => True
  | .switchTo _ | .run _ | .after _ | .wfi => False

namespace ProcSystem

/-- The slot of the candidate of CPU `c` is in use. -/
def CandidateInUse (c : ℕ) (s : ProcSystem) : Prop := ∀ p ∈ (s.cpu c).candidate, s.state p ≠ .unused

instance (c : ℕ) (s : ProcSystem) : Decidable (s.CandidateInUse c) := by
  unfold CandidateInUse
  infer_instance

variable {s s' : ProcSystem} {c : ℕ} {p q : Slot}

theorem Sched.creationTime (h : s.Sched) (hmove : ProcMove s s') (hused : s.state p ≠ .used)
    (hfreed : s'.state p ≠ .unused) : (s'.times p).creationTime = (s.times p).creationTime := by
  cases hmove with
  | clock htimes => exact htimes p
  | @allocprocContext c p' np hrun hpc =>
    have hne : p ≠ np := by
      rintro rfl
      exact hused (h.forks.used p' p (by rw [hpc]; rfl))
    simp [allocprocContext, goto, hne]
  | @forkFail c p' np hrun hpc =>
    have hne : p ≠ np := by
      rintro rfl
      simp [forkFail, freeproc, goto] at hfreed
    simp [forkFail, freeproc, goto, hne]
  | @exitZombie c p' status hrun hpc hlock =>
    by_cases hp : p = p'
    · subst hp
      simp [exitZombie, goto, ProcTimes.finish]
    · simp [exitZombie, goto, hp]
  | @waitReap c p' w addr havekids q hrun hpc hparent hlock hstate =>
    have hne : p ≠ q := by
      rintro rfl
      simp [waitReap, freeproc, waitReturn, goto] at hfreed
    simp [waitReap, freeproc, waitReturn, goto, hne]
  | _ => rfl

/-- Once the scan has passed `q`, the candidate was not created before it,
unless the slot of the candidate has been freed. -/
structure Leads (c : ℕ) (q : Slot) (s : ProcSystem) : Prop where
  found : ∀ i, s.cpu c = .choose i none → i ≤ q
  settled : ∀ p ∈ (s.cpu c).candidate, s.state p ≠ .used
  newest : ∀ p ∈ (s.cpu c).candidate, (s.cpu c).passed q → s.state p ≠ .unused →
    (s.times q).creationTime ≤ (s.times p).creationTime

theorem leads_of_not_passed (hpc : (s.cpu c).candidate = none)
    (hchoose : ∀ i, s.cpu c = .choose i none → i ≤ q) : s.Leads c q := by
  refine ⟨hchoose, ?_, ?_⟩ <;> simp [hpc]

namespace Leads

theorem other {mode : SchedMode} {l : ProcLabel}
    (h : s.Leads c q) (hsched : s.Sched) (hq : s.state q = .runnable) (huse : s.CandidateInUse c)
    (hstep : s.step mode l = some s') (hl : l ≠ .scheduler c) : s'.Leads c q := by
  have hmove := step_move hstep
  rcases cpu_of_step hstep hl with hcpu | ⟨_, p, hcpu⟩
  · refine ⟨by rw [hcpu]; exact h.found, ?_, ?_⟩ <;> rw [hcpu]
    · intro p hp
      rcases hsched.next hmove p with heq | hnext
      · rw [heq]
        exact h.settled p hp
      · intro hused
        rw [hused] at hnext
        generalize hst : s.state p = state at hnext
        cases hnext
        exact huse p hp hst
    · intro p hp hpassed hfreed
      have hq' : s'.state q ≠ .unused := by
        rcases hsched.next hmove q with heq | hnext
        · rw [heq, hq]
          decide
        · rw [hq] at hnext
          generalize s'.state q = state at hnext
          cases hnext
          decide
      rw [hsched.creationTime hmove (h.settled p hp) hfreed,
        hsched.creationTime hmove (by simp [hq]) hq']
      exact h.newest p hp hpassed (huse p hp)
  · exact leads_of_not_passed (by rw [hcpu]; rfl) (by simp [hcpu])

theorem choose {i : ℕ} {chosen : Option Slot}
    {k : CpuPc} (h : s.Leads c q) (hq : s.state q = .runnable) (huse : s.CandidateInUse c)
    (hcpu : s.cpu c = .choose i chosen) (hk : s.chooseNextProcess .priority i chosen = some k) :
    { s with cpu := update s.cpu c k }.Leads c q := by
  obtain ⟨hfound, hsettled, hnewest⟩ := h
  rw [hcpu] at hfound hsettled hnewest
  unfold CandidateInUse at huse
  rw [hcpu] at huse
  simp only [CpuPc.choose.injEq, candidate, CpuPc.passed,
    Option.mem_def] at hfound hsettled hnewest huse
  have hlead : ∀ ch, chosen = some ch → q < i → (s.times q).creationTime ≤
    (s.times ch).creationTime := fun ch hch hi => hnewest ch hch hi (huse ch hch)
  rcases chooseNextProcess_cases hk with
    ⟨r, hr, hstate, hbetter, hk⟩ | ⟨r, hr, hskip, hk⟩ | ⟨hi, hk⟩
  · rw [hk]
    refine ⟨?_, ?_, ?_⟩ <;>
      simp only [update_self, reduceCtorEq, if_false]
    · simp
    · simp [candidate, hstate]
    · simp only [candidate, CpuPc.passed, Option.mem_def, Option.some.injEq, forall_eq']
      intro hqi _
      rcases Nat.lt_succ_iff_lt_or_eq.mp hqi with hlt | heq
      · cases hch : chosen with
        | none => exact absurd (hfound i ⟨rfl, hch⟩) (by omega)
        | some ch =>
          have := hbetter (by decide)
          rw [hch] at this
          simp only [better, decide_eq_true_eq] at this
          exact UInt32.le_trans (hlead ch hch hlt) (UInt32.le_of_lt this)
      · rw [show q = r from Fin.ext (heq.trans hr.symm)]
        exact UInt32.le_refl _
  · rw [hk]
    refine ⟨?_, ?_, ?_⟩ <;>
      simp only [update_self, reduceCtorEq, if_false]
    · intro j hj
      simp only [CpuPc.choose.injEq] at hj
      have hi := hfound i ⟨rfl, hj.2⟩
      have hne : i ≠ q := by
        intro hiq
        have := (hskip ((Fin.ext (hr.trans hiq) : r = q) ▸ hq)).2
        simp [hj.2, better] at this
      omega
    · exact hsettled
    · simp only [candidate, CpuPc.passed, Option.mem_def]
      intro ch hch hqi _
      rcases Nat.lt_succ_iff_lt_or_eq.mp hqi with hlt | heq
      · exact hlead ch hch hlt
      · have hrq : r = q := Fin.ext (hr.trans heq.symm)
        have := (hskip (hrq ▸ hq)).2
        rw [hch, hrq] at this
        simp only [better, decide_eq_false_iff_not] at this
        exact UInt32.not_lt.mp this
  · rw [hk]
    cases hch : chosen with
    | none => exact leads_of_not_passed (by simp [candidate]) (by simp)
    | some ch =>
      refine ⟨?_, ?_, ?_⟩ <;>
        simp only [update_self, Option.elim_some, candidate,
          Option.mem_def, Option.some.injEq, forall_eq']
      · simp
      · exact hsettled ch hch
      · intro _ _
        have := q.isLt
        exact hlead ch hch (by omega)

theorem scheduler (h : s.Leads c q) (hq : s.state q = .runnable) (huse : s.CandidateInUse c)
    (hstep : s.scheduler .priority c = some s') : s'.Leads c q := by
  unfold ProcSystem.scheduler at hstep
  cases hcpu : s.cpu c with
  | choose i chosen =>
    simp only [hcpu] at hstep
    cases hk : s.chooseNextProcess .priority i chosen with
    | none => simp [hk] at hstep
    | some k =>
      rw [hk] at hstep
      cases hstep
      exact h.choose hq huse hcpu hk
  | run p => simp [hcpu] at hstep
  | _ =>
    simp only [hcpu] at hstep
    (repeat' split at hstep) <;>
      simp only [Option.some.injEq, reduceCtorEq] at hstep <;>
      rw [← hstep] <;>
      exact leads_of_not_passed (by simp [candidate]) (by simp)

theorem step {l : ProcLabel} (h : s.Leads c q) (hsched : s.Sched) (hq : s.state q = .runnable)
    (huse : s.CandidateInUse c) (hstep : s.step .priority l = some s') : s'.Leads c q := by
  by_cases hl : l = .scheduler c
  · subst hl
    exact h.scheduler hq huse hstep
  · exact h.other hsched hq huse hstep hl

end Leads

end ProcSystem

/-- In every run with `SCHED_PRIORITY`, when a CPU dispatches `p`, no process
that has been runnable since the scan began was created after `p`, provided
that the slot of the candidate was not freed during the scan. -/
theorem priority_dispatches_newest
    (before labels : List ProcLabel) (s t t' : ProcSystem) (c : ℕ) (p q : Slot)
    (hrun : Machine.run (ProcSystem.step .priority) before userinit = some s)
    (hstart : s.cpu c = .choose 0 none)
    (hscan : Machine.run (restrict (fun _ s => s.state q = .runnable ∧ s.CandidateInUse c)
      (ProcSystem.step .priority)) labels s = some t)
    (hcpu : t.cpu c = .dispatch p)
    (hstep : t.step .priority (.scheduler c) = some t')
    (hdispatch : t'.cpu c = .switchTo p) :
    (t.times q).creationTime ≤ (t.times p).creationTime := by
  have h : t.Sched ∧ t.Leads c q := by
    refine run_invariant (I := fun s => s.Sched ∧ s.Leads c q) ?_
      ⟨sched_of_run hrun, leads_of_not_passed (by simp [hstart,
        candidate]) (by simp [hstart])⟩ hscan
    rintro l s s' ⟨hsched, hleads⟩ hstep
    obtain ⟨⟨hq, huse⟩, hstep⟩ := Machine.restrict_eq_some.mp hstep
    exact ⟨hsched.move (step_move hstep), hleads.step hsched hq huse hstep⟩
  have hstate : t.state p ≠ .unused := by
    intro hunused
    simp only [step, scheduler, hcpu, hunused, reduceCtorEq, if_false] at hstep
    split at hstep <;> simp only [Option.some.injEq, reduceCtorEq] at hstep
    rw [← hstep] at hdispatch
    simp at hdispatch
  exact h.2.newest p (by simp [hcpu, candidate]) (by simp [hcpu, CpuPc.passed]) hstate

def schedulerSteps (c n : ℕ) : List ProcLabel := List.replicate n (.scheduler c)

def nextSteps (c n : ℕ) : List ProcLabel := List.replicate n (.act c (.next true))

/-- CPU `c` looks at all slots and takes what it has found. -/
def dispatchOn (c : ℕ) : List ProcLabel := schedulerSteps c (nproc + 3) ++ nextSteps c 1

/-- The first process, on CPU 0, forks into slot `k`. -/
def forkInto (k : ℕ) : List ProcLabel := .act 0 .fork :: nextSteps 0 (k + 5)

/-- The process on CPU `c` exits. -/
def exitOn (c : ℕ) : List ProcLabel :=
  .act c (.exit 0) :: nextSteps c (2 * nproc + 5) ++ schedulerSteps c 1

/-- The first process, on CPU 0, reaps slot `k`. -/
def waitFor (k : ℕ) : List ProcLabel := .act 0 (.wait .wait 0) :: nextSteps 0 (k + 2)

/-- The first process has a child of tick 0 and one of tick 1. -/
def twoChildren : List ProcLabel := dispatchOn 0 ++ forkInto 1 ++ [.tick] ++ forkInto 2

theorem priority_dispatches_newest_second :
    ∃ s t, Machine.run (ProcSystem.step .priority) twoChildren userinit = some s ∧
      Machine.run (restrict (fun _ s => s.state 1 = .runnable ∧ s.CandidateInUse 1)
        (ProcSystem.step .priority)) (schedulerSteps 1 (nproc + 1)) s = some t ∧
      t.cpu 1 = .dispatch 2 ∧
      (t.times 1).creationTime ≤ (t.times 2).creationTime := by
  refine exists_run₂ (P := fun s => decide (s.cpu 1 = .choose 0 none ∧
      (Machine.run (restrict (fun _ s => s.state 1 = .runnable ∧ s.CandidateInUse 1)
        (ProcSystem.step .priority)) (schedulerSteps 1 (nproc + 1)) s).any
        (fun t => decide (t.cpu 1 = .dispatch 2 ∧ (t.step .priority (.scheduler 1)).any
            (fun t' => decide (t'.cpu 1 = .switchTo 2)) = true)) = true))
    (by decide +kernel) ?_
  intro s hrun hs
  obtain ⟨hstart, hany⟩ := of_decide_eq_true hs
  obtain ⟨t, ht, hcpu, hstep⟩ := Machine.exists_run_decide hany
  obtain ⟨t', ht', hsw⟩ := Machine.exists_run_decide hstep
  exact ⟨t, ht, hcpu, priority_dispatches_newest _ _ s t t' 1 2 1 hrun hstart ht hcpu ht' hsw⟩

/-- The first process has children of tick 2 in slots 1 and 2, and one of
tick 1 in slot 3. -/
def threeChildren : List ProcLabel :=
  dispatchOn 0 ++ forkInto 1 ++ dispatchOn 1 ++ forkInto 2 ++ dispatchOn 2 ++
    [.tick] ++ forkInto 3 ++ exitOn 1 ++ exitOn 2 ++ waitFor 1 ++ waitFor 2 ++
    [.tick] ++ forkInto 1 ++ forkInto 2

/-- CPU 1 has passed slots 1 and 2 when CPU 2 takes the process in slot 1,
which exits and is reaped; then CPU 1 goes on. -/
def candidateFreed : List ProcLabel :=
  schedulerSteps 1 3 ++ dispatchOn 2 ++ exitOn 2 ++ waitFor 1 ++ schedulerSteps 1 (nproc - 2)

/-- The candidate in slot 1 is freed, so that its `creation_time` is 0, and the
older process in slot 3 is dispatched in place of the one in slot 2. -/
theorem priority_dispatches_older :
    ∃ s t t', Machine.run (ProcSystem.step .priority) threeChildren userinit = some s ∧
      s.cpu 1 = .choose 0 none ∧
      Machine.run (restrict (fun _ s => s.state 2 = .runnable)
        (ProcSystem.step .priority)) candidateFreed s = some t ∧
      t.state 2 = .runnable ∧ t.cpu 1 = .dispatch 3 ∧
      t.step .priority (.scheduler 1) = some t' ∧
      t'.cpu 1 = .switchTo 3 ∧
      (t.times 3).creationTime < (t.times 2).creationTime := by
  obtain ⟨s, hrun, hstart, hany⟩ := Machine.exists_run_decide
    (show (Machine.run (ProcSystem.step .priority) threeChildren userinit).any
      (fun s => decide (s.cpu 1 = .choose 0 none ∧
        (Machine.run (restrict (fun _ s => s.state 2 = .runnable)
          (ProcSystem.step .priority)) candidateFreed s).any
          (fun t => decide (t.state 2 = .runnable ∧ t.cpu 1 = .dispatch 3 ∧
            (t.step .priority (.scheduler 1)).any
              (fun t' => decide (t'.cpu 1 = .switchTo 3)) = true ∧
            (t.times 3).creationTime < (t.times 2).creationTime)) = true)) = true by decide +kernel)
  obtain ⟨t, ht, hq, hcpu, hstep, hlt⟩ := Machine.exists_run_decide hany
  obtain ⟨t', ht', hsw⟩ := Machine.exists_run_decide hstep
  exact ⟨s, t, t', hrun, hstart, ht, hq, hcpu, ht', hsw, hlt⟩

end Xv6
