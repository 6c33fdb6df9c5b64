import Mathlib

/-!
# Labelled machines and their runs

A machine is a partial function `step : ℓ → σ → Option σ`: the label says who
moves and which of the open choices is taken, and `none` says that this move
is not possible now.  A run is the replay of a list of labels, so the list
ranges over every interleaving of the parties that the labels name.

The rules below reduce a statement about whole runs to one about single steps.
-/

/-- A move that is possible only under a condition. -/
theorem ite_eq_some {α : Type*} {c : Prop} [Decidable c] {a b : α} :
    (if c then some a else none) = some b ↔ c ∧ a = b := by
  rw [Option.ite_none_right_eq_some, Option.some.injEq]

namespace Machine

variable {σ ℓ : Type*}

def run (step : ℓ → σ → Option σ) : List ℓ → σ → Option σ
  | [], s => some s
  | l :: ls, s =>
    match step l s with
    | none => none
    | some s' => run step ls s'

@[simp] theorem run_nil (step : ℓ → σ → Option σ) (s : σ) : run step [] s = some s := rfl

variable {step : ℓ → σ → Option σ} {ls : List ℓ} {s t : σ} {P : σ → Bool} {I : σ → Prop}

theorem run_cons_eq_some {l : ℓ} : run step (l :: ls) s = some t ↔
      ∃ s', step l s = some s' ∧ run step ls s' = some t := by
  rw [run]
  cases step l s with
  | none | some s' => simp

theorem run_append {ks : List ℓ} : run step (ls ++ ks) s = some t ↔
      ∃ s', run step ls s = some s' ∧ run step ks s' = some t := by
  induction ls generalizing s with
  | nil => simp
  | cons l ls ih =>
    simp only [List.cons_append, run_cons_eq_some, ih]
    constructor
    · rintro ⟨s1, hstep, s2, hrun, hrest⟩
      exact ⟨s2, ⟨s1, hstep, hrun⟩, hrest⟩
    · rintro ⟨s2, ⟨s1, hstep, hrun⟩, hrest⟩
      exact ⟨s1, hstep, s2, hrun, hrest⟩

theorem run_invariant_of {P : ℓ → Prop} (hstep : ∀ l s s', P l → I s → step l s = some s' → I s')
    (hls : ∀ l ∈ ls, P l) (hs : I s) (hrun : run step ls s = some t) : I t := by
  induction ls generalizing s with
  | nil =>
    simp only [run_nil, Option.some.injEq] at hrun
    exact hrun ▸ hs
  | cons l ls ih =>
    obtain ⟨s', hs', hrest⟩ := run_cons_eq_some.mp hrun
    exact ih (fun l' hl' => hls l' (List.mem_cons_of_mem _ hl'))
      (hstep l s s' (hls l List.mem_cons_self) hs hs') hrest

theorem run_invariant (hstep : ∀ l s s', I s → step l s = some s' → I s')
    (hs : I s) (hrun : run step ls s = some t) : I t :=
  run_invariant_of (P := fun _ => True) (fun l s s' _ => hstep l s s')
    (fun _ _ => trivial) hs hrun

/-- What is true at the end of a run, with a value that stays as long as it is
true, has begun with an event of the run and has been true ever since. -/
theorem run_since {Z : σ → Prop} {α : Type*} {v : σ → α} {e : σ → α → Prop}
    (hstep : ∀ l s s', I s → step l s = some s' → I s' ∧ (Z s' → Z s ∧ v s' = v s ∨ e s (v s')))
    (hs : I s) (hnot : ¬Z s) (hrun : run step ls s = some t) (ht : Z t) : ∃ before after s1, ls =
    before ++ after ∧ run step before s = some s1 ∧ run step after s1 = some t ∧ e s1 (v t) ∧
    ∀ mid rest s2, after = mid ++ rest → mid ≠ [] → run step mid s1 = some s2 → Z s2 := by
  induction ls using List.reverseRecOn generalizing t with
  | nil =>
    cases hrun
    exact absurd ht hnot
  | append_singleton ls l ih =>
    obtain ⟨u, hu, hlast⟩ := run_append.mp hrun
    obtain ⟨t', hl, hnil⟩ := run_cons_eq_some.mp hlast
    cases hnil
    have hI : I u := run_invariant (fun l s s' h h' => (hstep l s s' h h').1) hs hu
    rcases (hstep l u t hI hl).2 ht with ⟨hZ, hv⟩ | he
    · obtain ⟨before, after, s1, rfl, hbefore, hafter, he, hsince⟩ := ih hu hZ
      refine ⟨before, after ++ [l], s1, List.append_assoc _ _ _, hbefore,
        run_append.mpr ⟨u, hafter, hlast⟩, hv ▸ he, ?_⟩
      intro mid rest s2 hsplit hmid hs2
      rcases List.eq_nil_or_concat rest with rfl | ⟨rest, l', rfl⟩
      · rw [List.append_nil] at hsplit
        subst hsplit
        obtain ⟨u', hu', hlast'⟩ := run_append.mp hs2
        rw [hafter] at hu'
        cases hu'
        rw [hlast] at hlast'
        cases hlast'
        exact ht
      · rw [List.concat_eq_append, ← List.append_assoc] at hsplit
        exact hsince mid rest s2 (List.append_inj' hsplit rfl).1 hmid hs2
    · refine ⟨ls, [l], u, rfl, hu, hlast, he, ?_⟩
      intro mid rest s2 hsplit hmid hs2
      cases mid with
      | nil => exact absurd rfl hmid
      | cons l' mid =>
        rw [List.cons_append, List.cons.injEq] at hsplit
        obtain ⟨rfl, hsplit⟩ := hsplit
        obtain ⟨rfl, rfl⟩ := List.append_eq_nil_iff.mp hsplit.symm
        rw [hlast] at hs2
        cases hs2
        exact ht

theorem exists_run {x : Option σ} {Q : σ → Prop} (hany : x.any P = true)
    (hQ : ∀ t, x = some t → P t = true → Q t) : ∃ t, x = some t ∧ Q t := by
  obtain ⟨t, ht, hP⟩ := (Option.any_eq_true _ _).mp hany
  exact ⟨t, ht, hQ t ht hP⟩

theorem exists_run_decide {x : Option σ} {Q : σ → Prop} [DecidablePred Q]
    (hany : x.any (fun t => decide (Q t)) = true) : ∃ t, x = some t ∧ Q t :=
  exists_run hany fun _ _ hQ => of_decide_eq_true hQ

theorem exists_run₂ {α : Type*} {x : Option σ} {Q : σ → α → Prop} (hany : x.any P = true)
    (hQ : ∀ t, x = some t → P t = true → ∃ a, Q t a) : ∃ t a, x = some t ∧ Q t a := by
  obtain ⟨t, ht, hP⟩ := (Option.any_eq_true _ _).mp hany
  obtain ⟨a, ha⟩ := hQ t ht hP
  exact ⟨t, a, ht, ha⟩

/-- The machine that takes a step only where `Allowed` permits it. -/
def restrict (Allowed : ℓ → σ → Prop) [∀ l s, Decidable (Allowed l s)]
    (step : ℓ → σ → Option σ) : ℓ → σ → Option σ :=
  fun l s => if Allowed l s then step l s else none

theorem restrict_eq_some {Allowed : ℓ → σ → Prop} [∀ l s, Decidable (Allowed l s)]
    {l : ℓ} {s' : σ} : restrict Allowed step l s = some s' ↔ Allowed l s ∧ step l s = some s' := by
  unfold restrict
  split
  · rename_i hallowed
    simp [hallowed]
  · rename_i hallowed
    simp [hallowed]

def observe {α : Type*} (see : ℓ → σ → Option α) (step : ℓ → σ → Option σ) : List ℓ → σ → List α
  | [], _ => []
  | l :: ls, s =>
    match step l s with
    | none => []
    | some s' => (see l s).toList ++ observe see step ls s'

theorem forall_observe {α : Type*} {see : ℓ → σ → Option α}
    {P : α → Prop} (hstep : ∀ l s s', I s → step l s = some s' → I s') (hsee : ∀ l s s', I s →
    step l s = some s' → ∀ a ∈ see l s, P a) (hs : I s) : ∀ a ∈ observe see step ls s, P a := by
  induction ls generalizing s with
  | nil => simp [observe]
  | cons l ls ih =>
    intro a ha
    rw [observe] at ha
    cases hnext : step l s with
    | none => simp [hnext] at ha
    | some s' =>
      simp only [hnext, List.mem_append, Option.mem_toList] at ha
      rcases ha with ha | ha
      · exact hsee l s s' hs hnext a ha
      · exact ih (hstep l s s' hs hnext) a ha

/-- Let `next` choose the labels, for `n` steps. -/
def follow (next : σ → ℓ) (step : ℓ → σ → Option σ) : ℕ → σ → Option σ
  | 0, s => some s
  | n + 1, s =>
    match step (next s) s with
    | none => none
    | some s' => follow next step n s'

theorem follow_succ_eq_some {next : σ → ℓ} {n : ℕ} : follow next step (n + 1) s = some t ↔
      ∃ s', step (next s) s = some s' ∧ follow next step n s' = some t := by
  rw [follow]
  cases step (next s) s with
  | none | some s' => simp

theorem follow_reaches {next : σ → ℓ} {D : σ → Prop} {rank : σ → ℕ}
    (hprogress : ∀ s, I s → ¬D s → ∃ s', step (next s) s = some s' ∧ I s' ∧ rank s' < rank s)
    (hs : I s) : ∃ n t, follow next step n s = some t ∧ I t ∧ D t := by
  induction hrank : rank s using Nat.strong_induction_on generalizing s with
  | h k ih =>
    by_cases hdone : D s
    · exact ⟨0, s, rfl, hs, hdone⟩
    · obtain ⟨s', hstep, hs', hlt⟩ := hprogress s hs hdone
      obtain ⟨n, t, hfollow, ht⟩ := ih (rank s') (hrank ▸ hlt) hs' rfl
      exact ⟨n + 1, t, follow_succ_eq_some.mpr ⟨s', hstep, hfollow⟩, ht⟩

end Machine
