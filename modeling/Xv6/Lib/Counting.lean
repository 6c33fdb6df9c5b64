import Mathlib

/-!
# Counting over a finite type

What happens to a sum over all indices when the summand changes at one index.
Counts of the indices with some property are sums of zeros and ones.  What
every index contributes to a list is treated the same way.
-/

namespace Counting

variable {ι : Type*} [Fintype ι]

theorem le_sum (g : ι → ℕ) (i : ι) : g i ≤ ∑ j, g j :=
  Finset.single_le_sum (fun _ _ => Nat.zero_le _) (Finset.mem_univ i)

variable [DecidableEq ι]

theorem sum_change (g g' : ι → ℕ) (i : ι) (h : ∀ j, j ≠ i → g' j = g j) :
    ∑ j, g' j + g i = ∑ j, g j + g' i := by
  rw [← Finset.add_sum_erase _ g' (Finset.mem_univ i),
    ← Finset.add_sum_erase _ g (Finset.mem_univ i)]
  have herase : ∑ j ∈ Finset.univ.erase i, g' j = ∑ j ∈ Finset.univ.erase i, g j := by
    refine Finset.sum_congr rfl ?_
    intro j hj
    exact h j (Finset.ne_of_mem_erase hj)
  rw [herase]
  omega

theorem add_le_sum (g : ι → ℕ) {i j : ι} (hij : i ≠ j) : g i + g j ≤ ∑ k, g k := by
  rw [← Finset.add_sum_erase _ g (Finset.mem_univ i)]
  have hj : j ∈ Finset.univ.erase i := Finset.mem_erase.mpr ⟨Ne.symm hij, Finset.mem_univ j⟩
  have := Finset.single_le_sum (f := g) (fun _ _ => Nat.zero_le _) hj
  omega

section Pieces

variable {α : Type*} {n : ℕ}

def others (g : Fin n → List α) (i : Fin n) : List α := ((List.finRange n).erase i).flatMap g

theorem flatMap_perm (g : Fin n → List α) (i : Fin n) :
    ((List.finRange n).flatMap g).Perm (g i ++ others g i) := by
  have hperm : (List.finRange n).Perm (i :: (List.finRange n).erase i) :=
    List.perm_cons_erase (List.mem_finRange i)
  exact hperm.flatMap_right g

theorem others_update (g : Fin n → List α) (i : Fin n) (x : List α) :
    others (Function.update g i x) i = others g i := by
  unfold others
  apply List.flatMap_congr
  intro j hj
  have hne : j ≠ i := by
    rintro rfl
    exact (List.nodup_finRange n).not_mem_erase hj
  rw [Function.update_of_ne hne]

theorem mem_others {g : Fin n → List α} {i j : Fin n} {a : α} (hij : j ≠ i)
    (ha : a ∈ g j) : a ∈ others g i := by
  refine List.mem_flatMap.mpr ⟨j, ?_, ha⟩
  exact (List.mem_erase_of_ne hij).mpr (List.mem_finRange j)

end Pieces

theorem countP_le_succ {α : Type*} {l : List α} (hl : l.Nodup) {p q : α → Bool}
    {a : α} (h : ∀ x ∈ l, x ≠ a → p x = true → q x = true) : l.countP p ≤ l.countP q + 1 := by
  induction l with
  | nil => exact Nat.zero_le _
  | cons x l ih =>
    obtain ⟨hx, hl⟩ := List.nodup_cons.mp hl
    rw [List.countP_cons, List.countP_cons]
    by_cases hxa : x = a
    · have hrest : l.countP p ≤ l.countP q := by
        refine List.countP_mono_left fun y hy => ?_
        exact h y (List.mem_cons_of_mem x hy) fun hya =>
          hx (hxa.trans hya.symm ▸ hy)
      split <;> omega
    · have hrest := ih hl fun y hy => h y (List.mem_cons_of_mem x hy)
      have hself := h x List.mem_cons_self hxa
      split
      · rename_i hp
        rw [if_pos (hself hp)]
        omega
      · omega

end Counting
