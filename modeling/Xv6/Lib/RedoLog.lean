import Mathlib

/-!
# Redo logs

A store maps addresses to values.  A transaction is a list of writes.  A redo
log holds the addresses of one transaction and a copy of each value, in the
order of the addresses; replaying it redoes the writes.  The lemmas say what
replaying means for a single address, when it amounts to the transaction, and
that writes to the addresses themselves do not matter to it.
-/

namespace RedoLog

variable {α β : Type*} [DecidableEq α]

def apply (tx : List (α × β)) (store : α → β) : α → β :=
  tx.foldl (fun store w => Function.update store w.1 w.2) store

def applyAll (txs : List (List (α × β))) (store : α → β) : α → β :=
  txs.foldl (fun store tx => apply tx store) store

def replay (targets : List α) (copies : ℕ → β) (store : α → β) : α → β :=
  fun a => if a ∈ targets then copies (targets.idxOf a) else store a

theorem applyAll_append_singleton (txs : List (List (α × β))) (tx : List (α × β)) (store : α → β) :
    applyAll (txs ++ [tx]) store = apply tx (applyAll txs store) := by
  simp [applyAll]

theorem apply_of_not_mem {tx : List (α × β)} {a : α} (hnot : a ∉ tx.map Prod.fst) (store : α → β) :
    apply tx store a = store a := by
  induction tx generalizing store with
  | nil => rfl
  | cons w tx ih =>
    simp only [List.map_cons, List.mem_cons, not_or] at hnot
    change apply tx (Function.update store w.1 w.2) a = store a
    rw [ih hnot.2, Function.update_of_ne hnot.1]

theorem apply_congr (tx : List (α × β)) {store store' : α → β} {a : α}
    (h : store a = store' a) : apply tx store a = apply tx store' a := by
  induction tx generalizing store store' with
  | nil => exact h
  | cons w tx ih =>
    refine ih ?_
    dsimp only
    by_cases ha : a = w.1
    · subst ha
      simp
    · rw [Function.update_of_ne ha, Function.update_of_ne ha, h]

theorem apply_of_mem {tx : List (α × β)} (hnodup : (tx.map Prod.fst).Nodup)
    {w : α × β} (hmem : w ∈ tx) (store : α → β) : apply tx store w.1 = w.2 := by
  induction tx generalizing store with
  | nil => simp at hmem
  | cons v tx ih =>
    rw [List.map_cons, List.nodup_cons] at hnodup
    change apply tx (Function.update store v.1 v.2) w.1 = w.2
    rcases List.mem_cons.mp hmem with rfl | hmem
    · rw [apply_of_not_mem hnodup.1, Function.update_self]
    · exact ih hnodup.2 hmem _

@[simp] theorem replay_nil (copies : ℕ → β) (store : α → β) : replay [] copies store = store := by
  funext a
  simp [replay]

variable {targets : List α}

theorem replay_of_not_mem {a : α} (hnot : a ∉ targets) (copies : ℕ → β)
    (store : α → β) : replay targets copies store a = store a := by
  simp [replay, hnot]

theorem replay_congr {copies copies' : ℕ → β} {store store' : α → β}
    {a : α} (hcopies : ∀ j < targets.length, copies j = copies' j) (hstore : a ∉ targets →
    store a = store' a) : replay targets copies store a = replay targets copies' store' a := by
  unfold replay
  split
  · rename_i hmem
    exact hcopies _ (List.idxOf_lt_length_of_mem hmem)
  · rename_i hnot
    exact hstore hnot

theorem replay_eq_apply (hnodup : targets.Nodup) {copies : ℕ → β} {value : α → β}
    (d : α) (hcopies : ∀ j < targets.length, copies j = value (targets.getD j d)) (store : α → β) :
    replay targets copies store = apply (targets.map fun a => (a, value a)) store := by
  have hfst : (targets.map fun a => (a, value a)).map Prod.fst = targets := by
    simp [Function.comp_def]
  funext a
  by_cases hmem : a ∈ targets
  · have hlt := List.idxOf_lt_length_of_mem hmem
    have happly := apply_of_mem (hfst.symm ▸ hnodup)
      (List.mem_map_of_mem (f := fun a => (a, value a)) hmem) store
    rw [happly]
    simp only [replay, hmem, if_true]
    rw [hcopies _ hlt]
    simp [List.getD_eq_getElem?_getD, hlt]
  · rw [replay_of_not_mem hmem, apply_of_not_mem]
    rwa [hfst]

theorem eq_replay_of_installed {copies : ℕ → β} {store : α → β} (d : α)
    (hinstalled : ∀ j < targets.length, store (targets.getD j d) = copies j) (a : α) :
    store a = replay targets copies store a := by
  unfold replay
  split
  · rename_i hmem
    have hlt := List.idxOf_lt_length_of_mem hmem
    rw [← hinstalled _ hlt]
    simp [List.getD_eq_getElem?_getD, hlt]
  · rfl

end RedoLog
