import Mathlib

/-!
# Trees of nodes that point to each other

`child a i` is the node that entry `i` of node `a` points to.  Following a path
of entries from a root gives a node; the nodes up to some depth form a tree if
every one of them is reached by a single path.  Entries of such a tree can be
changed without affecting what other paths lead to.
-/

namespace PathTree

variable {α ι : Type*}

def node (child : α → ι → Option α) (root : α) : List ι → Option α
  | [] => some root
  | i :: p => (child root i).bind fun c => node child c p

/-- The nodes within `depth` entries of the root are those of `T`, each of
them reached by a single path. -/
structure IsTree (child : α → ι → Option α) (root : α) (depth : ℕ)
    (T : List α) : Prop where
  nodup : T.Nodup
  mem : ∀ a, a ∈ T ↔ ∃ p : List ι, p.length ≤ depth ∧ node child root p = some a
  inj : ∀ (p q : List ι) a, p.length ≤ depth → q.length ≤ depth →
    node child root p = some a → node child root q = some a → p = q

variable {child child' : α → ι → Option α} {root : α}

theorem node_cons (i : ι) (p : List ι) : node child root (i :: p) =
      (child root i).bind fun c => node child c p := rfl

theorem node_append (p q : List ι) : node child root (p ++ q) =
      (node child root p).bind fun a => node child a q := by
  induction p generalizing root with
  | nil => rfl
  | cons i p ih =>
    rw [List.cons_append, node_cons, node_cons]
    cases child root i with
    | none => rfl
    | some c => exact ih

theorem node_snoc (p : List ι) (i : ι) : node child root (p ++ [i]) =
      (node child root p).bind fun a => child a i := by
  rw [node_append]
  cases node child root p with
  | none => rfl
  | some a =>
    change (child a i).bind some = child a i
    cases child a i <;> rfl

variable {q p : List ι}

theorem node_congr (hagree : ∀ (p : List ι) a, p.length < q.length → node child root p = some a →
    ∀ j, child' a j = child a j) : node child' root q = node child root q := by
  induction q using List.reverseRecOn with
  | nil => rfl
  | append_singleton q j ih =>
    rw [List.length_append, List.length_singleton] at hagree
    rw [node_snoc, node_snoc, ih fun p a hp => hagree p a (by omega)]
    cases hb : node child root q with
    | none => rfl
    | some b => exact hagree q b (by omega) hb j

theorem IsTree.single (hroot : ∀ i, child root i = none) (depth : ℕ) :
    IsTree child root depth [root] := by
  have hnil : ∀ (p : List ι) a, node child root p = some a → p = [] ∧ a = root := by
    intro p a hp
    cases p with
    | nil => exact ⟨rfl, (Option.some.inj hp).symm⟩
    | cons i p => simp [node_cons, hroot] at hp
  constructor
  · exact List.nodup_singleton root
  · intro a
    constructor
    · intro ha
      obtain rfl := List.mem_singleton.mp ha
      exact ⟨[], Nat.zero_le _, rfl⟩
    · rintro ⟨p, _, hp⟩
      exact List.mem_singleton.mpr (hnil p a hp).2
  · intro p q a _ _ hp hq
    rw [(hnil p a hp).1, (hnil q a hq).1]

variable {depth : ℕ} {T : List α}

section

variable (h : IsTree child root depth T)
include h

theorem IsTree.node_mem {a : α} (hp : p.length ≤ depth)
    (hnode : node child root p = some a) : a ∈ T :=
  (h.mem a).mpr ⟨p, hp, hnode⟩

/-- Only the entries of the tree's own nodes matter, except the one at `i` of
the node at `p` to the paths that do not go through it. -/
theorem IsTree.node_eq_of_not_prefix
    {a : α} {i : ι} (hp : p.length ≤ depth) (ha : node child root p = some a)
    (hagree : ∀ b ∈ T, ∀ j, ¬(b = a ∧ j = i) → child' b j = child b j) (hq : q.length ≤ depth + 1)
    (hnot : ¬(p ++ [i]) <+: q) : node child' root q = node child root q := by
  induction q using List.reverseRecOn with
  | nil => rfl
  | append_singleton q j ih =>
    rw [List.length_append, List.length_singleton] at hq
    have hq : q.length ≤ depth := by omega
    have hprefix : ¬(p ++ [i]) <+: q := fun hpre =>
      hnot (hpre.trans (List.prefix_append q [j]))
    rw [node_snoc, node_snoc, ih (by omega) hprefix]
    cases hb : node child root q with
    | none => rfl
    | some b =>
      refine hagree b (h.node_mem hq hb) j ?_
      rintro ⟨rfl, rfl⟩
      obtain rfl := h.inj p q b hp hq ha hb
      exact hnot (List.prefix_refl _)

theorem IsTree.node_congr (hagree : ∀ b ∈ T, ∀ j, child' b j = child b j)
    (hq : q.length ≤ depth + 1) : node child' root q = node child root q :=
  PathTree.node_congr fun _ b hp hb j =>
    hagree b (h.node_mem (by omega) hb) j

theorem IsTree.of_node_eq (heq : ∀ q : List ι, q.length ≤ depth →
      node child' root q = node child root q) : IsTree child' root depth T := by
  constructor
  · exact h.nodup
  · intro a
    rw [h.mem a]
    constructor
    · rintro ⟨p, hp, hnode⟩
      exact ⟨p, hp, (heq p hp).trans hnode⟩
    · rintro ⟨p, hp, hnode⟩
      exact ⟨p, hp, (heq p hp).symm.trans hnode⟩
  · intro p q a hp hq hpa hqa
    rw [heq p hp] at hpa
    rw [heq q hq] at hqa
    exact h.inj p q a hp hq hpa hqa

theorem IsTree.congr (hagree : ∀ b ∈ T, ∀ j, child' b j = child b j) : IsTree child' root depth T :=
  h.of_node_eq fun _ hq => h.node_congr hagree (Nat.le_succ_of_le hq)

theorem IsTree.set_bottom {a : α} {i : ι} (hp : p.length = depth) (ha : node child root p = some a)
    (hagree : ∀ b ∈ T, ∀ j, ¬(b = a ∧ j = i) → child' b j = child b j) :
    IsTree child' root depth T := by
  refine h.of_node_eq fun q hq => ?_
  refine h.node_eq_of_not_prefix hp.le ha hagree (Nat.le_succ_of_le hq) ?_
  intro hprefix
  have hlength := hprefix.length_le
  rw [List.length_append, List.length_singleton] at hlength
  omega

end

section Extend

/-! A new node `c` without children is hung below entry `i` of the node `a`
at `p`, which pointed nowhere. -/

variable {p : List ι} {a c : α} {i : ι}

theorem node_below (ha : node child' root p = some a)
    (hnew : child' a i = some c) (hleaf : ∀ j, child' c j = none) (r : List ι) :
    node child' root (p ++ [i] ++ r) = if r = [] then some c else none := by
  have hc : node child' root (p ++ [i]) = some c := by
    rw [node_snoc, ha]
    exact hnew
  rw [node_append, hc]
  cases r with
  | nil => rfl
  | cons j r => simp [node_cons, hleaf]

theorem node_below_of_none (ha : node child root p = some a)
    (hold : child a i = none) (r : List ι) : node child root (p ++ [i] ++ r) = none := by
  rw [node_append, node_snoc, ha]
  simp [hold]

theorem IsTree.extend (h : IsTree child root depth T) (hp : p.length < depth)
    (ha : node child root p = some a) (hold : child a i = none) (hfresh : c ∉ T)
    (hagree : ∀ b ∈ T, ∀ j, ¬(b = a ∧ j = i) → child' b j = child b j) (hnew : child' a i = some c)
    (hleaf : ∀ j, child' c j = none) : IsTree child' root depth (c :: T) := by
  have hother : ∀ q : List ι, q.length ≤ depth → ¬(p ++ [i]) <+: q →
      node child' root q = node child root q := fun q hq hnot =>
    h.node_eq_of_not_prefix hp.le ha hagree (Nat.le_succ_of_le hq) hnot
  have hnotp : ¬(p ++ [i]) <+: p := by
    intro hprefix
    have hlength := hprefix.length_le
    rw [List.length_append, List.length_singleton] at hlength
    omega
  have ha' : node child' root p = some a := (hother p hp.le hnotp).trans ha
  have hbelow := node_below ha' hnew hleaf
  have hnode : ∀ q b, q.length ≤ depth → node child' root q = some b →
      (q = p ++ [i] ∧ b = c) ∨ node child root q = some b := by
    intro q b hq hqb
    by_cases hprefix : (p ++ [i]) <+: q
    · obtain ⟨r, rfl⟩ := hprefix
      rw [hbelow r] at hqb
      by_cases hr : r = []
      · subst hr
        simp only [if_true, Option.some.injEq] at hqb
        exact Or.inl ⟨List.append_nil _, hqb.symm⟩
      · simp [hr] at hqb
    · exact Or.inr ((hother q hq hprefix).symm.trans hqb)
  have hold' : ∀ q b, q.length ≤ depth → node child root q = some b →
      node child' root q = some b := by
    intro q b hq hqb
    by_cases hprefix : (p ++ [i]) <+: q
    · obtain ⟨r, rfl⟩ := hprefix
      rw [node_below_of_none ha hold r] at hqb
      contradiction
    · exact (hother q hq hprefix).trans hqb
  constructor
  · exact List.nodup_cons.mpr ⟨hfresh, h.nodup⟩
  · intro b
    rw [List.mem_cons]
    constructor
    · rintro (rfl | hb)
      · refine ⟨p ++ [i], ?_, ?_⟩
        · rw [List.length_append, List.length_singleton]
          omega
        · simpa using hbelow []
      · obtain ⟨q, hq, hqb⟩ := (h.mem b).mp hb
        exact ⟨q, hq, hold' q b hq hqb⟩
    · rintro ⟨q, hq, hqb⟩
      rcases hnode q b hq hqb with ⟨_, rfl⟩ | hqb
      · exact Or.inl rfl
      · exact Or.inr (h.node_mem hq hqb)
  · intro q q' b hq hq' hqb hqb'
    rcases hnode q b hq hqb with ⟨rfl, rfl⟩ | hqb
    · rcases hnode q' b hq' hqb' with ⟨rfl, _⟩ | hqb'
      · rfl
      · exact absurd (h.node_mem hq' hqb') hfresh
    · rcases hnode q' b hq' hqb' with ⟨_, rfl⟩ | hqb'
      · exact absurd (h.node_mem hq hqb) hfresh
      · exact h.inj q q' b hq hq' hqb hqb'

end Extend

theorem IsTree.perm_subtrees
    (h : IsTree child root (depth + 1) T) {is : List ι} (hnodup : is.Nodup) (hall : ∀ i, i ∈ is) :
    ∃ S : ι → List α, (∀ i c, child root i = some c → IsTree child c depth (S i)) ∧
    (∀ i, child root i = none → S i = []) ∧ T.Perm (root :: is.flatMap S) := by
  classical
  let S : ι → List α := fun i => T.filter fun b =>
    ∃ q : List ι, q.length ≤ depth ∧ node child root (i :: q) = some b
  have hlength : ∀ (i : ι) {q : List ι}, q.length ≤ depth → (i :: q).length ≤ depth + 1 := by
    intro i q hq
    rw [List.length_cons]
    omega
  have hmem : ∀ i b, b ∈ S i ↔
      ∃ q : List ι, q.length ≤ depth ∧ node child root (i :: q) = some b := by
    intro i b
    simp only [S, List.mem_filter, decide_eq_true_eq]
    constructor
    · exact fun hb => hb.2
    · rintro ⟨q, hq, hb⟩
      exact ⟨h.node_mem (hlength i hq) hb, q, hq, hb⟩
  refine ⟨S, ?_, ?_, ?_⟩
  · intro i c hc
    have hnode : ∀ q, node child root (i :: q) = node child c q := by
      intro q
      rw [node_cons, hc]
      rfl
    constructor
    · exact h.nodup.filter _
    · intro b
      simp only [hmem, hnode]
    · intro p q b hp hq hpb hqb
      rw [← hnode] at hpb hqb
      exact (List.cons.inj (h.inj _ _ b (hlength i hp) (hlength i hq) hpb hqb)).2
  · intro i hnone
    rw [List.eq_nil_iff_forall_not_mem]
    intro b hb
    obtain ⟨q, _, hq⟩ := (hmem i b).mp hb
    simp [node_cons, hnone] at hq
  · refine (List.perm_ext_iff_of_nodup h.nodup ?_).mpr ?_
    · refine List.nodup_cons.mpr ⟨?_, ?_⟩
      · intro hroot
        obtain ⟨i, _, hb⟩ := List.mem_flatMap.mp hroot
        obtain ⟨q, hq, hb⟩ := (hmem i root).mp hb
        have hpath := h.inj [] (i :: q) root (Nat.zero_le _) (hlength i hq) rfl hb
        contradiction
      · refine List.nodup_flatMap.mpr ⟨fun i _ => h.nodup.filter _, hnodup.imp ?_⟩
        intro i j hij b hbi hbj
        obtain ⟨q, hq, hbi⟩ := (hmem i b).mp hbi
        obtain ⟨q', hq', hbj⟩ := (hmem j b).mp hbj
        exact hij (List.cons.inj (h.inj _ _ b (hlength i hq) (hlength j hq') hbi hbj)).1
    · intro b
      rw [h.mem b, List.mem_cons, List.mem_flatMap]
      constructor
      · rintro ⟨p, hp, hb⟩
        cases p with
        | nil => exact Or.inl (Option.some.inj hb).symm
        | cons i q =>
          refine Or.inr ⟨i, hall i, (hmem i b).mpr ⟨q, ?_, hb⟩⟩
          rw [List.length_cons] at hp
          omega
      · rintro (rfl | ⟨i, _, hb⟩)
        · exact ⟨[], Nat.zero_le _, rfl⟩
        · obtain ⟨q, hq, hb⟩ := (hmem i b).mp hb
          exact ⟨i :: q, hlength i hq, hb⟩

theorem IsTree.perm_singleton (h : IsTree child root 0 T) : T.Perm [root] := by
  refine (List.perm_ext_iff_of_nodup h.nodup (List.nodup_singleton root)).mpr fun a => ?_
  rw [h.mem a, List.mem_singleton]
  constructor
  · rintro ⟨p, hp, hnode⟩
    obtain rfl := List.length_eq_zero_iff.mp (Nat.le_zero.mp hp)
    exact (Option.some.inj hnode).symm
  · rintro rfl
    exact ⟨[], Nat.le_refl _, rfl⟩

/-- The nodes within `depth` entries of a node; `is` lists all entries. -/
def nodes (child : α → ι → Option α) (is : List ι) : ℕ → α → List α
  | 0, a => [a]
  | depth + 1, a =>
    a :: is.flatMap fun i =>
      match child a i with
      | none => []
      | some c => nodes child is depth c

theorem IsTree.perm_nodes (h : IsTree child root depth T) {is : List ι}
    (hnodup : is.Nodup) (hall : ∀ i, i ∈ is) : T.Perm (nodes child is depth root) := by
  induction depth generalizing root T with
  | zero => exact h.perm_singleton
  | succ depth ih =>
    obtain ⟨S, hsome, hnone, hT⟩ := h.perm_subtrees hnodup hall
    refine hT.trans (List.Perm.cons root ?_)
    refine List.Perm.flatMap_left is fun i _ => ?_
    cases hc : child root i with
    | none => rw [hnone i hc]
    | some c => exact ih (hsome i c hc)

end PathTree
