import Xv6.UserSpace

/-!
# Growing, copying and giving back user memory

What `uvmalloc`, `uvmfree` and `uvmcopy` do to an address space and to the
pages that it owns, at whichever call `kalloc` fails: the specification of each
function says that it returns, what the page tables look like then, and that no
page has been lost or taken twice.
-/

namespace Xv6

open PhysMem PathTree

section

variable {m m' : PhysMem} {A A' R own : List ℕ} {pt : ℕ} {T ptes : List ℕ} {hi : ℕ → Option ℕ}

/-! ## One more page -/

theorem PhysMem.Extends.appendLeft (h : m.Extends A m' A') (R : List ℕ) :
    m.Extends (R ++ A) m' (R ++ A') :=
  (h.append R).of_perm List.perm_append_comm List.perm_append_comm

theorem PhysMem.Extends.of_mem {a : ℕ} (h : m.Extends [a] m' [a])
    (ha : a ∈ own) : m.Extends own m' own := by
  refine ⟨(List.perm_append_left_iff own).mpr ?_, ?_, h.kend⟩
  · exact (List.perm_append_left_iff [a]).mp h.perm
  · intro b hb hfree
    refine h.frame b (fun hmem => hb ?_) hfree
    rwa [List.mem_singleton.mp hmem]

theorem PhysMem.Owns.head {a : ℕ} (h : m.Owns (a :: R)) : m.Owns [a] := h.left (A := [a])

theorem PhysMem.Owns.kalloc (h : m.Owns own) : (∃ m1, Xv6.kalloc m = (none, m1) ∧
    m.Extends own m1 own ∧ ∀ a ∈ own, m1.words a = m.words a) ∨ ∃ r m1, Xv6.kalloc m =
    (some r, m1) ∧ m.Extends own m1 (r :: own) ∧ ∀ a ∈ own, m1.words a = m.words a := by
  rcases kalloc_extends m with ⟨m1, heq, hext⟩ | ⟨r, m1, heq, hext⟩
  · exact Or.inl ⟨m1, heq, hext.append own, h.words_eq (A := []) hext⟩
  · exact Or.inr ⟨r, m1, heq, hext.append own, h.words_eq (A := []) hext⟩

theorem PhysMem.Owns.kfree_head {pa : ℕ} (h : m.Owns (pa :: own)) : ∃ m1, Xv6.kfree pa m = .ok m1 ∧
    m.Extends (pa :: own) m1 own ∧ ∀ a ∈ own, m1.words a = m.words a := by
  obtain ⟨m1, heq, hext⟩ := h.head.kfree
  exact ⟨m1, heq, hext.append own, h.words_eq (A := [pa]) hext⟩

variable {mem n levels : ℕ}

theorem pte2pa_of_inRange {perm : ℕ} (h : m.InRange mem) (hperm : perm < 2 ^ 10) :
    pte2pa (pa2pte mem ||| perm ||| pteV) = mem := by
  have hflags : perm ||| pteV < 2 ^ 10 := Nat.or_lt_two_pow hperm (by decide)
  rw [Nat.or_assoc, pte2pa_pa2pte_or h.1 h.lt hflags]

theorem PhysMem.Owns.room (h : m.Owns (mem :: (mapped ptes ++ T))) :
    (ptes.length + 1) * pgsize ≤ trapframeVa := by
  have hlength := h.length_le
  simp only [List.length_cons, List.length_append, mapped, List.length_map] at hlength
  have hle : ptes.length + 1 ≤ phystop / pgsize := by omega
  exact le_trans (Nat.mul_le_mul_right _ hle) (by decide)

theorem PhysMem.Shape.mapNew (h : m.Shape pt T ptes hi) {perm : ℕ}
    (hown : m.Owns (mem :: (mapped ptes ++ T))) (f : Fin 512 → ℕ)
    (hperm : perm < 2 ^ 10) (hread : perm &&& pteR ≠ 0) :
    (∃ m1 T1, mappages pt (ptes.length * pgsize) pgsize mem perm (m.setPage mem f) =
        .ok (true, m1) ∧ m1.Shape pt T1 (ptes ++ [pa2pte mem ||| perm ||| pteV]) hi ∧
      m.Extends (mem :: (mapped ptes ++ T)) m1
        (mapped (ptes ++ [pa2pte mem ||| perm ||| pteV]) ++ T1) ∧
      m1.words mem = f ∧ ∀ a ∈ mapped ptes, m1.words a = m.words a) ∨
    ∃ m1 T1, mappages pt (ptes.length * pgsize) pgsize mem perm (m.setPage mem f) =
        .ok (false, m1) ∧ m1.Shape pt T1 ptes hi ∧
      m.Extends (mem :: (mapped ptes ++ T)) m1 (mem :: (mapped ptes ++ T1)) := by
  have hset : m.Extends [mem] (m.setPage mem f) [mem] :=
    m.setPage_extends f (List.mem_singleton_self mem)
  have hwords := hown.words_eq (A := [mem]) hset
  have hset := hset.append (mapped ptes ++ T)
  have hown' := hown.of_extends hset
  have hshape : (m.setPage mem f).Shape pt T ptes hi :=
    h.congr fun a ha => hwords a (List.mem_append_right _ ha)
  have hmem : (m.setPage mem f).InRange mem := hown'.range mem (by simp)
  have hsub : T.Sublist ([mem] ++ (mapped ptes ++ T)) := by simp
  obtain ⟨r, m1, T1, hcall, hext, hshape1⟩ :=
    hshape.mapNext (hown'.of_sublist hsub) hmem hread hown.room
  have hrest : ∀ a ∈ mem :: mapped ptes, m1.words a = (m.setPage mem f).words a :=
    (hown'.of_perm (show (mem :: mapped ptes ++ T).Perm
      (T ++ mem :: mapped ptes) from List.perm_append_comm)).words_eq hext
  have hext := hset.trans ((hext.appendLeft (mem :: mapped ptes)).of_perm (.refl _) (.refl _))
  cases r with
  | true =>
    refine Or.inl ⟨m1, T1, hcall, hshape1, hext.of_perm (.refl _) ?_, ?_, ?_⟩
    · rw [mapped_append]
      simp only [mapped, List.map_cons, List.map_nil, pte2pa_of_inRange hmem hperm]
      exact List.perm_iff_count.mpr fun a => by
        simp only [List.cons_append, List.count_cons, List.count_append, List.count_nil]
        omega
    · rw [hrest mem List.mem_cons_self]
      exact Function.update_self mem f m.words
    · intro a ha
      rw [hrest a (List.mem_cons_of_mem mem ha)]
      exact hwords a (List.mem_append_left T ha)
  | false => exact Or.inr ⟨m1, T1, hcall, hshape1, hext⟩

/-! ## `uvmalloc` -/

theorem TakesPages.eq {k sz : ℕ} (h : TakesPages n sz) (h' : TakesPages k sz) : k = n :=
  le_antisymm (h.mono h' (le_refl _)) (h'.mono h (le_refl _))

theorem PhysMem.Shape.dealloc_to
    (h : m.Shape pt T ptes hi) (hown : m.Owns (mapped ptes ++ T)) (hn : n ≤ ptes.length) :
    ∃ r m1, Xv6.uvmdealloc pt (ptes.length * pgsize) (n * pgsize) m = .ok (r, m1) ∧ m1.Shape pt T
    (ptes.take n) hi ∧ m.Extends (mapped ptes ++ T) m1 (mapped (ptes.take n) ++ T) := by
  have hle : n * pgsize ≤ ptes.length * pgsize := Nat.mul_le_mul_right _ hn
  obtain ⟨k, m1, _, hcall, hk, hshape, hext⟩ := h.uvmdealloc hown (n * pgsize) (takesPages_mul _)
  rw [Nat.min_eq_right hle] at hk
  obtain rfl := (takesPages_mul n).eq hk
  exact ⟨_, m1, hcall, hshape, hext⟩

theorem pteR_or_ne_zero (x y : ℕ) : (pteR ||| x ||| y) &&& pteR ≠ 0 := by
  rw [Nat.and_or_distrib_right, Nat.and_or_distrib_right, Nat.and_self]
  have hle : pteR ≤ pteR ||| (x &&& pteR) := Nat.left_le_or
  have hle' : pteR ||| (x &&& pteR) ≤ (pteR ||| (x &&& pteR)) ||| (y &&& pteR) := Nat.left_le_or
  have hpos : 0 < pteR := by decide
  omega

/-- The loop of `uvmalloc`, from a page boundary on: either it has undone
everything down to page `n`, or user memory ends after `newsz`. -/
theorem allocLoop_spec {newsz xperm : ℕ} (hxperm : xperm < 2 ^ 10)
    (rounds : ℕ) (h : m.Shape pt T ptes hi) (hown : m.Owns (mapped ptes ++ T))
    (hn : n ≤ ptes.length) (henough : newsz ≤ (ptes.length + rounds) * pgsize) :
    (∃ m1 T1, allocLoop pt (n * pgsize) newsz xperm rounds (ptes.length * pgsize) m = .ok (0, m1) ∧
    m1.Shape pt T1 (ptes.take n) hi ∧
    m.Extends (mapped ptes ++ T) m1 (mapped (ptes.take n) ++ T1)) ∨ ∃ m1 T1 new, allocLoop pt
    (n * pgsize) newsz xperm rounds (ptes.length * pgsize) m = .ok (newsz, m1) ∧
    m1.Shape pt T1 (ptes ++ new) hi ∧ m.Extends (mapped ptes ++ T) m1 (mapped (ptes ++ new) ++ T1) ∧
    (∀ pte ∈ new, ∃ mem, pte = pa2pte mem ||| (pteR ||| pteU ||| xperm) ||| pteV) ∧
    newsz ≤ (ptes ++ new).length * pgsize ∧
    (new = [] ∨ (ptes ++ new).length * pgsize < newsz + pgsize) := by
  induction rounds generalizing m T ptes with
  | zero =>
    refine Or.inr ⟨m, T, [], rfl, ?_, ?_, by simp, by simpa using henough, Or.inl rfl⟩
    · simpa using h
    · simpa using Extends.refl m _
  | succ rounds ih =>
    unfold allocLoop
    by_cases hmore : ptes.length * pgsize < newsz
    · rw [if_pos hmore]
      rcases hown.kalloc with ⟨m1, hk, hext, hwords⟩ | ⟨mem, m1, hk, hext, hwords⟩
      · have hshape : m1.Shape pt T ptes hi :=
          h.congr fun a ha => hwords a (List.mem_append_right _ ha)
        obtain ⟨r, m2, hcall, hshape2, hext2⟩ := hshape.dealloc_to (hown.of_extends hext) hn
        refine Or.inl ⟨m2, T, ?_, hshape2, hext.trans hext2⟩
        simp only [hk, hcall]
        rfl
      · have hshape : m1.Shape pt T ptes hi :=
          h.congr fun a ha => hwords a (List.mem_append_right _ ha)
        have hown1 := hown.of_extends hext
        have hperm : pteR ||| pteU ||| xperm < 2 ^ 10 := Nat.or_lt_two_pow (by decide) hxperm
        rcases hshape.mapNew hown1 (fun _ => 0) hperm (pteR_or_ne_zero _ _) with ⟨m2,
          T2, hcall, hshape2, hext2, -⟩ | ⟨m2, T2, hcall, hshape2, hext2⟩
        · have hext := hext.trans hext2
          have hnext : (ptes.length * pgsize + pgsize) % 2 ^ 64 =
              (ptes ++ [pa2pte mem ||| (pteR ||| pteU ||| xperm) ||| pteV]).length * pgsize := by
            have hroom := hown1.room
            have hlt : trapframeVa < 2 ^ 64 := by decide
            rw [List.length_append, List.length_singleton]
            rw [Nat.add_mul, Nat.one_mul] at hroom ⊢
            exact Nat.mod_eq_of_lt (by omega)
          simp only [hk, hcall, bind, Except.bind, if_true, hnext]
          rcases ih hshape2 (hown.of_extends hext) (by rw [List.length_append]; omega) (by
              rw [List.length_append, List.length_singleton]
              simpa [Nat.add_assoc, Nat.add_comm 1] using henough) with
              ⟨m3, T3, hrest, hshape3, hext3⟩ |
            ⟨m3, T3, new, hrest, hshape3, hext3, hnew, hle, hlast⟩
          · rw [List.take_append_of_le_length hn] at hshape3 hext3
            exact Or.inl ⟨m3, T3, hrest, hshape3, hext.trans hext3⟩
          · rw [List.append_assoc] at hshape3 hext3 hle hlast
            refine Or.inr ⟨m3, T3, _, hrest, hshape3, hext.trans hext3, ?_, hle, Or.inr ?_⟩
            · intro pte hpte
              rcases List.mem_cons.mp hpte with rfl | hpte
              · exact ⟨mem, rfl⟩
              · exact hnew pte hpte
            · rcases hlast with rfl | hlast
              · simp only [List.append_nil, List.length_append,
                  List.length_singleton, Nat.add_mul, Nat.one_mul]
                omega
              · exact hlast
        · have hext := hext.trans hext2
          obtain ⟨m3, hfree, hext3, hwords3⟩ := (hown.of_extends hext).kfree_head
          have hext := hext.trans hext3
          have hshape3 : m3.Shape pt T2 ptes hi := hshape2.congr fun a ha =>
            hwords3 a (List.mem_append_right _ ha)
          obtain ⟨r, m4, hundo, hshape4, hext4⟩ := hshape3.dealloc_to (hown.of_extends hext) hn
          refine Or.inl ⟨m4, T2, ?_, hshape4, hext.trans hext4⟩
          simp [hk, hcall, bind, Except.bind, hfree, hundo]
    · rw [if_neg hmore]
      refine Or.inr ⟨m, T, [], rfl, ?_, ?_, by simp, ?_, Or.inl rfl⟩
      · simpa using h
      · simpa using Extends.refl m _
      · simpa using hmore

theorem PhysMem.Shape.uvmalloc (h : m.Shape pt T ptes hi) (hown : m.Owns (mapped ptes ++ T))
    {oldsz xperm : ℕ} (newsz : ℕ) (hxperm : xperm < 2 ^ 10) (hold : TakesPages ptes.length oldsz) :
    (∃ m1 T1, Xv6.uvmalloc pt oldsz newsz xperm m = .ok (0, m1) ∧
    m1.Shape pt T1 ptes hi ∧ m.Extends (mapped ptes ++ T) m1 (mapped ptes ++ T1)) ∨
    ∃ m1 T1 new, Xv6.uvmalloc pt oldsz newsz xperm m = .ok (max oldsz newsz, m1) ∧
    m1.Shape pt T1 (ptes ++ new) hi ∧ m.Extends (mapped ptes ++ T) m1 (mapped (ptes ++ new) ++ T1) ∧
    (∀ pte ∈ new, ∃ mem, pte = pa2pte mem ||| (pteR ||| pteU ||| xperm) ||| pteV) ∧
    TakesPages (ptes ++ new).length (max oldsz newsz) := by
  unfold Xv6.uvmalloc
  by_cases hless : newsz < oldsz
  · refine Or.inr ⟨m, T, [], ?_, ?_, ?_, by simp, ?_⟩
    · rw [if_pos hless, Nat.max_eq_left hless.le]
    · simpa using h
    · simpa using Extends.refl m _
    · rwa [List.append_nil, Nat.max_eq_left hless.le]
  · have hle : oldsz ≤ newsz := not_lt.mp hless
    have henough : newsz ≤ (ptes.length +
        (newsz - ptes.length * pgsize + pgsize - 1) / pgsize) * pgsize := by
      rw [Nat.add_mul]
      simp only [pgsize]
      omega
    rw [if_neg hless, Nat.max_eq_right hle, pgroundup_eq hold h.bound]
    dsimp only
    rcases allocLoop_spec hxperm _ h hown (le_refl _) henough with
      ⟨m1, T1, hcall, hshape, hext⟩ |
      ⟨m1, T1, new, hcall, hshape, hext, hnew, hfits, hlast⟩
    · rw [List.take_length] at hshape hext
      exact Or.inl ⟨m1, T1, hcall, hshape, hext⟩
    · refine Or.inr ⟨m1, T1, new, hcall, hshape, hext, hnew, hfits, ?_⟩
      rcases hlast with rfl | hlast
      · rw [List.append_nil]
        have := hold.2
        omega
      · exact hlast

/-! ## `freewalk` -/

/-- Below `c` there are `levels` more levels of page-table pages, those of
`S`, and nothing is mapped. -/
structure PhysMem.Hollow (m : PhysMem) (levels c : ℕ) (S : List ℕ) : Prop where
  tree : PathTree.IsTree m.child c levels S
  inner : ∀ (p : List (Fin 512)) a i, p.length ≤ levels →
    PathTree.node m.child c p = some a → m.words a i &&& pteV ≠ 0 →
      p.length < levels ∧ m.words a i &&& (pteR ||| pteW ||| pteX) = 0

theorem PhysMem.Hollow.congr {c : ℕ} {S : List ℕ} (h : m.Hollow levels c S)
    (hwords : ∀ a ∈ S, m'.words a = m.words a) : m'.Hollow levels c S := by
  have hchild : ∀ b ∈ S, ∀ j, m'.child b j = m.child b j := fun b hb =>
    child_congr (hwords b hb)
  refine ⟨h.tree.congr hchild, ?_⟩
  intro p a i hp ha hvalid
  rw [h.tree.node_congr hchild (Nat.le_succ_of_le hp)] at ha
  rw [hwords a (h.tree.node_mem hp ha)] at hvalid ⊢
  exact h.inner p a i hp ha hvalid

theorem PhysMem.Hollow.child {c d : ℕ} {S S' : List ℕ} {i : Fin 512} (h : m.Hollow (levels + 1) c S)
    (hd : m.child c i = some d) (htree : IsTree m.child d levels S') : m.Hollow levels d S' := by
  refine ⟨htree, ?_⟩
  intro p a j hp ha hvalid
  have hnode : PathTree.node m.child c (i :: p) = some a := by
    rw [node_cons, hd]
    exact ha
  have hlength : (i :: p).length ≤ levels + 1 := by
    rw [List.length_cons]
    omega
  obtain ⟨hlt, hrwx⟩ := h.inner (i :: p) a j hlength hnode hvalid
  rw [List.length_cons] at hlt
  exact ⟨by omega, hrwx⟩

/-- What the loop of `freewalk` finds at entry `i` of `pt`. -/
def PhysMem.Subtree (m : PhysMem) (Good : PhysMem → ℕ → List ℕ → Prop)
    (pt : ℕ) (i : Fin 512) (S : List ℕ) : Prop :=
  (m.words pt i &&& pteV = 0 ∧ S = []) ∨ m.words pt i &&& pteV ≠ 0 ∧
      m.words pt i &&& (pteR ||| pteW ||| pteX) = 0 ∧
      Good m (pte2pa (m.words pt i)) S

theorem freewalkLoop_spec (Good : PhysMem → ℕ → List ℕ → Prop) (freeChild : ℕ →
    PhysMem → Except VmPanic PhysMem) (hcongr : ∀ {m m' : PhysMem} {c S}, Good m c S →
    (∀ a ∈ S, m'.words a = m.words a) → Good m' c S)
    (hchild : ∀ {m : PhysMem} {c S}, Good m c S → m.Owns S → ∃ m1, freeChild c m = .ok m1 ∧
    m.Extends S m1 []) {S : Fin 512 → List ℕ} {is : List (Fin 512)} (hnodup : is.Nodup)
    (hown : m.Owns (is.flatMap S ++ [pt])) (hsub : ∀ i ∈ is, m.Subtree Good pt i (S i)) :
    ∃ m1, freewalkLoop freeChild pt is m = .ok m1 ∧ m.Extends (is.flatMap S ++ [pt]) m1 [pt] := by
  induction is generalizing m with
  | nil => exact ⟨m, rfl, .refl m _⟩
  | cons i is ih =>
    obtain ⟨hnotin, hnodup⟩ := List.nodup_cons.mp hnodup
    have hrest : ∀ j ∈ is, m.Subtree Good pt j (S j) := fun j hj =>
      hsub j (List.mem_cons_of_mem i hj)
    rw [List.flatMap_cons, List.append_assoc] at hown ⊢
    rw [freewalkLoop]
    rcases hsub i (List.mem_cons_self ..) with ⟨hinvalid, hempty⟩ | ⟨hvalid, hrwx, hgood⟩
    · rw [hempty, List.nil_append] at hown ⊢
      rw [if_neg (fun h => h.1 hinvalid), if_neg (not_not.mpr hinvalid)]
      exact ih hnodup hown hrest
    · rw [if_pos ⟨hvalid, hrwx⟩]
      obtain ⟨m1, hcall, hext⟩ := hchild hgood hown.left
      have hwords := hown.words_eq hext
      have hext := hext.append (is.flatMap S ++ [pt])
      have hown1 : m1.Owns (is.flatMap S ++ [pt]) := hown.of_extends hext
      have hset := m1.setPage_extends
        (Function.update (m1.words pt) i 0) (List.mem_singleton_self pt)
      have hown2 : m1.Owns ([pt] ++ is.flatMap S) := hown1.of_perm List.perm_append_comm
      have hwords2 := hown2.words_eq hset
      have hset := hset.appendLeft (is.flatMap S)
      obtain ⟨m2, hloop, hext2⟩ := ih hnodup (hown1.of_extends hset) <| by
        intro j hj
        have hji : j ≠ i := by
          rintro rfl
          exact hnotin hj
        have hentry : (m1.setWord pt i 0).words pt j = m.words pt j := by
          rw [← hwords pt (by simp)]
          simp [setWord, setPage, hji]
        have hsame : ∀ a ∈ S j, (m1.setWord pt i 0).words a = m.words a := by
          intro a ha
          have hmem : a ∈ is.flatMap S := List.mem_flatMap.mpr ⟨j, hj, ha⟩
          exact (hwords2 a hmem).trans (hwords a (List.mem_append_left _ hmem))
        unfold Subtree
        rw [← setWord, hentry]
        rcases hrest j hj with hnone | ⟨hvalid, hrwx, hgood⟩
        · exact Or.inl hnone
        · exact Or.inr ⟨hvalid, hrwx, hcongr hgood hsame⟩
      refine ⟨m2, ?_, (hext.trans hset).trans hext2⟩
      rw [hcall]
      exact hloop

theorem freewalk_spec (h : m.Hollow levels pt T) (hown : m.Owns T) :
    ∃ m1, freewalk (levels + 1) pt m = .ok m1 ∧ m.Extends T m1 [] := by
  have hnodup := List.nodup_finRange 512
  have hall : ∀ i, i ∈ List.finRange 512 := List.mem_finRange
  induction levels generalizing m pt T with
  | zero =>
    have hT : T.Perm [pt] := h.tree.perm_singleton
    have hinvalid : ∀ i, m.words pt i &&& pteV = 0 := by
      intro i
      by_contra hvalid
      exact absurd (h.inner [] pt i (Nat.le_refl _) rfl hvalid).1 (Nat.lt_irrefl _)
    have hown := hown.of_perm hT
    rw [freewalk]
    generalize List.finRange 512 = is at hnodup hall ⊢
    have hnil : is.flatMap (fun _ => ([] : List ℕ)) = [] :=
      List.flatMap_eq_nil_iff.mpr fun _ _ => rfl
    obtain ⟨m1, hloop, hext⟩ :=
      freewalkLoop_spec (S := fun _ => []) (fun _ _ _ => False) (freewalk 0) (fun hbad _ => hbad)
      (fun hbad _ => hbad.elim) hnodup (by rwa [hnil]) (fun i _ => Or.inl ⟨hinvalid i, rfl⟩)
    rw [hnil, List.nil_append] at hext
    obtain ⟨m2, hfree, hext2⟩ := (hown.of_extends hext).kfree
    refine ⟨m2, ?_, (hext.trans hext2).of_perm hT.symm (.refl _)⟩
    rw [hloop]
    exact hfree
  | succ levels ih =>
    rw [freewalk]
    generalize List.finRange 512 = is at hnodup hall ⊢
    obtain ⟨S, hsome, hnone, hT⟩ := h.tree.perm_subtrees hnodup hall
    have hT : T.Perm (is.flatMap S ++ [pt]) := hT.trans (List.perm_append_singleton pt _).symm
    have hown := hown.of_perm hT
    obtain ⟨m1, hloop, hext⟩ := freewalkLoop_spec (fun m c S => m.Hollow levels c S)
      (freewalk (levels + 1)) (fun hgood hwords => hgood.congr hwords) ih hnodup hown <| by
        intro i _
        by_cases hvalid : m.words pt i &&& pteV ≠ 0
        · have hc : m.child pt i = some (pte2pa (m.words pt i)) := if_pos hvalid
          exact Or.inr ⟨hvalid, (h.inner [] pt i (Nat.zero_le _) rfl hvalid).2,
            h.child hc (hsome i _ hc)⟩
        · exact Or.inl ⟨not_not.mp hvalid, hnone i (if_neg hvalid)⟩
    obtain ⟨m2, hfree, hext2⟩ := (hown.of_extends hext).kfree
    refine ⟨m2, ?_, (hext.trans hext2).of_perm hT.symm (.refl _)⟩
    rw [hloop]
    exact hfree

/-! ## `uvmfree` -/

theorem exists_va {i2 : Fin 512} (i1 i0 : Fin 512) (h : i2.val < 256) :
    ∃ va, va < maxva ∧ va % pgsize = 0 ∧ pxPath va 2 = [i2, i1] ∧ px 0 va = i0 := by
  refine ⟨i2 * 2 ^ 30 + i1 * 2 ^ 21 + i0 * 2 ^ 12, ?_, ?_, ?_, ?_⟩
  · unfold maxva
    omega
  · unfold pgsize
    omega
  · rw [pxPath_two, List.cons.injEq, List.cons.injEq]
    refine ⟨Fin.ext ?_, Fin.ext ?_, rfl⟩
    · rw [px_val]
      omega
    · rw [px_val]
      omega
  · refine Fin.ext ?_
    rw [px_val]
    omega

theorem PhysMem.Shape.hollow (h : m.Shape pt T [] hi)
    (hhi : ∀ b, b % pgsize = 0 → hi b = none) : m.Hollow 2 pt T := by
  refine ⟨h.tree, ?_⟩
  intro p a i hp ha hvalid
  by_cases hlt : p.length < 2
  · exact ⟨hlt, (h.interior p a i hlt ha hvalid).1⟩
  · exfalso
    obtain ⟨i2, i1, rfl⟩ := List.length_eq_two.mp (by omega : p.length = 2)
    have hroot : m.words pt i2 &&& pteV ≠ 0 := by
      by_contra hnone
      rw [node_cons, PhysMem.child, if_neg (not_not.mpr hnone)] at ha
      cases ha
    have hsmall := (h.interior [] pt i2 (by simp) rfl hroot).2 rfl
    obtain ⟨va, hva, halign, hpath, hpx⟩ := exists_va i1 i hsmall
    have hlookup := h.high va halign (by simp)
    rw [hhi va halign, m.lookup_eq pt hva, PhysMem.entry, hpath, ha,
      Option.bind_some, hpx, if_pos hvalid] at hlookup
    cases hlookup

theorem PhysMem.Shape.uvmfree (h : m.Shape pt T ptes hi) (hown : m.Owns (mapped ptes ++ T))
    {sz : ℕ} (hsz : TakesPages ptes.length sz) (hhi : ∀ b, b % pgsize = 0 → hi b = none) :
    ∃ m1, Xv6.uvmfree pt sz m = .ok m1 ∧ m.Extends (mapped ptes ++ T) m1 [] := by
  have hunmap : ∃ m1, (if sz > 0 then
        uvmunmap pt 0 (pgroundup sz / pgsize) true m else .ok m) = .ok m1 ∧
      m1.Shape pt T [] hi ∧ m.Extends (mapped ptes ++ T) m1 T := by
    by_cases hpos : sz > 0
    · obtain ⟨m1, hcall, hshape, hext⟩ := h.unmapTail hown (k := 0) (Nat.zero_add _)
      refine ⟨m1, ?_, hshape, hext⟩
      rw [Nat.zero_mul] at hcall
      rw [if_pos hpos, pgroundup_eq hsz h.bound, Nat.mul_div_cancel _ pgsize_pos, hcall]
    · obtain rfl : sz = 0 := by omega
      obtain rfl : ptes = [] := List.length_eq_zero_iff.mp (takesPages_zero.eq hsz)
      exact ⟨m, if_neg hpos, h, .refl m _⟩
  obtain ⟨m1, hcall, hshape, hext⟩ := hunmap
  obtain ⟨m2, hwalk, hext2⟩ := freewalk_spec (hshape.hollow hhi) (hown.of_extends hext)
  refine ⟨m2, ?_, hext.trans hext2⟩
  simp only [Xv6.uvmfree, hcall, bind, Except.bind]
  exact hwalk

/-! ## `uvmcreate` -/

theorem PhysMem.Shape.empty (hzero : ∀ i, m.words pt i = 0) : m.Shape pt [pt] [] fun _ => none := by
  have hchild : ∀ i, m.child pt i = none := by
    intro i
    simp [PhysMem.child, hzero]
  refine ⟨.single hchild 2, ?_, by simp, by simp, ?_, by simp, by simp⟩
  · intro p a i _ ha hvalid
    cases p with
    | nil =>
      obtain rfl := Option.some.inj ha
      simp [hzero] at hvalid
    | cons j p => simp [node_cons, hchild] at ha
  · intro b _ _
    by_cases hb : b < maxva
    · rw [m.lookup_eq pt hb, PhysMem.entry, pxPath_two, node_cons, hchild]
      rfl
    · exact m.lookup_of_le pt (not_lt.mp hb)

theorem PhysMem.Owns.uvmcreate (h : m.Owns own) : (∃ m1, Xv6.uvmcreate m = (none, m1) ∧
    m.Extends own m1 own ∧ ∀ a ∈ own, m1.words a = m.words a) ∨
    ∃ pt m1, Xv6.uvmcreate m = (some pt, m1) ∧ m.Extends own m1 (pt :: own) ∧
    (∀ a ∈ own, m1.words a = m.words a) ∧ m1.Shape pt [pt] [] fun _ => none := by
  unfold Xv6.uvmcreate
  rcases h.kalloc with ⟨m1, hk, hext, hwords⟩ | ⟨r, m1, hk, hext, hwords⟩
  · exact Or.inl ⟨m1, by rw [hk], hext, hwords⟩
  · have hset := m1.setPage_extends (fun _ => 0) (List.mem_singleton_self r)
    have hwords2 := (h.of_extends hext).words_eq (A := [r]) hset
    refine Or.inr ⟨r, _, by rw [hk], hext.trans (hset.append own), ?_,
      .empty fun i => by simp [setPage]⟩
    exact fun a ha => (hwords2 a ha).trans (hwords a ha)

/-! ## `uvmcopy` -/

theorem pteFlags_lt (pte : ℕ) : pteFlags pte < 2 ^ 10 :=
  Nat.lt_of_le_of_lt Nat.and_le_right (by decide)

theorem pteFlags_and_pteR (pte : ℕ) : pteFlags pte &&& pteR = pte &&& pteR := by
  unfold pteFlags
  rw [Nat.and_assoc]
  rfl

theorem PhysMem.Shape.unmapAll (h : m.Shape pt T ptes hi) (hown : m.Owns (mapped ptes ++ T)) :
    ∃ m1, uvmunmap pt 0 (ptes.length * pgsize / pgsize) true m = .ok m1 ∧
      m1.Shape pt T [] hi ∧ m.Extends (mapped ptes ++ T) m1 T := by
  obtain ⟨m1, hcall, hshape, hext⟩ := h.unmapTail hown (k := 0) (Nat.zero_add _)
  rw [Nat.zero_mul] at hcall
  rw [Nat.mul_div_cancel _ pgsize_pos]
  exact ⟨m1, hcall, hshape, hext⟩

section

variable {old new sz : ℕ} {oldT oldPtes : List ℕ} {oldHi : ℕ → Option ℕ}

def PhysMem.CopyOf (m : PhysMem) (pte oldPte : ℕ) : Prop :=
  pteFlags pte = pteFlags oldPte ∧
    m.words (pte2pa pte) = m.words (pte2pa oldPte)

theorem PhysMem.copies_congr {ptes' : List ℕ}
    (h : List.Forall₂ m.CopyOf ptes ptes') (hwords : ∀ a ∈ mapped ptes, m'.words a = m.words a)
    (hwords' : ∀ a ∈ mapped ptes', m'.words a = m.words a) : List.Forall₂ m'.CopyOf ptes ptes' := by
  induction h with
  | nil => exact .nil
  | cons hcopy _ ih =>
    simp only [mapped, List.map_cons, List.mem_cons, forall_eq_or_imp] at hwords hwords'
    refine .cons ⟨hcopy.1, ?_⟩ (ih hwords.2 hwords'.2)
    rw [hwords.1, hwords'.1]
    exact hcopy.2

theorem or_pteV_eq {x : ℕ} (hx : x % 2 = 1) : x ||| pteV = x := by
  apply Nat.eq_of_testBit_eq
  intro i
  cases i with
  | zero => simp [pteV, hx]
  | succ i =>
    have hone : Nat.testBit 1 (i + 1) = false := by
      rw [Nat.testBit_succ, Nat.div_eq_of_lt (by decide), Nat.zero_testBit]
    rw [Nat.testBit_or, show pteV = 1 from rfl, hone, Bool.or_false]

theorem pteFlags_copy {mem pte : ℕ} (hvalid : pte &&& pteV ≠ 0) :
    pteFlags (pa2pte mem ||| pteFlags pte ||| pteV) = pteFlags pte := by
  have hmod : pteFlags pte = pte % 2 ^ 10 := Nat.and_two_pow_sub_one_eq_mod pte 10
  have hodd : pte % 2 = 1 := by
    rw [show pteV = 1 from rfl, Nat.and_one_is_mod] at hvalid
    omega
  have hV : pteFlags pte ||| pteV = pteFlags pte := or_pteV_eq (by omega)
  have hlt : pteFlags pte ||| pteV < 2 ^ 10 := by
    rw [hV]
    exact pteFlags_lt pte
  rw [Nat.or_assoc, pteFlags_pa2pte_or mem hlt, hV]

/-- The loop of `uvmcopy`, after a number of pages: either it has undone
everything, or the new table has a copy of every page of the old one. -/
theorem copyLoop_spec
    (hsz : TakesPages oldPtes.length sz) (rounds : ℕ) (hold : m.Shape old oldT oldPtes oldHi)
    (h : m.Shape new T ptes hi) (hown : m.Owns (mapped ptes ++ T ++ (mapped oldPtes ++ oldT)))
    (hle : ptes.length ≤ oldPtes.length)
    (hcopies : List.Forall₂ m.CopyOf ptes (oldPtes.take ptes.length))
    (henough : oldPtes.length ≤ ptes.length + rounds) :
    (∃ m1 T1, copyLoop old new sz rounds (ptes.length * pgsize) m = .ok (false, m1) ∧
    m1.Shape new T1 [] hi ∧ m.Extends (mapped ptes ++ T) m1 T1) ∨ ∃ m1 T1 ptes1, copyLoop old
    new sz rounds (ptes.length * pgsize) m = .ok (true, m1) ∧ m1.Shape new T1 ptes1 hi ∧ m.Extends
    (mapped ptes ++ T) m1 (mapped ptes1 ++ T1) ∧ List.Forall₂ m1.CopyOf ptes1 oldPtes := by
  have hdone (hlen : oldPtes.length ≤ ptes.length) : List.Forall₂ m.CopyOf ptes oldPtes := by
    rwa [List.take_of_length_le hlen] at hcopies
  induction rounds generalizing m T ptes with
  | zero => exact Or.inr ⟨m, T, ptes, rfl, h, .refl m _, hdone (by omega)⟩
  | succ rounds ih =>
    unfold copyLoop
    by_cases hmore : ptes.length * pgsize < sz
    · have hlt : ptes.length < oldPtes.length :=
        Nat.lt_of_mul_lt_mul_right (lt_of_lt_of_le hmore hsz.1)
      have hleaf := hold.leaf _ (List.getElem_mem hlt)
      obtain ⟨_, page, hwalk, _, hword, hvalid⟩ := walk_of_lookup (hold.user _ hlt)
      have hkeep : ∀ {m1 own1}, m.Extends (mapped ptes ++ T) m1 own1 →
          m1.Owns (own1 ++ (mapped oldPtes ++ oldT)) ∧ m1.Shape old oldT oldPtes oldHi ∧
            ∀ a ∈ mapped oldPtes, m1.words a = m.words a :=
        fun hext => ⟨hown.of_extends (hext.append _), hold.congr fun a ha => hown.words_eq hext a
            (List.mem_append_right _ ha),
          fun a ha => hown.words_eq hext a (List.mem_append_left _ ha)⟩
      simp only [if_pos hmore, hwalk, hword, if_neg hvalid, bind, Except.bind]
      rcases hown.left.kalloc with ⟨m1, hk, hext, hwords⟩ | ⟨mem, m1, hk, hext, hwords⟩
      · have hshape : m1.Shape new T ptes hi :=
          h.congr fun a ha => hwords a (List.mem_append_right _ ha)
        obtain ⟨m2, hcall, hshape2, hext2⟩ := hshape.unmapAll (hkeep hext).1.left
        refine Or.inl ⟨m2, T, ?_, hshape2, hext.trans hext2⟩
        simp only [hk, hcall]
      · have hshape : m1.Shape new T ptes hi :=
          h.congr fun a ha => hwords a (List.mem_append_right _ ha)
        have hread : pteFlags oldPtes[ptes.length] &&& pteR ≠ 0 := by
          rwa [pteFlags_and_pteR]
        simp only [hk]
        rcases hshape.mapNew
          (hkeep hext).1.left (m1.words (pte2pa oldPtes[ptes.length])) (pteFlags_lt _)
          hread with ⟨m2, T2, hcall, hshape2, hext2, hmem, hsame⟩ | ⟨m2, T2, hcall, hshape2, hext2⟩
        · have hrange := (hkeep hext).1.range mem (by simp)
          have hold1 := (hkeep hext).2.2
          have hext := hext.trans hext2
          have hlen : (ptes ++ [pa2pte mem ||| pteFlags oldPtes[ptes.length] ||| pteV]).length =
                ptes.length + 1 := by
            rw [List.length_append, List.length_singleton]
          have hnext : (ptes.length * pgsize + pgsize) % 2 ^ 64 = (ptes.length + 1) * pgsize := by
            have hbound : (ptes.length + 1) * pgsize ≤ trapframeVa :=
              le_trans (Nat.mul_le_mul_right _ hlt) hold.bound
            have hwrap : trapframeVa < 2 ^ 64 := by decide
            rw [Nat.add_mul, Nat.one_mul] at hbound ⊢
            exact Nat.mod_eq_of_lt (by omega)
          obtain ⟨hown2, hold2, hwords2⟩ := hkeep hext
          -- one more page has been copied
          have hcopies2 : List.Forall₂ m2.CopyOf
              (ptes ++ [pa2pte mem ||| pteFlags oldPtes[ptes.length] |||
                pteV]) (oldPtes.take (ptes.length + 1)) := by
            rw [List.take_succ_eq_append_getElem hlt]
            refine List.rel_append (copies_congr hcopies ?_ ?_)
              (.cons ⟨pteFlags_copy hvalid, ?_⟩ .nil)
            · intro a ha
              rw [hsame a ha]
              exact hwords a (List.mem_append_left _ ha)
            · intro a ha
              rw [mapped_take] at ha
              exact hwords2 a (List.mem_of_mem_take ha)
            · have hpage : pte2pa oldPtes[ptes.length] ∈ mapped oldPtes :=
                List.mem_map_of_mem (List.getElem_mem hlt)
              rw [pte2pa_of_inRange hrange (pteFlags_lt _), hmem, hwords2 _ hpage, hold1 _ hpage]
          simp only [hcall, if_true, hnext]
          rw [← hlen] at hcopies2 ⊢
          rcases ih hold2 hshape2 hown2 (by omega) hcopies2 (by omega) (fun hlen => by
                rwa [List.take_of_length_le hlen] at hcopies2) with
              ⟨m3, T3, hrest, hshape3, hext3⟩ |
            ⟨m3, T3, ptes3, hrest, hshape3, hext3, hcopies3⟩
          · exact Or.inl ⟨m3, T3, hrest, hshape3, hext.trans hext3⟩
          · exact Or.inr ⟨m3, T3, ptes3, hrest, hshape3, hext.trans hext3, hcopies3⟩
        · have hext := hext.trans hext2
          obtain ⟨m3, hfree, hext3, hwords3⟩ := (hkeep hext).1.left.kfree_head
          have hext := hext.trans hext3
          have hshape3 : m3.Shape new T2 ptes hi := hshape2.congr fun a ha =>
            hwords3 a (List.mem_append_right _ ha)
          obtain ⟨m4, hundo, hshape4, hext4⟩ := hshape3.unmapAll (hkeep hext).1.left
          refine Or.inl ⟨m4, T2, ?_, hshape4, hext.trans hext4⟩
          simp [hcall, hfree, hundo]
    · rw [if_neg hmore]
      refine Or.inr ⟨m, T, ptes, rfl, h, .refl m _, hdone ?_⟩
      have hlast := hsz.2
      have hbound : oldPtes.length * pgsize < (ptes.length + 1) * pgsize := by
        rw [Nat.add_mul, Nat.one_mul]
        omega
      exact Nat.lt_succ_iff.mp (Nat.lt_of_mul_lt_mul_right hbound)

theorem PhysMem.Shape.uvmcopy (h : m.Shape new T [] hi) (hold : m.Shape old oldT oldPtes oldHi)
    (hown : m.Owns (T ++ (mapped oldPtes ++ oldT))) (hsz : TakesPages oldPtes.length sz) :
    (∃ m1 T1, Xv6.uvmcopy old new sz m = .ok (false, m1) ∧ m1.Shape new T1 [] hi ∧
    m.Extends T m1 T1) ∨ ∃ m1 T1 ptes1, Xv6.uvmcopy old new sz m = .ok (true, m1) ∧ m1.Shape new
    T1 ptes1 hi ∧ m.Extends T m1 (mapped ptes1 ++ T1) ∧ List.Forall₂ m1.CopyOf ptes1 oldPtes := by
  have henough : oldPtes.length ≤ ([] : List ℕ).length + (sz + pgsize - 1) / pgsize := by
    obtain ⟨hle, hlt⟩ := hsz
    rw [List.length_nil, Nat.zero_add, Nat.le_div_iff_mul_le pgsize_pos]
    omega
  have hstart : ([] : List ℕ).length * pgsize = 0 := Nat.zero_mul _
  unfold Xv6.uvmcopy
  rw [← hstart]
  exact copyLoop_spec hsz _ hold h hown (Nat.zero_le _) .nil henough

end

end

end Xv6
