import Xv6.PageTable

/-!
# Page tables as finite maps

Seen from outside, a page table is a finite map from pages to PTEs.  `walk` may
add page-table pages without changing that map; `mappages` and `uvmunmap`
change it at the pages they name, and nowhere else.
-/

namespace Xv6

open PathTree

section

variable {m m' : PhysMem} {pt : ℕ} {T T' : List ℕ}

/-! ## Frames -/

variable {a page va pa perm n last pte : ℕ} {r doFree : Bool} {m₁ : PhysMem}

theorem PhysMem.child_congr (h : m'.words a = m.words a) (i : Fin 512) :
    m'.child a i = m.child a i := by
  unfold PhysMem.child
  rw [h]

theorem PhysMem.entry_congr
    (htree : IsTree m.child pt 2 T) (hwords : ∀ a ∈ T, m'.words a = m.words a)
    {q : List (Fin 512)} (hq : q.length = 2) (i : Fin 512) : m'.entry pt q i = m.entry pt q i := by
  have hnode : PathTree.node m'.child pt q = PathTree.node m.child pt q :=
    htree.node_congr (fun b hb => child_congr (hwords b hb)) (by omega)
  unfold PhysMem.entry
  rw [hnode]
  cases hb : PathTree.node m.child pt q with
  | none => rfl
  | some b =>
    simp only [Option.bind_some]
    rw [hwords b (htree.node_mem hq.le hb)]

theorem PhysMem.tree_congr (htree : IsTree m.child pt 2 T)
    (hwords : ∀ a ∈ T, m'.words a = m.words a) : IsTree m'.child pt 2 T :=
  htree.congr fun b hb => child_congr (hwords b hb)

theorem PhysMem.interior_congr (htree : IsTree m.child pt 2 T)
    (hinterior : m.Interior pt) (hwords : ∀ a ∈ T, m'.words a = m.words a) : m'.Interior pt := by
  intro p a i hp ha hvalid
  rw [htree.node_congr (fun b hb => child_congr (hwords b hb)) (by omega)] at ha
  rw [hwords a (htree.node_mem hp.le ha)] at hvalid ⊢
  exact hinterior p a i hp ha hvalid

theorem PhysMem.lookup_congr (htree : IsTree m.child pt 2 T)
    (hwords : ∀ a ∈ T, m'.words a = m.words a) (va : ℕ) : m'.lookup pt va = m.lookup pt va := by
  by_cases hva : va < maxva
  · rw [m'.lookup_eq pt hva, m.lookup_eq pt hva]
    exact entry_congr htree hwords (length_pxPath va 2) _
  · rw [m'.lookup_of_le pt (not_lt.mp hva), m.lookup_of_le pt (not_lt.mp hva)]

/-! ## `walk` -/

theorem kalloc_cases (m : PhysMem) : (∃ fails, kalloc m = (none, { m with fails := fails })) ∨
    ∃ r rs fails junk, m.freelist = r :: rs ∧
    kalloc m = (some r, { m with freelist := rs, fails := fails }.setPage r junk) := by
  unfold kalloc
  split
  · exact Or.inl ⟨_, rfl⟩
  · exact Or.inl ⟨_, rfl⟩
  · rename_i r rs _ hfree
    exact Or.inr ⟨r, rs, _, _, hfree, rfl⟩

theorem PhysMem.PageTable.addPage (h : m.PageTable pt T) (n : PhysMem) {p : List (Fin 512)}
    {i : Fin 512} {rs : List ℕ} (hp : p.length < 2) (ha : PathTree.node m.child pt p = some a)
    (hroot : p = [] → i.val < 256) (hold : ¬m.words a i &&& pteV ≠ 0)
    (hfree : m.freelist = page :: rs) (hpage : n.words page = fun _ => 0)
    (hslot : n.words a = Function.update (m.words a) i (pa2pte page ||| pteV))
    (hother : ∀ b, b ≠ page → b ≠ a → n.words b = m.words b)
    (hrest : n.freelist = rs) (hkend : n.kend = m.kend) : n.PageTable pt (page :: T) ∧
    m.Extends T n (page :: T) ∧ PathTree.node n.child pt (p ++ [i]) = some page ∧
    ∀ q j, q.length = 2 → n.entry pt q j = m.entry pt q j := by
  have hmem : page ∈ T ++ m.freelist := by simp [hfree]
  have hnodup := h.nodup
  rw [hfree] at hnodup
  have hfresh : page ∉ T := fun hT =>
    (List.nodup_append.mp hnodup).2.2 page hT page (by simp) rfl
  have haT : a ∈ T := h.tree.node_mem hp.le ha
  have hagree : ∀ b ∈ T, ∀ j, ¬(b = a ∧ j = i) → n.words b j = m.words b j := by
    intro b hb j hne
    by_cases hba : b = a
    · subst hba
      rw [hslot, Function.update_of_ne fun hj => hne ⟨rfl, hj⟩]
    · have hbp : b ≠ page := by
        rintro rfl
        exact hfresh hb
      rw [hother b hbp hba]
  have hchild : ∀ b ∈ T, ∀ j, ¬(b = a ∧ j = i) → n.child b j = m.child b j := by
    intro b hb j hne
    unfold PhysMem.child
    rw [hagree b hb j hne]
  have hnew : n.child a i = some page := by
    unfold PhysMem.child
    rw [hslot, Function.update_self, if_pos (or_pteV_valid _), (h.range page hmem).pte2pa_pa2pte]
  have hzero : ∀ j, n.words page j = 0 := by simp [hpage]
  have hleaf : ∀ j, n.child page j = none := by
    intro j
    unfold PhysMem.child
    rw [hzero j]
    rfl
  have hnone : m.child a i = none := if_neg hold
  have hext : m.Extends T n (page :: T) := by
    refine ⟨?_, ?_, hkend⟩
    · rw [hrest, hfree]
      exact List.perm_middle.symm
    · intro b hT hb
      rw [hother b]
      · rintro rfl
        exact hb (by simp [hfree])
      · rintro rfl
        exact hT haT
  have htree := h.tree.extend hp ha hnone hfresh hchild hnew hleaf
  have hnotp : ¬(p ++ [i]) <+: p := by
    intro hprefix
    have hlength := hprefix.length_le
    rw [List.length_append, List.length_singleton] at hlength
    omega
  have ha' : PathTree.node n.child pt p = some a :=
    (h.tree.node_eq_of_not_prefix hp.le ha hchild (by omega) hnotp).trans ha
  have hbelow := node_below ha' hnew hleaf
  have hinterior : n.Interior pt := by
    intro q b j hq hb hvalid
    by_cases hprefix : (p ++ [i]) <+: q
    · obtain ⟨r, rfl⟩ := hprefix
      rw [hbelow r] at hb
      by_cases hr : r = []
      · simp only [hr, if_true] at hb
        cases hb
        simp [hzero] at hvalid
      · simp [hr] at hb
    · rw [h.tree.node_eq_of_not_prefix hp.le ha hchild (by omega) hprefix] at hb
      by_cases hself : b = a ∧ j = i
      · obtain ⟨rfl, rfl⟩ := hself
        obtain rfl := h.tree.inj q p b hq.le hp.le hb ha
        rw [hslot, Function.update_self]
        exact ⟨pa2pte_or_pteV_rwx page, hroot⟩
      · rw [hagree b (h.tree.node_mem hq.le hb) j hself] at hvalid ⊢
        exact h.interior q b j hq hb hvalid
  refine ⟨h.of_extends hext htree hinterior, hext, by simpa using hbelow [], ?_⟩
  intro q j hq
  unfold PhysMem.entry
  by_cases hprefix : (p ++ [i]) <+: q
  · obtain ⟨r, rfl⟩ := hprefix
    rw [hbelow r, node_below_of_none ha hnone r]
    by_cases hr : r = []
    · simp [hr, hzero]
    · simp [hr]
  · rw [h.tree.node_eq_of_not_prefix hp.le ha hchild (by omega) hprefix]
    cases hb : PathTree.node m.child pt q with
    | none => rfl
    | some b =>
      have hne : ¬(b = a ∧ j = i) := by
        rintro ⟨rfl, _⟩
        have hqp := h.tree.inj q p b hq.le hp.le hb ha
        rw [hqp] at hq
        omega
      simp only [Option.bind_some]
      rw [hagree b (h.tree.node_mem hq.le hb) j hne]

theorem PhysMem.PageTable.walkFrom
    {level : ℕ} {p : List (Fin 512)} {slot : Option (ℕ × Fin 512)} (h : m.PageTable pt T)
    (hva : va < maxva) (hlevel : p.length + level = 2) (ha : PathTree.node m.child pt p = some a)
    (hwalk : Xv6.walkFrom va true level a m = (slot, m')) :
    ∃ T', m'.PageTable pt T' ∧ m.Extends T m' T' ∧ (∀ page i, slot = some (page, i) →
    i = px 0 va ∧ PathTree.node m'.child pt (p ++ pxPath va level) = some page) ∧
    ∀ q j, q.length = 2 → m'.entry pt q j = m.entry pt q j := by
  induction level generalizing m T p a with
  | zero =>
    obtain ⟨rfl, rfl⟩ := Prod.mk.inj hwalk
    refine ⟨T, h, .refl m T, ?_, fun _ _ _ => rfl⟩
    rintro page i hslot
    obtain ⟨rfl, rfl⟩ := Prod.mk.inj (Option.some.inj hslot)
    exact ⟨rfl, by simpa [pxPath] using ha⟩
  | succ level ih =>
    have hpath : p ++ pxPath va (level + 1) = p ++ [px (level + 1) va] ++ pxPath va level := by
      simp [pxPath]
    have hlevel' : (p ++ [px (level + 1) va]).length + level = 2 := by
      rw [List.length_append, List.length_singleton]
      omega
    rw [hpath]
    rw [Xv6.walkFrom] at hwalk
    by_cases hvalid : m.words a (px (level + 1) va) &&& pteV ≠ 0
    · rw [if_pos hvalid] at hwalk
      refine ih h hlevel' ?_ hwalk
      rw [node_snoc, ha, Option.bind_some, PhysMem.child, if_pos hvalid]
    · rw [if_neg hvalid, if_neg (by simp)] at hwalk
      rcases kalloc_cases m with
        ⟨fails, heq⟩ | ⟨r, rs, fails, junk, hfree, heq⟩
      · rw [heq] at hwalk
        obtain ⟨rfl, rfl⟩ := Prod.mk.inj hwalk
        exact ⟨T, ⟨h.tree, h.interior, h.nodup, h.range⟩,
          ⟨.refl _, fun _ _ _ => rfl, rfl⟩, by simp, fun _ _ _ => rfl⟩
      · rw [heq] at hwalk
        have hne : a ≠ r := by
          rintro rfl
          have hnodup := h.nodup
          rw [hfree] at hnodup
          exact (List.nodup_append.mp hnodup).2.2 a (h.tree.node_mem (by omega) ha) a (by simp) rfl
        have hroot : p = [] → (px (level + 1) va).val < 256 := by
          rintro rfl
          obtain rfl : level = 1 := by simpa using hlevel
          exact px_two_lt hva
        obtain ⟨h', hext, hnode, hentry⟩ := h.addPage
          ((({ m with freelist := rs, fails := fails }.setPage r
            junk).setPage r fun _ => 0).setWord a (px (level + 1) va)
              (pa2pte r ||| pteV)) (by omega) ha hroot hvalid hfree
          (by simp [setWord, setPage, hne.symm])
          (by simp [setWord, setPage, hne])
          (by
            intro b hbr hba
            simp [setWord, setPage, hbr, hba])
          rfl rfl
        obtain ⟨T', htable, hext', hslot, hentry'⟩ := ih h' hlevel' hnode hwalk
        refine ⟨T', htable, hext.trans hext', hslot, ?_⟩
        intro q j hq
        rw [hentry' q j hq, hentry q j hq]

theorem PhysMem.PageTable.walk {slot : Option (ℕ × Fin 512)}
    (h : m.PageTable pt T) (hwalk : Xv6.walk pt va true m = .ok (slot, m')) : va < maxva ∧
    ∃ T', m'.PageTable pt T' ∧ m.Extends T m' T' ∧ (∀ page i, slot = some (page, i) → i = px 0 va ∧
    PathTree.node m'.child pt (pxPath va 2) = some page) ∧ ∀ b, m'.lookup pt b = m.lookup pt b := by
  unfold Xv6.walk at hwalk
  split at hwalk
  · contradiction
  · rename_i hva
    obtain ⟨T', htable, hext, hslot, hentry⟩ :=
      h.walkFrom (p := []) (not_le.mp hva) rfl rfl (Except.ok.inj hwalk)
    refine ⟨not_le.mp hva, T', htable, hext, hslot, ?_⟩
    intro b
    by_cases hb : b < maxva
    · rw [m'.lookup_eq pt hb, m.lookup_eq pt hb]
      exact hentry _ _ (length_pxPath b 2)
    · rw [m'.lookup_of_le pt (not_lt.mp hb), m.lookup_of_le pt (not_lt.mp hb)]

/-! ## Writing a leaf -/

theorem PhysMem.PageTable.setLeaf (h : m.PageTable pt T) {q : List (Fin 512)}
    (i : Fin 512) (w : ℕ) (hq : q.length = 2) (hpage : PathTree.node m.child pt q = some page) :
    (m.setWord page i w).PageTable pt T ∧ m.Extends T (m.setWord page i w) T ∧
    ∀ q' j, q'.length = 2 → (m.setWord page i w).entry pt q' j = if q' = q ∧
    j = i then if w &&& pteV ≠ 0 then some w else none
        else m.entry pt q' j := by
  have hmem := h.tree.node_mem hq.le hpage
  have hwords : ∀ b j, ¬(b = page ∧ j = i) → (m.setWord page i w).words b j = m.words b j := by
    intro b j hne
    by_cases hb : b = page
    · subst hb
      have hj : j ≠ i := fun hj => hne ⟨rfl, hj⟩
      simp [setWord, setPage, hj]
    · simp [setWord, setPage, hb]
  have hself : (m.setWord page i w).words page i = w := by
    simp [setWord, setPage]
  have hchild : ∀ b ∈ T, ∀ j, ¬(b = page ∧ j = i) →
      (m.setWord page i w).child b j = m.child b j := by
    intro b _ j hne
    unfold PhysMem.child
    rw [hwords b j hne]
  have hnode : ∀ q' : List (Fin 512), q'.length ≤ 2 →
      PathTree.node (m.setWord page i w).child pt q' = PathTree.node m.child pt q' := by
    intro q' hq'
    refine h.tree.node_eq_of_not_prefix hq.le hpage hchild (by omega) ?_
    intro hprefix
    have hlength := hprefix.length_le
    rw [List.length_append, List.length_singleton] at hlength
    omega
  have hext : m.Extends T (m.setWord page i w) T := by
    refine ⟨List.Perm.refl _, ?_, rfl⟩
    intro b hT _
    have hb : b ≠ page := by
      rintro rfl
      exact hT hmem
    funext j
    exact hwords b j fun hne => hb hne.1
  have hinterior : (m.setWord page i w).Interior pt := by
    intro p b j hp hb hvalid
    rw [hnode p hp.le] at hb
    have hne : ¬(b = page ∧ j = i) := by
      rintro ⟨rfl, _⟩
      have hpq := h.tree.inj p q b hp.le hq.le hb hpage
      rw [hpq, hq] at hp
      omega
    rw [hwords b j hne] at hvalid ⊢
    exact h.interior p b j hp hb hvalid
  refine ⟨h.of_extends hext (h.tree.set_bottom hq hpage hchild) hinterior, hext, ?_⟩
  intro q' j hq'
  unfold PhysMem.entry
  rw [hnode q' hq'.le]
  by_cases heq : q' = q ∧ j = i
  · obtain ⟨rfl, rfl⟩ := heq
    rw [if_pos ⟨rfl, rfl⟩, hpage, Option.bind_some, hself]
  · rw [if_neg heq]
    cases hb : PathTree.node m.child pt q' with
    | none => rfl
    | some b =>
      have hne : ¬(b = page ∧ j = i) := by
        rintro ⟨rfl, rfl⟩
        exact heq ⟨h.tree.inj q' q b hq'.le hq.le hb hpage, rfl⟩
      simp only [Option.bind_some]
      rw [hwords b j hne]

theorem pxPath_two (va : ℕ) : pxPath va 2 = [px 2 va, px 1 va] := rfl

theorem PhysMem.PageTable.setLeaf_lookup
    (h : m.PageTable pt T) (w : ℕ) (halign : a % pgsize = 0) (ha : a < maxva)
    (hpage : PathTree.node m.child pt (pxPath a 2) = some page) {b : ℕ} (hb : b % pgsize = 0) :
    (m.setWord page (px 0 a) w).lookup pt b = if b = a then if w &&& pteV ≠ 0 then some w else none
      else m.lookup pt b := by
  by_cases hlt : b < maxva
  · rw [lookup_eq _ pt hlt, m.lookup_eq pt hlt,
      (h.setLeaf (px 0 a) w (length_pxPath a 2) hpage).2.2 _ _ (length_pxPath b 2)]
    have hiff : (pxPath b 2 = pxPath a 2 ∧ px 0 b = px 0 a) ↔ b = a := by
      constructor
      · rintro ⟨hpath, h0⟩
        rw [pxPath_two, pxPath_two] at hpath
        simp only [List.cons.injEq, and_true] at hpath
        exact px_inj hb halign hlt ha hpath.1 hpath.2 h0
      · rintro rfl
        exact ⟨rfl, rfl⟩
    simp only [hiff]
  · have hne : b ≠ a := by
      rintro rfl
      exact hlt ha
    rw [if_neg hne, lookup_of_le _ pt (not_lt.mp hlt), m.lookup_of_le pt (not_lt.mp hlt)]

/-! ## `mappages` -/

/-- The PTE that `mappages` writes for page `j` of its range. -/
def mapPte (pa perm j : ℕ) : ℕ := pa2pte ((pa + j * pgsize) % 2 ^ 64) ||| perm ||| pteV

theorem mapPte_zero (hpa : pa < 2 ^ 64) : mapPte pa perm 0 = pa2pte pa ||| perm ||| pteV := by
  unfold mapPte
  rw [Nat.zero_mul, Nat.add_zero, Nat.mod_eq_of_lt hpa]

theorem mapPte_succ (pa perm j : ℕ) :
    mapPte ((pa + pgsize) % 2 ^ 64) perm j = mapPte pa perm (j + 1) := by
  have hoffset : pa + pgsize + j * pgsize = pa + (j + 1) * pgsize := by ring
  unfold mapPte
  rw [Nat.mod_add_mod, hoffset]

theorem pgsize_pos : 0 < pgsize := by decide

theorem next_page_eq (ha : a < maxva) : (a + pgsize) % 2 ^ 64 = a + pgsize := by
  unfold maxva at ha
  unfold pgsize
  omega

theorem ne_last_page (hn : n + 1 < 2 ^ 52) : a ≠ (a + (n + 1) * pgsize) % 2 ^ 64 := by
  unfold pgsize
  omega

theorem next_page_index (a j : ℕ) : a + pgsize + j * pgsize = a + (j + 1) * pgsize := by ring

theorem mapLoop_round (h : m.PageTable pt T) (halign : a % pgsize = 0)
    (hpa : pa < 2 ^ 64) (hloop : mapLoop pt last perm (n + 1) a pa m = .ok (r, m')) : (r = false ∧
    ∃ T', m'.PageTable pt T' ∧ m.Extends T m' T' ∧ ∀ b, m'.lookup pt b = m.lookup pt b) ∨
    ∃ m₁ T1, m₁.PageTable pt T1 ∧ m.Extends T m₁ T1 ∧ a < maxva ∧
    m.lookup pt a = none ∧ m₁.lookup pt a = some (mapPte pa perm 0) ∧ (∀ b, b % pgsize = 0 →
    b ≠ a → m₁.lookup pt b = m.lookup pt b) ∧ (a = last ∧ r = true ∧ m' = m₁ ∨ a ≠ last ∧
    mapLoop pt last perm n ((a + pgsize) % 2 ^ 64) ((pa + pgsize) % 2 ^ 64) m₁ = .ok (r, m')) := by
  rw [mapLoop] at hloop
  split at hloop
  · contradiction
  · rename_i m₁ hwalk
    obtain ⟨rfl, rfl⟩ := Prod.mk.inj (Except.ok.inj hloop)
    obtain ⟨_, T', htable, hext, _, hlookup⟩ := h.walk hwalk
    exact Or.inl ⟨rfl, T', htable, hext, hlookup⟩
  · rename_i page i m₁ hwalk
    obtain ⟨ha, T1, htable, hext, hslot, hlookup⟩ := h.walk hwalk
    obtain ⟨rfl, hpage⟩ := hslot page i rfl
    split at hloop
    · contradiction
    · rename_i hinvalid
      have hset := htable.setLeaf (px 0 a) (pa2pte pa ||| perm ||| pteV) (length_pxPath a 2) hpage
      have hbind := fun b (hb : b % pgsize = 0) =>
        htable.setLeaf_lookup (pa2pte pa ||| perm ||| pteV) halign ha hpage hb
      refine Or.inr ⟨_, T1, hset.1, hext.trans hset.2.1, ha, ?_, ?_, ?_, ?_⟩
      · rw [← hlookup a, m₁.lookup_eq pt ha, PhysMem.entry, hpage,
          Option.bind_some, if_neg hinvalid]
      · rw [hbind a halign, if_pos rfl, if_pos (or_pteV_valid _), mapPte_zero hpa]
      · intro b hb hne
        rw [hbind b hb, if_neg hne, hlookup b]
      · dsimp only at hloop
        split at hloop
        · rename_i heq
          obtain ⟨rfl, rfl⟩ := Prod.mk.inj (Except.ok.inj hloop)
          exact Or.inl ⟨heq, rfl, rfl⟩
        · rename_i hne
          exact Or.inr ⟨hne, hloop⟩

/-- The first `k` pages from `va` on have been bound, and nothing else. -/
structure PhysMem.Bound (m : PhysMem) (pt va pa perm k : ℕ)
    (m' : PhysMem) : Prop where
  free : ∀ j < k, va + j * pgsize < maxva ∧ m.lookup pt (va + j * pgsize) = none
  bound : ∀ j < k, m'.lookup pt (va + j * pgsize) = some (mapPte pa perm j)
  other : ∀ b, b % pgsize = 0 → (∀ j < k, b ≠ va + j * pgsize) → m'.lookup pt b = m.lookup pt b

theorem PhysMem.Bound.zero (h : ∀ b, m'.lookup pt b = m.lookup pt b) :
    m.Bound pt va pa perm 0 m' := by
  constructor
  · simp
  · simp
  · exact fun b _ _ => h b

theorem PhysMem.Bound.cons {k : ℕ} (halign : va % pgsize = 0) (hva : va < maxva)
    (hfree : m.lookup pt va = none) (hbound : m₁.lookup pt va = some (mapPte pa perm 0))
    (hother : ∀ b, b % pgsize = 0 → b ≠ va → m₁.lookup pt b = m.lookup pt b)
    (hrest : m₁.Bound pt (va + pgsize) ((pa + pgsize) % 2 ^ 64) perm k m') :
    m.Bound pt va pa perm (k + 1) m' := by
  have hpos := pgsize_pos
  have halign' : ∀ j, (va + (j + 1) * pgsize) % pgsize = 0 := by
    simp [halign]
  have hne : ∀ j, va + (j + 1) * pgsize ≠ va := by
    intro j
    have hmul : 0 < (j + 1) * pgsize := Nat.mul_pos (Nat.succ_pos j) hpos
    omega
  constructor
  · intro j hj
    cases j with
    | zero => simpa using ⟨hva, hfree⟩
    | succ j =>
      obtain ⟨hlt, hnone⟩ := hrest.free j (by omega)
      rw [next_page_index] at hlt hnone
      exact ⟨hlt, (hother _ (halign' j) (hne j)).symm.trans hnone⟩
  · intro j hj
    cases j with
    | zero =>
      rw [Nat.zero_mul, Nat.add_zero, hrest.other va halign, hbound]
      intro j _
      rw [next_page_index]
      exact (hne j).symm
    | succ j =>
      have hj := hrest.bound j (by omega)
      rwa [next_page_index, mapPte_succ] at hj
  · intro b hb hnot
    rw [hrest.other b hb, hother b hb]
    · simpa using hnot 0 (by omega)
    · intro j hj
      rw [next_page_index]
      exact hnot (j + 1) (by omega)

theorem mapLoop_spec (h : m.PageTable pt T) (halign : a % pgsize = 0)
    (hn : n < 2 ^ 52) (hpa : pa < 2 ^ 64)
    (hloop : mapLoop pt ((a + n * pgsize) % 2 ^ 64) perm (n + 1) a pa m = .ok (r, m')) :
    ∃ k T', k ≤ n + 1 ∧ (r = true ↔ k = n + 1) ∧ m'.PageTable pt T' ∧ m.Extends T m' T' ∧
      m.Bound pt a pa perm k m' := by
  induction n generalizing m T a pa with
  | zero =>
    rcases mapLoop_round h halign hpa hloop with
      ⟨rfl, T', htable, hext, hlookup⟩ |
      ⟨m₁, T1, htable, hext, ha, hfree, hbound, hother, hnext⟩
    · exact ⟨0, T', by omega, by simp, htable, hext, .zero hlookup⟩
    · rcases hnext with ⟨_, rfl, rfl⟩ | ⟨hne, _⟩
      · exact ⟨1, T1, le_refl _, by simp, htable, hext,
          .cons halign ha hfree hbound hother (.zero fun _ => rfl)⟩
      · exfalso
        unfold maxva at ha
        omega
  | succ n ih =>
    rcases mapLoop_round h halign hpa hloop with
      ⟨rfl, T', htable, hext, hlookup⟩ |
      ⟨m₁, T1, htable, hext, ha, hfree, hbound, hother, hnext⟩
    · exact ⟨0, T', by omega, by simp, htable, hext, .zero hlookup⟩
    · rcases hnext with ⟨heq, _, _⟩ | ⟨_, hrest⟩
      · exact absurd heq (ne_last_page hn)
      · rw [next_page_eq ha, ← next_page_index] at hrest
        obtain ⟨k, T', hk, hr, htable', hext', hmap⟩ := ih htable (by simp [halign]) (by omega)
            (Nat.mod_lt _ (by decide)) hrest
        exact ⟨k + 1, T', by omega, hr.trans (by omega), htable',
          hext.trans hext', .cons halign ha hfree hbound hother hmap⟩

theorem PhysMem.PageTable.mappages {size : ℕ} (h : m.PageTable pt T) (hsize : size < 2 ^ 64)
    (hpa : pa < 2 ^ 64) (hcall : Xv6.mappages pt va size pa perm m = .ok (r, m')) :
    ∃ k T', k ≤ size / pgsize ∧ (r = true ↔ k = size / pgsize) ∧
    m'.PageTable pt T' ∧ m.Extends T m' T' ∧ m.Bound pt va pa perm k m' := by
  unfold Xv6.mappages at hcall
  split at hcall
  · contradiction
  · split at hcall
    · contradiction
    · split at hcall
      · contradiction
      · rename_i halign hsizealign hpos
        obtain ⟨n, hn, hlt, hlast⟩ : ∃ n, size / pgsize = n + 1 ∧
            n < 2 ^ 52 ∧ va + size - pgsize = va + n * pgsize := by
          refine ⟨size / pgsize - 1, ?_⟩
          simp only [pgsize, not_not] at hsizealign ⊢
          omega
        rw [hn, hlast] at hcall
        rw [hn]
        exact mapLoop_spec h (not_not.mp halign) hlt hpa hcall

/-! ## `uvmunmap` -/

theorem kfree_of_inRange (hrange : m.InRange pa) : ∃ m₁, kfree pa m = .ok m₁ ∧
    m₁.freelist = pa :: m.freelist ∧ m₁.kend = m.kend ∧ ∀ b, b ≠ pa → m₁.words b = m.words b := by
  obtain ⟨halign, hend, hstop⟩ := hrange
  have hcheck : ¬(pa % pgsize ≠ 0 ∨ pa < m.kend ∨ pa ≥ phystop) := by
    omega
  refine ⟨_, if_neg hcheck, rfl, rfl, ?_⟩
  intro b hb
  exact Function.update_of_ne hb _ _

theorem inRange_of_kfree (hfree : kfree pa m = .ok m') : m.InRange pa := by
  unfold kfree at hfree
  split at hfree
  · contradiction
  · rename_i hcheck
    unfold PhysMem.InRange
    omega

theorem PhysMem.PageTable.free (h : m.PageTable pt T) (hrange : m.InRange pa)
    (hfresh : pa ∉ T ++ m.freelist) (hfree : m'.freelist = pa :: m.freelist)
    (hkend : m'.kend = m.kend) (hwords : ∀ b, b ≠ pa → m'.words b = m.words b) :
    m'.PageTable pt T ∧ ∀ b, m'.lookup pt b = m.lookup pt b := by
  have hT : ∀ b ∈ T, m'.words b = m.words b := by
    intro b hb
    refine hwords b ?_
    rintro rfl
    exact hfresh (List.mem_append_left _ hb)
  have hperm : (T ++ m'.freelist).Perm (pa :: (T ++ m.freelist)) := by
    rw [hfree]
    exact List.perm_middle
  refine ⟨⟨tree_congr h.tree hT, interior_congr h.tree h.interior hT, ?_, ?_⟩,
    lookup_congr h.tree hT⟩
  · exact hperm.nodup_iff.mpr (List.nodup_cons.mpr ⟨hfresh, h.nodup⟩)
  · intro a ha
    unfold InRange
    rw [hkend]
    rcases List.mem_cons.mp (hperm.mem_iff.mp ha) with rfl | ha
    · exact hrange
    · exact h.range a ha

theorem PhysMem.walk_of_lookup (hpte : m.lookup pt a = some pte) :
    a < maxva ∧ ∃ page, walk pt a false m = .ok (some (page, px 0 a), m) ∧ PathTree.node m.child pt
    (pxPath a 2) = some page ∧ m.words page (px 0 a) = pte ∧ pte &&& pteV ≠ 0 := by
  have ha : a < maxva := by
    by_contra hge
    rw [m.lookup_of_le pt (not_lt.mp hge)] at hpte
    contradiction
  refine ⟨ha, ?_⟩
  rw [m.lookup_eq pt ha, PhysMem.entry, Option.bind_eq_some_iff] at hpte
  obtain ⟨page, hpage, hword⟩ := hpte
  simp only [Option.ite_none_right_eq_some, Option.some.injEq] at hword
  refine ⟨page, ?_, hpage, hword.2, hword.2 ▸ hword.1⟩
  unfold Xv6.walk
  rw [if_neg (not_le.mpr ha), walkFrom_false, hpage]
  rfl

/-- What the removal of one page does to memory. -/
structure PhysMem.Unbound (m : PhysMem) (pt : ℕ) (T : List ℕ) (a pte : ℕ)
    (doFree : Bool) (m' : PhysMem) : Prop where
  table : m'.PageTable pt T
  freelist : m'.freelist = if doFree = true then pte2pa pte :: m.freelist else m.freelist
  kend : m'.kend = m.kend
  frame : ∀ b, b ∉ T → (doFree = true → b ≠ pte2pa pte) → m'.words b = m.words b
  removed : m'.lookup pt a = none
  other : ∀ b, b % pgsize = 0 → b ≠ a → m'.lookup pt b = m.lookup pt b

theorem PhysMem.PageTable.unbind (h : m.PageTable pt T) (halign : a % pgsize = 0) (ha : a < maxva)
    (hpage : PathTree.node m.child pt (pxPath a 2) = some page) (htable : m₁.PageTable pt T)
    (hfreelist : m₁.freelist = if doFree = true then pte2pa pte :: m.freelist else m.freelist)
    (hkend : m₁.kend = m.kend) (hwords : ∀ b, (doFree = true → b ≠ pte2pa pte) →
    m₁.words b = m.words b) (hfresh : doFree = true → pte2pa pte ∉ T) :
    m.Unbound pt T a pte doFree (m₁.setWord page (px 0 a) 0) := by
  have hT : ∀ b ∈ T, m₁.words b = m.words b := by
    intro b hb
    refine hwords b ?_
    rintro hfree rfl
    exact hfresh hfree hb
  have hpage1 : PathTree.node m₁.child pt (pxPath a 2) = some page := by
    rw [h.tree.node_congr (fun b hb => child_congr (hT b hb)) (by simp), hpage]
  have hlookup := lookup_congr h.tree hT
  obtain ⟨htable', hext, _⟩ := htable.setLeaf (px 0 a) 0 (length_pxPath a 2) hpage1
  have hleaf := fun b (hb : b % pgsize = 0) =>
    htable.setLeaf_lookup 0 halign ha hpage1 hb
  refine ⟨htable', hfreelist, hkend, ?_, ?_, ?_⟩
  · intro b hb hne
    have hb' : b ≠ page := by
      rintro rfl
      exact hb (h.tree.node_mem (by simp) hpage)
    rw [← hwords b hne]
    exact Function.update_of_ne hb' _ _
  · rw [hleaf a halign, if_pos rfl]
    rfl
  · intro b hb hne
    rw [hleaf b hb, if_neg hne, hlookup b]

theorem unmapLoop_succ (h : m.PageTable pt T) (halign : a % pgsize = 0) (hlast : a < last)
    (hpte : m.lookup pt a = some pte) (hleaf : pteFlags pte ≠ pteV) (hfree : doFree = true →
    m.InRange (pte2pa pte) ∧ pte2pa pte ∉ T ++ m.freelist) : ∃ m2, unmapLoop pt last doFree
    (n + 1) a m = unmapLoop pt last doFree n (a + pgsize) m2 ∧ m.Unbound pt T a pte doFree m2 := by
  obtain ⟨ha, page, hwalk, hpage, hword, hvalid⟩ := m.walk_of_lookup hpte
  rw [unmapLoop, if_pos hlast, hwalk]
  dsimp only
  rw [hword, if_neg hvalid, if_neg hleaf, next_page_eq ha]
  cases doFree with
  | false =>
    refine ⟨_, rfl, h.unbind halign ha hpage h rfl rfl (fun _ _ => rfl) ?_⟩
    simp
  | true =>
    obtain ⟨hrange, hfresh⟩ := hfree rfl
    obtain ⟨m₁, heq, hfl, hkend, hwords⟩ := kfree_of_inRange hrange
    simp only [if_true, heq]
    refine ⟨_, rfl, h.unbind halign ha hpage (h.free hrange hfresh hfl hkend hwords).1 hfl hkend
      (fun b hb => hwords b (hb rfl)) ?_⟩
    exact fun _ hT => hfresh (List.mem_append_left _ hT)

theorem bound_of_unmapLoop (hlast : a < last)
    (hloop : unmapLoop pt last doFree (n + 1) a m = .ok m') : ∃ pte, m.lookup pt a = some pte ∧
    pteFlags pte ≠ pteV ∧ (doFree = true → m.InRange (pte2pa pte)) := by
  rw [unmapLoop, if_pos hlast] at hloop
  split at hloop
  · contradiction
  · contradiction
  · rename_i page i m₁ hwalk
    have hm : m₁ = m := by
      unfold walk at hwalk
      split at hwalk
      · contradiction
      · rw [walkFrom_false] at hwalk
        exact (Prod.mk.inj (Except.ok.inj hwalk)).2.symm
    subst hm
    split at hloop
    · contradiction
    · rename_i hvalid
      split at hloop
      · contradiction
      · rename_i hleaf
        refine ⟨m₁.words page i, ?_, hleaf, ?_⟩
        · unfold PhysMem.lookup
          rw [hwalk]
          exact if_pos hvalid
        · intro hfree
          rw [if_pos hfree] at hloop
          split at hloop
          · contradiction
          · rename_i m2 hkfree
            exact inRange_of_kfree hkfree

/-- The physical pages bound in a range of `n` pages. -/
def PhysMem.named (m : PhysMem) (pt : ℕ) : ℕ → ℕ → List ℕ
  | 0, _ => []
  | n + 1, a =>
    ((m.lookup pt a).map pte2pa).toList ++ m.named pt n (a + pgsize)

theorem PhysMem.named_congr (h : ∀ j < n, m'.lookup pt (a + j * pgsize) =
      m.lookup pt (a + j * pgsize)) : m'.named pt n a = m.named pt n a := by
  induction n generalizing a with
  | zero => rfl
  | succ n ih =>
    have hfirst := h 0 (by omega)
    rw [Nat.zero_mul, Nat.add_zero] at hfirst
    rw [PhysMem.named, PhysMem.named, hfirst, ih]
    intro j hj
    rw [next_page_index]
    exact h (j + 1) (by omega)

/-- Page `a` is bound, as `uvmunmap` wants it. -/
def PhysMem.Removable (m : PhysMem) (pt : ℕ) (doFree : Bool) (a : ℕ) : Prop :=
  ∃ pte, m.lookup pt a = some pte ∧ pteFlags pte ≠ pteV ∧ (doFree = true → m.InRange (pte2pa pte))

/-- The `n` pages from `va` on have been removed, and nothing else. -/
structure PhysMem.Removed (m : PhysMem) (pt : ℕ) (T : List ℕ) (va n : ℕ)
    (doFree : Bool) (m' : PhysMem) : Prop where
  table : m'.PageTable pt T
  freelist : m'.freelist.Perm
    ((if doFree = true then m.named pt n va else []) ++ m.freelist)
  kend : m'.kend = m.kend
  frame : ∀ b, b ∉ T → (doFree = true → b ∉ m.named pt n va) → m'.words b = m.words b
  removed : ∀ j < n, m'.lookup pt (va + j * pgsize) = none
  other : ∀ b, b % pgsize = 0 → (∀ j < n, b ≠ va + j * pgsize) → m'.lookup pt b = m.lookup pt b

theorem PhysMem.Removed.zero (h : m.PageTable pt T) : m.Removed pt T va 0 doFree m := by
  refine ⟨h, ?_, rfl, fun _ _ _ => rfl, by simp, fun _ _ _ => rfl⟩
  cases doFree <;> exact List.Perm.refl _

theorem PhysMem.Removed.cons (halign : va % pgsize = 0)
    (hpte : m.lookup pt va = some pte) (hfirst : m.Unbound pt T va pte doFree m₁)
    (hnamed : m₁.named pt n (va + pgsize) = m.named pt n (va + pgsize))
    (hrest : m₁.Removed pt T (va + pgsize) n doFree m') : m.Removed pt T va (n + 1) doFree m' := by
  have hcons : m.named pt (n + 1) va = pte2pa pte :: m.named pt n (va + pgsize) := by
    simp [PhysMem.named, hpte]
  refine ⟨hrest.table, ?_, hrest.kend.trans hfirst.kend, ?_, ?_, ?_⟩
  · have hperm := hrest.freelist
    rw [hfirst.freelist, hnamed] at hperm
    rw [hcons]
    cases doFree with
    | false => exact hperm
    | true => exact hperm.trans List.perm_middle
  · intro b hT hb
    rw [hcons] at hb
    rw [hrest.frame b hT, hfirst.frame b hT]
    · rintro hfree rfl
      exact hb hfree (by simp)
    · rw [hnamed]
      exact fun hfree hmem => hb hfree (List.mem_cons_of_mem _ hmem)
  · intro j hj
    cases j with
    | zero =>
      by_cases hself : ∃ k < n, va = va + pgsize + k * pgsize
      · obtain ⟨k, hk, heq⟩ := hself
        rw [Nat.zero_mul, Nat.add_zero, heq]
        exact hrest.removed k hk
      · push Not at hself
        rw [Nat.zero_mul, Nat.add_zero, hrest.other va halign hself]
        exact hfirst.removed
    | succ j =>
      rw [← next_page_index]
      exact hrest.removed j (by omega)
  · intro b hb hnot
    rw [hrest.other b hb, hfirst.other b hb]
    · simpa using hnot 0 (by omega)
    · intro j hj
      rw [next_page_index]
      exact hnot (j + 1) (by omega)

def PhysMem.Freeable (m : PhysMem) (pt : ℕ) (T : List ℕ) (n a : ℕ) (doFree : Bool) : Prop :=
  doFree = true → (m.named pt n a ++ (T ++ m.freelist)).Nodup

theorem PhysMem.Freeable.head (h : m.Freeable pt T (n + 1) a doFree)
    (hpte : m.lookup pt a = some pte) (hfree : doFree = true) : pte2pa pte ∉ T ++ m.freelist := by
  have hnodup := h hfree
  simp only [PhysMem.named, hpte, Option.map_some, Option.toList_some,
    List.cons_append, List.nil_append, List.nodup_cons] at hnodup
  exact fun hmem => hnodup.1 (List.mem_append_right _ hmem)

theorem PhysMem.Freeable.tail (h : m.Freeable pt T (n + 1) a doFree)
    (hpte : m.lookup pt a = some pte) (hfirst : m.Unbound pt T a pte doFree m₁)
    (hnamed : m₁.named pt n (a + pgsize) = m.named pt n (a + pgsize)) :
    m₁.Freeable pt T n (a + pgsize) doFree := by
  intro hfree
  have hnodup := h hfree
  simp only [PhysMem.named, hpte, Option.map_some, Option.toList_some,
    List.cons_append, List.nil_append] at hnodup
  rw [hnamed, hfirst.freelist, if_pos hfree]
  refine (List.Perm.nodup_iff ?_).mpr hnodup
  rw [← List.append_assoc, ← List.append_assoc]
  exact List.perm_middle

theorem PhysMem.Unbound.named_eq (h : m.Unbound pt T a pte doFree m₁)
    (halign : a % pgsize = 0) (n : ℕ) : m₁.named pt n (a + pgsize) = m.named pt n (a + pgsize) := by
  refine named_congr fun j _ => ?_
  rw [next_page_index]
  refine h.other _ (by simp [halign]) ?_
  have hmul : 0 < (j + 1) * pgsize := Nat.mul_pos (Nat.succ_pos j) pgsize_pos
  omega

theorem PhysMem.Unbound.removable {b : ℕ} (h : m.Unbound pt T a pte doFree m₁)
    (hb : b % pgsize = 0) (hne : b ≠ a) : m₁.Removable pt doFree b ↔ m.Removable pt doFree b := by
  unfold Removable InRange
  rw [h.other b hb hne, h.kend]

theorem page_index_lt : a < a + (n + 1) * pgsize := by
  have hmul : 0 < (n + 1) * pgsize := Nat.mul_pos (Nat.succ_pos n) pgsize_pos
  omega

theorem unmapLoop_spec (h : m.PageTable pt T) (halign : a % pgsize = 0)
    (hfresh : m.Freeable pt T n a doFree)
    (hloop : unmapLoop pt (a + n * pgsize) doFree n a m = .ok m') :
    (∀ j < n, m.Removable pt doFree (a + j * pgsize)) ∧ m.Removed pt T a n doFree m' := by
  induction n generalizing m a with
  | zero =>
    obtain rfl := Except.ok.inj hloop
    exact ⟨by simp, .zero h⟩
  | succ n ih =>
    obtain ⟨pte, hpte, hleaf, hrange⟩ := bound_of_unmapLoop page_index_lt hloop
    obtain ⟨m₁, heq, hfirst⟩ := unmapLoop_succ (n := n) h halign page_index_lt hpte hleaf
      fun hfree => ⟨hrange hfree, hfresh.head hpte hfree⟩
    have hnamed := hfirst.named_eq halign n
    rw [heq, ← next_page_index] at hloop
    obtain ⟨hbound, hremoved⟩ := ih hfirst.table (by simp [halign])
      (hfresh.tail hpte hfirst hnamed) hloop
    refine ⟨?_, .cons halign hpte hfirst hnamed hremoved⟩
    intro j hj
    cases j with
    | zero =>
      rw [Nat.zero_mul, Nat.add_zero]
      exact ⟨pte, hpte, hleaf, hrange⟩
    | succ j =>
      have hj := hbound j (by omega)
      rw [next_page_index] at hj
      refine (hfirst.removable (by simp [halign]) ?_).mp hj
      exact (page_index_lt (a := a) (n := j)).ne'

theorem unmapLoop_ok (h : m.PageTable pt T) (halign : a % pgsize = 0)
    (hfresh : m.Freeable pt T n a doFree)
    (hbound : ∀ j < n, m.Removable pt doFree (a + j * pgsize)) :
    ∃ m', unmapLoop pt (a + n * pgsize) doFree n a m = .ok m' := by
  induction n generalizing m a with
  | zero => exact ⟨m, rfl⟩
  | succ n ih =>
    have hhead := hbound 0 (by omega)
    rw [Nat.zero_mul, Nat.add_zero] at hhead
    obtain ⟨pte, hpte, hleaf, hrange⟩ := hhead
    obtain ⟨m₁, heq, hfirst⟩ := unmapLoop_succ (n := n) h halign page_index_lt hpte hleaf
      fun hfree => ⟨hrange hfree, hfresh.head hpte hfree⟩
    rw [heq, ← next_page_index]
    refine ih hfirst.table (by simp [halign])
      (hfresh.tail hpte hfirst (hfirst.named_eq halign n)) ?_
    intro j hj
    have hj := hbound (j + 1) (by omega)
    rw [next_page_index]
    refine (hfirst.removable (by simp [halign]) ?_).mpr hj
    exact (page_index_lt (a := a) (n := j)).ne'

theorem uvmunmap_eq {npages : ℕ} (hwrap : va + npages * pgsize < 2 ^ 64)
    (halign : va % pgsize = 0) : Xv6.uvmunmap pt va npages doFree m = unmapLoop pt
    (va + npages * pgsize) doFree npages va m := by
  have hmod : (va + npages * pgsize % 2 ^ 64) % 2 ^ 64 = va + npages * pgsize := by
    rw [Nat.add_mod_mod, Nat.mod_eq_of_lt hwrap]
  have hrounds : (va + npages * pgsize - va) / pgsize = npages := by
    rw [Nat.add_sub_cancel_left, Nat.mul_div_cancel _ pgsize_pos]
  unfold Xv6.uvmunmap
  rw [if_neg (not_not.mpr halign)]
  simp only [hmod, hrounds]

theorem PhysMem.PageTable.uvmunmap {npages : ℕ} (h : m.PageTable pt T)
    (hwrap : va + npages * pgsize < 2 ^ 64) (hfresh : m.Freeable pt T npages va doFree)
    (hcall : Xv6.uvmunmap pt va npages doFree m = .ok m') :
    (∀ j < npages, m.Removable pt doFree (va + j * pgsize)) ∧
    m.Removed pt T va npages doFree m' := by
  by_cases halign : va % pgsize = 0
  · rw [uvmunmap_eq hwrap halign] at hcall
    exact unmapLoop_spec h halign hfresh hcall
  · unfold Xv6.uvmunmap at hcall
    rw [if_pos halign] at hcall
    contradiction

end

/-! ## Tables built by calls -/

/-- No page that is freed is free already, or a page of the table, or freed
twice. -/
def PhysMem.FreesOwn (m : PhysMem) (pt va npages : ℕ) : Prop :=
  (m.named pt npages va).Nodup ∧ ∀ a ∈ m.named pt npages va,
    a ∉ m.freelist ∧ ∀ p : List (Fin 512), p.length ≤ 2 → PathTree.node m.child pt p ≠ some a

theorem PhysMem.FreesOwn.freeable {m : PhysMem} {pt va npages : ℕ} {T : List ℕ}
    {doFree : Bool} (h : m.PageTable pt T) (hown : doFree = true → m.FreesOwn pt va npages) :
    m.Freeable pt T npages va doFree := by
  intro hfree
  obtain ⟨hnodup, hother⟩ := hown hfree
  refine List.nodup_append.mpr ⟨hnodup, h.nodup, ?_⟩
  rintro a ha b hb rfl
  obtain ⟨hfreelist, hpath⟩ := hother a ha
  rcases List.mem_append.mp hb with hT | hF
  · obtain ⟨p, hp, hnode⟩ := (h.tree.mem a).mp hT
    exact hpath p hp hnode
  · exact hfreelist hF

/-- The page table at `pt` has been built from an empty one by `mappages` and
`uvmunmap`. -/
inductive Built (pt : ℕ) : PhysMem → Prop
  | empty {m : PhysMem} (hzero : m.words pt = fun _ => 0)
      (hnodup : (pt :: m.freelist).Nodup)
      (hrange : ∀ a ∈ pt :: m.freelist, m.InRange a) : Built pt m
  | mappages {m m' : PhysMem} {va size pa perm : ℕ} {r : Bool}
      (h : Built pt m) (hsize : size < 2 ^ 64) (hpa : pa < 2 ^ 64)
      (hcall : Xv6.mappages pt va size pa perm m = .ok (r, m')) :
      Built pt m'
  | uvmunmap {m m' : PhysMem} {va npages : ℕ} {doFree : Bool}
      (h : Built pt m) (hwrap : va + npages * pgsize < 2 ^ 64)
      (hown : doFree = true → m.FreesOwn pt va npages)
      (hcall : Xv6.uvmunmap pt va npages doFree m = .ok m') : Built pt m'

theorem Built.pageTable {pt : ℕ} {m : PhysMem} (h : Built pt m) : ∃ T, m.PageTable pt T := by
  induction h with
  | @empty m hzero hnodup hrange =>
    refine ⟨[pt], IsTree.single (fun i => ?_) 2, ?_, hnodup, hrange⟩
    · simp [PhysMem.child, hzero]
    · intro p a i _ ha hvalid
      cases p with
      | nil =>
        obtain rfl := Option.some.inj ha
        simp [hzero] at hvalid
      | cons j p => simp [node_cons, PhysMem.child, hzero] at ha
  | mappages h hsize hpa hcall ih =>
    obtain ⟨T, htable⟩ := ih
    obtain ⟨k, T', _, _, htable', _⟩ := htable.mappages hsize hpa hcall
    exact ⟨T', htable'⟩
  | uvmunmap h hwrap hown hcall ih =>
    obtain ⟨T, htable⟩ := ih
    exact ⟨T, (htable.uvmunmap hwrap (PhysMem.FreesOwn.freeable htable hown) hcall).2.table⟩

/-- A page table is a finite map, which `mappages` and `uvmunmap` change as
they should, as long as the end of a range does not wrap around and pages that
are freed with it are the caller's to free. -/
theorem page_table_map {pt : ℕ} {m : PhysMem} (h : Built pt m) :
    {va | va % pgsize = 0 ∧ m.lookup pt va ≠ none}.Finite ∧
      (∀ va size pa perm r m', size < 2 ^ 64 → pa < 2 ^ 64 →
        mappages pt va size pa perm m = .ok (r, m') →
          (r = true → m.Bound pt va pa perm (size / pgsize) m') ∧
            (r = false → ∃ k < size / pgsize, m.Bound pt va pa perm k m')) ∧
      (∀ pa perm, pa % pgsize = 0 → pa < 2 ^ 56 → perm < 2 ^ 10 →
        pte2pa (pa2pte pa ||| perm ||| pteV) = pa ∧
          pteFlags (pa2pte pa ||| perm ||| pteV) = perm ||| pteV) ∧
      ∀ va npages doFree m', va + npages * pgsize < 2 ^ 64 →
        (doFree = true → m.FreesOwn pt va npages) →
        uvmunmap pt va npages doFree m = .ok m' →
          (∀ j < npages, m.lookup pt (va + j * pgsize) ≠ none ∧
            m'.lookup pt (va + j * pgsize) = none) ∧
          ∀ b, b % pgsize = 0 → (∀ j < npages, b ≠ va + j * pgsize) →
            m'.lookup pt b = m.lookup pt b := by
  obtain ⟨T, htable⟩ := h.pageTable
  refine ⟨?_, ?_, ?_, ?_⟩
  · refine (Set.finite_Iio maxva).subset ?_
    rintro va ⟨_, hbound⟩
    by_contra hge
    exact hbound (m.lookup_of_le pt (not_lt.mp hge))
  · intro va size pa perm r m' hsize hpa hcall
    obtain ⟨k, T', hk, hr, _, _, hbound⟩ := htable.mappages hsize hpa hcall
    constructor
    · intro htrue
      exact hr.mp htrue ▸ hbound
    · intro hfalse
      refine ⟨k, lt_of_le_of_ne hk fun heq => ?_, hbound⟩
      rw [hr.mpr heq] at hfalse
      contradiction
  · intro pa perm halign hpa hperm
    have hflags : perm ||| pteV < 2 ^ 10 := Nat.or_lt_two_pow hperm (by decide)
    rw [Nat.or_assoc]
    exact ⟨pte2pa_pa2pte_or halign hpa hflags, pteFlags_pa2pte_or pa hflags⟩
  · intro va npages doFree m' hwrap hown hcall
    obtain ⟨hbound, hremoved⟩ := htable.uvmunmap hwrap (PhysMem.FreesOwn.freeable htable hown) hcall
    refine ⟨?_, hremoved.other⟩
    intro j hj
    obtain ⟨pte, hpte, _⟩ := hbound j hj
    exact ⟨by simp [hpte], hremoved.removed j hj⟩

def emptyTable : PhysMem where
  words := fun _ _ => 0
  freelist := [0x80021000, 0x80022000, 0x80023000]
  fails := []
  kend := 0x80020000

theorem emptyTable_built : Built 0x80020000 emptyTable := by
  refine .empty rfl (by decide) ?_
  unfold PhysMem.InRange
  decide

theorem exists_ok_of_any {ε α : Type} {x : Except ε α} {f : α → Bool}
    (h : (x.toOption.any f) = true) : ∃ a, x = .ok a ∧ f a = true := by
  cases x with
  | error e => contradiction
  | ok a => exact ⟨a, rfl, h⟩

theorem page_table_map_two_pages : ∃ m', mappages 0x80020000 0 0x2000 0x80000000 pteR emptyTable =
        .ok (true, m') ∧
      m'.lookup 0x80020000 0x1000 = some (mapPte 0x80000000 pteR 1) := by
  obtain ⟨⟨r, m'⟩, hcall, hr⟩ := exists_ok_of_any
    (show ((mappages 0x80020000 0 0x2000 0x80000000 pteR
      emptyTable).toOption.any fun x => x.1) = true by decide +kernel)
  obtain rfl : r = true := hr
  have hmap := ((page_table_map emptyTable_built).2.1 _ _ _ _ _ _
    (by decide) (by decide) hcall).1 rfl
  exact ⟨m', hcall, hmap.bound 1 (by decide)⟩

/-- Nothing is removed when `npages * PGSIZE` wraps around to 0; and freeing a
page that is bound, but belongs to the table, loses other bindings. -/
theorem uvmunmap_wraps_or_frees_table :
    (∃ m m', mappages 0x80020000 0 0x1000 0x80000000 pteR emptyTable = .ok (true, m) ∧
      uvmunmap 0x80020000 0 (2 ^ 52) false m = .ok m' ∧
      m'.lookup 0x80020000 0 ≠ none) ∧
    ∃ m₁ m₂ m₃, mappages 0x80020000 0 0x1000 0x80020000 pteR emptyTable = .ok (true, m₁) ∧
      mappages 0x80020000 0x1000 0x1000 0x80000000 pteR m₁ = .ok (true, m₂) ∧
      uvmunmap 0x80020000 0 1 true m₂ = .ok m₃ ∧
      m₂.lookup 0x80020000 0x1000 ≠ none ∧
      m₃.lookup 0x80020000 0x1000 = none := by
  constructor
  · obtain ⟨⟨r, m⟩, hmap, hm⟩ := exists_ok_of_any
      (show ((mappages 0x80020000 0 0x1000 0x80000000 pteR emptyTable).toOption.any fun x => x.1 &&
        (uvmunmap 0x80020000 0 (2 ^ 52) false x.2).toOption.any fun m' =>
          (m'.lookup 0x80020000 0).isSome) = true by decide +kernel)
    obtain ⟨rfl, hm⟩ := Bool.and_eq_true_iff.mp hm
    obtain ⟨m', hunmap, hlookup⟩ := exists_ok_of_any hm
    exact ⟨m, m', hmap, hunmap, Option.isSome_iff_ne_none.mp hlookup⟩
  · obtain ⟨⟨r₁, m₁⟩, hmap₁, hm₁⟩ := exists_ok_of_any
      (show ((mappages 0x80020000 0 0x1000 0x80020000 pteR emptyTable).toOption.any fun x => x.1 &&
        (mappages 0x80020000 0x1000 0x1000 0x80000000 pteR x.2).toOption.any fun y => y.1 &&
        ((y.2.lookup 0x80020000 0x1000).isSome &&
          (uvmunmap 0x80020000 0 1 true y.2).toOption.any fun m₃ =>
            (m₃.lookup 0x80020000 0x1000).isNone)) = true by decide +kernel)
    obtain ⟨rfl, hm₁⟩ := Bool.and_eq_true_iff.mp hm₁
    obtain ⟨⟨r₂, m₂⟩, hmap₂, hm₂⟩ := exists_ok_of_any hm₁
    obtain ⟨rfl, hm₂⟩ := Bool.and_eq_true_iff.mp hm₂
    obtain ⟨hbefore, hm₃⟩ := Bool.and_eq_true_iff.mp hm₂
    obtain ⟨m₃, hunmap, hafter⟩ := exists_ok_of_any hm₃
    exact ⟨m₁, m₂, m₃, hmap₁, hmap₂, hunmap, Option.isSome_iff_ne_none.mp hbefore,
      Option.isNone_iff_eq_none.mp hafter⟩

end Xv6
