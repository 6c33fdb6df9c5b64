import Xv6.UserMemory

/-!
# What an address space owns

Every operation on memory owns some pages and gives some of them back, or takes
free pages.  `Extends own m' own'` says that the pages that it owns and the free
pages are, together, the same before and after, and that it touches no other
page.  `Shape` says what a page table looks like that maps user memory from
address 0 on and, above it, what every process has mapped.
-/

namespace Xv6

open Function (update update_of_ne update_self)

def trampolineVa : ℕ := maxva - pgsize

def trapframeVa : ℕ := trampolineVa - pgsize

section

variable {m m' : PhysMem} {A A' B B' R own own' : List ℕ} {pt : ℕ}
  {T ptes : List ℕ} {hi : ℕ → Option ℕ}

/-! ## Ownership -/

theorem PhysMem.Extends.of_perm (h : m.Extends A m' A') (hA : A.Perm B)
    (hA' : A'.Perm B') : m.Extends B m' B' := by
  refine ⟨?_, ?_, h.kend⟩
  · exact ((hA'.symm.append_right _).trans h.perm).trans (hA.append_right _)
  · intro a ha hfree
    exact h.frame a (fun hmem => ha (hA.mem_iff.mp hmem)) hfree

theorem PhysMem.Extends.append (h : m.Extends A m' A') (R : List ℕ) :
    m.Extends (A ++ R) m' (A' ++ R) := by
  refine ⟨?_, ?_, h.kend⟩
  · rw [List.perm_iff_count]
    intro a
    have hcount := List.perm_iff_count.mp h.perm a
    simp only [List.count_append] at hcount ⊢
    omega
  · intro a ha hfree
    exact h.frame a (fun hmem => ha (List.mem_append_left _ hmem)) hfree

/-- The pages that are owned are distinct, not free, and real pages. -/
structure PhysMem.Owns (m : PhysMem) (own : List ℕ) : Prop where
  nodup : (own ++ m.freelist).Nodup
  range : ∀ a ∈ own ++ m.freelist, m.InRange a

theorem PhysMem.Owns.of_extends (h : m.Owns own) (hext : m.Extends own m' own') : m'.Owns own' := by
  refine ⟨hext.perm.nodup_iff.mpr h.nodup, ?_⟩
  intro a ha
  have hrange := h.range a (hext.perm.mem_iff.mp ha)
  unfold InRange at hrange ⊢
  rwa [hext.kend]

theorem PhysMem.Owns.of_sublist (h : m.Owns own) (hsub : own'.Sublist own) : m.Owns own' := by
  have hsub := hsub.append (List.Sublist.refl m.freelist)
  exact ⟨h.nodup.sublist hsub, fun a ha => h.range a (hsub.subset ha)⟩

theorem PhysMem.Owns.of_perm (h : m.Owns own) (hperm : own.Perm own') : m.Owns own' := by
  have hperm := hperm.append_right m.freelist
  exact ⟨hperm.nodup_iff.mp h.nodup, fun a ha => h.range a (hperm.mem_iff.mpr ha)⟩

theorem PhysMem.Owns.left (h : m.Owns (A ++ R)) : m.Owns A :=
  h.of_sublist (List.sublist_append_left A R)

theorem PhysMem.Owns.right (h : m.Owns (A ++ R)) : m.Owns R :=
  h.of_sublist (List.sublist_append_right A R)

theorem PhysMem.Owns.words_eq (h : m.Owns (A ++ R)) (hext : m.Extends A m' A') :
    ∀ a ∈ R, m'.words a = m.words a := by
  intro a ha
  have hnodup := h.nodup
  rw [List.append_assoc] at hnodup
  obtain ⟨_, hrest, hA⟩ := List.nodup_append.mp hnodup
  refine hext.frame a ?_ ?_
  · exact fun haA => hA a haA a (List.mem_append_left _ ha) rfl
  · exact fun hfree => (List.nodup_append.mp hrest).2.2 a ha a hfree rfl

theorem PhysMem.Owns.length_le (h : m.Owns own) :
    own.length + m.freelist.length ≤ phystop / pgsize := by
  have hinj : ((own ++ m.freelist).map (· / pgsize)).Nodup := by
    refine h.nodup.map_on ?_
    intro a ha b hb hab
    have halign := (h.range a ha).1
    have halign' := (h.range b hb).1
    have ha' := Nat.div_add_mod a pgsize
    have hb' := Nat.div_add_mod b pgsize
    rw [hab] at ha'
    omega
  have hsub : ((own ++ m.freelist).map (· / pgsize)).toFinset ⊆
      Finset.range (phystop / pgsize) := by
    intro k hk
    obtain ⟨a, ha, rfl⟩ := List.mem_map.mp (List.mem_toFinset.mp hk)
    refine Finset.mem_range.mpr ?_
    have hlt := (h.range a ha).2.2
    have halign := (h.range a ha).1
    unfold phystop kernbase pgsize at *
    omega
  have hcard := Finset.card_le_card hsub
  rw [List.toFinset_card_of_nodup hinj, Finset.card_range, List.length_map,
    List.length_append] at hcard
  exact hcard

/-! ## The allocator -/

theorem PhysMem.setPage_extends (m : PhysMem) {a : ℕ} (f : Fin 512 → ℕ)
    (ha : a ∈ A) : m.Extends A (m.setPage a f) A := by
  refine ⟨List.Perm.refl _, ?_, rfl⟩
  intro b hb _
  have hne : b ≠ a := by
    rintro rfl
    exact hb ha
  exact update_of_ne hne _ _

theorem kalloc_extends (m : PhysMem) : (∃ m1, kalloc m = (none, m1) ∧ m.Extends [] m1 []) ∨
      ∃ r m1, kalloc m = (some r, m1) ∧ m.Extends [] m1 [r] := by
  rcases kalloc_cases m with ⟨fails, heq⟩ | ⟨r, rs, fails, junk, hfree, heq⟩
  · exact Or.inl ⟨_, heq, List.Perm.refl _, fun _ _ _ => rfl, rfl⟩
  · refine Or.inr ⟨r, _, heq, ?_, ?_, rfl⟩
    · rw [hfree]
      exact List.Perm.refl _
    · intro a _ ha
      have hne : a ≠ r := by
        rintro rfl
        exact ha (by simp [hfree])
      exact update_of_ne hne _ _

variable {pa k n : ℕ}

theorem PhysMem.Owns.kfree (h : m.Owns [pa]) :
    ∃ m1, Xv6.kfree pa m = .ok m1 ∧ m.Extends [pa] m1 [] := by
  obtain ⟨m1, heq, hfree, hkend, hwords⟩ := kfree_of_inRange (h.range pa (by simp))
  refine ⟨m1, heq, ?_, ?_, hkend⟩
  · rw [hfree]
    exact List.Perm.refl _
  · intro b hb _
    exact hwords b (by simpa using hb)

/-! ## Shapes -/

def mapped (ptes : List ℕ) : List ℕ := ptes.map pte2pa

@[simp] theorem mapped_append (ptes ptes' : List ℕ) :
    mapped (ptes ++ ptes') = mapped ptes ++ mapped ptes' :=
  List.map_append

theorem mapped_take (k : ℕ) (ptes : List ℕ) : mapped (ptes.take k) = (mapped ptes).take k :=
  List.map_take

/-- The page table at `pt` has the PTEs of `ptes` from address 0 on, and
otherwise what `hi` says, which is nothing below the trapframe. -/
structure PhysMem.Shape (m : PhysMem) (pt : ℕ) (T ptes : List ℕ)
    (hi : ℕ → Option ℕ) : Prop where
  tree : PathTree.IsTree m.child pt 2 T
  interior : m.Interior pt
  user : ∀ j, ∀ hj : j < ptes.length, m.lookup pt (j * pgsize) = some ptes[j]
  leaf : ∀ pte ∈ ptes, pte &&& pteR ≠ 0
  high : ∀ b, b % pgsize = 0 → ptes.length * pgsize ≤ b → m.lookup pt b = hi b
  low : ∀ b, b < trapframeVa → hi b = none
  bound : ptes.length * pgsize ≤ trapframeVa

theorem PhysMem.Shape.congr (h : m.Shape pt T ptes hi) (hwords : ∀ a ∈ T, m'.words a = m.words a) :
    m'.Shape pt T ptes hi := by
  have hlookup := lookup_congr h.tree hwords
  refine ⟨tree_congr h.tree hwords, interior_congr h.tree h.interior hwords, ?_, h.leaf, ?_, h.low,
    h.bound⟩
  · intro j hj
    rw [hlookup]
    exact h.user j hj
  · intro b hb hle
    rw [hlookup]
    exact h.high b hb hle

theorem PhysMem.Shape.pageTable (h : m.Shape pt T ptes hi) (hown : m.Owns T) : m.PageTable pt T :=
  ⟨h.tree, h.interior, hown.nodup, hown.range⟩

theorem pteFlags_ne_of_pteR {pte : ℕ} (h : pte &&& pteR ≠ 0) : pteFlags pte ≠ pteV := by
  intro hflags
  apply h
  have hmask : pte &&& pteR = pteFlags pte &&& pteR := by
    unfold pteFlags
    rw [Nat.and_assoc]
    rfl
  rw [hmask, hflags]
  rfl

theorem PhysMem.Shape.named_eq (h : m.Shape pt T ptes hi) (hkn : k + n ≤ ptes.length) :
    m.named pt n (k * pgsize) = mapped ((ptes.drop k).take n) := by
  induction n generalizing k with
  | zero => simp [PhysMem.named, mapped]
  | succ n ih =>
    have hk : k < ptes.length := by omega
    have hnext : k * pgsize + pgsize = (k + 1) * pgsize := by ring
    rw [PhysMem.named, h.user k hk, hnext, ih (by omega),
      List.drop_eq_getElem_cons hk, List.take_succ_cons]
    rfl

theorem PhysMem.Shape.unmapTail (h : m.Shape pt T ptes hi) (hown : m.Owns (mapped ptes ++ T))
    (hkn : k + n = ptes.length) : ∃ m1, uvmunmap pt (k * pgsize) n true m = .ok m1 ∧ m1.Shape pt T
    (ptes.take k) hi ∧ m.Extends (mapped ptes ++ T) m1 (mapped (ptes.take k) ++ T) := by
  have htable := h.pageTable hown.right
  have hend : k * pgsize + n * pgsize = ptes.length * pgsize := by
    rw [← hkn]
    ring
  have hbound := h.bound
  have hwrap : k * pgsize + n * pgsize < 2 ^ 64 := by
    rw [hend]
    refine lt_of_le_of_lt hbound ?_
    decide
  have halign : k * pgsize % pgsize = 0 := Nat.mul_mod_left k pgsize
  have hnamed : m.named pt n (k * pgsize) = mapped (ptes.drop k) := by
    rw [h.named_eq hkn.le, List.take_of_length_le]
    rw [List.length_drop]
    omega
  have hsplit : mapped (ptes.take k) ++ mapped (ptes.drop k) = mapped ptes := by
    rw [← mapped_append, List.take_append_drop]
  have hfresh : m.Freeable pt T n (k * pgsize) true := by
    intro _
    rw [hnamed, ← List.append_assoc]
    have hnodup := hown.nodup
    rw [← hsplit, List.append_assoc, List.append_assoc] at hnodup
    rw [List.append_assoc]
    exact (List.nodup_append.mp hnodup).2.1
  have hremovable : ∀ j < n, m.Removable pt true (k * pgsize + j * pgsize) := by
    intro j hj
    have hkj : k + j < ptes.length := by omega
    refine ⟨ptes[k + j], ?_, pteFlags_ne_of_pteR (h.leaf _ (List.getElem_mem hkj)), fun _ => ?_⟩
    · rw [← Nat.add_mul]
      exact h.user _ hkj
    · refine hown.range _ (List.mem_append_left _ (List.mem_append_left _ ?_))
      exact List.mem_map_of_mem (List.getElem_mem hkj)
  obtain ⟨m1, hcall⟩ := unmapLoop_ok htable halign hfresh hremovable
  rw [← uvmunmap_eq hwrap halign] at hcall
  obtain ⟨_, hremoved⟩ := htable.uvmunmap hwrap hfresh hcall
  refine ⟨m1, hcall, ⟨hremoved.table.tree, hremoved.table.interior, ?_, ?_,
    ?_, h.low, ?_⟩, ?_, ?_, hremoved.kend⟩
  · intro j hj
    rw [List.length_take] at hj
    rw [hremoved.other _ (Nat.mul_mod_left j pgsize), List.getElem_take]
    · exact h.user j (by omega)
    · intro i _ heq
      rw [← Nat.add_mul] at heq
      have := Nat.eq_of_mul_eq_mul_right pgsize_pos heq
      omega
  · exact fun pte hpte => h.leaf pte (List.mem_of_mem_take hpte)
  · intro b hb hle
    rw [List.length_take, Nat.min_eq_left (by omega)] at hle
    by_cases hin : b < ptes.length * pgsize
    · have hlt : b < trapframeVa := lt_of_lt_of_le hin hbound
      obtain ⟨j, rfl⟩ := Nat.dvd_of_mod_eq_zero hb
      rw [h.low _ hlt, Nat.mul_comm pgsize j]
      have hkj : k ≤ j := by
        rw [Nat.mul_comm pgsize j] at hle
        exact Nat.le_of_mul_le_mul_right hle pgsize_pos
      have hjn : j < ptes.length := by
        rw [Nat.mul_comm pgsize j] at hin
        exact Nat.lt_of_mul_lt_mul_right hin
      have hj := hremoved.removed (j - k) (by omega)
      rwa [← Nat.add_mul, Nat.add_sub_cancel' hkj] at hj
    · rw [hremoved.other b hb, h.high b hb (not_lt.mp hin)]
      intro j hj heq
      have hmul : (j + 1) * pgsize ≤ n * pgsize := Nat.mul_le_mul_right _ hj
      have hpos := pgsize_pos
      rw [Nat.add_mul, Nat.one_mul] at hmul
      omega
  · refine le_trans (Nat.mul_le_mul_right _ ?_) hbound
    rw [List.length_take]
    omega
  · rw [List.perm_iff_count]
    intro a
    have hcount := List.perm_iff_count.mp hremoved.freelist a
    rw [← hsplit]
    simp only [if_true, hnamed, List.count_append] at hcount ⊢
    omega
  · intro a ha _
    refine hremoved.frame a (fun hT => ha (List.mem_append_right _ hT)) ?_
    intro _ hmem
    rw [hnamed] at hmem
    refine ha (List.mem_append_left _ ?_)
    rw [← hsplit]
    exact List.mem_append_right _ hmem

/-! ## Sizes -/

/-- A size of `sz` bytes takes `n` pages. -/
def TakesPages (n sz : ℕ) : Prop := sz ≤ n * pgsize ∧ n * pgsize < sz + pgsize

theorem pgroundup_eq {sz : ℕ} (h : TakesPages n sz)
    (hbound : n * pgsize ≤ trapframeVa) : pgroundup sz = n * pgsize := by
  obtain ⟨hle, hlt⟩ := h
  simp only [trapframeVa, trampolineVa, maxva, pgsize] at hbound hle hlt
  unfold pgroundup
  simp only [pgsize]
  omega

theorem takesPages_mul (n : ℕ) : TakesPages n (n * pgsize) :=
  ⟨le_refl _, Nat.lt_add_of_pos_right pgsize_pos⟩

theorem takesPages_zero : TakesPages 0 0 := by
  simpa using takesPages_mul 0

theorem exists_takesPages (sz : ℕ) : ∃ n, TakesPages n sz := by
  refine ⟨(sz + pgsize - 1) / pgsize, ?_⟩
  unfold TakesPages
  simp only [pgsize]
  omega

theorem TakesPages.mono {sz sz' : ℕ} (h : TakesPages n sz)
    (h' : TakesPages k sz') (hle : sz' ≤ sz) : k ≤ n := by
  have hlt : k * pgsize < (n + 1) * pgsize := by
    rw [Nat.add_mul, Nat.one_mul]
    exact lt_of_lt_of_le h'.2 (by have := h.1; omega)
  exact Nat.lt_succ_iff.mp (Nat.lt_of_mul_lt_mul_right hlt)

theorem throughInt_of_lt (hn : n < 2 ^ 31) : throughInt n = n := by
  unfold throughInt
  have hmod : n % 2 ^ 32 = n := by omega
  rw [hmod, if_pos hn]

theorem length_lt_of_bound (hbound : n * pgsize ≤ trapframeVa) : n < 2 ^ 31 := by
  simp only [trapframeVa, trampolineVa, maxva, pgsize] at hbound
  omega

/-! ## `uvmdealloc` -/

theorem PhysMem.Shape.uvmdealloc (h : m.Shape pt T ptes hi) (hown : m.Owns (mapped ptes ++ T))
    {oldsz : ℕ} (newsz : ℕ) (hold : TakesPages ptes.length oldsz) :
    ∃ k m1, k ≤ ptes.length ∧ Xv6.uvmdealloc pt oldsz newsz m = .ok (min oldsz newsz, m1) ∧
    TakesPages k (min oldsz newsz) ∧ m1.Shape pt T (ptes.take k) hi ∧
    m.Extends (mapped ptes ++ T) m1 (mapped (ptes.take k) ++ T) := by
  unfold Xv6.uvmdealloc
  by_cases hge : newsz ≥ oldsz
  · rw [if_pos hge, Nat.min_eq_left hge]
    refine ⟨ptes.length, m, le_refl _, rfl, hold, ?_, ?_⟩
    · rwa [List.take_length]
    · rw [List.take_length]
      exact .refl m _
  · have hlt : newsz < oldsz := not_le.mp hge
    obtain ⟨k, hk⟩ := exists_takesPages newsz
    have hkn := hold.mono hk hlt.le
    have hbound : k * pgsize ≤ trapframeVa := le_trans (Nat.mul_le_mul_right _ hkn) h.bound
    rw [if_neg hge, Nat.min_eq_right hlt.le, pgroundup_eq hold h.bound, pgroundup_eq hk hbound]
    by_cases hfewer : k * pgsize < ptes.length * pgsize
    · have hnpages : throughInt
          ((ptes.length * pgsize - k * pgsize) / pgsize) = ptes.length - k := by
        rw [← Nat.sub_mul, Nat.mul_div_cancel _ pgsize_pos]
        refine throughInt_of_lt ?_
        have := length_lt_of_bound h.bound
        omega
      obtain ⟨m1, hcall, hshape, hext⟩ :=
        h.unmapTail hown (k := k) (n := ptes.length - k) (by omega)
      refine ⟨k, m1, hkn, ?_, hk, hshape, hext⟩
      rw [if_pos hfewer, hnpages]
      dsimp only
      rw [hcall]
      rfl
    · have hkeq : k = ptes.length := by
        refine le_antisymm hkn ?_
        exact Nat.le_of_mul_le_mul_right (not_lt.mp hfewer) pgsize_pos
      refine ⟨k, m, hkn, if_neg hfewer, hk, ?_, ?_⟩
      · rwa [hkeq, List.take_length]
      · rw [hkeq, List.take_length]
        exact .refl m _

/-! ## Mapping the next page -/

theorem mappages_page_ok {va : ℕ} (pa perm : ℕ) (h : m.PageTable pt T)
    (halign : va % pgsize = 0) (hva : va < maxva) (hfree : m.lookup pt va = none) :
    ∃ r m1, mappages pt va pgsize pa perm m = .ok (r, m1) := by
  have hlast : (va + pgsize - pgsize) % 2 ^ 64 = va := by
    rw [Nat.add_sub_cancel]
    unfold maxva at hva
    omega
  have hrounds : pgsize / pgsize = 0 + 1 := Nat.div_self pgsize_pos
  unfold mappages
  rw [if_neg (not_not.mpr halign), if_neg (by simp), if_neg pgsize_pos.ne', hlast, hrounds, mapLoop]
  cases hwalk : Xv6.walk pt va true m with
  | error e =>
    unfold Xv6.walk at hwalk
    rw [if_neg (not_le.mpr hva)] at hwalk
    cases hwalk
  | ok x =>
    obtain ⟨slot, m1⟩ := x
    cases slot with
    | none => exact ⟨_, _, rfl⟩
    | some x =>
      obtain ⟨page, i⟩ := x
      obtain ⟨_, T1, htable, _, hslot, hlookup⟩ := h.walk hwalk
      obtain ⟨rfl, hpage⟩ := hslot page i rfl
      have hinvalid : ¬m1.words page (px 0 va) &&& pteV ≠ 0 := by
        intro hvalid
        rw [← hlookup va, m1.lookup_eq pt hva, PhysMem.entry, hpage,
          Option.bind_some, if_pos hvalid] at hfree
        cases hfree
      simp only [if_neg hinvalid, if_true]
      exact ⟨_, _, rfl⟩

theorem or_and_ne_zero {x y z : ℕ} (h : y &&& z ≠ 0) : (x ||| y ||| pteV) &&& z ≠ 0 := by
  rw [Nat.and_or_distrib_right, Nat.and_or_distrib_right]
  have hle : y &&& z ≤ (x &&& z) ||| (y &&& z) := Nat.right_le_or
  have hle' : (x &&& z) ||| (y &&& z) ≤ ((x &&& z) ||| (y &&& z)) ||| (pteV &&& z) := Nat.left_le_or
  omega

theorem PhysMem.PageTable.mapPage {va : ℕ} (perm : ℕ) (h : m.PageTable pt T)
    (halign : va % pgsize = 0) (hva : va < maxva) (hfree : m.lookup pt va = none)
    (hpa : pa < 2 ^ 64) : ∃ r m1 T1, Xv6.mappages pt va pgsize pa perm m = .ok (r, m1) ∧
    m1.PageTable pt T1 ∧ m.Extends T m1 T1 ∧
    (r = true → m1.lookup pt va = some (pa2pte pa ||| perm ||| pteV)) ∧ ∀ b, b % pgsize = 0 →
    (r = true → b ≠ va) → m1.lookup pt b = m.lookup pt b := by
  obtain ⟨r, m1, hcall⟩ := mappages_page_ok pa perm h halign hva hfree
  obtain ⟨k, T1, hk, hr, htable, hext, hbound⟩ := h.mappages (by decide) hpa hcall
  rw [Nat.div_self pgsize_pos] at hk hr
  refine ⟨r, m1, T1, hcall, htable, hext, ?_, ?_⟩
  · intro htrue
    have hfirst := hbound.bound 0 (by rw [hr.mp htrue]; exact Nat.one_pos)
    rwa [Nat.zero_mul, Nat.add_zero, mapPte_zero hpa] at hfirst
  · intro b hb hne
    refine hbound.other b hb fun j hj => ?_
    obtain rfl : j = 0 := by omega
    rw [Nat.zero_mul, Nat.add_zero]
    exact hne (hr.mpr (by omega))

theorem PhysMem.Shape.mapNext (h : m.Shape pt T ptes hi)
    {mem perm : ℕ} (hown : m.Owns T) (hmem : m.InRange mem) (hread : perm &&& pteR ≠ 0)
    (hroom : (ptes.length + 1) * pgsize ≤ trapframeVa) : ∃ r m1 T1, mappages pt
    (ptes.length * pgsize) pgsize mem perm m = .ok (r, m1) ∧ m.Extends T m1 T1 ∧
    m1.Shape pt T1 (if r = true then ptes ++ [pa2pte mem ||| perm ||| pteV] else ptes) hi := by
  have halign : ptes.length * pgsize % pgsize = 0 := Nat.mul_mod_left _ pgsize
  have hlt : ptes.length * pgsize < trapframeVa := by
    have hpos := pgsize_pos
    rw [Nat.add_mul, Nat.one_mul] at hroom
    omega
  have hnone : m.lookup pt (ptes.length * pgsize) = none := by
    rw [h.high _ halign (le_refl _), h.low _ hlt]
  have hpa : mem < 2 ^ 64 := lt_trans hmem.lt (by decide)
  obtain ⟨r, m1, T1, hcall, htable, hext, hnew, hother⟩ := (h.pageTable hown).mapPage perm halign
      (lt_of_lt_of_le hlt (by decide)) hnone hpa
  refine ⟨r, m1, T1, hcall, hext, ?_⟩
  cases r with
  | true =>
    refine ⟨htable.tree, htable.interior, ?_, ?_, ?_, h.low, ?_⟩
    · intro j hj
      simp only [if_true, List.length_append, List.length_singleton] at hj
      by_cases hjn : j < ptes.length
      · rw [hother _ (Nat.mul_mod_left j pgsize)]
        · simpa [List.getElem_append_left hjn] using h.user j hjn
        · intro _ heq
          have := Nat.eq_of_mul_eq_mul_right pgsize_pos heq
          omega
      · obtain rfl : j = ptes.length := by omega
        simpa using hnew rfl
    · intro pte hpte
      rcases List.mem_append.mp hpte with hpte | hpte
      · exact h.leaf pte hpte
      · rw [List.mem_singleton.mp hpte]
        exact or_and_ne_zero hread
    · intro b hb hle
      simp only [if_true, List.length_append, List.length_singleton,
        Nat.add_mul, Nat.one_mul] at hle
      have hpos := pgsize_pos
      rw [hother b hb fun _ => by omega]
      exact h.high b hb (by omega)
    · simpa using hroom
  | false =>
    refine ⟨htable.tree, htable.interior, ?_, h.leaf, ?_, h.low, h.bound⟩
    · intro j hj
      rw [hother _ (Nat.mul_mod_left j pgsize) (by simp)]
      exact h.user j hj
    · intro b hb hle
      rw [hother b hb (by simp)]
      exact h.high b hb hle

/-! ## The pages above user memory -/

theorem PhysMem.Shape.mapHigh (h : m.Shape pt T ptes hi) (va perm : ℕ) (hown : m.Owns T)
    (halign : va % pgsize = 0) (hva : va < maxva) (hlow : trapframeVa ≤ va) (hnone : hi va = none)
    (hpa : pa < 2 ^ 64) : ∃ r m1 T1, mappages pt va pgsize pa perm m = .ok (r, m1) ∧
    m.Extends T m1 T1 ∧ m1.Shape pt T1 ptes (if r = true then
        update hi va (some (pa2pte pa ||| perm ||| pteV))
          else hi) := by
  have hfree : m.lookup pt va = none := by
    rw [h.high va halign (le_trans h.bound hlow), hnone]
  obtain ⟨r, m1, T1, hcall, htable, hext, hnew, hother⟩ :=
    (h.pageTable hown).mapPage perm halign hva hfree hpa
  have huser : ∀ j (hj : j < ptes.length), m1.lookup pt (j * pgsize) = some ptes[j] := by
    intro j hj
    rw [hother _ (Nat.mul_mod_left j pgsize)]
    · exact h.user j hj
    · intro _ heq
      have hlt : j * pgsize < ptes.length * pgsize := (Nat.mul_lt_mul_right pgsize_pos).mpr hj
      have := h.bound
      omega
  refine ⟨r, m1, T1, hcall, hext, htable.tree, htable.interior, huser, h.leaf, ?_, ?_, h.bound⟩
  · intro b hb hle
    cases r with
    | true =>
      rw [if_pos rfl]
      by_cases hbva : b = va
      · rw [hbva, update_self]
        exact hnew rfl
      · rw [update_of_ne hbva, hother b hb fun _ => hbva]
        exact h.high b hb hle
    | false =>
      rw [hother b hb (by simp)]
      exact h.high b hb hle
  · intro b hb
    cases r with
    | true =>
      rw [if_pos rfl, update_of_ne (by omega)]
      exact h.low b hb
    | false => exact h.low b hb

theorem PhysMem.Shape.unmapHigh (h : m.Shape pt T ptes hi) (va : ℕ) {pte : ℕ}
    (hown : m.Owns T) (halign : va % pgsize = 0) (hva : va < maxva) (hlow : trapframeVa ≤ va)
    (hpte : hi va = some pte) (hleaf : pteFlags pte ≠ pteV) : ∃ m1, uvmunmap
    pt va 1 false m = .ok m1 ∧ m.Extends T m1 T ∧ m1.Shape pt T ptes (update hi va none) := by
  have htable := h.pageTable hown
  have hwrap : va + 1 * pgsize < 2 ^ 64 := by
    simp only [maxva, pgsize] at hva ⊢
    omega
  have hfresh : m.Freeable pt T 1 va false := by simp [Freeable]
  have hremovable : ∀ j < 1, m.Removable pt false (va + j * pgsize) := by
    intro j hj
    obtain rfl : j = 0 := by omega
    rw [Nat.zero_mul, Nat.add_zero]
    refine ⟨pte, ?_, hleaf, by simp⟩
    rw [h.high va halign (le_trans h.bound hlow), hpte]
  obtain ⟨m1, hcall⟩ := unmapLoop_ok htable halign hfresh hremovable
  rw [← uvmunmap_eq hwrap halign] at hcall
  obtain ⟨_, hremoved⟩ := htable.uvmunmap hwrap hfresh hcall
  have hother : ∀ b, b % pgsize = 0 → b ≠ va → m1.lookup pt b = m.lookup pt b := by
    intro b hb hne
    refine hremoved.other b hb fun j hj => ?_
    obtain rfl : j = 0 := by omega
    simpa using hne
  refine ⟨m1, hcall, ⟨?_, ?_, hremoved.kend⟩, hremoved.table.tree,
    hremoved.table.interior, ?_, h.leaf, ?_, ?_, h.bound⟩
  · exact (by simpa using hremoved.freelist : m1.freelist.Perm _).append_left T
  · exact fun b hb _ => hremoved.frame b hb (by simp)
  · intro j hj
    rw [hother _ (Nat.mul_mod_left j pgsize)]
    · exact h.user j hj
    · have hlt : j * pgsize < ptes.length * pgsize := (Nat.mul_lt_mul_right pgsize_pos).mpr hj
      have := h.bound
      omega
  · intro b hb hle
    by_cases hbva : b = va
    · rw [hbva, update_self]
      simpa using hremoved.removed 0 (by omega)
    · rw [update_of_ne hbva, hother b hb hbva]
      exact h.high b hb hle
  · intro b hb
    rw [update_of_ne (by omega)]
    exact h.low b hb

end

end Xv6
