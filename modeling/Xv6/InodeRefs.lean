import Xv6.InodeTable

/-!
# References to inodes

The count of an entry of `itable` is the number of references to it, and no two
entries in use are for the same inode.  A process that has the sleep-lock of an
entry, or waits for it, has a reference to it; so the lock is free when `iput`
finds the count to be 1.
-/

namespace Xv6

open Function (update_of_ne update_self)

def InodePc.locks (p : Slot) : InodePc → Option (InodeOwner × InodeIx)
  | .reading o i => some (o, i)
  | .freeing .drop _ => none
  | .freeing _ i => some (.call p, i)
  | _ => none

theorem InodePc.locks_freeing {p : Slot} {f : FreeStep} {i : InodeIx}
    (hf : f ≠ .drop) : (freeing f i).locks p = some (.call p, i) := by
  cases f with
  | drop => contradiction
  | _ => rfl

namespace InodeTable

def refCount (s : InodeTable) (i : InodeIx) : ℕ := s.refs.countP fun r => r.2 = i

structure Table (s : InodeTable) : Prop where
  calm : s.blocked = false
  count : ∀ i, s.ref i = s.refCount i
  unique : ∀ i j, 0 < s.ref i → 0 < s.ref j → s.dev i = s.dev j → s.inum i = s.inum j → i = j
  used : ∀ p o i, (s.pc p).uses p = some (o, i) → s.Has p o i
  locked : ∀ p o i, s.lock i = some (p, o) → s.Has p o i
  locks : ∀ p o i, (s.pc p).locks p = some (o, i) → s.lock i = some (p, o)
  dropping : ∀ p o i, s.pc p = .freeing .drop i → s.lock i ≠ some (p, o)

variable {s s' : InodeTable} {p q : Slot} {o o' : InodeOwner} {i j : InodeIx} {k : InodePc}

theorem refCount_pos (h : (o, i) ∈ s.refs) : 0 < s.refCount i :=
  List.countP_pos_iff.mpr ⟨(o, i), h, by simp⟩

theorem count_le_refCount (s : InodeTable) (o : InodeOwner) (i : InodeIx) :
    s.refs.count (o, i) ≤ s.refCount i := by
  refine List.countP_mono_left ?_
  intro r _ hr
  simp only [beq_iff_eq] at hr
  simp [hr]

theorem two_le_refCount (h : (o, i) ∈ s.refs) (h' : (o', i) ∈ s.refs)
    (hne : o ≠ o') : 2 ≤ s.refCount i := by
  have herase : (o', i) ∈ s.refs.erase (o, i) := by
    rw [List.mem_erase_of_ne (by simpa using Ne.symm hne)]
    exact h'
  have hpos : 0 < (s.refs.erase (o, i)).countP fun r => r.2 = i :=
    List.countP_pos_iff.mpr ⟨_, herase, by simp⟩
  rw [List.countP_erase, if_pos (by simp [h])] at hpos
  unfold refCount
  omega

namespace Table

section

variable (h : s.Table)
include h

theorem ref_pos (hhas : s.Has p o i) : 0 < s.ref i := by
  rw [h.count]
  exact refCount_pos hhas.1

theorem frame (hblocked : s'.blocked = s.blocked)
    (href : s'.ref = s.ref) (hrefs : s'.refs = s.refs) (hdev : s'.dev = s.dev)
    (hinum : s'.inum = s.inum) (hlock : s'.lock = s.lock) (hpc : s'.pc = s.pc) : s'.Table := by
  refine ⟨?_, ?_, ?_, ?_, ?_, ?_, ?_⟩
  · rw [hblocked]
    exact h.calm
  · simpa only [refCount, href, hrefs] using h.count
  · simpa only [href, hdev, hinum] using h.unique
  · simpa only [Has, hrefs, hpc] using h.used
  · simpa only [Has, hrefs, hlock] using h.locked
  · simpa only [hlock, hpc] using h.locks
  · simpa only [hlock, hpc] using h.dropping

theorem goto (hused : ∀ o i, k.uses p = some (o, i) → s.Has p o i)
    (hlocks : ∀ o i, k.locks p = some (o, i) → s.lock i = some (p, o))
    (hdropping : ∀ o i, k = .freeing .drop i → s.lock i ≠ some (p, o)) : (s.goto p k).Table := by
  refine ⟨h.calm, h.count, h.unique, ?_, h.locked, ?_, ?_⟩
  · intro q o i hq
    by_cases hqp : q = p
    · subst hqp
      simp only [InodeTable.goto, update_self] at hq
      exact hused o i hq
    · simp only [InodeTable.goto, update_of_ne hqp] at hq
      exact h.used q o i hq
  · intro q o i hq
    by_cases hqp : q = p
    · subst hqp
      simp only [InodeTable.goto, update_self] at hq
      exact hlocks o i hq
    · simp only [InodeTable.goto, update_of_ne hqp] at hq
      exact h.locks q o i hq
  · intro q o i hq
    by_cases hqp : q = p
    · subst hqp
      simp only [InodeTable.goto, update_self] at hq
      exact hdropping o i hq
    · simp only [InodeTable.goto, update_of_ne hqp] at hq
      exact h.dropping q o i hq

theorem idle : (s.goto p .idle).Table :=
  h.goto (by simp [InodePc.uses]) (by simp [InodePc.locks]) (by simp)

theorem addRef (hi : 0 < s.ref i) : (s.addRef o i).Table := by
  have hhas : ∀ p o' j, s.Has p o' j → (s.addRef o i).Has p o' j :=
    fun p o' j hx => ⟨List.mem_cons_of_mem _ hx.1, hx.2⟩
  refine ⟨h.calm, ?_, ?_, ?_, ?_, h.locks, h.dropping⟩
  · intro j
    have hj := h.count j
    unfold refCount at hj ⊢
    by_cases hji : j = i
    · subst hji
      simp [InodeTable.addRef, hj]
    · simp [InodeTable.addRef, hji, Ne.symm hji, hj]
  · intro j j' hj hj'
    have hpos : ∀ x, 0 < (s.addRef o i).ref x → 0 < s.ref x := by
      intro x hx
      by_cases hxi : x = i
      · rw [hxi]
        exact hi
      · simpa [InodeTable.addRef, hxi] using hx
    exact h.unique j j' (hpos j hj) (hpos j' hj')
  · exact fun p o' j hp => hhas p o' j (h.used p o' j hp)
  · exact fun p o' j hp => hhas p o' j (h.locked p o' j hp)

theorem recycle {dev inum : ℕ} (hi : s.ref i = 0) (hnew : ∀ j, 0 < s.ref j →
    ¬ (s.dev j = dev ∧ s.inum j = inum)) : (s.recycle o i dev inum).Table := by
  have hhas : ∀ p o' j, s.Has p o' j → (s.recycle o i dev inum).Has p o' j :=
    fun p o' j hx => ⟨List.mem_cons_of_mem _ hx.1, hx.2⟩
  refine ⟨h.calm, ?_, ?_, ?_, ?_, h.locks, h.dropping⟩
  · intro j
    have hj := h.count j
    unfold refCount at hj ⊢
    by_cases hji : j = i
    · subst hji
      rw [hi] at hj
      simp [InodeTable.recycle, ← hj]
    · simp [InodeTable.recycle, hji, Ne.symm hji, hj]
  · intro j j' hj hj' hdev hinum
    by_cases hji : j = i <;> by_cases hji' : j' = i
    · rw [hji, hji']
    · simp only [InodeTable.recycle, hji, update_self, update_of_ne hji'] at hj' hdev hinum
      exact absurd ⟨hdev.symm, hinum.symm⟩ (hnew j' hj')
    · simp only [InodeTable.recycle, hji', update_self, update_of_ne hji] at hj hdev hinum
      exact absurd ⟨hdev, hinum⟩ (hnew j hj)
    · simp only [InodeTable.recycle, update_of_ne hji, update_of_ne hji'] at hj hj' hdev hinum
      exact h.unique j j' hj hj' hdev hinum
  · exact fun p o' j hp => hhas p o' j (h.used p o' j hp)
  · exact fun p o' j hp => hhas p o' j (h.locked p o' j hp)

theorem acquire (hfree : s.lock i = none) (hhas : s.Has p o i)
    (hpc : ∀ j, s.pc p ≠ .freeing .drop j) : (s.setLock i (some (p, o))).Table := by
  refine ⟨h.calm, h.count, h.unique, h.used, ?_, ?_, ?_⟩
  · intro q o' j hj
    by_cases hji : j = i
    · subst hji
      simp only [setLock, update_self, Option.some.injEq, Prod.mk.injEq] at hj
      rw [← hj.1, ← hj.2]
      exact hhas
    · simp only [setLock, update_of_ne hji] at hj
      exact h.locked q o' j hj
  · intro q o' j hq
    have hj := h.locks q o' j hq
    by_cases hji : j = i
    · rw [hji, hfree] at hj
      contradiction
    · simpa [setLock, hji] using hj
  · intro q o' j hq
    by_cases hji : j = i
    · subst hji
      simp only [setLock, update_self]
      intro heq
      simp only [Option.some.injEq, Prod.mk.injEq] at heq
      rw [← heq.1] at hq
      exact hpc j hq
    · simpa [setLock, hji] using h.dropping q o' j hq

theorem release (hlock : s.lock i = some (p, o))
    (hused : ∀ o i, k.uses p = some (o, i) → s.Has p o i) (hlocks : k.locks p = none)
    (hdropping : ∀ j, k = .freeing .drop j → j = i) : ((s.setLock i none).goto p k).Table := by
  refine ⟨h.calm, h.count, h.unique, ?_, ?_, ?_, ?_⟩
  · intro q o' j hq
    by_cases hqp : q = p
    · subst hqp
      simp only [InodeTable.goto, update_self] at hq
      exact hused o' j hq
    · simp only [InodeTable.goto, update_of_ne hqp] at hq
      exact h.used q o' j hq
  · intro q o' j hj
    by_cases hji : j = i
    · simp [InodeTable.goto, setLock, hji] at hj
    · simp only [InodeTable.goto, setLock, update_of_ne hji] at hj
      exact h.locked q o' j hj
  · intro q o' j hq
    by_cases hqp : q = p
    · subst hqp
      simp [InodeTable.goto, hlocks] at hq
    · simp only [InodeTable.goto, update_of_ne hqp] at hq
      have hj := h.locks q o' j hq
      by_cases hji : j = i
      · rw [hji, hlock] at hj
        simp only [Option.some.injEq, Prod.mk.injEq] at hj
        exact absurd hj.1.symm hqp
      · simpa [InodeTable.goto, setLock, hji] using hj
  · intro q o' j hq
    by_cases hji : j = i
    · simp [InodeTable.goto, setLock, hji]
    · by_cases hqp : q = p
      · subst hqp
        simp only [InodeTable.goto, update_self] at hq
        exact absurd (hdropping j hq) hji
      · simp only [InodeTable.goto, update_of_ne hqp] at hq
        simpa [InodeTable.goto, setLock, hji] using h.dropping q o' j hq

end

theorem has_erase (hhas : s.Has q o' j) (huse : (o', j) = (o, i) → 2 ≤ s.refs.count (o, i)) :
    (o', j) ∈ s.refs.erase (o, i) := by
  by_cases heq : (o', j) = (o, i)
  · have hcount := huse heq
    rw [heq, ← List.count_pos_iff, List.count_erase_self]
    omega
  · rw [List.mem_erase_of_ne heq]
    exact hhas.1

theorem giveRef (h : s.Table) (hmem : (o, i) ∈ s.refs)
    (huse : s.InUse o i → 2 ≤ s.refs.count (o, i)) : (s.giveRef o o' i).Table := by
  have hhas : ∀ q x j, (s.pc q).uses q = some (x, j) ∨ s.lock j = some (q, x) →
      s.Has q x j → (s.giveRef o o' i).Has q x j := by
    intro q x j hq hx
    refine ⟨List.mem_cons_of_mem _ (has_erase hx ?_), hx.2⟩
    intro heq
    simp only [Prod.mk.injEq] at heq
    rw [heq.1, heq.2] at hq
    exact huse ⟨q, hq⟩
  refine ⟨h.calm, ?_, h.unique, ?_, ?_, h.locks, h.dropping⟩
  · intro j
    have hj := h.count j
    unfold refCount at hj ⊢
    by_cases hji : j = i
    · subst hji
      have hpos := refCount_pos hmem
      unfold refCount at hpos
      simp only [InodeTable.giveRef, List.countP_cons, List.countP_erase]
      simp only [hmem, decide_true, and_self, if_true]
      omega
    · simp [InodeTable.giveRef, List.countP_erase, Ne.symm hji, hj]
  · exact fun q x j hq => hhas q x j (Or.inl hq) (h.used q x j hq)
  · exact fun q x j hq => hhas q x j (Or.inr hq) (h.locked q x j hq)

theorem dropRef (h : s.Table) (hmem : (o, i) ∈ s.refs) (huse : ∀ q, q ≠ p ∧
    (s.pc q).uses q = some (o, i) ∨ s.lock i = some (q, o) → 2 ≤ s.refs.count (o, i))
    (hlocks : (s.pc p).locks p = none) : ((s.dropRef o i).goto p .idle).Table := by
  have hcount : ∀ j, (s.dropRef o i).ref j = (s.dropRef o i).refCount j := by
    intro j
    have hj := h.count j
    unfold refCount at hj ⊢
    by_cases hji : j = i
    · subst hji
      simp only [InodeTable.dropRef, update_self, List.countP_erase]
      simp only [hmem, decide_true, and_self, if_true]
      omega
    · simp [InodeTable.dropRef, List.countP_erase, hji, Ne.symm hji, hj]
  have hpos : ∀ j, 0 < (s.dropRef o i).ref j → 0 < s.ref j := by
    intro j hj
    by_cases hji : j = i
    · subst hji
      simp only [InodeTable.dropRef, update_self] at hj
      omega
    · simpa [InodeTable.dropRef, hji] using hj
  refine ⟨h.calm, hcount, ?_, ?_, ?_, ?_, ?_⟩
  · intro j j' hj hj'
    exact h.unique j j' (hpos j hj) (hpos j' hj')
  · intro q x j hq
    by_cases hqp : q = p
    · subst hqp
      simp [InodeTable.goto, InodePc.uses] at hq
    · simp only [InodeTable.goto, update_of_ne hqp] at hq
      have hx := h.used q x j hq
      refine ⟨has_erase hx ?_, hx.2⟩
      intro heq
      simp only [Prod.mk.injEq] at heq
      rw [heq.1, heq.2] at hq
      exact huse q (Or.inl ⟨hqp, hq⟩)
  · intro q x j hq
    have hx := h.locked q x j hq
    refine ⟨has_erase hx ?_, hx.2⟩
    intro heq
    simp only [Prod.mk.injEq] at heq
    rw [heq.1, heq.2] at hq
    exact huse q (Or.inr hq)
  · intro q x j hq
    by_cases hqp : q = p
    · subst hqp
      simp [InodeTable.goto, InodePc.locks] at hq
    · simp only [InodeTable.goto, update_of_ne hqp] at hq
      exact h.locks q x j hq
  · intro q x j hq
    by_cases hqp : q = p
    · subst hqp
      simp [InodeTable.goto] at hq
    · simp only [InodeTable.goto, update_of_ne hqp] at hq
      exact h.dropping q x j hq

end Table

/-! ## The loop of `iget` -/

theorem igetScan_found {dev inum : ℕ} {is : List InodeIx} {empty : Option InodeIx}
    (hscan : s.igetScan dev inum is empty = .inl i) :
    0 < s.ref i ∧ s.dev i = dev ∧ s.inum i = inum := by
  induction is generalizing empty with
  | nil => simp [igetScan] at hscan
  | cons j is ih =>
    rw [igetScan] at hscan
    split at hscan
    · rename_i hj
      simp only [Sum.inl.injEq] at hscan
      rw [← hscan]
      exact hj
    · exact ih hscan

theorem igetScan_empty {dev inum : ℕ} {is : List InodeIx} {empty : Option InodeIx}
    (hempty : ∀ j, empty = some j → s.ref j = 0)
    (hscan : s.igetScan dev inum is empty = .inr (some i)) :
    s.ref i = 0 ∧ ∀ j ∈ is, 0 < s.ref j → ¬ (s.dev j = dev ∧ s.inum j = inum) := by
  induction is generalizing empty with
  | nil =>
    simp only [igetScan, Sum.inr.injEq] at hscan
    exact ⟨hempty i hscan, by simp⟩
  | cons j is ih =>
    rw [igetScan] at hscan
    split at hscan
    · contradiction
    · rename_i hj
      have hnext : ∀ x, (if empty = none ∧ s.ref j = 0 then some j else empty) = some x →
            s.ref x = 0 := by
        intro x hx
        split at hx
        · rename_i hzero
          cases hx
          exact hzero.2
        · exact hempty x hx
      obtain ⟨hi, hrest⟩ := ih hnext hscan
      refine ⟨hi, ?_⟩
      intro x hx
      rcases List.mem_cons.mp hx with rfl | hmem
      · exact fun hpos heq => hj ⟨hpos, heq⟩
      · exact hrest x hmem

theorem goto_self (hpc : s.pc p = k) : s.goto p k = s := by
  rw [goto, ← hpc, Function.update_eq_self]

namespace Table

theorem iget (h : s.Table) (p : Slot) (dev inum : ℕ) : (s.iget p dev inum).Table := by
  unfold InodeTable.iget
  split
  · rename_i i hscan
    exact h.addRef (igetScan_found hscan).1
  · rename_i i hscan
    obtain ⟨hi, hnew⟩ := igetScan_empty (by simp) hscan
    exact h.recycle hi (fun j => hnew j (List.mem_finRange j))
  · exact h.frame rfl rfl rfl rfl rfl rfl rfl

theorem lock_free (h : s.Table) (hdrop : s.MayDrop p o i)
    (hone : s.ref i = 1) : s.lock i = none := by
  rw [h.count] at hone
  cases hlock : s.lock i with
  | none => rfl
  | some holder =>
    obtain ⟨q, x⟩ := holder
    have hx := h.locked q x i hlock
    by_cases hxo : o = x
    · subst hxo
      have htwo := hdrop.2 ⟨q, Or.inr hlock⟩
      have hle := s.count_le_refCount o i
      omega
    · have htwo := two_le_refCount hdrop.1.1 hx.1 hxo
      omega

theorem iput (h : s.Table) (hpc : s.pc p = .idle)
    (hdrop : s.MayDrop p o i) : (s.iput p o i).Table := by
  unfold InodeTable.iput
  split
  · rename_i hlast
    have hfree := h.lock_free hdrop hlast.1
    rw [if_pos hfree]
    have hgive : (s.giveRef o (.call p) i).Table := h.giveRef hdrop.1.1 hdrop.2
    have hhas : (s.giveRef o (.call p) i).Has p (.call p) i :=
      ⟨List.mem_cons_self, by simp [InodeOwner.usable]⟩
    have hlock := hgive.acquire hfree hhas (by
      intro j
      change s.pc p ≠ _
      rw [hpc]
      simp)
    refine hlock.goto ?_ ?_ (by simp)
    · intro x j hj
      simp only [InodePc.uses, Option.some.injEq, Prod.mk.injEq] at hj
      rw [← hj.1, ← hj.2]
      exact hhas
    · intro x j hj
      simp only [InodePc.locks, Option.some.injEq, Prod.mk.injEq] at hj
      rw [← hj.1, ← hj.2]
      simp [setLock]
  · have hnone : (s.pc p).locks p = none := by
      rw [hpc]
      rfl
    have := h.dropRef hdrop.1.1 (p := p) (by
      rintro q (hq | hq)
      · exact hdrop.2 ⟨q, Or.inl hq.2⟩
      · exact hdrop.2 ⟨q, Or.inr hq⟩) hnone
    rwa [goto_self (s := s.dropRef o i) hpc] at this

theorem iputFree (h : s.Table) (sb : InodeArea) {f : FreeStep}
    (hpc : s.pc p = .freeing f i) : (s.iputFree sb p i f).Table := by
  have hhas : s.Has p (.call p) i := by
    refine h.used p _ i ?_
    rw [hpc]
    rfl
  have hlock : f ≠ .drop → s.lock i = some (p, .call p) := by
    intro hf
    refine h.locks p _ i ?_
    rw [hpc, InodePc.locks_freeing hf]
  -- the steps before the release change neither references nor locks
  have hnext : ∀ (s' : InodeTable) (f' : FreeStep), s'.Table → s'.refs = s.refs →
      s'.lock = s.lock → f ≠ .drop → f' ≠ .drop → (s'.goto p (.freeing f' i)).Table := by
    intro s' f' hs' hrefs hlocks hf hf'
    refine hs'.goto ?_ ?_ ?_
    · intro x j hj
      simp only [InodePc.uses, Option.some.injEq, Prod.mk.injEq] at hj
      rw [← hj.1, ← hj.2, Has, hrefs]
      exact hhas
    · intro x j hj
      rw [InodePc.locks_freeing hf'] at hj
      simp only [Option.some.injEq, Prod.mk.injEq] at hj
      rw [← hj.1, ← hj.2, hlocks]
      exact hlock hf
    · intro x j hj
      simp only [InodePc.freeing.injEq] at hj
      exact absurd hj.1 hf'
  cases f with
  | drop =>
    refine h.dropRef hhas.1 ?_ (by rw [hpc]; rfl)
    rintro q (⟨hqp, hq⟩ | hq)
    · have := (h.used q _ i hq).2
      simp only [InodeOwner.usable, decide_eq_true_eq] at this
      exact absurd this.symm hqp
    · have := (h.locked q _ i hq).2
      simp only [InodeOwner.usable, decide_eq_true_eq] at this
      rw [← this] at hq
      exact absurd hq (h.dropping p _ i hpc)
  | release =>
    refine h.release (hlock (by simp)) ?_ rfl ?_
    · intro x j hj
      simp only [InodePc.uses, Option.some.injEq, Prod.mk.injEq] at hj
      rw [← hj.1, ← hj.2]
      exact hhas
    · intro j hj
      simp only [InodePc.freeing.injEq, true_and] at hj
      exact hj.symm
  | _ =>
    exact hnext _ _ (h.frame rfl rfl rfl rfl rfl rfl rfl) rfl rfl (by simp) (by simp)

theorem next (h : s.Table) {sb : InodeArea} (hnext : s.next sb p = some s') : s'.Table := by
  unfold InodeTable.next at hnext
  cases hpc : s.pc p with
  | idle => simp [hpc] at hnext
  | acquiring o i =>
    simp only [hpc] at hnext
    split at hnext
    · rename_i hfree
      cases hnext
      have hhas : s.Has p o i := h.used p o i (by rw [hpc]; rfl)
      have hlock := h.acquire hfree hhas (by simp [hpc])
      refine hlock.goto ?_ ?_ (by simp)
      · intro x j hj
        simp only [InodePc.uses, Option.some.injEq, Prod.mk.injEq] at hj
        rw [← hj.1, ← hj.2]
        exact hhas
      · intro x j hj
        simp only [InodePc.locks, Option.some.injEq, Prod.mk.injEq] at hj
        rw [← hj.1, ← hj.2]
        simp [setLock]
    · contradiction
  | reading o i =>
    rw [hpc] at hnext
    cases hnext
    unfold ilockRead
    split
    · exact h.idle
    · split
      · exact h.frame rfl rfl rfl rfl rfl rfl rfl
      · exact Table.idle (h.frame rfl rfl rfl rfl rfl rfl rfl)
  | freeing f i =>
    rw [hpc] at hnext
    cases hnext
    exact h.iputFree sb hpc
  | searching dev type inum =>
    rw [hpc] at hnext
    cases hnext
    unfold iallocRound
    split
    · split
      · refine Table.goto (h.frame rfl rfl rfl rfl rfl rfl rfl)
          (by simp [InodePc.uses]) (by simp [InodePc.locks]) (by simp)
      · exact h.goto (by simp [InodePc.uses]) (by simp [InodePc.locks]) (by simp)
    · exact h.idle
  | getting dev inum =>
    rw [hpc] at hnext
    cases hnext
    exact (h.iget p dev inum).idle

theorem call (h : s.Table) {sb : InodeArea}
    {l : InodeLabel} (hpc : s.pc l.proc = .idle) (hcall : s.call sb l = some s') : s'.Table := by
  cases l with
  | iget p dev inum =>
    cases hcall
    exact h.iget p dev inum
  | idup p o i o' =>
    simp only [InodeTable.call, ite_eq_some] at hcall
    obtain ⟨hhas, rfl⟩ := hcall
    exact h.addRef (h.ref_pos hhas)
  | give p o i o' =>
    simp only [InodeTable.call, ite_eq_some] at hcall
    obtain ⟨hdrop, rfl⟩ := hcall
    exact h.giveRef hdrop.1.1 hdrop.2
  | ilock p o i =>
    simp only [InodeTable.call, Option.ite_none_right_eq_some] at hcall
    obtain ⟨hhas, hcall⟩ := hcall
    split at hcall
    · cases hcall
      exact h.frame rfl rfl rfl rfl rfl rfl rfl
    · cases hcall
      refine h.goto ?_ (by simp [InodePc.locks]) (by simp)
      intro x j hj
      simp only [InodePc.uses, Option.some.injEq, Prod.mk.injEq] at hj
      rw [← hj.1, ← hj.2]
      exact hhas
  | modify p i d | iupdate p i =>
    simp only [InodeTable.call, ite_eq_some] at hcall
    obtain ⟨_, rfl⟩ := hcall
    exact h.frame rfl rfl rfl rfl rfl rfl rfl
  | iunlock p i =>
    simp only [InodeTable.call, Option.ite_none_left_eq_some, Option.some.injEq] at hcall
    obtain ⟨_, rfl⟩ := hcall
    unfold InodeTable.iunlock
    split
    · exact h.frame rfl rfl rfl rfl rfl rfl rfl
    · rename_i hheld
      simp only [ne_eq, not_or, not_not, Option.map_eq_some_iff] at hheld
      obtain ⟨⟨⟨q, o⟩, hlock, hq⟩, _⟩ := hheld
      change q = p at hq
      subst hq
      have hidle : s.pc q = .idle := hpc
      have := h.release hlock (k := .idle) (by simp [InodePc.uses]) rfl (by simp)
      rwa [goto_self (s := s.setLock i none) hidle] at this
  | ialloc p dev type =>
    cases hcall
    exact h.goto (by simp [InodePc.uses]) (by simp [InodePc.locks]) (by simp)
  | iput p o i =>
    simp only [InodeTable.call, ite_eq_some] at hcall
    obtain ⟨hdrop, rfl⟩ := hcall
    exact h.iput hpc hdrop
  | next p => simp [InodeTable.call] at hcall

end Table

theorem step_cases {sb : InodeArea} {l : InodeLabel} (hstep : s.step sb l = some s') : s.panicked =
    false ∧ (s.pc l.proc = .idle ∧ s.call sb l = some s' ∨ ∃ p, s.next sb p = some s') := by
  unfold InodeTable.step at hstep
  split at hstep
  · contradiction
  · rename_i hcalm
    simp only [not_or, Bool.not_eq_true] at hcalm
    refine ⟨hcalm.1, ?_⟩
    split at hstep
    · rename_i hidle
      exact Or.inl ⟨hidle, hstep⟩
    · split at hstep
      · exact Or.inr ⟨_, hstep⟩
      · contradiction

theorem Table.move (h : s.Table) {sb : InodeArea} {l : InodeLabel}
    (hstep : InodeTable.step sb l s = some s') : s'.Table := by
  obtain ⟨_, ⟨hpc, hcall⟩ | ⟨p, hnext⟩⟩ := step_cases hstep
  · exact h.call hpc hcall
  · exact h.next hnext

theorem iinit_table (disk : ℕ → ℕ × Fin ipb → Dinode) : (iinit disk).Table := by
  refine ⟨rfl, ?_, ?_, ?_, ?_, ?_, ?_⟩
  · intro i
    rfl
  · simp [iinit]
  · simp [iinit, InodePc.uses]
  · simp [iinit]
  · simp [iinit, InodePc.locks]
  · simp [iinit]

end InodeTable

end Xv6
