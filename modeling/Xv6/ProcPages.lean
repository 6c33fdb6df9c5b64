import Xv6.ExecMemory
import Xv6.KernelMemory

/-!
# What `sbrk`, `fork` and `wait` do to memory

Each of them returns, whichever calls of `kalloc` fail.  The specifications say
which pages it takes or gives back, what the address space looks like then, and
what `fork` copies.
-/

namespace Xv6

open ProcMem

section

variable {m : PhysMem} {pt : ℕ} {T ptes : List ℕ} {trampoline trapframe : ℕ} {p : ProcMem}

/-! ## `growproc` -/

theorem Int32.toInt_bounds (n : Int32) : -2 ^ 31 ≤ n.toInt ∧ n.toInt < 2 ^ 31 :=
  ⟨n.le_toInt, n.toInt_lt⟩

theorem addInt_of_nonneg {sz : ℕ} {n : Int32} (hsz : sz < 2 ^ 63)
    (h : 0 ≤ sz + n.toInt) : (addInt sz n : ℤ) = sz + n.toInt := by
  have hn := (Int32.toInt_bounds n).2
  unfold addInt
  omega

theorem addInt_of_neg {sz : ℕ} {n : Int32} (hsz : sz < 2 ^ 63)
    (h : sz + n.toInt < 0) : sz ≤ addInt sz n := by
  have hn := (Int32.toInt_bounds n).1
  unfold addInt
  omega

theorem PhysMem.Space.sz_lt (h : m.Space trampoline trapframe pt p.sz T ptes)
    (hown : m.Owns (mapped ptes ++ T)) : p.sz < 2 ^ 63 := by
  have hbound := hown.length_mul_le
  have hle := h.takes.1
  unfold phystop kernbase at hbound
  omega

theorem PhysMem.Space.growproc (h : m.Space trampoline trapframe p.pagetable p.sz T ptes)
    (hown : m.Owns (mapped ptes ++ T)) (n : Int32) :
    (∃ m1 T1, ProcMem.growproc n p m = .ok (false, p, m1) ∧
    m1.Space trampoline trapframe p.pagetable p.sz T1 ptes ∧
    m.Extends (mapped ptes ++ T) m1 (mapped ptes ++ T1)) ∨
    ∃ sz1 m1 T1 ptes1, ProcMem.growproc n p m = .ok (true, { p with sz := sz1 }, m1) ∧
    m1.Space trampoline trapframe p.pagetable sz1 T1 ptes1 ∧ m.Extends
    (mapped ptes ++ T) m1 (mapped ptes1 ++ T1) ∧ (sz1 : ℤ) = if p.sz + n.toInt < 0 then (p.sz : ℤ)
        else p.sz + n.toInt := by
  have hsz : p.sz < 2 ^ 63 := h.sz_lt hown
  rw [ProcMem.growproc]
  by_cases hpos : 0 < n.toInt
  · have hnew := addInt_of_nonneg hsz (n := n) (by omega)
    rw [if_pos hpos]
    rcases h.shape.uvmalloc hown (ProcMem.addInt p.sz n) (show pteW < 2 ^ 10 by decide) h.takes with
      ⟨m1, T1, hcall, hshape, hext⟩ |
      ⟨m1, T1, new, hcall, hshape, hext, -, htakes⟩
    · left
      refine ⟨m1, T1, ?_, ⟨hshape, h.takes⟩, hext⟩
      rw [hcall, ok_bind]
      exact if_pos rfl
    · right
      have hmax : max p.sz (ProcMem.addInt p.sz n) = ProcMem.addInt p.sz n := by omega
      rw [hmax] at hcall htakes
      refine ⟨ProcMem.addInt p.sz n, m1, T1, ptes ++ new, ?_, ⟨hshape, htakes⟩, hext, ?_⟩
      · rw [hcall, ok_bind]
        exact if_neg (by omega)
      · rw [if_neg (by omega), hnew]
  · rw [if_neg hpos]
    by_cases hneg : n.toInt < 0
    · rw [if_pos hneg]
      obtain ⟨k, m1, -, hcall, htakes, hshape, hext⟩ :=
        h.shape.uvmdealloc hown (ProcMem.addInt p.sz n) h.takes
      have hlen : (ptes.take k).length = k := by
        rw [List.length_take]
        have := h.takes.mono htakes (Nat.min_le_left _ _)
        omega
      right
      refine ⟨min p.sz (ProcMem.addInt p.sz n), m1, T, ptes.take k, ?_, ⟨hshape, ?_⟩, hext, ?_⟩
      · rw [hcall, ok_bind]
      · rwa [hlen]
      · by_cases hlow : p.sz + n.toInt < 0
        · rw [if_pos hlow]
          have := addInt_of_neg hsz hlow
          omega
        · rw [if_neg hlow]
          have := addInt_of_nonneg hsz (n := n) (by omega)
          omega
    · right
      refine ⟨p.sz, m, T, ptes, ?_, h, .refl m _, ?_⟩
      · rw [if_neg hneg]
      · rw [if_neg (by omega)]
        omega

/-! ## `freeproc` and `allocproc` -/

theorem PhysMem.Space.freeproc {sz : ℕ} (h : m.Space trampoline trapframe pt sz T ptes)
    {pa : ℕ} (hown : m.Owns (pa :: (mapped ptes ++ T))) : ∃ m1, ProcMem.freeproc
    (some pa) (some pt) sz m = .ok m1 ∧ m.Extends (pa :: (mapped ptes ++ T)) m1 [] := by
  obtain ⟨m1, hfree, hext, hwords⟩ := hown.kfree_head
  have hspace := h.congr fun a ha =>
    hwords a (List.mem_append_right _ ha)
  obtain ⟨m2, hfree2, hext2⟩ := hspace.free (hown.of_extends hext)
  refine ⟨m2, ?_, hext.trans hext2⟩
  rw [ProcMem.freeproc]
  dsimp only
  rw [hfree, ok_bind, hfree2]

theorem PhysMem.Owns.allocproc (h : m.Owns []) (htrampoline : trampoline < 2 ^ 64) :
    (∃ m1, ProcMem.allocproc trampoline m = .ok (none, m1) ∧ m.Extends [] m1 []) ∨
    ∃ trapframe pt m1 T, ProcMem.allocproc trampoline m = .ok (some (trapframe, pt), m1) ∧
    m.Extends [] m1 (trapframe :: T) ∧ m1.Space trampoline trapframe pt 0 T [] := by
  rw [ProcMem.allocproc]
  rcases h.kalloc with ⟨m1, hk, hext, -⟩ | ⟨tf, m1, hk, hext, -⟩
  · left
    refine ⟨m1, ?_, hext⟩
    rw [hk]
    rfl
  · have hown1 := h.of_extends hext
    have htf : tf < 2 ^ 64 := lt_trans (hown1.range tf (by simp)).lt (by decide)
    have hnone : m1.Owns [] := hown1.of_sublist (List.nil_sublist _)
    rw [hk]
    dsimp only
    rcases hnone.procPagetable htrampoline htf with ⟨m2, hpt, hext2⟩ |
      ⟨pt, m2, T, hpt, hext2, hshape⟩
    · have hext2 := hext.trans (hext2.append [tf])
      obtain ⟨m3, hfree, hext3⟩ := (h.of_extends hext2).kfree
      left
      refine ⟨m3, ?_, hext2.trans hext3⟩
      rw [hpt, ok_bind]
      dsimp only
      rw [ProcMem.freeproc]
      dsimp only
      rw [hfree]
      rfl
    · right
      refine ⟨tf, pt, m2, T, ?_, ?_, hshape, takesPages_zero⟩
      · rw [hpt, ok_bind]
      · exact (hext.trans (hext2.append [tf])).of_perm (List.Perm.refl _)
          (List.perm_append_singleton tf T)

/-! ## `fork` -/

/-- The registers of the child are those of the parent, but for the result of
`fork`. -/
def PhysMem.SavedRegs (m : PhysMem) (old new : ℕ) : Prop :=
  ∀ i : Fin 512, i.val < trapframeWords →
    m.words new i = if i = trapframeA0 then 0 else m.words old i

theorem copyTrapframe_extends (m : PhysMem) (old new : ℕ) :
    m.Extends [new] (copyTrapframe old new m) [new] :=
  (m.setPage_extends _ (List.mem_singleton_self new)).trans
    (PhysMem.setWord_extends _ _ _ (List.mem_singleton_self new))

theorem copyTrapframe_regs (m : PhysMem) {old new : ℕ} (hne : old ≠ new) :
    (copyTrapframe old new m).SavedRegs old new := by
  intro i hi
  simp only [copyTrapframe, PhysMem.setWord, PhysMem.setPage,
    Function.update_self, Function.update_of_ne hne]
  by_cases hA0 : i = trapframeA0
  · rw [hA0, Function.update_self, if_pos rfl]
  · rw [Function.update_of_ne hA0, if_neg hA0, if_pos hi]

/-- The address space of a child that has just been forked, with its own
pages. -/
structure PhysMem.Forked (m : PhysMem) (trampoline : ℕ) (p : ProcMem)
    (ptes : List ℕ) (child : ProcMem) (m₁ : PhysMem) (T₁ ptes₁ : List ℕ) :
    Prop where
  space : m₁.Space trampoline child.trapframe child.pagetable child.sz T₁ ptes₁
  pages : m.Extends [] m₁ (child.trapframe :: (mapped ptes₁ ++ T₁))
  copies : List.Forall₂ m₁.CopyOf ptes₁ ptes
  regs : m₁.SavedRegs p.trapframe child.trapframe
  sz : child.sz = p.sz

theorem PhysMem.Space.forkProc (h : m.Space trampoline p.trapframe p.pagetable p.sz T ptes)
    (hown : m.Owns (p.trapframe :: (mapped ptes ++ T))) (htrampoline : trampoline < 2 ^ 64) :
    (∃ m1, ProcMem.forkProc trampoline p m = .ok (none, m1) ∧ m.Extends [] m1 []) ∨
    ∃ child m1 T1 ptes1, ProcMem.forkProc trampoline p m = .ok (some child, m1) ∧
    m.Forked trampoline p ptes child m1 T1 ptes1 := by
  rw [ProcMem.forkProc]
  have hnone : m.Owns [] := hown.of_sublist (List.nil_sublist _)
  rcases hnone.allocproc htrampoline with ⟨m1, halloc, hext⟩ |
    ⟨tf, pt, m1, T1, halloc, hext, hspace⟩
  · left
    refine ⟨m1, ?_, hext⟩
    rw [halloc, ok_bind]
  · rw [halloc, ok_bind]
    dsimp only
    have hwords := hown.words_eq (A := []) hext
    have hold := h.congr fun a ha => hwords a (List.mem_cons_of_mem _ (List.mem_append_right _ ha))
    have hown1 := hown.of_extends (hext.append _)
    have hpages : m1.Owns (T1 ++ (mapped ptes ++ T)) := hown1.of_sublist (by simp)
    rcases hspace.shape.uvmcopy hold.shape hpages hold.takes with
      ⟨m2, T2, hcopy, hshape2, hext2⟩ |
      ⟨m2, T2, ptes2, hcopy, hshape2, hext2, hcopies⟩
    · have hspace2 : m2.Space trampoline tf pt 0 T2 [] := ⟨hshape2, takesPages_zero⟩
      have hext2 : m.Extends [] m2 (tf :: (mapped [] ++ T2)) := hext.trans (hext2.appendLeft [tf])
      obtain ⟨m3, hfree, hext3⟩ := hspace2.freeproc (hnone.of_extends hext2)
      left
      refine ⟨m3, ?_, hext2.trans hext3⟩
      rw [hcopy, ok_bind]
      dsimp only
      rw [if_pos rfl, hfree, ok_bind]
    · right
      refine ⟨{ p with pagetable := pt, trapframe := tf },
        ProcMem.copyTrapframe p.trapframe tf m2, T2, ptes2, ?_, ?_⟩
      · rw [hcopy, ok_bind]
        rfl
      have hext2 : m.Extends [] m2 (tf :: (mapped ptes2 ++ T2)) :=
        hext.trans (hext2.appendLeft [tf])
      have hown2 := hown.of_extends (hext2.append _)
      have htrap := copyTrapframe_extends m2 p.trapframe tf
      have hsame := hown2.words_eq (A := [tf]) htrap
      have hne : p.trapframe ≠ tf := by
        have hnodup := hown2.nodup
        simp only [List.cons_append, List.nodup_cons] at hnodup
        intro heq
        exact hnodup.1 (by simp [heq])
      have hlen := hcopies.length_eq
      refine ⟨⟨hshape2.congr fun a ha => hsame a (by simp [ha]), ?_⟩,
        hext2.trans (htrap.append _), ?_, copyTrapframe_regs m2 hne, rfl⟩
      · rw [hlen]
        exact h.takes
      · refine PhysMem.copies_congr hcopies ?_ ?_ <;>
          exact fun a ha => hsame a (by simp [ha])

end

end Xv6
