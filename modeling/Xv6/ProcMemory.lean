import Xv6.CopyOut

/-!
# The address space of a process

`proc_pagetable` makes the page table of a process, with the trampoline and the
trapframe but no user memory, and `proc_freepagetable` gives back such a page
table with the user memory in it.  Every process has its page table from the
first and loses it to the second.
-/

namespace Xv6

open Function (update update_of_ne update_self)

/-- `proc_pagetable`; the address of the trampoline code is a parameter. -/
def procPagetable (trampoline trapframe : ℕ) (m : PhysMem) : Except VmPanic (Option ℕ × PhysMem) :=
  match uvmcreate m with
  | (none, m) => .ok (none, m)
  | (some pt, m) => do
    let (mapped, m) ← mappages pt trampolineVa pgsize trampoline
      (pteR ||| pteX) m
    if mapped = false then
      let m ← uvmfree pt 0 m
      .ok (none, m)
    else
      let (mapped, m) ← mappages pt trapframeVa pgsize trapframe
        (pteR ||| pteW) m
      if mapped = false then
        let m ← uvmunmap pt trampolineVa 1 false m
        let m ← uvmfree pt 0 m
        .ok (none, m)
      else .ok (some pt, m)

def procFreepagetable (pt sz : ℕ) (m : PhysMem) : Except VmPanic PhysMem := do
  let m ← uvmunmap pt trampolineVa 1 false m
  let m ← uvmunmap pt trapframeVa 1 false m
  uvmfree pt sz m

section

variable {m : PhysMem} {pt : ℕ} {T ptes : List ℕ} {trampoline trapframe : ℕ}

/-! ## What is mapped above user memory -/

def trampolinePte (trampoline : ℕ) : ℕ := pa2pte trampoline ||| (pteR ||| pteX) ||| pteV

def trapframePte (trapframe : ℕ) : ℕ := pa2pte trapframe ||| (pteR ||| pteW) ||| pteV

/-- What the page table of a process maps above user memory. -/
def procHi (trampoline trapframe : ℕ) : ℕ → Option ℕ := update
    (update (fun _ => none) trampolineVa (some (trampolinePte trampoline)))
    trapframeVa (some (trapframePte trapframe))

theorem trapframeVa_ne : trampolineVa ≠ trapframeVa := by decide

theorem procHi_trampolineVa (trampoline trapframe : ℕ) : procHi trampoline trapframe trampolineVa =
      some (trampolinePte trampoline) := by
  unfold procHi
  rw [update_of_ne trapframeVa_ne, update_self]

theorem procHi_supervisor : Supervisor (procHi trampoline trapframe) := by
  intro b pte hpte
  have hmask : ∀ x flags, flags < 2 ^ 10 → flags &&& pteU = 0 →
      (pa2pte x ||| flags) &&& pteU = 0 := by
    intro x flags hlt hU
    have hflags : (pa2pte x ||| flags) &&& pteU = pteFlags (pa2pte x ||| flags) &&& pteU := by
      rw [pteFlags, Nat.and_assoc]
      rfl
    rw [hflags, pteFlags_pa2pte_or x hlt, hU]
  unfold procHi at hpte
  by_cases htf : b = trapframeVa
  · rw [htf, update_self] at hpte
    rw [← Option.some.inj hpte, trapframePte, Nat.or_assoc]
    exact hmask _ _ (by decide) (by decide)
  · rw [update_of_ne htf] at hpte
    by_cases htr : b = trampolineVa
    · rw [htr, update_self] at hpte
      rw [← Option.some.inj hpte, trampolinePte, Nat.or_assoc]
      exact hmask _ _ (by decide) (by decide)
    · rw [update_of_ne htr] at hpte
      cases hpte

theorem pteFlags_ne {x flags : ℕ} (hlt : flags ||| pteV < 2 ^ 10) (hne : flags ||| pteV ≠ pteV) :
    pteFlags (pa2pte x ||| flags ||| pteV) ≠ pteV := by
  rw [Nat.or_assoc, pteFlags_pa2pte_or x hlt]
  exact hne

/-! ## `proc_pagetable` and `proc_freepagetable` -/

theorem PhysMem.Owns.procPagetable (h : m.Owns [])
    (htrampoline : trampoline < 2 ^ 64) (htrapframe : trapframe < 2 ^ 64) :
    (∃ m1, Xv6.procPagetable trampoline trapframe m = .ok (none, m1) ∧ m.Extends [] m1 []) ∨
    ∃ pt m1 T, Xv6.procPagetable trampoline trapframe m = .ok (some pt, m1) ∧ m.Extends [] m1 T ∧
      m1.Shape pt T [] (procHi trampoline trapframe) := by
  unfold Xv6.procPagetable
  rcases h.uvmcreate with ⟨m1, hcreate, hext, _⟩ | ⟨pt, m1, hcreate, hext, _, hshape⟩
  · exact Or.inl ⟨m1, by rw [hcreate], hext⟩
  simp only [hcreate]
  obtain ⟨r, m2, T2, hmap, hext2, hshape2⟩ := hshape.mapHigh trampolineVa
    (pteR ||| pteX) (h.of_extends hext) (by decide) (by decide) (by decide) rfl htrampoline
  have hext := hext.trans hext2
  have hown2 := h.of_extends hext
  cases r with
  | false =>
    obtain ⟨m3, hfree, hext3⟩ := hshape2.uvmfree hown2 takesPages_zero (fun _ _ => rfl)
    refine Or.inl ⟨m3, ?_, hext.trans hext3⟩
    simp [hmap, hfree, bind, Except.bind]
  | true =>
    rw [if_pos rfl] at hshape2
    obtain ⟨r, m3, T3, hmap3, hext3, hshape3⟩ := hshape2.mapHigh
      trapframeVa (pteR ||| pteW) hown2 (by decide) (by decide) (le_refl trapframeVa)
      (by rw [update_of_ne trapframeVa_ne.symm]) htrapframe
    have hext := hext.trans hext3
    have hown3 := h.of_extends hext
    cases r with
    | false =>
      rw [if_neg (by simp)] at hshape3
      obtain ⟨m4, hunmap, hext4, hshape4⟩ := hshape3.unmapHigh trampolineVa hown3 (by decide)
        (by decide) (by decide) (update_self trampolineVa _ _) (pteFlags_ne (by decide) (by decide))
      have hext := hext.trans hext4
      obtain ⟨m5, hfree, hext5⟩ := hshape4.uvmfree (h.of_extends hext)
        takesPages_zero (fun b _ => by
          by_cases hb : b = trampolineVa
          · rw [hb, update_self]
          · rw [update_of_ne hb, update_of_ne hb])
      refine Or.inl ⟨m5, ?_, hext.trans hext5⟩
      simp [hmap, hmap3, hunmap, hfree, bind, Except.bind]
    | true =>
      rw [if_pos rfl] at hshape3
      refine Or.inr ⟨pt, m3, T3, ?_, hext, hshape3⟩
      simp [hmap, hmap3, bind, Except.bind]

theorem PhysMem.Shape.procFreepagetable (h : m.Shape pt T ptes (procHi trampoline trapframe))
    (hown : m.Owns (mapped ptes ++ T)) {sz : ℕ} (hsz : TakesPages ptes.length sz) :
    ∃ m1, Xv6.procFreepagetable pt sz m = .ok m1 ∧ m.Extends (mapped ptes ++ T) m1 [] := by
  obtain ⟨m1, hunmap, hext, hshape⟩ := h.unmapHigh trampolineVa hown.right (by decide)
    (by decide) (by decide) (procHi_trampolineVa _ _) (pteFlags_ne (by decide) (by decide))
  have hext := hext.appendLeft (mapped ptes)
  have hown1 := hown.of_extends hext
  have htrapframe : update (procHi trampoline trapframe)
      trampolineVa none trapframeVa = some (trapframePte trapframe) := by
    rw [update_of_ne trapframeVa_ne.symm]
    exact update_self ..
  obtain ⟨m2, hunmap2, hext2, hshape2⟩ := hshape.unmapHigh trapframeVa hown1.right
    (by decide) (by decide) (le_refl _) htrapframe (pteFlags_ne (by decide) (by decide))
  have hext := hext.trans (hext2.appendLeft (mapped ptes))
  obtain ⟨m3, hfree, hext3⟩ := hshape2.uvmfree (hown.of_extends hext) hsz (fun b _ => by
      by_cases htf : b = trapframeVa
      · rw [htf, update_self]
      · rw [update_of_ne htf]
        by_cases htr : b = trampolineVa
        · rw [htr, update_self]
        · unfold procHi
          rw [update_of_ne htr, update_of_ne htf, update_of_ne htr])
  refine ⟨m3, ?_, hext.trans hext3⟩
  simp [Xv6.procFreepagetable, hunmap, hunmap2, hfree, bind, Except.bind]

end

end Xv6
