import Xv6.MemorySafety
import Xv6.UserBytes

/-!
# Parent and child

After `fork` the child sees the bytes that its parent saw, in pages of its own:
what one of the two writes from then on is not seen by the other.
-/

namespace Xv6

section

variable {m m1 : PhysMem} {trampoline trapframe pt sz : ℕ} {T ptes : List ℕ} {va : ℕ}

theorem PhysMem.Space.page_lt (h : m.Space trampoline trapframe pt sz T ptes)
    (hva : va < pgroundup sz) : va / pgsize < ptes.length := by
  rw [h.roundup] at hva
  exact (Nat.div_lt_iff_lt_mul pgsize_pos).mpr hva

theorem PhysMem.Forked.same {p child : ProcMem}
    {T1 ptes1 : List ℕ} (h : m.Space trampoline p.trapframe p.pagetable p.sz T ptes)
    (hown : m.Owns (p.trapframe :: (mapped ptes ++ T)))
    (hforked : m.Forked trampoline p ptes child m1 T1 ptes1) (hva : va < pgroundup p.sz) :
    ∃ pte pte1, m.lookup p.pagetable (pgrounddown va) = some pte ∧
    m1.lookup child.pagetable (pgrounddown va) = some pte1 ∧
    pteFlags pte1 = pteFlags pte ∧ m1.userByte child.pagetable va = m.userByte p.pagetable va := by
  have hj := h.page_lt hva
  have hj1 : va / pgsize < ptes1.length := by
    rw [hforked.copies.length_eq]
    exact hj
  obtain ⟨hflags, hcopy⟩ := (List.forall₂_iff_get.mp hforked.copies).2 (va / pgsize) hj1 hj
  have hmem : pte2pa ptes[va / pgsize] ∈ mapped ptes := List.mem_map_of_mem (List.getElem_mem hj)
  have hwords : m1.words (pte2pa ptes[va / pgsize]) = m.words (pte2pa ptes[va / pgsize]) :=
    hown.words_eq (A := []) hforked.pages _ (List.mem_cons_of_mem _ (List.mem_append_left _ hmem))
  have hown1 := (hown.of_sublist (List.nil_sublist _)).of_extends hforked.pages
  refine ⟨_, _, h.shape.user _ hj, hforked.space.shape.user _ hj1, hflags, ?_⟩
  exact h.shape.userByte_congr (hown.of_sublist (List.sublist_cons_self _ _)) hforked.space.shape
    (hown1.of_sublist (List.sublist_cons_self _ _)) hj hj1 (hcopy.trans hwords)

end

def MemLabel.writer : MemLabel → Option (Fin nproc)
  | .write p _ _ => some p
  | _ => none

namespace MemSystem

variable {s s' s₀ s₁ : MemSystem} {k nboot : ℕ} {trampoline : UInt64}
  {labels : List MemLabel} {T ptes : Fin nproc → List ℕ}

/-- `s'` is `s` but for what has been written to the pages of processes in
`ps`. -/
structure WroteBy (ps : List (Fin nproc)) (k : ℕ) (T ptes : Fin nproc → List ℕ)
    (s s' : MemSystem) : Prop where
  inv : s'.Inv k T ptes
  procs : s'.procs = s.procs
  words : ∀ q pm, q ∉ ps → s.procs q = some pm → ∀ a ∈ pm.trapframe :: (mapped (ptes q) ++ T q),
      s'.mem.words a = s.mem.words a

variable {ps : List (Fin nproc)}

theorem WroteBy.step {l : MemLabel} {p : Fin nproc}
    (h : WroteBy ps k T ptes s s') (hp : p ∈ ps) (hl : l.writer = some p)
    (hstep : MemSystem.step l s' = some s₁) : WroteBy ps k T ptes s s₁ := by
  cases l with
  | write p' dstva bytes =>
    cases hl
    unfold MemSystem.step at hstep
    rw [if_pos h.inv.panicked, Option.map_eq_some_iff] at hstep
    obtain ⟨r, hcall, rfl⟩ := hstep
    obtain ⟨pm, m, hpm, rfl, hext⟩ := h.inv.write hcall
    refine ⟨h.inv.setUser hpm hext, h.procs, ?_⟩
    intro q qm hq hqm a ha
    rw [← h.words q qm hq hqm a ha]
    have hne : q ≠ p := by
      rintro rfl
      exact hq hp
    have hqm' : s'.procs q = some qm := by rw [h.procs, hqm]
    have hpieces : s'.mem.Extends (s'.pieces T ptes p) m (s'.pieces T ptes p) := by
      rw [pieces_of_some hpm]
      exact (hext.append (T p)).appendLeft [pm.trapframe]
    refine (h.inv.ownsBut p).words_eq hpieces a ?_
    refine List.mem_append_left _ (Counting.mem_others hne ?_)
    rw [pieces_of_some hqm']
    exact ha
  | _ => cases hl

theorem WroteBy.run
    (h : WroteBy ps k T ptes s s') (hlabels : ∀ l ∈ labels, ∃ p ∈ ps, l.writer = some p)
    (hrun : Machine.run MemSystem.step labels s' = some s₁) : WroteBy ps k T ptes s s₁ := by
  induction labels generalizing s' with
  | nil =>
    cases hrun
    exact h
  | cons l labels ih =>
    obtain ⟨s2, hstep, hrest⟩ := Machine.run_cons_eq_some.mp hrun
    obtain ⟨p, hp, hl⟩ := hlabels l List.mem_cons_self
    exact ih (h.step hp hl hstep) (fun l' hl' => hlabels l' (List.mem_cons_of_mem l hl')) hrest

theorem WroteBy.refl (h : s.Inv k T ptes) (ps : List (Fin nproc)) : WroteBy ps k T ptes s s :=
  ⟨h, rfl, fun _ _ _ _ _ _ => rfl⟩

theorem WroteBy.userByte_eq (hs : s.Inv k T ptes) (h : WroteBy ps k T ptes s s') {q : Fin nproc}
    {pm : ProcMem} (hq : q ∉ ps) (hp : s.procs q = some pm) {va : ℕ} (hva : va < pgroundup pm.sz) :
    s'.mem.userByte pm.pagetable va = s.mem.userByte pm.pagetable va := by
  have hp' : s'.procs q = some pm := by rw [h.procs, hp]
  have hspace := hs.space q pm hp
  have hj := hspace.page_lt hva
  refine hspace.shape.userByte_congr ((hs.ownsProc hp).of_sublist (List.sublist_cons_self _ _))
    (h.inv.space q pm hp').shape
    ((h.inv.ownsProc hp').of_sublist (List.sublist_cons_self _ _)) hj hj ?_
  refine h.words q pm hq hp _ (List.mem_cons_of_mem _ (List.mem_append_left _ ?_))
  exact List.mem_map_of_mem (List.getElem_mem hj)

/-- `fork` copies the flags, the bytes and the registers; afterwards neither
process sees what the other one writes. -/
theorem fork_copies_and_isolates (hboot : memBoot k nboot trampoline = some s₀)
    (hrun : Machine.run MemSystem.step labels s₀ = some s)
    {p np : Fin nproc} (hfork : s.fork p = some (.ok (some np, s'))) :
    ∃ pm child, s.procs p = some pm ∧ s'.procs p = some pm ∧
      s'.procs np = some child ∧ child.sz = pm.sz ∧
      (∀ va < pgroundup pm.sz, ∃ pte pte', s.mem.lookup pm.pagetable (pgrounddown va) = some pte ∧
        s'.mem.lookup child.pagetable (pgrounddown va) = some pte' ∧
        pteFlags pte' = pteFlags pte ∧
        s'.mem.userByte child.pagetable va = s.mem.userByte pm.pagetable va) ∧
      (∀ i : Fin 512, i.val < ProcMem.trapframeWords → s'.mem.words child.trapframe i =
          if i = trapframeA0 then 0 else s.mem.words pm.trapframe i) ∧
      ∀ writes s₁ more s₂, (∀ l ∈ writes, l.writer = some p ∨ l.writer = some np) →
        Machine.run MemSystem.step writes s' = some s₁ →
        Machine.run MemSystem.step more s₁ = some s₂ →
        ((∀ l ∈ more, l.writer = some p) →
          ∀ va < pgroundup child.sz, s₂.mem.userByte child.pagetable va =
            s₁.mem.userByte child.pagetable va) ∧
        ((∀ l ∈ more, l.writer = some np) →
          ∀ va < pgroundup pm.sz, s₂.mem.userByte pm.pagetable va =
            s₁.mem.userByte pm.pagetable va) := by
  obtain ⟨T, ptes, h⟩ := inv_of_run hboot hrun
  rcases h.fork hfork with ⟨m, hm, -⟩ | ⟨pm, np', child, m, T₁, ptes₁, hpm, hnp, hx, hforked⟩
  · cases hm
  cases hx
  have hne : p ≠ np := by
    rintro rfl
    rw [hnp] at hpm
    cases hpm
  have hown := h.ownsProc hpm
  obtain ⟨r, hr, T', ptes', hinv⟩ := h.call
    (show s.call (.fork p) = some _ by rw [MemSystem.call, hfork]; rfl)
  cases hr
  have hpm' : Function.update s.procs np (some child) p = some pm := by
    rw [Function.update_of_ne hne, hpm]
  have hchild : Function.update s.procs np (some child) np = some child :=
    Function.update_self _ _ _
  refine ⟨pm, child, hpm, hpm', hchild, hforked.sz, ?_, ?_, ?_⟩
  · intro va hva
    exact PhysMem.Forked.same (h.space p pm hpm) hown hforked hva
  · intro i hi
    rw [← hown.words_eq (A := []) hforked.pages pm.trapframe List.mem_cons_self]
    exact hforked.regs i hi
  · intro writes s₁ more s₂ hwrites hrun₁ hrun₂
    have hfirst := (WroteBy.refl hinv [p, np]).run (by
      intro l hl
      rcases hwrites l hl with hl | hl
      · exact ⟨p, by simp, hl⟩
      · exact ⟨np, by simp, hl⟩) hrun₁
    constructor
    · intro hmore va hva
      have hsecond := (WroteBy.refl hfirst.inv [p]).run (fun l hl => ⟨p, by simp, hmore l hl⟩) hrun₂
      refine hsecond.userByte_eq hfirst.inv (q := np) (by simpa using hne.symm) ?_ hva
      rw [hfirst.procs]
      exact hchild
    · intro hmore va hva
      have hsecond := (WroteBy.refl hfirst.inv [np]).run
        (fun l hl => ⟨np, by simp, hmore l hl⟩) hrun₂
      refine hsecond.userByte_eq hfirst.inv (q := p) (by simpa using hne) ?_ hva
      rw [hfirst.procs]
      exact hpm'

/-- `fork` by the first process makes process 1. -/
def forksFirst (s : MemSystem) : Bool :=
  match s.fork 0 with
  | some (.ok (some np, _)) => np == 1
  | _ => false

theorem fork_copies_and_isolates_first : ∃ s s' pm child,
      memBoot (128 * 1024 * 1024 - 20 * pgsize) 1 0x80007000 = some s ∧
      s.fork 0 = some (.ok (some 1, s')) ∧ s.procs 0 = some pm ∧
      s'.procs 1 = some child ∧ child.sz = pm.sz := by
  have hany : (memBoot (128 * 1024 * 1024 - 20 * pgsize) 1 0x80007000).any
      forksFirst := by decide +kernel
  obtain ⟨s, hboot, hs⟩ := (Option.any_eq_true _ _).mp hany
  unfold forksFirst at hs
  split at hs
  · rename_i np s' hfork
    obtain rfl := eq_of_beq hs
    obtain ⟨pm, child, hpm, -, hchild, hsz, -⟩ := fork_copies_and_isolates hboot
        (show Machine.run MemSystem.step [] s = some s from rfl) hfork
    exact ⟨s, s', pm, child, hboot, hfork, hpm, hchild, hsz⟩
  · cases hs

end MemSystem

end Xv6
