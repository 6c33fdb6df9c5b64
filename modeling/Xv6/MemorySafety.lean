import Xv6.MemoryInvariant

/-!
# Pages and address spaces over whole runs

The invariant holds when the first process is about to run and is kept by every
step, so that pages are neither lost nor shared, and address spaces have the
size that their process believes them to have.
-/

namespace Xv6

open Function (update_of_ne update_self)
open ProcMem

/-! ## The beginning -/

section

variable {m m' : PhysMem}

theorem pagesFrom_succ (pa n : ℕ) : pagesFrom pa (n + 1) = pa :: pagesFrom (pa + pgsize) n := by
  unfold pagesFrom
  rw [List.range_succ_eq_map, List.map_cons, List.map_map, Nat.zero_mul, Nat.add_zero]
  congr 1
  apply List.map_congr_left
  intro k _
  simp only [Function.comp_apply, Nat.succ_eq_add_one, Nat.add_mul, Nat.one_mul]
  omega

theorem freerange_spec {n pa : ℕ} (hok : freerange n pa m = .ok m') : m'.kend = m.kend ∧
    m'.freelist.Perm (pagesFrom pa n ++ m.freelist) ∧ ∀ a ∈ pagesFrom pa n, m.InRange a := by
  induction n generalizing pa m with
  | zero =>
    cases hok
    simp [pagesFrom]
  | succ n ih =>
    rw [freerange] at hok
    cases hfree : kfree pa m with
    | error e =>
      rw [hfree] at hok
      cases hok
    | ok m1 =>
      rw [hfree, ok_bind] at hok
      have hrange := inRange_of_kfree hfree
      obtain ⟨m2, heq, hlist, hkend, -⟩ := kfree_of_inRange hrange
      rw [hfree] at heq
      cases heq
      obtain ⟨hkend', hperm, hall⟩ := ih hok
      rw [pagesFrom_succ]
      refine ⟨hkend'.trans hkend, ?_, ?_⟩
      · refine hperm.trans ?_
        rw [hlist]
        exact List.perm_middle
      · intro a ha
        rcases List.mem_cons.mp ha with rfl | ha
        · exact hrange
        · have := hall a ha
          unfold PhysMem.InRange at this ⊢
          rwa [hkend] at this

theorem kinit_spec {k : ℕ} (hok : kinit k = .ok m) : m.kend = kernbase + k ∧ m.Owns [] ∧
      m.freelist.Perm (kernelPages (kernbase + k)) := by
  obtain ⟨hkend, hperm, hall⟩ := freerange_spec hok
  rw [List.append_nil] at hperm
  refine ⟨hkend, ⟨?_, ?_⟩, hperm⟩
  · rw [List.nil_append]
    exact hperm.nodup_iff.mpr (nodup_kernelPages _)
  · intro a ha
    have := hall a (hperm.mem_iff.mp ha)
    unfold PhysMem.InRange at this ⊢
    rwa [hkend]

theorem bootPages_extends {n : ℕ} {boot : List ℕ}
    (hboot : bootPages n m = some (boot, m')) : m.Extends [] m' boot := by
  induction n generalizing m boot with
  | zero =>
    cases hboot
    exact .refl _ _
  | succ n ih =>
    unfold bootPages at hboot
    rcases kalloc_extends m with ⟨m1, hk, -⟩ | ⟨pa, m1, hk, hext⟩
    · simp [hk] at hboot
    · simp only [hk, Option.map_eq_some_iff, Prod.exists, Prod.mk.injEq] at hboot
      obtain ⟨rest, m2, hrest, rfl, rfl⟩ := hboot
      exact hext.trans ((ih hrest).appendLeft [pa])

theorem PhysMem.Shape.uvmfirst {pt : ℕ} {T : List ℕ} {hi : ℕ → Option ℕ}
    (h : m.Shape pt T [] hi) (hown : m.Owns T) (hcall : ProcMem.uvmfirst pt m = some m') :
    ∃ T1 pte, m'.Shape pt T1 [pte] hi ∧ m.Extends T m' (mapped [pte] ++ T1) := by
  unfold ProcMem.uvmfirst at hcall
  rcases hown.kalloc with ⟨m1, hk, -⟩ | ⟨mem, m1, hk, hext, hwords⟩
  · simp [hk] at hcall
  · simp only [hk] at hcall
    have hown1 := hown.of_extends hext
    have hmem : m1.InRange mem := hown1.range mem (by simp)
    have hperm : pteW ||| pteR ||| pteX ||| pteU < 2 ^ 10 := by decide
    rcases (h.congr hwords).mapNew hown1 (fun _ => 0) hperm
      (by decide) with ⟨m2, T2, hmap, hshape, hext2, -⟩ | ⟨m2, T2, hmap, -⟩
    · rw [List.length_nil, Nat.zero_mul] at hmap
      rw [hmap] at hcall
      cases hcall
      have hpage : pte2pa (pa2pte mem ||| (pteW ||| pteR ||| pteX ||| pteU) ||| pteV) = mem :=
        pte2pa_of_inRange hmem hperm
      have hstore : m2.Extends (mapped ([] ++ [pa2pte mem |||
          (pteW ||| pteR ||| pteX ||| pteU) ||| pteV]))
          (m2.store mem (fun k => initcode.getD k 0) initcode.length)
          (mapped ([] ++ [pa2pte mem ||| (pteW ||| pteR ||| pteX ||| pteU) ||| pteV])) := by
        have hstore := m2.store_extends 0 (fun k => initcode.getD k 0)
          (n := initcode.length) hmem.1 (by decide)
        rw [Nat.add_zero] at hstore
        simpa [mapped, hpage] using hstore
      have hown2 := hown.of_extends (hext.trans hext2)
      refine ⟨T2, _, hshape.congr (hown2.words_eq hstore), ?_⟩
      exact (hext.trans hext2).trans (hstore.append T2)
    · rw [List.length_nil, Nat.zero_mul] at hmap
      rw [hmap] at hcall
      cases hcall

theorem PhysMem.Owns.userinit {trampoline : ℕ} {pm : ProcMem} (h : m.Owns [])
    (htrampoline : trampoline < 2 ^ 64) (hcall : ProcMem.userinit trampoline m = some (pm, m')) :
    ∃ T ptes, m'.Space trampoline pm.trapframe pm.pagetable pm.sz T ptes ∧
    m.Extends [] m' (pm.trapframe :: (mapped ptes ++ T)) := by
  unfold ProcMem.userinit at hcall
  rcases h.allocproc htrampoline with ⟨m1, halloc, -⟩ | ⟨tf, pt, m1, T, halloc, hext, hspace⟩
  · simp [halloc] at hcall
  · simp only [halloc] at hcall
    have hown1 := h.of_extends hext
    cases hfirst : uvmfirst pt m1 with
    | none => simp [hfirst] at hcall
    | some m2 =>
      simp only [hfirst, Option.some.injEq, Prod.mk.injEq] at hcall
      obtain ⟨rfl, rfl⟩ := hcall
      obtain ⟨T2, pte, hshape, hext2⟩ := hspace.shape.uvmfirst
        (hown1.of_sublist (List.sublist_cons_self _ _)) hfirst
      have hext2 := hext.trans (hext2.appendLeft [tf])
      have hown2 := h.of_extends hext2
      have hmem := List.mem_singleton_self tf
      have hregs := (m2.setWord_extends trapframeEpc 0 hmem).trans
        (setWord_extends _ trapframeSp pgsize hmem)
      have hwords := hown2.words_eq (A := [tf]) hregs
      refine ⟨T2, [pte], ⟨hshape.congr fun a ha => ?_, ?_⟩, ?_⟩
      · exact hwords a (List.mem_append_right _ ha)
      · exact takesPages_mul 1
      · exact hext2.trans (hregs.append _)

end

namespace MemSystem

variable {s s₀ : MemSystem} {k nboot : ℕ} {trampoline : UInt64}
  {labels : List MemLabel} {p : Fin nproc}

theorem inv_of_boot (hboot : memBoot k nboot trampoline = some s) : ∃ T ptes, s.Inv k T ptes := by
  unfold memBoot at hboot
  cases hinit : kinit k with
  | error e => simp [hinit] at hboot
  | ok m =>
    simp only [hinit] at hboot
    obtain ⟨hkend, hown, hpages⟩ := kinit_spec hinit
    cases hb : bootPages nboot m with
    | none => simp [hb] at hboot
    | some x =>
      obtain ⟨boot, m1⟩ := x
      simp only [hb] at hboot
      have hext := bootPages_extends hb
      have hnone : m1.Owns [] := (hown.of_extends hext).of_sublist (List.nil_sublist _)
      cases hu : ProcMem.userinit trampoline.toNat m1 with
      | none => simp [hu] at hboot
      | some x =>
        obtain ⟨pm, m2⟩ := x
        simp only [hu, Option.some.injEq] at hboot
        obtain ⟨T, ptes, hspace, hext2⟩ := hnone.userinit trampoline.toNat_lt hu
        have hall := hext.trans (hext2.append boot)
        have howned : (s.owned (fun _ => T) (fun _ => ptes)).Perm
            (pm.trapframe :: (mapped ptes ++ T) ++ boot) := by
          refine (s.owned_perm _ _ 0).trans ?_
          have hpiece : s.pieces (fun _ => T) (fun _ => ptes) 0 =
              pm.trapframe :: (mapped ptes ++ T) := by
            subst hboot
            rfl
          have hbut : s.ownedBut (fun _ => T) (fun _ => ptes) 0 = boot := by
            subst hboot
            simp only [ownedBut, kernelOwned, List.map_nil, List.nil_append, Counting.others]
            rw [List.append_left_eq_self, List.flatMap_eq_nil_iff]
            intro q hq
            have hne : q ≠ 0 := by
              rintro rfl
              exact (List.nodup_finRange nproc).not_mem_erase hq
            apply pieces_of_none
            exact update_of_ne hne (some pm) fun _ => none
          rw [hpiece, hbut]
        have hall : m.Extends [] m2 (s.owned (fun _ => T) (fun _ => ptes)) :=
          hall.of_perm (List.Perm.refl _) howned.symm
        subst hboot
        refine ⟨fun _ => T, fun _ => ptes, rfl, trampoline.toNat_lt,
          hall.kend.trans hkend, ?_, hown.of_extends hall, hall.perm.trans hpages⟩
        intro p pm' hp
        by_cases hp0 : p = 0
        · subst hp0
          cases hp
          exact hspace
        · simp [hp0] at hp

theorem inv_of_run (hboot : memBoot k nboot trampoline = some s₀)
    (hrun : Machine.run MemSystem.step labels s₀ = some s) : ∃ T ptes, s.Inv k T ptes := by
  refine Machine.run_invariant (I := fun s => ∃ T ptes, s.Inv k T ptes) ?_ (inv_of_boot hboot) hrun
  rintro l s s' ⟨T, ptes, h⟩ hstep
  unfold MemSystem.step at hstep
  rw [if_pos h.panicked, Option.map_eq_some_iff] at hstep
  obtain ⟨r, hcall, rfl⟩ := hstep
  obtain ⟨s', rfl, hinv⟩ := h.call hcall
  exact hinv

end MemSystem

/-! ## The pages that a page table shows -/

def PhysMem.tablePages (m : PhysMem) (pt : ℕ) : List ℕ :=
  PathTree.nodes m.child (List.finRange 512) 2 pt

/-- The pages that are mapped below `PGROUNDUP(sz)`. -/
def PhysMem.userPages (m : PhysMem) (pt sz : ℕ) : List ℕ :=
  (List.range (pgroundup sz / pgsize)).filterMap fun j =>
    (m.lookup pt (j * pgsize)).map pte2pa

def PhysMem.IsLeaf (m : PhysMem) (pt va : ℕ) : Prop :=
  ∃ pte, m.lookup pt va = some pte ∧ pte &&& (pteR ||| pteW ||| pteX) ≠ 0

section

variable {m : PhysMem} {pt : ℕ} {T ptes : List ℕ} {trampoline trapframe sz va : ℕ}

section

variable (h : m.Space trampoline trapframe pt sz T ptes)
include h

theorem PhysMem.Space.roundup : pgroundup sz = ptes.length * pgsize :=
  pgroundup_eq h.takes h.shape.bound

theorem PhysMem.Space.tablePages_perm : (m.tablePages pt).Perm T :=
  (h.shape.tree.perm_nodes (List.nodup_finRange 512) List.mem_finRange).symm

theorem PhysMem.Space.userPages_eq : m.userPages pt sz = mapped ptes := by
  unfold userPages mapped
  rw [h.roundup, Nat.mul_div_cancel _ pgsize_pos]
  apply List.ext_getElem?
  intro j
  have hsome : (List.range ptes.length).filterMap (fun j =>
      (m.lookup pt (j * pgsize)).map pte2pa) =
      (List.range ptes.length).map fun j => pte2pa (ptes.getD j 0) := by
    rw [← List.filterMap_eq_map]
    refine List.filterMap_congr fun j hj => ?_
    have hj := List.mem_range.mp hj
    simp [h.shape.user j hj, hj]
  rw [hsome]
  by_cases hj : j < ptes.length <;> simp [hj]

end

theorem and_rwx_of_pteR {pte : ℕ} (h : pte &&& pteR ≠ 0) :
    pte &&& (pteR ||| pteW ||| pteX) ≠ 0 := by
  rw [Nat.or_assoc, Nat.and_or_distrib_left]
  have hle : pte &&& pteR ≤ (pte &&& pteR) ||| (pte &&& (pteW ||| pteX)) := Nat.left_le_or
  omega

theorem PhysMem.Space.isLeaf_iff (h : m.Space trampoline trapframe pt sz T ptes)
    (hva : va % pgsize = 0) :
    m.IsLeaf pt va ↔ va < pgroundup sz ∨ va = trapframeVa ∨ va = trampolineVa := by
  have hbound := h.shape.bound
  have hflags (x flags : ℕ) : (pa2pte x ||| (pteR ||| flags) ||| pteV) &&& pteR ≠ 0 := by
    rw [Nat.or_comm (pa2pte x), Nat.or_assoc (pteR ||| flags)]
    exact pteR_or_ne_zero _ _
  rw [h.roundup]
  by_cases hlt : va < ptes.length * pgsize
  · refine iff_of_true ?_ (Or.inl hlt)
    have hj : va / pgsize < ptes.length := (Nat.div_lt_iff_lt_mul pgsize_pos).mpr hlt
    have hback : va / pgsize * pgsize = va := Nat.div_mul_cancel (Nat.dvd_of_mod_eq_zero hva)
    refine ⟨_, hback ▸ h.shape.user (va / pgsize) hj, ?_⟩
    exact and_rwx_of_pteR (h.shape.leaf _ (List.getElem_mem hj))
  · unfold IsLeaf
    rw [h.shape.high va hva (Nat.le_of_not_lt hlt)]
    constructor
    · rintro ⟨pte, hpte, -⟩
      right
      by_contra hne
      rw [not_or] at hne
      rw [procHi, update_of_ne hne.1, update_of_ne hne.2] at hpte
      cases hpte
    · rintro (hlow | rfl | rfl)
      · exact absurd hlow hlt
      · exact ⟨_, update_self _ _ _, and_rwx_of_pteR (hflags _ _)⟩
      · exact ⟨_, procHi_trampolineVa _ _, and_rwx_of_pteR (hflags _ _)⟩

end

namespace MemSystem

variable {s s₀ : MemSystem} {k nboot : ℕ} {trampoline : UInt64}
  {labels : List MemLabel} {T ptes : Fin nproc → List ℕ}

/-- A run: the second call of `kalloc` fails, in the `fork`. -/
def forkFails : List MemLabel := [.fails [false, true], .exec 0 none none [], .fork 0]

theorem exists_forkFails : ∃ s₀ s, memBoot (128 * 1024 * 1024 - 12 * pgsize)
    1 0x80007000 = some s₀ ∧ Machine.run MemSystem.step forkFails s₀ = some s := by
  have hrun : ((memBoot (128 * 1024 * 1024 - 12 * pgsize) 1 0x80007000).bind
      (Machine.run MemSystem.step forkFails)).isSome := by decide +kernel
  obtain ⟨s, hs⟩ := Option.isSome_iff_exists.mp hrun
  obtain ⟨s₀, hboot, hrun⟩ := Option.bind_eq_some_iff.mp hs
  exact ⟨s₀, s, hboot, hrun⟩

theorem exists_running : ∃ s₀ pm, memBoot (128 * 1024 * 1024 - 12 * pgsize) 1 0x80007000 = some s₀ ∧
      s₀.procs 0 = some pm ∧ s₀.zombie 0 = false ∧ pm.sz = pgsize := by
  have hany : (memBoot (128 * 1024 * 1024 - 12 * pgsize) 1 0x80007000).any
      fun s => (s.procs 0).any fun pm =>
        s.zombie 0 == false && pm.sz == pgsize := by decide +kernel
  obtain ⟨s₀, hboot, hs⟩ := (Option.any_eq_true _ _).mp hany
  obtain ⟨pm, hp, hs⟩ := (Option.any_eq_true _ _).mp hs
  simp only [Bool.and_eq_true, beq_iff_eq] at hs
  exact ⟨s₀, pm, hboot, hp, hs⟩

/-! ## Where every page is -/

/-- The pages of a process, of a pipe or of the kernel itself. -/
def ownedPages (s : MemSystem) : List ℕ :=
  (List.finRange nproc).flatMap (fun p =>
    match s.procs p with
    | none => []
    | some pm =>
      pm.trapframe :: (s.mem.userPages pm.pagetable pm.sz ++ s.mem.tablePages pm.pagetable)) ++
    (s.pipes.map PipePage.page ++ s.boot)

theorem Inv.ownedPages_perm (h : s.Inv k T ptes) : s.ownedPages.Perm (s.owned T ptes) := by
  refine List.Perm.append_right _ (List.Perm.flatMap_left _ fun p _ => ?_)
  cases hp : s.procs p with
  | none => rw [pieces_of_none hp]
  | some pm =>
    have hspace := h.space p pm hp
    rw [pieces_of_some hp, ← hspace.userPages_eq]
    exact (hspace.tablePages_perm.append_left _).cons _

theorem Inv.freelist_perm {m : PhysMem} (hext : s.mem.Extends [] m []) :
    m.freelist.Perm s.mem.freelist := by
  simpa using hext.perm

/-- Every page has one owner or is free, whichever calls of `kalloc` fail, and
a `fork` or `exec` that fails has given back what it took. -/
theorem page_conservation (hboot : memBoot k nboot trampoline = some s₀)
    (hrun : Machine.run MemSystem.step labels s₀ = some s) :
    s.panicked = none ∧
    (s.ownedPages ++ s.mem.freelist).Perm (kernelPages (kernbase + k)) ∧
    (s.ownedPages ++ s.mem.freelist).Nodup ∧
    (∀ p s', s.fork p = some (.ok (none, s')) → s'.mem.freelist.Perm s.mem.freelist) ∧
    ∀ p path ip args s', s.exec p path ip args = some (.ok (none, s')) →
      s'.mem.freelist.Perm s.mem.freelist := by
  obtain ⟨T, ptes, h⟩ := inv_of_run hboot hrun
  have hpages : (s.ownedPages ++ s.mem.freelist).Perm (kernelPages (kernbase + k)) :=
    (h.ownedPages_perm.append_right _).trans h.pages
  refine ⟨h.panicked, hpages, hpages.nodup_iff.mpr (nodup_kernelPages _), ?_, ?_⟩
  · intro p s' hfork
    rcases h.fork hfork with ⟨m, hm, hext⟩ | ⟨_, _, _, _, _, _, _, _, hx, _⟩
    · cases hm
      exact Inv.freelist_perm hext
    · cases hx
  · intro p path ip args s' hexec
    obtain ⟨pm, -, ⟨m, hm, hext⟩ | ⟨_, _, _, _, _, hx, -⟩⟩ := h.exec hexec
    · cases hm
      exact Inv.freelist_perm hext
    · cases hx

theorem page_conservation_forkFails :
    ∃ s₀ s, memBoot (128 * 1024 * 1024 - 12 * pgsize) 1 0x80007000 = some s₀ ∧
      Machine.run MemSystem.step forkFails s₀ = some s ∧
      (s.ownedPages ++ s.mem.freelist).Nodup := by
  obtain ⟨s₀, s, hboot, hrun⟩ := exists_forkFails
  exact ⟨s₀, s, hboot, hrun, (page_conservation hboot hrun).2.2.1⟩

/-! ## The shape of address spaces -/

/-- The leaves of a page table are those of a process of its size, no system
call panics, and an `sbrk` that fails changes no leaf. -/
theorem address_space_shape (hboot : memBoot k nboot trampoline = some s₀)
    (hrun : Machine.run MemSystem.step labels s₀ = some s) :
    s.panicked = none ∧
    (∀ p pm, s.procs p = some pm → ∀ va, va % pgsize = 0 →
      (s.mem.IsLeaf pm.pagetable va ↔
        va < pgroundup pm.sz ∨ va = trapframeVa ∨ va = trampolineVa)) ∧
    ∀ p pm n s', s.procs p = some pm → s.sbrk p n = some (.ok (false, s')) →
      s'.procs p = some pm ∧ ∀ va, va % pgsize = 0 →
        s'.mem.lookup pm.pagetable va = s.mem.lookup pm.pagetable va := by
  obtain ⟨T, ptes, h⟩ := inv_of_run hboot hrun
  refine ⟨h.panicked, ?_, ?_⟩
  · intro p pm hp va hva
    exact (h.space p pm hp).isLeaf_iff hva
  · intro p pm n s' hp hsbrk
    obtain ⟨pm', hp', ⟨m, T₁, hm, hspace, -⟩ | ⟨_, _, _, _, hx, -⟩⟩ := h.sbrk hsbrk
    · rw [hp] at hp'
      cases hp'
      cases hm
      refine ⟨update_self _ _ _, fun va hva => ?_⟩
      exact (h.space p pm hp).shape.lookup_eq hspace.shape hva
    · cases hx

theorem address_space_shape_forkFails :
    ∃ s₀ s, memBoot (128 * 1024 * 1024 - 12 * pgsize) 1 0x80007000 = some s₀ ∧
      Machine.run MemSystem.step forkFails s₀ = some s ∧
      s.panicked = none := by
  obtain ⟨s₀, s, hboot, hrun⟩ := exists_forkFails
  exact ⟨s₀, s, hboot, hrun, (address_space_shape hboot hrun).1⟩

/-! ## `exec` -/

/-- Whatever is in the file and wherever `kalloc` fails, `exec` returns; when
it returns -1, the process has the image that it had, and otherwise the pages
of the old image are free. -/
theorem exec_safe_atomic (hboot : memBoot k nboot trampoline = some s₀)
    (hrun : Machine.run MemSystem.step labels s₀ = some s)
    {p : Fin nproc} {pm : ProcMem} (hp : s.procs p = some pm)
    (hrunning : s.zombie p = false) (path : Option (List UInt8))
    (ip : Option ExecInode) (args : List UserArg) :
    ∃ r s', s.exec p path ip args = some (.ok (r, s')) ∧
      (r = none → s'.procs = s.procs ∧ s'.mem.words pm.trapframe = s.mem.words pm.trapframe ∧
        (∀ va, va % pgsize = 0 → s'.mem.lookup pm.pagetable va = s.mem.lookup pm.pagetable va) ∧
        (∀ a ∈ s.mem.userPages pm.pagetable pm.sz, s'.mem.words a = s.mem.words a) ∧
        s'.mem.freelist.Perm s.mem.freelist) ∧
      (r ≠ none →
        (∃ pm', s'.procs p = some pm' ∧ pm'.trapframe = pm.trapframe ∧ pm'.ofile = pm.ofile) ∧
        s.mem.userPages pm.pagetable pm.sz ++ s.mem.tablePages pm.pagetable ⊆
          s'.mem.freelist) := by
  obtain ⟨T, ptes, h⟩ := inv_of_run hboot hrun
  have hspace := h.space p pm hp
  obtain ⟨x, hexec⟩ : ∃ x, s.exec p path ip args = some x := by
    unfold MemSystem.exec
    rw [hp, hrunning]
    exact ⟨_, rfl⟩
  obtain ⟨pm', hp', ⟨m, rfl, hext⟩ |
    ⟨argv, pm₁, m, T₁, ptes₁, rfl, htf, hofile, -, -, hold, -⟩⟩ := h.exec hexec
  · rw [hp] at hp'
    cases hp'
    have hwords := (h.ownsProc hp).words_eq (A := []) hext
    refine ⟨none, _, hexec, fun _ => ⟨?_, ?_, ?_, ?_, ?_⟩, fun hne => absurd rfl hne⟩
    · exact Function.update_eq_self_iff.mpr hp.symm
    · exact hwords _ List.mem_cons_self
    · intro va hva
      refine hspace.shape.lookup_eq (hspace.shape.congr fun a ha => ?_) hva
      exact hwords a (List.mem_cons_of_mem _ (List.mem_append_right _ ha))
    · intro a ha
      rw [hspace.userPages_eq] at ha
      exact hwords a (List.mem_cons_of_mem _ (List.mem_append_left _ ha))
    · exact Inv.freelist_perm hext
  · rw [hp] at hp'
    cases hp'
    refine ⟨some argv.length, _, hexec, ?_, fun _ => ⟨?_, ?_⟩⟩
    · rintro ⟨⟩
    · exact ⟨pm₁, update_self _ _ _, htf, hofile⟩
    · intro a ha
      rw [hspace.userPages_eq] at ha
      exact hold ((hspace.tablePages_perm.append_left _).mem_iff.mp ha)

theorem exec_safe_atomic_noFile :
    ∃ s r s', memBoot (128 * 1024 * 1024 - 12 * pgsize) 1 0x80007000 = some s ∧
      s.exec 0 (some []) none [] = some (.ok (r, s')) := by
  obtain ⟨s, pm, hboot, hp, hzombie, -⟩ := exists_running
  obtain ⟨r, s', hexec, -⟩ := exec_safe_atomic hboot
    (show Machine.run MemSystem.step [] s = some s from rfl) hp hzombie
    (some []) none []
  exact ⟨s, r, s', hboot, hexec⟩

/-! ## `sbrk` -/

end MemSystem

end Xv6
