import Xv6.Lib.Counting
import Xv6.ProcPages

/-!
# Who owns which page

In every state of the system the pages of the processes, of the pipes and of
the kernel itself and the free pages are, together, all pages of memory, each
of them once, and every process has an address space of its size.
-/

namespace Xv6

open Function (update update_of_ne update_self)

/-- The pages of a slot of the process table, whose address space has the
page-table pages `T` and the PTEs `ptes`. -/
def procPages (pm : Option ProcMem) (T ptes : List ℕ) : List ℕ :=
  match pm with
  | none => []
  | some pm => pm.trapframe :: (mapped ptes ++ T)

def pagesFrom (pa n : ℕ) : List ℕ := (List.range n).map fun k => pa + k * pgsize

/-- The pages from `end` to `PHYSTOP`. -/
def kernelPages (kend : ℕ) : List ℕ :=
  pagesFrom (pgroundup kend) ((phystop - pgroundup kend) / pgsize)

theorem nodup_kernelPages (kend : ℕ) : (kernelPages kend).Nodup := by
  refine List.nodup_range.map ?_
  intro j k hjk
  have hmul : j * pgsize = k * pgsize := by simpa using hjk
  exact Nat.eq_of_mul_eq_mul_right pgsize_pos hmul

namespace MemSystem

variable {s : MemSystem} {k : ℕ} {T ptes : Fin nproc → List ℕ} {p : Fin nproc} {m : PhysMem}

def pieces (s : MemSystem) (T ptes : Fin nproc → List ℕ) (p : Fin nproc) : List ℕ :=
  procPages (s.procs p) (T p) (ptes p)

theorem pieces_of_some {pm : ProcMem} (hp : s.procs p = some pm) :
    s.pieces T ptes p = pm.trapframe :: (mapped (ptes p) ++ T p) := by
  rw [pieces, hp]
  rfl

theorem pieces_of_none (hp : s.procs p = none) : s.pieces T ptes p = [] := by
  rw [pieces, hp]
  rfl

/-- What the kernel owns: the pipes and the pages from the beginning. -/
def kernelOwned (s : MemSystem) : List ℕ := s.pipes.map PipePage.page ++ s.boot

def owned (s : MemSystem) (T ptes : Fin nproc → List ℕ) : List ℕ :=
  (List.finRange nproc).flatMap (s.pieces T ptes) ++ s.kernelOwned

/-- What everyone but `p` owns. -/
def ownedBut (s : MemSystem) (T ptes : Fin nproc → List ℕ) (p : Fin nproc) : List ℕ :=
  Counting.others (s.pieces T ptes) p ++ s.kernelOwned

/-- The invariant, for a kernel of `k` bytes. -/
structure Inv (s : MemSystem) (k : ℕ) (T ptes : Fin nproc → List ℕ) : Prop where
  panicked : s.panicked = none
  trampoline : s.trampoline < 2 ^ 64
  kend : s.mem.kend = kernbase + k
  space : ∀ p pm, s.procs p = some pm →
    s.mem.Space s.trampoline pm.trapframe pm.pagetable pm.sz (T p) (ptes p)
  owns : s.mem.Owns (s.owned T ptes)
  pages : (s.owned T ptes ++ s.mem.freelist).Perm (kernelPages (kernbase + k))

theorem owned_perm (s : MemSystem) (T ptes : Fin nproc → List ℕ) (p : Fin nproc) :
    (s.owned T ptes).Perm (s.pieces T ptes p ++ s.ownedBut T ptes p) := by
  unfold owned ownedBut
  rw [← List.append_assoc]
  exact (Counting.flatMap_perm _ p).append_right _

theorem Inv.ownsBut (h : s.Inv k T ptes) (p : Fin nproc) :
    s.mem.Owns (s.pieces T ptes p ++ s.ownedBut T ptes p) :=
  h.owns.of_perm (s.owned_perm T ptes p)

theorem Inv.ownsProc (h : s.Inv k T ptes) {pm : ProcMem} (hp : s.procs p = some pm) :
    s.mem.Owns (pm.trapframe :: (mapped (ptes p) ++ T p)) := by
  rw [← pieces_of_some hp]
  exact (h.ownsBut p).left

theorem Inv.kend_pos (h : s.Inv k T ptes) : 0 < s.mem.kend := by
  rw [h.kend]
  unfold kernbase
  omega

theorem Inv.mem_ownedBut (hp : ∃ pm, s.procs p = some pm) {q : Fin nproc}
    (hpq : p ≠ q) {a : ℕ} (ha : a ∈ mapped (ptes p) ++ T p) : a ∈ s.ownedBut T ptes q := by
  obtain ⟨pm, hp⟩ := hp
  refine List.mem_append_left _ (Counting.mem_others hpq ?_)
  rw [pieces_of_some hp]
  exact List.mem_cons_of_mem _ ha

/-! ## One process at a time -/

theorem pieces_setProc (s : MemSystem) (T ptes : Fin nproc → List ℕ) (p : Fin nproc)
    (pm : Option ProcMem) (m : PhysMem) (T' ptes' : List ℕ) : (s.setProc p pm m).pieces
    (update T p T') (update ptes p ptes') = update (s.pieces T ptes) p (procPages pm T' ptes') := by
  funext q
  by_cases hq : q = p
  · subst hq
    simp [pieces, setProc]
  · simp [pieces, setProc, hq]

theorem Inv.setProc (h : s.Inv k T ptes) {pm : Option ProcMem}
    {T' ptes' : List ℕ} (hext : s.mem.Extends (s.pieces T ptes p) m (procPages pm T' ptes'))
    (hspace : ∀ pm', pm = some pm' →
    m.Space s.trampoline pm'.trapframe pm'.pagetable pm'.sz T' ptes') :
    (s.setProc p pm m).Inv k (update T p T') (update ptes p ptes') := by
  have hperm := s.owned_perm T ptes p
  have hperm' := (s.setProc p pm m).owned_perm (update T p T') (update ptes p ptes') p
  have hbut : (s.setProc p pm m).ownedBut (update T p T')
      (update ptes p ptes') p = s.ownedBut T ptes p := by
    unfold ownedBut
    rw [pieces_setProc, Counting.others_update]
    rfl
  rw [pieces_setProc, update_self, hbut] at hperm'
  have hall : s.mem.Extends (s.owned T ptes) m
      ((s.setProc p pm m).owned (update T p T') (update ptes p ptes')) :=
    (hext.append (s.ownedBut T ptes p)).of_perm hperm.symm hperm'.symm
  refine ⟨h.panicked, h.trampoline, ?_, ?_, h.owns.of_extends hall, ?_⟩
  · exact hall.kend.trans h.kend
  · intro q pm' hq
    by_cases hqp : q = p
    · subst hqp
      simp only [MemSystem.setProc, update_self] at hq ⊢
      exact hspace pm' hq
    · simp only [MemSystem.setProc, update_of_ne hqp] at hq ⊢
      refine (h.space q pm' hq).congr fun a ha => ?_
      exact (h.ownsBut p).words_eq hext a
        (Inv.mem_ownedBut ⟨pm', hq⟩ hqp (List.mem_append_right _ ha))
  · exact hall.perm.trans h.pages

theorem Inv.setMem (h : s.Inv k T ptes) (hext : s.mem.Extends [] m []) :
    ({ s with mem := m } : MemSystem).Inv k T ptes := by
  refine ⟨h.panicked, h.trampoline, ?_, ?_, ?_, ?_⟩
  · exact hext.kend.trans h.kend
  · intro q pm hq
    refine (h.space q pm hq).congr fun a ha => ?_
    refine h.owns.words_eq (A := []) hext a ?_
    refine (s.owned_perm T ptes q).mem_iff.mpr (List.mem_append_left _ ?_)
    rw [pieces_of_some (show s.procs q = some pm from hq)]
    exact List.mem_cons_of_mem _ (List.mem_append_right _ ha)
  · exact h.owns.of_extends (hext.append _)
  · exact (hext.append (s.owned T ptes)).perm.trans h.pages

theorem Inv.setPipes (h : s.Inv k T ptes) {pipes : List PipePage}
    (hext : s.mem.Extends (s.pipes.map PipePage.page) m (pipes.map PipePage.page)) :
    ({ s with mem := m, pipes := pipes } : MemSystem).Inv k T ptes := by
  generalize hrest : (List.finRange nproc).flatMap (s.pieces T ptes) ++ s.boot = rest
  have hperm (ps : List PipePage) :
      ((List.finRange nproc).flatMap (s.pieces T ptes) ++ (ps.map PipePage.page ++ s.boot)).Perm
      (ps.map PipePage.page ++ rest) := by
    rw [← hrest, List.perm_iff_count]
    intro a
    simp only [List.count_append]
    omega
  have hall : s.mem.Extends (s.owned T ptes) m
      (({ s with mem := m, pipes := pipes } : MemSystem).owned T ptes) :=
    (hext.append rest).of_perm (hperm s.pipes).symm (hperm pipes).symm
  refine ⟨h.panicked, h.trampoline, ?_, ?_, h.owns.of_extends hall, ?_⟩
  · exact hall.kend.trans h.kend
  · intro q pm hq
    refine (h.space q pm hq).congr fun a ha => ?_
    refine (h.owns.of_perm (hperm s.pipes)).words_eq hext a ?_
    rw [← hrest]
    refine List.mem_append_left _ (List.mem_flatMap.mpr ⟨q, List.mem_finRange q, ?_⟩)
    rw [pieces_of_some (show s.procs q = some pm from hq)]
    exact List.mem_cons_of_mem _ (List.mem_append_right _ ha)
  · exact hall.perm.trans h.pages

theorem Inv.setZombie (h : s.Inv k T ptes) (zombie : Fin nproc → Bool) :
    ({ s with zombie := zombie } : MemSystem).Inv k T ptes :=
  ⟨h.panicked, h.trampoline, h.kend, h.space, h.owns, h.pages⟩

/-! ## The system calls -/

variable {r : Except VmPanic MemSystem}

theorem running_of_some {α : Type} {f : ProcMem → Option α} {x : α}
    (hcall : (match s.procs p, s.zombie p with
      | some pm, false => f pm
      | _, _ => none) = some x) :
    ∃ pm, s.procs p = some pm ∧ f pm = some x := by
  cases hp : s.procs p with
  | none => simp [hp] at hcall
  | some pm =>
    cases hz : s.zombie p with
    | false => exact ⟨pm, rfl, by simpa [hp, hz] using hcall⟩
    | true => simp [hp, hz] at hcall

theorem procs_of_freeSlot {np : Fin nproc} (hslot : s.freeSlot = some np) : s.procs np = none := by
  have hnone := List.find?_some hslot
  simpa using hnone

section

variable (h : s.Inv k T ptes)
include h

theorem Inv.fork {x : Except VmPanic (Option (Fin nproc) × MemSystem)} (hcall : s.fork p = some x) :
    (∃ m, x = .ok (none, { s with mem := m }) ∧ s.mem.Extends [] m []) ∨
    ∃ pm np child m T1 ptes1, s.procs p = some pm ∧ s.procs np = none ∧
      x = .ok (some np, { s.setProc np (some child) m with
        zombie := update s.zombie np false }) ∧
      s.mem.Forked s.trampoline pm (ptes p) child m T1 ptes1 := by
  obtain ⟨pm, hp, hcall⟩ := running_of_some hcall
  cases hslot : s.freeSlot with
  | none =>
    simp only [hslot, Option.some.injEq] at hcall
    exact Or.inl ⟨s.mem, hcall.symm, .refl _ _⟩
  | some np =>
    simp only [hslot, Option.some.injEq] at hcall
    rcases (h.space p pm hp).forkProc (h.ownsProc hp) h.trampoline with
      ⟨m, hfork, hext⟩ | ⟨child, m, T1, ptes1, hfork, hforked⟩
    · left
      rw [hfork, ok_bind] at hcall
      exact ⟨m, hcall.symm, hext⟩
    · right
      rw [hfork, ok_bind] at hcall
      exact ⟨pm, np, child, m, T1, ptes1, hp, procs_of_freeSlot hslot, hcall.symm, hforked⟩

theorem Inv.exec {path : Option (List UInt8)} {ip : Option ExecInode} {args : List UserArg}
    {x : Except VmPanic (Option ℕ × MemSystem)} (hcall : s.exec p path ip args = some x) :
    ∃ pm, s.procs p = some pm ∧
    ((∃ m, x = .ok (none, s.setProc p (some pm) m) ∧ s.mem.Extends [] m []) ∨
    ∃ argv pm1 m T1 ptes1, x = .ok (some argv.length, s.setProc p (some pm1) m) ∧
    pm1.trapframe = pm.trapframe ∧
    pm1.ofile = pm.ofile ∧ m.Space s.trampoline pm1.trapframe pm1.pagetable pm1.sz T1 ptes1 ∧
    s.mem.Extends (s.pieces T ptes p) m (procPages (some pm1) T1 ptes1) ∧
    mapped (ptes p) ++ T p ⊆ m.freelist ∧
    Fetched args argv ∧ m.Started s.trampoline pm1 T1 ptes1 argv) := by
  obtain ⟨pm, hp, hcall⟩ := running_of_some hcall
  simp only [Option.some.injEq] at hcall
  refine ⟨pm, hp, ?_⟩
  rcases (h.space p pm hp).sysExec (h.ownsProc hp) h.kend_pos h.trampoline path ip
    args with ⟨m, hexec, hext⟩ | ⟨argv, pm1, m, T1, ptes1, hexec, htf, hofile, hspace, hext, hrest⟩
  · left
    rw [hexec, ok_bind] at hcall
    exact ⟨m, hcall.symm, hext⟩
  · right
    rw [hexec, ok_bind] at hcall
    refine ⟨argv, pm1, m, T1, ptes1, hcall.symm, htf, hofile, ?_, ?_, hrest⟩
    · rw [htf]
      exact hspace
    · rw [pieces_of_some hp, procPages, htf]
      exact hext

theorem Inv.sbrk {n : Int32} {x : Except VmPanic (Bool × MemSystem)} (hcall : s.sbrk p n = some x) :
    ∃ pm, s.procs p = some pm ∧
    ((∃ m T1, x = .ok (false, s.setProc p (some pm) m) ∧
      m.Space s.trampoline pm.trapframe pm.pagetable pm.sz T1 (ptes p) ∧
      s.mem.Extends (s.pieces T ptes p) m
        (procPages (some pm) T1 (ptes p))) ∨
    ∃ sz1 m T1 ptes1, x = .ok (true, s.setProc p (some { pm with sz := sz1 }) m) ∧
      m.Space s.trampoline pm.trapframe pm.pagetable sz1 T1 ptes1 ∧
      s.mem.Extends (s.pieces T ptes p) m
        (procPages (some { pm with sz := sz1 }) T1 ptes1) ∧
      (sz1 : ℤ) = if pm.sz + n.toInt < 0 then (pm.sz : ℤ)
        else pm.sz + n.toInt) := by
  obtain ⟨pm, hp, hcall⟩ := running_of_some hcall
  simp only [Option.some.injEq] at hcall
  refine ⟨pm, hp, ?_⟩
  have hown : s.mem.Owns (mapped (ptes p) ++ T p) :=
    (h.ownsProc hp).of_sublist (List.sublist_cons_self _ _)
  rw [pieces_of_some hp]
  rcases (h.space p pm hp).growproc hown n with ⟨m, T1, hgrow, hspace, hext⟩ |
    ⟨sz1, m, T1, ptes1, hgrow, hspace, hext, hsz⟩
  · left
    rw [hgrow, ok_bind] at hcall
    exact ⟨m, T1, hcall.symm, hspace, hext.appendLeft [pm.trapframe]⟩
  · right
    rw [hgrow, ok_bind] at hcall
    exact ⟨sz1, m, T1, ptes1, hcall.symm, hspace, hext.appendLeft [pm.trapframe], hsz⟩

theorem Inv.wait (hcall : s.wait p = some r) : ∃ m, r = .ok (s.setProc p none m) ∧
      s.mem.Extends (s.pieces T ptes p) m [] := by
  unfold MemSystem.wait at hcall
  split at hcall
  · rename_i pm hp _
    simp only [Option.some.injEq] at hcall
    obtain ⟨m, hfree, hext⟩ := (h.space p pm hp).freeproc (h.ownsProc hp)
    rw [hfree, ok_bind] at hcall
    refine ⟨m, hcall.symm, ?_⟩
    rw [pieces_of_some hp]
    exact hext
  · cases hcall

theorem Inv.write {dstva : ℕ} {bytes : List UInt8} (hcall : s.write p dstva bytes = some r) :
    ∃ pm m, s.procs p = some pm ∧ r = .ok { s with mem := m } ∧
      s.mem.Extends (mapped (ptes p)) m (mapped (ptes p)) := by
  obtain ⟨pm, hp, hcall⟩ := running_of_some hcall
  simp only [Option.some.injEq] at hcall
  have hown : s.mem.Owns (mapped (ptes p) ++ T p) :=
    (h.ownsProc hp).of_sublist (List.sublist_cons_self _ _)
  obtain ⟨_, m, hcopy, hext⟩ := (h.space p pm hp).shape.copyout
    procHi_supervisor hown dstva (fun k => bytes.getD k 0) bytes.length
  rw [hcopy, ok_bind] at hcall
  exact ⟨pm, m, hp, hcall.symm, hext⟩

theorem Inv.setUser {pm : ProcMem} (hp : s.procs p = some pm)
    (hext : s.mem.Extends (mapped (ptes p)) m (mapped (ptes p))) :
    ({ s with mem := m } : MemSystem).Inv k T ptes := by
  have hsame : ({ s with mem := m } : MemSystem) = s.setProc p (some pm) m := by
    rw [MemSystem.setProc, ← hp, Function.update_eq_self]
  have hT : update T p (T p) = T := Function.update_eq_self p T
  have hptes : update ptes p (ptes p) = ptes := Function.update_eq_self p ptes
  have hown : s.mem.Owns (mapped (ptes p) ++ T p) :=
    (h.ownsProc hp).of_sublist (List.sublist_cons_self _ _)
  rw [hsame, ← hT, ← hptes]
  refine h.setProc ?_ ?_
  · rw [pieces_of_some hp]
    exact (hext.append (T p)).appendLeft [pm.trapframe]
  · rintro pm' ⟨⟩
    exact (h.space p pm hp).congr (hown.words_eq hext)

theorem Inv.pipealloc (files : Bool) : (s.pipealloc files).Inv k T ptes := by
  unfold MemSystem.pipealloc
  split
  · exact h
  · rcases kalloc_extends s.mem with ⟨m, hk, hext⟩ | ⟨pa, m, hk, hext⟩
    · rw [hk]
      exact h.setMem hext
    · rw [hk]
      refine h.setPipes ?_
      rw [List.map_append]
      have hext := hext.appendLeft (s.pipes.map PipePage.page)
      rwa [List.append_nil] at hext

theorem Inv.pipeclose {j : ℕ} {writable : Bool} (hcall : s.pipeclose j writable = some r) :
    ∃ s', r = .ok s' ∧ s'.Inv k T ptes := by
  unfold MemSystem.pipeclose at hcall
  cases hk : s.pipes[j]? with
  | none => simp [hk] at hcall
  | some pi =>
    simp only [hk] at hcall
    obtain ⟨hlt, hget⟩ := List.getElem?_eq_some_iff.mp hk
    generalize hpi : (if writable = true then { pi with writeopen := false }
      else { pi with readopen := false }) = pi' at hcall
    have hpage : pi'.page = pi.page := by
      rw [← hpi]
      split <;> rfl
    split at hcall
    · simp only [Option.some.injEq] at hcall
      have hperm : (s.pipes.map PipePage.page).Perm
          (pi.page :: (s.pipes.eraseIdx j).map PipePage.page) := by
        rw [← List.map_cons]
        exact ((List.getElem_cons_eraseIdx_perm hlt).symm.trans (by rw [hget])).map _
      have hown : s.mem.Owns (s.pipes.map PipePage.page) := by
        refine h.owns.of_sublist ?_
        exact (List.sublist_append_left _ _).trans (List.sublist_append_right _ _)
      obtain ⟨m, hfree, hext, -⟩ := (hown.of_perm hperm).kfree_head
      rw [hpage, hfree, ok_bind] at hcall
      exact ⟨_, hcall.symm, h.setPipes (hext.of_perm hperm.symm (List.Perm.refl _))⟩
    · simp only [Option.some.injEq] at hcall
      refine ⟨_, hcall.symm, h.setPipes ?_⟩
      have hmap : (s.pipes.set j pi').map PipePage.page = s.pipes.map PipePage.page := by
        rw [List.map_set, hpage, ← hget, ← List.getElem_map PipePage.page (h := by simpa using hlt)]
        exact List.set_getElem_self _
      rw [hmap]
      exact .refl _ _

/-! ## Runs -/

theorem Inv.call {l : MemLabel} (hcall : s.call l = some r) :
    ∃ s', r = .ok s' ∧ ∃ T' ptes', s'.Inv k T' ptes' := by
  cases l with
  | fork p =>
    obtain ⟨x, hfork, rfl⟩ := Option.map_eq_some_iff.mp hcall
    rcases h.fork hfork with ⟨m, rfl, hext⟩ | ⟨pm, np, child, m, T1, ptes1, -, hnp, rfl, hforked⟩
    · exact ⟨_, rfl, T, ptes, h.setMem hext⟩
    · have hinv : (s.setProc np (some child) m).Inv k (update T np T1) (update ptes np ptes1) := by
        refine h.setProc ?_ ?_
        · rw [pieces_of_none hnp]
          exact hforked.pages
        · rintro pm' ⟨⟩
          exact hforked.space
      exact ⟨_, rfl, _, _, hinv.setZombie _⟩
  | exec p path ip args =>
    obtain ⟨x, hexec, rfl⟩ := Option.map_eq_some_iff.mp hcall
    obtain ⟨pm, hp, ⟨m, rfl, hext⟩ |
      ⟨argv, pm1, m, T1, ptes1, rfl, -, -, hspace, hext, -⟩⟩ := h.exec hexec
    · refine ⟨_, rfl, T, ptes, ?_⟩
      have hsame : s.setProc p (some pm) m = { s with mem := m } := by
        rw [MemSystem.setProc, ← hp, Function.update_eq_self]
      change (s.setProc p (some pm) m).Inv k T ptes
      rw [hsame]
      exact h.setMem hext
    · refine ⟨_, rfl, _, _, h.setProc hext ?_⟩
      rintro pm' ⟨⟩
      exact hspace
  | sbrk p n =>
    obtain ⟨x, hsbrk, rfl⟩ := Option.map_eq_some_iff.mp hcall
    obtain ⟨pm, hp, ⟨m, T1, rfl, hspace, hext⟩ |
      ⟨sz1, m, T1, ptes1, rfl, hspace, hext, -⟩⟩ := h.sbrk hsbrk
    · refine ⟨_, rfl, _, _, h.setProc hext ?_⟩
      rintro pm' ⟨⟩
      exact hspace
    · refine ⟨_, rfl, _, _, h.setProc hext ?_⟩
      rintro pm' ⟨⟩
      exact hspace
  | exit p =>
    obtain ⟨s', hexit, rfl⟩ := Option.map_eq_some_iff.mp hcall
    obtain ⟨pm, -, hexit⟩ := running_of_some hexit
    cases hexit
    exact ⟨_, rfl, T, ptes, h.setZombie _⟩
  | wait p =>
    obtain ⟨m, rfl, hext⟩ := h.wait hcall
    have hinv : (s.setProc p none m).Inv k (update T p []) (update ptes p []) :=
      h.setProc hext (by simp)
    exact ⟨_, rfl, _, _, hinv⟩
  | pipealloc files =>
    cases hcall
    exact ⟨_, rfl, T, ptes, h.pipealloc files⟩
  | pipeclose j writable =>
    obtain ⟨s', rfl, hs'⟩ := h.pipeclose hcall
    exact ⟨s', rfl, T, ptes, hs'⟩
  | write p dstva bytes =>
    obtain ⟨pm, m, hp, rfl, hext⟩ := h.write hcall
    exact ⟨_, rfl, T, ptes, h.setUser hp hext⟩
  | fails fails =>
    cases hcall
    have hext : s.mem.Extends [] { s.mem with fails := fails } [] :=
      ⟨List.Perm.refl _, fun _ _ _ => rfl, rfl⟩
    exact ⟨_, rfl, T, ptes, h.setMem hext⟩

end

end MemSystem

end Xv6
