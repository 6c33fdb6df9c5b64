import Xv6.Lib.PathTree

/-!
# Physical memory and page tables

This is the page allocator of `kalloc.c` and the part of `vm.c` that builds and
changes a page table: `walk`, `mappages` and `uvmunmap`.  Physical memory is
seen as pages of 512 words, which is how page tables look at it.  Addresses and
words are 64-bit numbers.  A function that panics returns an error.
-/

namespace Xv6

def pgsize : ℕ := 4096

/-- `1L << (9 + 9 + 9 + 12 - 1)`. -/
def maxva : ℕ := 2 ^ 38

def kernbase : ℕ := 0x80000000

def phystop : ℕ := kernbase + 128 * 1024 * 1024

def pteV : ℕ := 1 <<< 0
def pteR : ℕ := 1 <<< 1
def pteW : ℕ := 1 <<< 2
def pteX : ℕ := 1 <<< 3
def pteU : ℕ := 1 <<< 4

def pa2pte (pa : ℕ) : ℕ := (pa >>> 12) <<< 10

def pte2pa (pte : ℕ) : ℕ := ((pte >>> 10) <<< 12) % 2 ^ 64

def pteFlags (pte : ℕ) : ℕ := pte &&& 0x3FF

theorem and_pxMask_lt (n : ℕ) : n &&& 0x1FF < 512 := Nat.lt_of_le_of_lt Nat.and_le_right (by decide)

instance neZeroEntries : NeZero 512 := ⟨by decide⟩

/-- `PX(level, va)`. -/
def px (level va : ℕ) : Fin 512 := ⟨(va >>> (12 + 9 * level)) &&& 0x1FF, and_pxMask_lt _⟩

/-- The panics of `kalloc.c`, `vm.c` and `exec.c`.  `freewalkDepth` is not one:
it stands for a recursion of `freewalk` below the last level of a page table.
`loadseg` also stands for a loop of `loadseg` that does not end. -/
inductive VmPanic
  | kfree
  | walk
  | mapVaNotAligned
  | mapSizeNotAligned
  | mapSize
  | remap
  | unmapNotAligned
  | unmapWalk
  | notMapped
  | notLeaf
  | freewalkLeaf
  | freewalkDepth
  | copyPteMissing
  | copyNotPresent
  | uvmclear
  | loadseg
  deriving DecidableEq

/-- `fails` says which of the coming calls of `kalloc` find the free list
empty, whatever it is now: other processors use it too.  `kend` is the first
address after the kernel. -/
structure PhysMem where
  words : ℕ → Fin 512 → ℕ
  freelist : List ℕ
  fails : List Bool
  kend : ℕ

/-! ## Pages -/

def PhysMem.setPage (m : PhysMem) (a : ℕ) (f : Fin 512 → ℕ) : PhysMem :=
  { m with words := Function.update m.words a f }

def PhysMem.setWord (m : PhysMem) (a : ℕ) (i : Fin 512) (w : ℕ) : PhysMem :=
  m.setPage a (Function.update (m.words a) i w)

def kalloc (m : PhysMem) : Option ℕ × PhysMem :=
  match m.fails.headD false, m.freelist with
  | true, _ => (none, { m with fails := m.fails.tail })
  | false, [] => (none, { m with fails := m.fails.tail })
  | false, r :: rs =>
    (some r, { m with freelist := rs, fails := m.fails.tail }.setPage r fun _ => 0x0505050505050505)

def kfree (pa : ℕ) (m : PhysMem) : Except VmPanic PhysMem :=
  if pa % pgsize ≠ 0 ∨ pa < m.kend ∨ pa ≥ phystop then .error .kfree
  else
    let junk : Fin 512 → ℕ := fun _ => 0x0101010101010101
    -- r->next is the first word of the page
    .ok { m.setPage pa (Function.update junk 0 (m.freelist.headD 0)) with
      freelist := pa :: m.freelist }

/-! ## Page tables -/

/-- The loop of `walk` from `level` on.  A pointer to a PTE is the page that
holds it with the index in that page. -/
def walkFrom (va : ℕ) (alloc : Bool) : ℕ → ℕ → PhysMem → Option (ℕ × Fin 512) × PhysMem
  | 0, pt, m => (some (pt, px 0 va), m)
  | level + 1, pt, m =>
    let pte := m.words pt (px (level + 1) va)
    if pte &&& pteV ≠ 0 then walkFrom va alloc level (pte2pa pte) m
    else if alloc = false then (none, m)
    else
      match kalloc m with
      | (none, m) => (none, m)
      | (some page, m) =>
        walkFrom va alloc level page
          ((m.setPage page fun _ => 0).setWord pt (px (level + 1) va) (pa2pte page ||| pteV))

def walk (pt va : ℕ) (alloc : Bool) (m : PhysMem) :
    Except VmPanic (Option (ℕ × Fin 512) × PhysMem) :=
  if va ≥ maxva then .error .walk else .ok (walkFrom va alloc 2 pt m)

/-- The loop of `mappages`, with the number of rounds that are left; the
result says whether `mappages` returns 0. -/
def mapLoop (pt last perm : ℕ) : ℕ → ℕ → ℕ → PhysMem → Except VmPanic (Bool × PhysMem)
  | 0, _, _, m => .ok (true, m)
  | n + 1, a, pa, m =>
    match walk pt a true m with
    | .error e => .error e
    | .ok (none, m) => .ok (false, m)
    | .ok (some (page, i), m) =>
      if m.words page i &&& pteV ≠ 0 then .error .remap
      else
        let m := m.setWord page i (pa2pte pa ||| perm ||| pteV)
        if a = last then .ok (true, m)
        else
          mapLoop pt last perm n ((a + pgsize) % 2 ^ 64)
            ((pa + pgsize) % 2 ^ 64) m

def mappages (pt va size pa perm : ℕ) (m : PhysMem) : Except VmPanic (Bool × PhysMem) :=
  if va % pgsize ≠ 0 then .error .mapVaNotAligned
  else if size % pgsize ≠ 0 then .error .mapSizeNotAligned
  else if size = 0 then .error .mapSize
  else
    mapLoop pt ((va + size - pgsize) % 2 ^ 64) perm (size / pgsize) va pa m

/-- The loop of `uvmunmap`, with the number of rounds that are left. -/
def unmapLoop (pt last : ℕ) (doFree : Bool) : ℕ → ℕ → PhysMem → Except VmPanic PhysMem
  | 0, _, m => .ok m
  | n + 1, a, m =>
    if a < last then
      match walk pt a false m with
      | .error e => .error e
      | .ok (none, _) => .error .unmapWalk
      | .ok (some (page, i), m) =>
        if m.words page i &&& pteV = 0 then .error .notMapped
        else if pteFlags (m.words page i) = pteV then .error .notLeaf
        else if doFree = true then
          match kfree (pte2pa (m.words page i)) m with
          | .error e => .error e
          | .ok m =>
            unmapLoop pt last doFree n ((a + pgsize) % 2 ^ 64)
              (m.setWord page i 0)
        else
          unmapLoop pt last doFree n ((a + pgsize) % 2 ^ 64)
            (m.setWord page i 0)
    else .ok m

def uvmunmap (pt va npages : ℕ) (doFree : Bool) (m : PhysMem) : Except VmPanic PhysMem :=
  if va % pgsize ≠ 0 then .error .unmapNotAligned
  else
    let last := (va + npages * pgsize % 2 ^ 64) % 2 ^ 64
    unmapLoop pt last doFree ((last - va) / pgsize) va m

/-- The PTE that `walk` finds for a virtual address, if it is valid. -/
def PhysMem.lookup (m : PhysMem) (pt va : ℕ) : Option ℕ :=
  match walk pt va false m with
  | .ok (some (page, i), _) =>
    if m.words page i &&& pteV ≠ 0 then some (m.words page i) else none
  | _ => none

/-! ## Words and indices -/

theorem or_pteV_valid (x : ℕ) : (x ||| pteV) &&& pteV ≠ 0 := by
  have hle : 1 ≤ (x &&& 1) ||| 1 := Nat.right_le_or
  have heq : (x ||| pteV) &&& pteV = (x &&& 1) ||| 1 := by
    change (x ||| 1) &&& 1 = (x &&& 1) ||| 1
    rw [Nat.and_or_distrib_right, Nat.and_self]
  omega

theorem pa2pte_eq (pa : ℕ) : pa2pte pa = 2 ^ 10 * (pa / 2 ^ 12) := by
  rw [pa2pte, Nat.shiftRight_eq_div_pow, Nat.shiftLeft_eq, Nat.mul_comm]

theorem pte2pa_eq (pte : ℕ) : pte2pa pte = pte / 2 ^ 10 * 2 ^ 12 % 2 ^ 64 := by
  rw [pte2pa, Nat.shiftRight_eq_div_pow, Nat.shiftLeft_eq]

variable {flags va : ℕ}

theorem pa2pte_or (pa : ℕ) (hflags : flags < 2 ^ 10) :
    pa2pte pa ||| flags = 2 ^ 10 * (pa / 2 ^ 12) + flags := by
  rw [pa2pte_eq, Nat.two_pow_add_eq_or_of_lt hflags]

theorem pte2pa_pa2pte_or {pa : ℕ} (halign : pa % pgsize = 0) (hpa : pa < 2 ^ 56)
    (hflags : flags < 2 ^ 10) : pte2pa (pa2pte pa ||| flags) = pa := by
  rw [pte2pa_eq, pa2pte_or pa hflags]
  unfold pgsize at halign
  omega

theorem pteFlags_pa2pte_or (pa : ℕ) (hflags : flags < 2 ^ 10) :
    pteFlags (pa2pte pa ||| flags) = flags := by
  rw [pa2pte_or pa hflags, pteFlags]
  have hmask : ∀ n, n &&& 0x3FF = n % 2 ^ 10 := fun n =>
    Nat.and_two_pow_sub_one_eq_mod n 10
  rw [hmask]
  omega

theorem px_val (level va : ℕ) : (px level va).val = va / 2 ^ (12 + 9 * level) % 2 ^ 9 := by
  have hmask : ∀ n, n &&& 0x1FF = n % 2 ^ 9 := fun n =>
    Nat.and_two_pow_sub_one_eq_mod n 9
  change (va >>> (12 + 9 * level)) &&& 0x1FF = _
  rw [hmask, Nat.shiftRight_eq_div_pow]

theorem px_two_lt (hva : va < maxva) : (px 2 va).val < 256 := by
  rw [px_val]
  unfold maxva at hva
  omega

theorem and_rwx (x : ℕ) : x &&& (pteR ||| pteW ||| pteX) = x % 2 ^ 4 &&& 14 := by
  have hmask : x &&& (2 ^ 4 - 1) = x % 2 ^ 4 := Nat.and_two_pow_sub_one_eq_mod x 4
  rw [← hmask, Nat.and_assoc]
  rfl

theorem pa2pte_or_pteV_rwx (pa : ℕ) : (pa2pte pa ||| pteV) &&& (pteR ||| pteW ||| pteX) = 0 := by
  have hmod : (pa2pte pa ||| pteV) % 2 ^ 4 = 1 := by
    rw [pa2pte_or pa (by decide)]
    change (2 ^ 10 * (pa / 2 ^ 12) + 1) % 2 ^ 4 = 1
    omega
  rw [and_rwx, hmod]
  rfl

theorem px_inj {va' : ℕ} (halign : va % pgsize = 0) (halign' : va' % pgsize = 0)
    (hva : va < maxva) (hva' : va' < maxva) (h2 : px 2 va = px 2 va')
    (h1 : px 1 va = px 1 va') (h0 : px 0 va = px 0 va') : va = va' := by
  have h2 := congrArg Fin.val h2
  have h1 := congrArg Fin.val h1
  have h0 := congrArg Fin.val h0
  simp only [px_val] at h2 h1 h0
  unfold pgsize at halign halign'
  unfold maxva at hva hva'
  omega

/-! ## The tree in memory -/

/-- The page that entry `i` of the page-table page `a` points to. -/
def PhysMem.child (m : PhysMem) (a : ℕ) (i : Fin 512) : Option ℕ :=
  if m.words a i &&& pteV ≠ 0 then some (pte2pa (m.words a i)) else none

/-- The indices that `walk` uses from `level` down to 1. -/
def pxPath (va : ℕ) : ℕ → List (Fin 512)
  | 0 => []
  | level + 1 => px (level + 1) va :: pxPath va level

@[simp] theorem length_pxPath (va level : ℕ) : (pxPath va level).length = level := by
  induction level with
  | zero => rfl
  | succ level ih => simp [pxPath, ih]

/-- The word of entry `i` in the page-table page at `path`, if it is valid. -/
def PhysMem.entry (m : PhysMem) (pt : ℕ) (path : List (Fin 512)) (i : Fin 512) : Option ℕ :=
  (PathTree.node m.child pt path).bind fun a =>
    if m.words a i &&& pteV ≠ 0 then some (m.words a i) else none

theorem walkFrom_false (va level pt : ℕ) (m : PhysMem) : walkFrom va false level pt m =
      ((PathTree.node m.child pt (pxPath va level)).map (·, px 0 va), m) := by
  induction level generalizing pt with
  | zero => rfl
  | succ level ih =>
    rw [walkFrom, pxPath, PathTree.node_cons, PhysMem.child]
    by_cases hvalid : m.words pt (px (level + 1) va) &&& pteV ≠ 0
    · simp only [if_pos hvalid, Option.bind_some]
      exact ih _
    · simp only [if_neg hvalid, Option.bind_none, if_true, Option.map_none]

theorem PhysMem.lookup_eq (m : PhysMem) (pt : ℕ) (hva : va < maxva) :
    m.lookup pt va = m.entry pt (pxPath va 2) (px 0 va) := by
  unfold PhysMem.lookup PhysMem.entry walk
  rw [if_neg (not_le.mpr hva), walkFrom_false]
  cases PathTree.node m.child pt (pxPath va 2) with
  | none | some a => rfl

theorem PhysMem.lookup_of_le (m : PhysMem) (pt : ℕ) (hva : maxva ≤ va) : m.lookup pt va = none := by
  unfold PhysMem.lookup walk
  rw [if_pos hva]

/-- Page-table pages and free pages are what `kfree` accepts. -/
def PhysMem.InRange (m : PhysMem) (a : ℕ) : Prop := a % pgsize = 0 ∧ m.kend ≤ a ∧ a < phystop

/-- Entries above the last level point to page-table pages, and are no leaves
to `freewalk`; those of the root are for addresses below `MAXVA`. -/
def PhysMem.Interior (m : PhysMem) (pt : ℕ) : Prop :=
  ∀ (p : List (Fin 512)) a i, p.length < 2 →
    PathTree.node m.child pt p = some a → m.words a i &&& pteV ≠ 0 →
      m.words a i &&& (pteR ||| pteW ||| pteX) = 0 ∧ (p = [] → i.val < 256)

/-- The page-table pages below `pt` are those of `T`; no page is used twice or
free at the same time. -/
structure PhysMem.PageTable (m : PhysMem) (pt : ℕ) (T : List ℕ) : Prop where
  tree : PathTree.IsTree m.child pt 2 T
  interior : m.Interior pt
  nodup : (T ++ m.freelist).Nodup
  range : ∀ a ∈ T ++ m.freelist, m.InRange a

/-- What a change of the page table leaves alone. -/
structure PhysMem.Extends (m : PhysMem) (T : List ℕ) (m' : PhysMem)
    (T' : List ℕ) : Prop where
  perm : (T' ++ m'.freelist).Perm (T ++ m.freelist)
  frame : ∀ a, a ∉ T → a ∉ m.freelist → m'.words a = m.words a
  kend : m'.kend = m.kend

theorem PhysMem.Extends.refl (m : PhysMem) (T : List ℕ) : m.Extends T m T :=
  ⟨List.Perm.refl _, fun _ _ _ => rfl, rfl⟩

theorem PhysMem.Extends.trans {m m' m'' : PhysMem} {T T' T'' : List ℕ}
    (h : m.Extends T m' T') (h' : m'.Extends T' m'' T'') : m.Extends T m'' T'' := by
  refine ⟨h'.perm.trans h.perm, ?_, h'.kend.trans h.kend⟩
  intro a hT hfree
  have hnot : a ∉ T' ++ m'.freelist := by
    rw [h.perm.mem_iff, List.mem_append]
    exact fun ha => ha.elim hT hfree
  rw [List.mem_append, not_or] at hnot
  rw [h'.frame a hnot.1 hnot.2, h.frame a hT hfree]

theorem PhysMem.PageTable.of_extends {m m' : PhysMem} {pt : ℕ} {T T' : List ℕ}
    (h : m.PageTable pt T) (hext : m.Extends T m' T') (htree : PathTree.IsTree m'.child pt 2 T')
    (hinterior : m'.Interior pt) : m'.PageTable pt T' := by
  refine ⟨htree, hinterior, hext.perm.nodup_iff.mpr h.nodup, ?_⟩
  intro a ha
  have hrange := h.range a (hext.perm.mem_iff.mp ha)
  unfold PhysMem.InRange at hrange ⊢
  rwa [hext.kend]

theorem PhysMem.InRange.lt {m : PhysMem} {a : ℕ} (h : m.InRange a) : a < 2 ^ 56 := by
  have hlt := h.2.2
  unfold phystop kernbase at hlt
  omega

theorem PhysMem.InRange.pte2pa_pa2pte {m : PhysMem} {a : ℕ}
    (h : m.InRange a) : pte2pa (pa2pte a ||| pteV) = a :=
  pte2pa_pa2pte_or h.1 h.lt (by decide)

end Xv6
