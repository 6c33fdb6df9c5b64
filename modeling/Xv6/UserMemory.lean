import Xv6.PageTableMap

/-!
# User address spaces

The rest of `vm.c` that allocates and frees pages: user memory is grown with
`uvmalloc`, shrunk with `uvmdealloc`, copied with `uvmcopy` and given back with
`uvmfree`, which leaves the page-table pages to `freewalk`.  Sizes and addresses
are 64-bit numbers.
-/

namespace Xv6

def pgroundup (sz : ℕ) : ℕ := (sz + pgsize - 1) % 2 ^ 64 / pgsize * pgsize

def pgrounddown (a : ℕ) : ℕ := a / pgsize * pgsize

/-- A number converted to `int` and back to `uint64`. -/
def throughInt (n : ℕ) : ℕ :=
  if n % 2 ^ 32 < 2 ^ 31 then n % 2 ^ 32 else 2 ^ 64 - 2 ^ 32 + n % 2 ^ 32

def uvmcreate (m : PhysMem) : Option ℕ × PhysMem :=
  match kalloc m with
  | (none, m) => (none, m)
  | (some pt, m) => (some pt, m.setPage pt fun _ => 0)

def uvmdealloc (pt oldsz newsz : ℕ) (m : PhysMem) : Except VmPanic (ℕ × PhysMem) :=
  if newsz ≥ oldsz then .ok (oldsz, m)
  else if pgroundup newsz < pgroundup oldsz then do
    let npages := throughInt ((pgroundup oldsz - pgroundup newsz) / pgsize)
    let m ← uvmunmap pt (pgroundup newsz) npages true m
    .ok (newsz, m)
  else .ok (newsz, m)

/-- The loop of `uvmalloc`, with the number of rounds that are left. -/
def allocLoop (pt oldsz newsz xperm : ℕ) : ℕ → ℕ → PhysMem → Except VmPanic (ℕ × PhysMem)
  | 0, _, m => .ok (newsz, m)
  | n + 1, a, m =>
    if a < newsz then
      match kalloc m with
      | (none, m) => do
        let (_, m) ← uvmdealloc pt a oldsz m
        .ok (0, m)
      | (some mem, m) => do
        let (mapped, m) ← mappages pt a pgsize mem
          (pteR ||| pteU ||| xperm) (m.setPage mem fun _ => 0)
        if mapped = true then
          allocLoop pt oldsz newsz xperm n ((a + pgsize) % 2 ^ 64) m
        else
          let m ← kfree mem m
          let (_, m) ← uvmdealloc pt a oldsz m
          .ok (0, m)
    else .ok (newsz, m)

def uvmalloc (pt oldsz newsz xperm : ℕ) (m : PhysMem) : Except VmPanic (ℕ × PhysMem) :=
  if newsz < oldsz then .ok (oldsz, m)
  else
    let oldsz := pgroundup oldsz
    allocLoop pt oldsz newsz xperm ((newsz - oldsz + pgsize - 1) / pgsize)
      oldsz m

/-- The loop of `freewalk`, over the entries that are left. -/
def freewalkLoop (freeChild : ℕ → PhysMem → Except VmPanic PhysMem) (pt : ℕ) :
    List (Fin 512) → PhysMem → Except VmPanic PhysMem
  | [], m => .ok m
  | i :: is, m =>
    if m.words pt i &&& pteV ≠ 0 ∧ m.words pt i &&& (pteR ||| pteW ||| pteX) = 0 then do
      let m ← freeChild (pte2pa (m.words pt i)) m
      freewalkLoop freeChild pt is (m.setWord pt i 0)
    else if m.words pt i &&& pteV ≠ 0 then .error .freewalkLeaf
    else freewalkLoop freeChild pt is m

/-- `freewalk` of a page table of so many levels. -/
def freewalk : ℕ → ℕ → PhysMem → Except VmPanic PhysMem
  | 0, _, _ => .error .freewalkDepth
  | levels + 1, pt, m => do
    let m ← freewalkLoop (freewalk levels) pt (List.finRange 512) m
    kfree pt m

def uvmfree (pt sz : ℕ) (m : PhysMem) : Except VmPanic PhysMem :=
  (if sz > 0 then uvmunmap pt 0 (pgroundup sz / pgsize) true m else .ok m)
    >>= freewalk 3 pt

/-- The loop of `uvmcopy`, with the number of rounds that are left. -/
def copyLoop (old new sz : ℕ) : ℕ → ℕ → PhysMem → Except VmPanic (Bool × PhysMem)
  | 0, _, m => .ok (true, m)
  | n + 1, i, m =>
    if i < sz then do
      let (slot, m) ← walk old i false m
      match slot with
      | none => .error .copyPteMissing
      | some (page, k) =>
        let pte := m.words page k
        if pte &&& pteV = 0 then .error .copyNotPresent
        else
          match kalloc m with
          | (none, m) => do
            let m ← uvmunmap new 0 (i / pgsize) true m
            .ok (false, m)
          | (some mem, m) => do
            let (mapped, m) ← mappages new i pgsize mem (pteFlags pte)
              (m.setPage mem (m.words (pte2pa pte)))
            if mapped = true then
              copyLoop old new sz n ((i + pgsize) % 2 ^ 64) m
            else
              let m ← kfree mem m
              let m ← uvmunmap new 0 (i / pgsize) true m
              .ok (false, m)
    else .ok (true, m)

/-- Whether `uvmcopy` returns 0. -/
def uvmcopy (old new sz : ℕ) (m : PhysMem) : Except VmPanic (Bool × PhysMem) :=
  copyLoop old new sz ((sz + pgsize - 1) / pgsize) 0 m

def uvmclear (pt va : ℕ) (m : PhysMem) : Except VmPanic PhysMem := do
  let (slot, m) ← walk pt va false m
  match slot with
  | none => .error .uvmclear
  | some (page, i) =>
    .ok (m.setWord page i (m.words page i &&& (2 ^ 64 - 1 - pteU)))

def walkaddr (pt va : ℕ) (m : PhysMem) : ℕ := if va ≥ maxva then 0
  else
    match walk pt va false m with
    | .ok (some (page, i), _) =>
      if m.words page i &&& pteV = 0 then 0
      else if m.words page i &&& pteU = 0 then 0
      else pte2pa (m.words page i)
    | _ => 0

/-! ## Bytes -/

def PhysMem.setByte (m : PhysMem) (pa : ℕ) (b : UInt8) : PhysMem := let page := pgrounddown pa
  let i : Fin 512 := Fin.ofNat 512 (pa % pgsize / 8)
  let shift := 8 * (pa % 8)
  let w := m.words page i
  m.setWord page i (w - (w >>> shift % 256) <<< shift + b.toNat <<< shift)

/-- `memmove` of `n` bytes to the physical address `pa`. -/
def PhysMem.store (m : PhysMem) (pa : ℕ) (src : ℕ → UInt8) : ℕ → PhysMem
  | 0 => m
  | n + 1 => (m.store pa src n).setByte (pa + n) (src n)

/-- The loop of `copyout`, with a bound on the rounds that are left; the
result says whether `copyout` returns 0. -/
def copyoutLoop (pt : ℕ) : ℕ → ℕ → (ℕ → UInt8) → ℕ → PhysMem → Except VmPanic (Bool × PhysMem)
  | 0, _, _, _, m => .ok (true, m)
  | rounds + 1, dstva, src, len, m =>
    if len > 0 then
      let va0 := pgrounddown dstva
      if va0 ≥ maxva then .ok (false, m)
      else do
        let (slot, m) ← walk pt va0 false m
        match slot with
        | none => .ok (false, m)
        | some (page, i) =>
          let pte := m.words page i
          if pte &&& pteV = 0 ∨ pte &&& pteU = 0 ∨ pte &&& pteW = 0 then
            .ok (false, m)
          else
            let n := min (pgsize - (dstva - va0)) len
            copyoutLoop pt rounds ((va0 + pgsize) % 2 ^ 64)
              (fun k => src (n + k)) (len - n)
              (m.store (pte2pa pte + (dstva - va0)) src n)
    else .ok (true, m)

def copyout (pt dstva : ℕ) (src : ℕ → UInt8) (len : ℕ) (m : PhysMem) :
    Except VmPanic (Bool × PhysMem) :=
  copyoutLoop pt (len / pgsize + 2) dstva src len m

end Xv6
