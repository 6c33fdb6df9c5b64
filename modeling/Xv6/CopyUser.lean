import Xv6.UserBytes

/-!
# Copying between the kernel and user memory

`copyout` and `copyin` of `vm.c` on an arbitrary page table.  They look up one
page after another while they copy, so that what they do depends on the page
table not being among the pages that are written.
-/

namespace Xv6

open PhysMem PathTree

/-- `memmove` of `n` bytes from the physical address `pa` to `dst + k`. -/
def PhysMem.load (m : PhysMem) (pa : ℕ) (dst : ℕ → UInt8) (k n : ℕ) : ℕ → UInt8 :=
  fun i => if k ≤ i ∧ i < k + n then m.byte (pa + (i - k)) else dst i

/-- The loop of `copyin`, with a bound on the rounds that are left.  The next
byte goes to `dst + k`; the result says whether `copyin` returns 0, and what
is in `dst` then. -/
def copyinLoop (pt : ℕ) (m : PhysMem) : ℕ → (ℕ → UInt8) → ℕ → ℕ → ℕ → Bool × (ℕ → UInt8)
  | 0, dst, _, _, _ => (true, dst)
  | rounds + 1, dst, k, srcva, len =>
    if len > 0 then
      let va0 := pgrounddown srcva
      let pa0 := walkaddr pt va0 m
      if pa0 = 0 then (false, dst)
      else
        let n := min (pgsize - (srcva - va0)) len
        copyinLoop pt m rounds (m.load (pa0 + (srcva - va0)) dst k n)
          (k + n) ((va0 + pgsize) % 2 ^ 64) (len - n)
    else (true, dst)

def copyin (pt : ℕ) (dst : ℕ → UInt8) (srcva len : ℕ) (m : PhysMem) : Bool × (ℕ → UInt8) :=
  copyinLoop pt m (len / pgsize + 2) dst 0 srcva len

/-! ## Pages a user can read and write -/

def PhysMem.userPhys (m : PhysMem) (pt va : ℕ) : Option ℕ :=
  (m.lookup pt (pgrounddown va)).map (pte2pa · + va % pgsize)

/-- The page of `va` is below `MAXVA` and mapped with `PTE_V` and `PTE_U`. -/
def PhysMem.Readable (m : PhysMem) (pt va : ℕ) : Prop :=
  pgrounddown va < maxva ∧
    ∃ pte, m.lookup pt (pgrounddown va) = some pte ∧ pte &&& pteU ≠ 0

/-- The page of `va` is below `MAXVA` and mapped with `PTE_V`, `PTE_U` and
`PTE_W`. -/
def PhysMem.Writable (m : PhysMem) (pt va : ℕ) : Prop :=
  pgrounddown va < maxva ∧
    ∃ pte, m.lookup pt (pgrounddown va) = some pte ∧ pte &&& pteU ≠ 0 ∧ pte &&& pteW ≠ 0

instance (m : PhysMem) (pt va : ℕ) : Decidable (m.Readable pt va) :=
  decidable_of_iff (pgrounddown va < maxva ∧
    (m.lookup pt (pgrounddown va)).any (· &&& pteU ≠ 0) = true)
    (by simp [Readable, Option.any_eq_true])

instance (m : PhysMem) (pt va : ℕ) : Decidable (m.Writable pt va) :=
  decidable_of_iff (pgrounddown va < maxva ∧ (m.lookup pt (pgrounddown va)).any
      (fun pte => pte &&& pteU ≠ 0 ∧ pte &&& pteW ≠ 0) = true)
    (by simp [Writable, Option.any_eq_true])

def PhysMem.Distinct (m : PhysMem) (pt : ℕ) : Prop :=
  ∀ va va' pte pte', va % pgsize = 0 → va' % pgsize = 0 →
    m.lookup pt va = some pte → m.lookup pt va' = some pte' →
    pte2pa pte = pte2pa pte' → va = va'

def PhysMem.NonzeroPages (m : PhysMem) (pt : ℕ) : Prop :=
  ∀ va pte, m.lookup pt va = some pte → pte &&& pteU ≠ 0 → pte2pa pte ≠ 0

def PhysMem.TableApart (m : PhysMem) (pt : ℕ) : Prop :=
  ∀ va pte (path : List (Fin 512)), m.lookup pt va = some pte → pte &&& pteU ≠ 0 → path.length ≤ 2 →
    PathTree.node m.child pt path ≠ some (pte2pa pte)

/-- The page table of a user program, as `copyout` and `copyin` need it. -/
structure PhysMem.UserTable (m : PhysMem) (pt : ℕ) : Prop where
  distinct : m.Distinct pt
  nonzero : m.NonzeroPages pt
  apart : m.TableApart pt

section

variable {m m' : PhysMem} {pt : ℕ}

theorem pte2pa_mod (pte : ℕ) : pte2pa pte % pgsize = 0 := by
  rw [pte2pa_eq]
  unfold pgsize
  omega

variable {va va' va0 dstva k n start len rounds : ℕ} {src : ℕ → UInt8} {P : ℕ → Prop} {r : Bool}

theorem PhysMem.Writable.readable (h : m.Writable pt va) : m.Readable pt va := by
  obtain ⟨hva, pte, hpte, hU, -⟩ := h
  exact ⟨hva, pte, hpte, hU⟩

theorem PhysMem.userByte_eq_map (m : PhysMem) (pt va : ℕ) :
    m.userByte pt va = (m.userPhys pt va).map m.byte := by
  unfold userByte userPhys
  rw [Option.map_map]
  rfl

theorem PhysMem.Distinct.userPhys_inj (h : m.Distinct pt) {pa : ℕ}
    (hpa : m.userPhys pt va = some pa) (hpa' : m.userPhys pt va' = some pa) : va = va' := by
  unfold userPhys at hpa hpa'
  rw [Option.map_eq_some_iff] at hpa hpa'
  obtain ⟨pte, hpte, rfl⟩ := hpa
  obtain ⟨pte', hpte', heq⟩ := hpa'
  obtain ⟨halign, hle, hlt⟩ := pgrounddown_spec va
  obtain ⟨halign', hle', hlt'⟩ := pgrounddown_spec va'
  have hmod := pte2pa_mod pte
  have hmod' := pte2pa_mod pte'
  have hsame : pte2pa pte = pte2pa pte' ∧ va % pgsize = va' % pgsize := by
    simp only [pgsize] at hmod hmod' heq ⊢
    omega
  have hpage := h _ _ _ _ halign halign' hpte hpte' hsame.1
  simp only [pgsize] at halign halign' hlt hlt' hsame
  omega

theorem PhysMem.userPhys_of_page {pte : ℕ} (halign : va0 % pgsize = 0)
    (hpte : m.lookup pt va0 = some pte) (hle : va0 ≤ va) (hlt : va < va0 + pgsize) :
    m.userPhys pt va = some (pte2pa pte + (va - va0)) := by
  have hva : va = va0 + (va - va0) := by omega
  have hmod : va % pgsize = va - va0 := by
    simp only [pgsize] at halign hlt ⊢
    omega
  have hpage : pgrounddown va = va0 := by
    rw [hva]
    exact pgrounddown_add halign (by omega)
  unfold userPhys
  rw [hpage, hpte, hmod, Option.map_some]

theorem pgrounddown_of_page (halign : va0 % pgsize = 0) (hle : va0 ≤ va)
    (hlt : va < va0 + pgsize) : pgrounddown va = va0 := by
  have hva : va = va0 + (va - va0) := by omega
  rw [hva]
  exact pgrounddown_add halign (by omega)

theorem PhysMem.readable_page (h : pgrounddown va = pgrounddown va') :
    m.Readable pt va ↔ m.Readable pt va' := by
  unfold Readable
  rw [h]

theorem PhysMem.writable_page (h : pgrounddown va = pgrounddown va') :
    m.Writable pt va ↔ m.Writable pt va' := by
  unfold Writable
  rw [h]

/-! ## The pages of the page table -/

def PhysMem.SameTable (m : PhysMem) (pt : ℕ) (m' : PhysMem) : Prop :=
  ∀ (path : List (Fin 512)) a, path.length ≤ 2 →
    PathTree.node m.child pt path = some a → m'.words a = m.words a

section

variable (h : m.SameTable pt m')
include h

theorem PhysMem.SameTable.node {path : List (Fin 512)} (hpath : path.length ≤ 2)
    : PathTree.node m'.child pt path = PathTree.node m.child pt path := by
  refine node_congr fun p a hp ha j => ?_
  unfold PhysMem.child
  rw [h p a (by omega) ha]

theorem PhysMem.SameTable.lookup (va : ℕ) : m'.lookup pt va = m.lookup pt va := by
  by_cases hva : va < maxva
  · rw [m'.lookup_eq pt hva, m.lookup_eq pt hva]
    unfold PhysMem.entry
    rw [h.node (length_pxPath va 2).le]
    cases ha : PathTree.node m.child pt (pxPath va 2) with
    | none => rfl
    | some a => simp only [Option.bind_some, h _ a (length_pxPath va 2).le ha]
  · rw [m'.lookup_of_le pt (not_lt.mp hva), m.lookup_of_le pt (not_lt.mp hva)]

theorem PhysMem.SameTable.userPhys (va : ℕ) : m'.userPhys pt va = m.userPhys pt va := by
  unfold PhysMem.userPhys
  rw [h.lookup]

theorem PhysMem.SameTable.readable (va : ℕ) : m'.Readable pt va ↔ m.Readable pt va := by
  unfold Readable
  rw [h.lookup]

theorem PhysMem.SameTable.writable (va : ℕ) : m'.Writable pt va ↔ m.Writable pt va := by
  unfold Writable
  rw [h.lookup]

theorem PhysMem.SameTable.userTable (htable : m.UserTable pt) : m'.UserTable pt where
  distinct := by
    intro va va' pte pte' halign halign' hpte hpte'
    rw [h.lookup] at hpte hpte'
    exact htable.distinct va va' pte pte' halign halign' hpte hpte'
  nonzero := by
    intro va pte hpte
    rw [h.lookup] at hpte
    exact htable.nonzero va pte hpte
  apart := by
    intro va pte path hpte hU hpath
    rw [h.lookup] at hpte
    rw [h.node hpath]
    exact htable.apart va pte path hpte hU hpath

theorem PhysMem.SameTable.trans {m'' : PhysMem} (h' : m'.SameTable pt m'') :
    m.SameTable pt m'' := by
  intro path a hpath ha
  have ha' := ha
  rw [← h.node hpath] at ha'
  rw [h' path a hpath ha', h path a hpath ha]

end

/-! ## `copyout` -/

/-- The first `k` bytes at `dstva` have been written and nothing else. -/
structure PhysMem.WroteFirst (m : PhysMem) (pt dstva : ℕ) (src : ℕ → UInt8)
    (k : ℕ) (m' : PhysMem) : Prop where
  table : m.SameTable pt m'
  bytes : ∀ va pa, dstva ≤ va → va < dstva + k →
    m.userPhys pt va = some pa → m'.byte pa = src (va - dstva)
  frame : ∀ pa, (∀ va, dstva ≤ va → va < dstva + k →
    m.userPhys pt va ≠ some pa) → m'.byte pa = m.byte pa

theorem PhysMem.WroteFirst.zero (m : PhysMem) (pt dstva : ℕ)
    (src : ℕ → UInt8) : m.WroteFirst pt dstva src 0 m where
  table := fun _ _ _ _ => rfl
  bytes := fun va pa hle hlt => absurd hlt (by omega)
  frame := fun _ _ => rfl

theorem PhysMem.WroteFirst.restart {dstva' : ℕ} (h : m.WroteFirst pt dstva src k m')
    (hsame : k ≠ 0 → dstva = dstva') : m.WroteFirst pt dstva' src k m' := by
  by_cases hk : k = 0
  · subst hk
    refine ⟨h.table, fun va pa hle hlt => absurd hlt (by omega), ?_⟩
    exact fun pa _ => h.frame pa fun va hle hlt => absurd hlt (by omega)
  · exact hsame hk ▸ h

theorem PhysMem.words_store (m : PhysMem) {page off : ℕ} (src : ℕ → UInt8)
    (halign : page % pgsize = 0) (hfits : off + n ≤ pgsize) {a : ℕ}
    (hne : a ≠ page) : (m.store (page + off) src n).words a = m.words a := by
  induction n with
  | zero => rfl
  | succ n ih =>
    have hpage : pgrounddown (page + off + n) = page := by
      rw [Nat.add_assoc]
      exact pgrounddown_add halign (by omega)
    rw [PhysMem.store, words_setByte, hpage, Function.update_of_ne hne, ih (by omega)]

theorem PhysMem.UserTable.store
    (h : m.UserTable pt) {pte : ℕ} (off : ℕ) (src : ℕ → UInt8) (halign : va0 % pgsize = 0)
    (hpte : m.lookup pt va0 = some pte) (hU : pte &&& pteU ≠ 0) (hfits : off + n ≤ pgsize) :
    m.WroteFirst pt (va0 + off) src n (m.store (pte2pa pte + off) src n) where
  table := by
    intro path a hpath ha
    have hne : a ≠ pte2pa pte := by
      rintro rfl
      exact h.apart va0 pte path hpte hU hpath ha
    exact m.words_store src (pte2pa_mod pte) hfits hne
  bytes := by
    intro va pa hle hlt hpa
    rw [userPhys_of_page halign hpte (by omega) (by omega)] at hpa
    cases hpa
    rw [byte_store, if_pos (by omega)]
    congr 1
    omega
  frame := by
    intro pa hpa
    rw [byte_store, if_neg]
    rintro ⟨hle, hlt⟩
    refine hpa (va0 + (pa - pte2pa pte)) (by omega) (by omega) ?_
    rw [userPhys_of_page halign hpte (by omega) (by omega)]
    congr 1
    omega

theorem PhysMem.WroteFirst.append {m1 m2 : PhysMem} (h : m.UserTable pt)
    (hfirst : m.WroteFirst pt dstva src n m1)
    (hrest : m1.WroteFirst pt (dstva + n) (fun i => src (n + i)) k m2) :
    m.WroteFirst pt dstva src (n + k) m2 where
  table := hfirst.table.trans hrest.table
  bytes := by
    intro va pa hle hlt hpa
    by_cases hva : va < dstva + n
    · rw [hrest.frame, hfirst.bytes va pa hle hva hpa]
      intro va' hle' _ hpa'
      rw [hfirst.table.userPhys] at hpa'
      have := h.distinct.userPhys_inj hpa hpa'
      omega
    · rw [hrest.bytes va pa (by omega) (by omega) ((hfirst.table.userPhys va).trans hpa)]
      congr 1
      omega
  frame := by
    intro pa hpa
    rw [hrest.frame pa, hfirst.frame pa]
    · exact fun va hle hlt => hpa va hle (by omega)
    · intro va hle hlt
      rw [hfirst.table.userPhys]
      exact hpa va (by omega) (by omega)

/-- How far a copy gets whose pages have to meet `P`: it stops at the first
page that does not. -/
def Copies (P : ℕ → Prop) (start len : ℕ) (r : Bool) (k : ℕ) : Prop :=
  (∀ va, start ≤ va → va < start + k → P va) ∧
    (r = true ∧ k = len ∨ r = false ∧ k < len ∧ ¬P (start + k) ∧ (k = 0 ∨ (start + k) % pgsize = 0))

theorem Copies.le (h : Copies P start len r k) : k ≤ len := by
  rcases h.2 with ⟨-, rfl⟩ | ⟨-, hk, -⟩
  · exact le_rfl
  · exact hk.le

theorem Copies.eq_true_iff (h : Copies P start len r k) :
    r = true ↔ ∀ va, start ≤ va → va < start + len → P va := by
  rcases h with ⟨hall, ⟨rfl, rfl⟩ | ⟨rfl, hk, hnot, -⟩⟩
  · exact iff_of_true rfl hall
  · refine iff_of_false Bool.false_ne_true fun hP => ?_
    exact hnot (hP (start + k) (by omega) (by omega))

theorem Copies.eq_len (h : Copies P start len r k) (hr : r = true) : k = len := by
  rcases h.2 with ⟨-, hk⟩ | ⟨hr', -⟩
  · exact hk
  · exact absurd (hr.symm.trans hr') Bool.noConfusion

theorem Copies.nothing (P : ℕ → Prop) (start : ℕ) : Copies P start 0 true 0 :=
  ⟨fun va hle hlt => absurd hlt (by omega), Or.inl ⟨rfl, rfl⟩⟩

theorem Copies.stop (hlen : 0 < len) (hnot : ¬P start) : Copies P start len false 0 :=
  ⟨fun va hle hlt => absurd hlt (by omega), Or.inr ⟨rfl, hlen, by simpa using hnot, Or.inl rfl⟩⟩

theorem Copies.page (hn : n = min (pgsize - (start - pgrounddown start)) len)
    (hpage : ∀ va, start ≤ va → va < start + n → P va)
    (hrest : Copies P (pgrounddown start + pgsize) (len - n) r k) :
    Copies P start len r (n + k) := by
  obtain ⟨halign, hle, hlt⟩ := pgrounddown_spec start
  have hk := hrest.le
  refine ⟨?_, ?_⟩
  · intro va hva hva'
    by_cases hfirst : va < start + n
    · exact hpage va hva hfirst
    · exact hrest.1 va (by omega) (by omega)
  · rcases hrest.2 with ⟨hr, hkeq⟩ | ⟨hr, hklt, hnot, hmod⟩
    · exact Or.inl ⟨hr, by omega⟩
    · have hnext : pgrounddown start + pgsize + k = start + (n + k) := by omega
      rw [hnext] at hnot hmod
      refine Or.inr ⟨hr, by omega, hnot, Or.inr ?_⟩
      rcases hmod with rfl | hmod
      · rw [← hnext, Nat.add_zero, Nat.add_mod_right, halign]
      · exact hmod

theorem pgrounddown_next (hva : pgrounddown va < maxva) :
    (pgrounddown va + pgsize) % 2 ^ 64 = pgrounddown va + pgsize := by
  simp only [maxva, pgsize] at hva ⊢
  omega

theorem rounds_next (hn : n = min (pgsize - (start - pgrounddown start)) len)
    (hrounds : start % pgsize + len ≤ (rounds + 1) * pgsize) :
    (pgrounddown start + pgsize) % pgsize + (len - n) ≤ rounds * pgsize := by
  obtain ⟨halign, hle, hlt⟩ := pgrounddown_spec start
  have hoff : start % pgsize = start - pgrounddown start := by
    simp only [pgsize] at halign hle hlt ⊢
    omega
  rw [Nat.add_mod_right, halign]
  rw [Nat.succ_mul] at hrounds
  omega

theorem rounds_enough (start len : ℕ) : start % pgsize + len ≤ (len / pgsize + 2) * pgsize := by
  have hoff : start % pgsize < pgsize := Nat.mod_lt _ pgsize_pos
  have hdiv := Nat.lt_div_mul_add (a := len) pgsize_pos
  rw [Nat.add_mul]
  omega

theorem copyoutLoop_spec
    (h : m.UserTable pt) (src : ℕ → UInt8) (hrounds : dstva % pgsize + len ≤ rounds * pgsize) :
    ∃ r m' k, copyoutLoop pt rounds dstva src len m = .ok (r, m') ∧
    Copies (m.Writable pt) dstva len r k ∧ m.WroteFirst pt dstva src k m' := by
  induction rounds generalizing m dstva src len with
  | zero =>
    obtain rfl : len = 0 := by omega
    exact ⟨true, m, 0, rfl, Copies.nothing _ _, .zero m pt dstva src⟩
  | succ rounds ih =>
    rw [copyoutLoop_succ]
    by_cases hlen : len > 0
    swap
    · obtain rfl : len = 0 := by omega
      exact ⟨true, m, 0, rfl, Copies.nothing _ _, .zero m pt dstva src⟩
    rw [if_pos hlen]
    have hstop (hnot : ¬m.Writable pt dstva) : Copies (m.Writable pt) dstva len false 0 ∧
      m.WroteFirst pt dstva src 0 m := ⟨Copies.stop hlen hnot, .zero m pt dstva src⟩
    by_cases hva : pgrounddown dstva ≥ maxva
    · rw [if_pos hva]
      exact ⟨false, m, 0, rfl, hstop fun hw => not_lt.mpr hva hw.1⟩
    rw [if_neg hva]
    cases hpte : m.lookup pt (pgrounddown dstva) with
    | none =>
      refine ⟨false, m, 0, rfl, hstop ?_⟩
      rintro ⟨-, pte, hsome, -⟩
      rw [hpte] at hsome
      contradiction
    | some pte =>
      dsimp only
      by_cases hflags : pte &&& pteU = 0 ∨ pte &&& pteW = 0
      · rw [if_pos hflags]
        refine ⟨false, m, 0, rfl, hstop ?_⟩
        rintro ⟨-, pte', hsome, hU, hW⟩
        rw [hpte] at hsome
        cases hsome
        exact hflags.elim hU hW
      rw [if_neg hflags]
      rw [not_or] at hflags
      obtain ⟨halign, hle, hlt⟩ := pgrounddown_spec dstva
      rw [pgrounddown_next (not_le.mp hva)]
      generalize hn : min (pgsize - (dstva - pgrounddown dstva)) len = n
      have hfirst := h.store (n := n) (dstva - pgrounddown dstva) src
        halign hpte hflags.1 (by omega)
      rw [Nat.add_sub_of_le hle] at hfirst
      obtain ⟨r, m', k, hcall, hcopies, hwrote⟩ :=
        ih (hfirst.table.userTable h) (fun i => src (n + i)) (rounds_next hn.symm hrounds)
      have hcopies' : Copies (m.Writable pt) (pgrounddown dstva + pgsize) (len - n) r k := by
        simpa only [Copies, hfirst.table.writable] using hcopies
      have hk := hcopies.le
      refine ⟨r, m', n + k, hcall, Copies.page hn.symm ?_ hcopies', ?_⟩
      · intro va hva' hlt'
        rw [writable_page (pgrounddown_of_page halign (by omega) (by omega))]
        exact ⟨not_le.mp hva, pte, hpte, hflags⟩
      · exact hfirst.append h (hwrote.restart (by omega))

theorem copyout_spec (h : m.UserTable pt) (dstva : ℕ) (src : ℕ → UInt8) (len : ℕ) :
    ∃ r m' k, copyout pt dstva src len m = .ok (r, m') ∧ Copies (m.Writable pt) dstva len r k ∧
      m.WroteFirst pt dstva src k m' :=
  copyoutLoop_spec h src (rounds_enough dstva len)

theorem PhysMem.WroteFirst.userByte (h : m.Distinct pt) (hwrote : m.WroteFirst pt dstva src k m')
    (hmapped : ∀ va, dstva ≤ va → va < dstva + k → m.Writable pt va) (va : ℕ) :
    m'.userByte pt va = if dstva ≤ va ∧ va < dstva + k then some (src (va - dstva))
      else m.userByte pt va := by
  rw [m'.userByte_eq_map, hwrote.table.userPhys, m.userByte_eq_map]
  split
  · rename_i hva
    obtain ⟨-, pte, hpte, -⟩ := hmapped va hva.1 hva.2
    obtain ⟨pa, hpa⟩ : ∃ pa, m.userPhys pt va = some pa := by
      unfold userPhys
      rw [hpte]
      exact ⟨_, rfl⟩
    rw [hpa, Option.map_some, hwrote.bytes va pa hva.1 hva.2 hpa]
  · rename_i hva
    cases hpa : m.userPhys pt va with
    | none => rfl
    | some pa =>
      rw [Option.map_some, Option.map_some, hwrote.frame pa]
      intro va' hle hlt hpa'
      obtain rfl := h.userPhys_inj hpa hpa'
      exact hva ⟨hle, hlt⟩

/-! ## `copyin` -/

theorem lookup_of_walkaddr (h : walkaddr pt va m ≠ 0) :
    va < maxva ∧ ∃ pte, m.lookup pt va = some pte ∧ pte &&& pteU ≠ 0 := by
  unfold walkaddr at h
  split at h
  · exact absurd rfl h
  rename_i hva
  obtain ⟨slot, hwalk⟩ := walk_false_ok pt (not_le.mp hva) m
  rw [hwalk] at h
  cases slot with
  | none => exact absurd rfl h
  | some slot =>
    obtain ⟨page, i⟩ := slot
    dsimp only at h
    split at h
    · exact absurd rfl h
    rename_i hvalid
    split at h
    · exact absurd rfl h
    rename_i hU
    exact ⟨not_le.mp hva, _, lookup_of_walk hwalk hvalid, hU⟩

theorem PhysMem.NonzeroPages.walkaddr_eq_zero_iff (h : m.NonzeroPages pt) (va : ℕ) :
    walkaddr pt (pgrounddown va) m = 0 ↔ ¬m.Readable pt va := by
  constructor
  · rintro hzero ⟨-, pte, hpte, hU⟩
    rw [walkaddr_of_lookup hpte hU] at hzero
    exact h _ pte hpte hU hzero
  · intro hnot
    by_contra hne
    exact hnot (lookup_of_walkaddr hne)

theorem copyinLoop_spec (h : m.NonzeroPages pt)
    {srcva : ℕ} (dst : ℕ → UInt8) (d : ℕ) (hrounds : srcva % pgsize + len ≤ rounds * pgsize) :
    ∃ r dst' k, copyinLoop pt m rounds dst d srcva len = (r, dst') ∧
    Copies (m.Readable pt) srcva len r k ∧ ∀ i, dst' i = if d ≤ i ∧ i < d + k then
        (m.userByte pt (srcva + (i - d))).getD 0 else dst i := by
  induction rounds generalizing dst d srcva len with
  | zero =>
    obtain rfl : len = 0 := by omega
    refine ⟨true, dst, 0, rfl, Copies.nothing _ _, fun i => ?_⟩
    rw [if_neg (by omega)]
  | succ rounds ih =>
    rw [copyinLoop]
    by_cases hlen : len > 0
    swap
    · obtain rfl : len = 0 := by omega
      refine ⟨true, dst, 0, rfl, Copies.nothing _ _, fun i => ?_⟩
      rw [if_neg (by omega)]
    rw [if_pos hlen]
    dsimp only
    by_cases hzero : walkaddr pt (pgrounddown srcva) m = 0
    · rw [if_pos hzero]
      rw [h.walkaddr_eq_zero_iff] at hzero
      refine ⟨false, dst, 0, rfl, Copies.stop hlen hzero, fun i => ?_⟩
      rw [if_neg (by omega)]
    rw [if_neg hzero]
    obtain ⟨hva, pte, hpte, hU⟩ := lookup_of_walkaddr hzero
    obtain ⟨halign, hle, hlt⟩ := pgrounddown_spec srcva
    rw [pgrounddown_next hva, walkaddr_of_lookup hpte hU]
    generalize hn : min (pgsize - (srcva - pgrounddown srcva)) len = n
    obtain ⟨r, dst', k, hcall, hcopies, hbytes⟩ := ih
      (m.load (pte2pa pte + (srcva - pgrounddown srcva)) dst d n) (d + n)
      (rounds_next hn.symm hrounds)
    have hk := hcopies.le
    refine ⟨r, dst', n + k, hcall, Copies.page hn.symm ?_ hcopies, ?_⟩
    · intro va hva' hlt'
      rw [readable_page (pgrounddown_of_page halign (by omega) (by omega))]
      exact ⟨hva, pte, hpte, hU⟩
    · intro i
      rw [hbytes i, PhysMem.load]
      by_cases hrest : d + n ≤ i ∧ i < d + n + k
      · have hindex : pgrounddown srcva + pgsize + (i - (d + n)) = srcva + (i - d) := by omega
        rw [if_pos hrest, if_pos (by omega), hindex]
      rw [if_neg hrest]
      by_cases hfirst : d ≤ i ∧ i < d + n
      · rw [if_pos hfirst, if_pos (by omega), m.userByte_eq_map,
          userPhys_of_page halign hpte (by omega) (by omega)]
        have hindex : pte2pa pte + (srcva - pgrounddown srcva) + (i - d) =
          pte2pa pte + (srcva + (i - d) - pgrounddown srcva) := by omega
        rw [hindex]
        rfl
      · rw [if_neg hfirst, if_neg (by omega)]

theorem copyin_spec (h : m.NonzeroPages pt) (dst : ℕ → UInt8) (srcva len : ℕ) :
    ∃ r dst' k, copyin pt dst srcva len m = (r, dst') ∧ Copies (m.Readable pt) srcva len r k ∧
      ∀ i, dst' i = if i < k then (m.userByte pt (srcva + i)).getD 0 else dst i := by
  obtain ⟨r, dst', k, hcall, hcopies, hbytes⟩ := copyinLoop_spec h dst 0 (rounds_enough srcva len)
  refine ⟨r, dst', k, hcall, hcopies, fun i => ?_⟩
  simpa using hbytes i

/-! ## Both ways -/

/-- `copyout` succeeds exactly if the whole range can be written, and then
writes it; otherwise it has written some of its pages.  `copyin` succeeds
exactly if the whole range can be read, and gives back what `copyout` put
there. -/
theorem PhysMem.UserTable.copyout_copyin (h : m.UserTable pt) (src dst : ℕ → UInt8) (a len : ℕ) :
    ∃ r m', copyout pt a src len m = .ok (r, m') ∧
      (r = true ↔ ∀ va, a ≤ va → va < a + len → m.Writable pt va) ∧
      (r = true → ∀ va, m'.userByte pt va = if a ≤ va ∧ va < a + len then some (src (va - a))
        else m.userByte pt va) ∧
      (r = false → ∃ k < len, (k = 0 ∨ (a + k) % pgsize = 0) ∧
        (∀ va, a ≤ va → va < a + k → m.Writable pt va) ∧
        ∀ va, m'.userByte pt va = if a ≤ va ∧ va < a + k then some (src (va - a))
          else m.userByte pt va) ∧
      (∀ pa, (∀ va, a ≤ va → va < a + len → m.Writable pt va →
        m.userPhys pt va ≠ some pa) → m'.byte pa = m.byte pa) ∧
      ((copyin pt dst a len m).1 = true ↔ ∀ va, a ≤ va → va < a + len → m.Readable pt va) ∧
      (r = true → (copyin pt dst a len m').1 = true ∧ ∀ i, (copyin pt dst a len m').2 i =
          if i < len then src i else dst i) := by
  obtain ⟨r, m', k, hcall, hcopies, hwrote⟩ := copyout_spec h a src len
  have hk := hcopies.le
  have hbytes := hwrote.userByte h.distinct hcopies.1
  refine ⟨r, m', hcall, hcopies.eq_true_iff, ?_, ?_, ?_, ?_, ?_⟩
  · intro hr
    rw [← hcopies.eq_len hr]
    exact hbytes
  · intro hr
    rcases hcopies.2 with ⟨hr', -⟩ | ⟨-, hlt, -, hpiece⟩
    · exact absurd (hr'.symm.trans hr) Bool.noConfusion
    · exact ⟨k, hlt, hpiece, hcopies.1, hbytes⟩
  · intro pa hpa
    refine hwrote.frame pa fun va hle hlt => ?_
    exact hpa va hle (by omega) (hcopies.1 va hle hlt)
  · obtain ⟨s, dst', j, hin, hread, -⟩ := copyin_spec h.nonzero dst a len
    rw [hin]
    exact hread.eq_true_iff
  · intro hr
    have hall := hcopies.eq_true_iff.mp hr
    have h' := hwrote.table.userTable h
    obtain ⟨s, dst', j, hin, hread, hdst⟩ := copyin_spec h'.nonzero dst a len
    have hs : s = true := hread.eq_true_iff.mpr fun va hle hlt =>
      (hwrote.table.readable va).mpr (hall va hle hlt).readable
    rw [hcopies.eq_len hr] at hbytes
    rw [hin]
    refine ⟨hs, fun i => ?_⟩
    change dst' i = _
    rw [hdst i, hread.eq_len hs]
    by_cases hi : i < len
    · rw [if_pos hi, if_pos hi, hbytes, if_pos (by omega), Nat.add_sub_cancel_left]
      rfl
    · rw [if_neg hi, if_neg hi]

end

/-! ## A page table of three pages -/

/-- A page table at `0x1000` whose last level is at `0x3000` and has two
entries. -/
def twoPages (x p y q : ℕ) : PhysMem where
  words a i := if a = 0x3000 then if i.val = x then p else if i.val = y then q else 0
    else if a = 0x2000 ∧ i = 0 then pa2pte 0x3000 ||| pteV
    else if a = 0x1000 ∧ i = 0 then pa2pte 0x2000 ||| pteV
    else 0
  freelist := []
  fails := []
  kend := 0

section

variable (x p y q : ℕ)

theorem twoPages_child_root (i : Fin 512) : (twoPages x p y q).child 0x1000 i =
      if i = 0 then some 0x2000 else none := by
  have hvalid : (pa2pte 0x2000 ||| pteV) &&& pteV ≠ 0 := by decide
  have hpa : pte2pa (pa2pte 0x2000 ||| pteV) = 0x2000 := by decide
  by_cases hi : i = 0
  · simp [PhysMem.child, twoPages, hi, hvalid, hpa]
  · simp [PhysMem.child, twoPages, hi]

theorem twoPages_child_middle (i : Fin 512) : (twoPages x p y q).child 0x2000 i =
      if i = 0 then some 0x3000 else none := by
  have hvalid : (pa2pte 0x3000 ||| pteV) &&& pteV ≠ 0 := by decide
  have hpa : pte2pa (pa2pte 0x3000 ||| pteV) = 0x3000 := by decide
  by_cases hi : i = 0
  · simp [PhysMem.child, twoPages, hi, hvalid, hpa]
  · simp [PhysMem.child, twoPages, hi]

theorem twoPages_node {path : List (Fin 512)} {a : ℕ} (hpath : path.length ≤ 2)
    (ha : PathTree.node (twoPages x p y q).child 0x1000 path = some a) :
    path = [] ∧ a = 0x1000 ∨ path = [0] ∧ a = 0x2000 ∨ path = [0, 0] ∧ a = 0x3000 := by
  match path, hpath with
  | [], _ => exact Or.inl ⟨rfl, (Option.some.inj ha).symm⟩
  | [i], _ =>
    rw [node_cons, twoPages_child_root] at ha
    split at ha
    · rename_i hi
      cases ha
      exact Or.inr (Or.inl ⟨congrArg (fun i => [i]) hi, rfl⟩)
    · cases ha
  | [i, j], _ =>
    rw [node_cons, twoPages_child_root] at ha
    split at ha
    · rename_i hi
      rw [Option.bind_some, node_cons, twoPages_child_middle] at ha
      split at ha
      · rename_i hj
        cases ha
        rw [hi, hj]
        exact Or.inr (Or.inr ⟨rfl, rfl⟩)
      · cases ha
    · cases ha

theorem twoPages_lookup {va pte : ℕ} (hpte : (twoPages x p y q).lookup 0x1000 va = some pte) :
    va < maxva ∧ px 2 va = 0 ∧ px 1 va = 0 ∧
      ((px 0 va).val = x ∧ pte = p ∨ (px 0 va).val = y ∧ pte = q) := by
  obtain ⟨hva, page, -, hpage, hword, hvalid⟩ := walk_of_lookup hpte
  have hpath : pxPath va 2 = [px 2 va, px 1 va] := rfl
  rw [hpath] at hpage
  rcases twoPages_node x p y q (by simp) hpage with
    ⟨h, -⟩ | ⟨h, -⟩ | ⟨h, rfl⟩
  · simp at h
  · simp at h
  · simp only [List.cons.injEq, and_true] at h
    refine ⟨hva, h.1, h.2, ?_⟩
    simp only [twoPages, if_true] at hword
    split at hword
    · rename_i hx
      exact Or.inl ⟨hx, hword.symm⟩
    split at hword
    · rename_i hy
      exact Or.inr ⟨hy, hword.symm⟩
    · rw [← hword] at hvalid
      exact absurd (Nat.zero_and _) hvalid

theorem twoPages_distinct (hne : pte2pa p ≠ pte2pa q) : (twoPages x p y q).Distinct 0x1000 := by
  intro va va' pte pte' halign halign' hpte hpte' hsame
  obtain ⟨hva, h2, h1, h0⟩ := twoPages_lookup x p y q hpte
  obtain ⟨hva', h2', h1', h0'⟩ := twoPages_lookup x p y q hpte'
  refine px_inj halign halign' hva hva' (h2.trans h2'.symm) (h1.trans h1'.symm) (Fin.ext ?_)
  rcases h0 with ⟨hx, rfl⟩ | ⟨hy, rfl⟩ <;>
    rcases h0' with ⟨hx', rfl⟩ | ⟨hy', rfl⟩
  · exact hx.trans hx'.symm
  · exact absurd hsame hne
  · exact absurd hsame.symm hne
  · exact hy.trans hy'.symm

theorem twoPages_userTable (hne : pte2pa p ≠ pte2pa q) (hp : pte2pa p ∉ [0, 0x1000, 0x2000, 0x3000])
    (hq : pte2pa q ∉ [0, 0x1000, 0x2000, 0x3000]) : (twoPages x p y q).UserTable 0x1000 := by
  have hpages {va pte : ℕ} (hpte : (twoPages x p y q).lookup 0x1000 va = some pte) :
      pte2pa pte ∉ [0, 0x1000, 0x2000, 0x3000] := by
    obtain ⟨-, -, -, ⟨-, rfl⟩ | ⟨-, rfl⟩⟩ := twoPages_lookup x p y q hpte
    · exact hp
    · exact hq
  refine ⟨twoPages_distinct x p y q hne, ?_, ?_⟩
  · intro va pte hpte _ hzero
    exact hpages hpte (by simp [hzero])
  · intro va pte path hpte _ hpath hnode
    have hnot := hpages hpte
    simp only [List.mem_cons, List.not_mem_nil, or_false, not_or] at hnot
    rcases twoPages_node x p y q hpath hnode with
      ⟨-, h⟩ | ⟨-, h⟩ | ⟨-, h⟩ <;> omega

end

def userPage (pa : ℕ) : ℕ := pa2pte pa ||| (pteV ||| pteR ||| pteW ||| pteU)

theorem forall_range {P : ℕ → Prop} {a len : ℕ} (h : ∀ i < len, P (a + i)) :
    ∀ va, a ≤ va → va < a + len → P va := by
  intro va hle hlt
  obtain ⟨i, rfl⟩ := Nat.exists_eq_add_of_le hle
  exact h i (by omega)

/-- A copy over the boundary of two pages. -/
theorem copyout_copyin_boundary : ∃ m', copyout 0x1000 4090 (fun i => UInt8.ofNat i) 10
        (twoPages 0 (userPage 0x5000) 1 (userPage 0x4000)) = .ok (true, m') ∧
      m'.userByte 0x1000 4097 = some 7 ∧
      (copyin 0x1000 (fun _ => 0) 4090 10 m').2 9 = 9 := by
  have h := twoPages_userTable 0 (userPage 0x5000) 1 (userPage 0x4000)
    (by decide) (by decide) (by decide)
  obtain ⟨r, m', hcall, hr, hbytes, -, -, -, hin⟩ :=
    h.copyout_copyin (fun i => UInt8.ofNat i) (fun _ => 0) 4090 10
  obtain rfl : r = true := hr.mpr (forall_range (by decide +kernel))
  exact ⟨m', hcall, hbytes rfl 4097, (hin rfl).2 9⟩

/-- The first page that is written can be the page table itself, and a page
at physical address 0 counts as missing. -/
theorem copyout_over_page_table :
    (∃ m : PhysMem, m.Distinct 0x1000 ∧
      (∀ va, 0x1feff8 ≤ va → va < 0x1feff8 + 9 → m.Writable 0x1000 va) ∧
      ∃ m', copyout 0x1000 0x1feff8 (fun _ => 0) 9 m = .ok (false, m')) ∧
    ∃ m : PhysMem, m.Distinct 0x1000 ∧ (∀ va, 0 ≤ va → va < 0 + 1 → m.Readable 0x1000 va) ∧
      (copyin 0x1000 (fun _ => 0) 0 1 m).1 = false := by
  have hfails : ((copyout 0x1000 0x1feff8 (fun _ => 0) 9
      (twoPages 510 (userPage 0x3000) 511 (userPage 0x4000))).toOption.map
        Prod.fst) = some false := by decide +kernel
  refine ⟨⟨twoPages 510 (userPage 0x3000) 511 (userPage 0x4000),
    twoPages_distinct _ _ _ _ (by decide), forall_range (by decide +kernel),
    ?_⟩, twoPages 0 (userPage 0) 1 (userPage 0x4000),
    twoPages_distinct _ _ _ _ (by decide), forall_range (by decide +kernel),
    by decide +kernel⟩
  revert hfails
  generalize copyout 0x1000 0x1feff8 (fun _ => 0) 9
    (twoPages 510 (userPage 0x3000) 511 (userPage 0x4000)) = result
  intro hfails
  match result with
  | .ok (false, m') => exact ⟨m', rfl⟩

end Xv6
