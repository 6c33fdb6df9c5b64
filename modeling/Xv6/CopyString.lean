import Xv6.CopyUser

/-!
# Strings from user memory

`copyinstr` of `vm.c` copies a string page by page, and `fetchstr` of
`syscall.c` takes its length.  The model keeps the physical addresses that
`copyinstr` has read.
-/

namespace Xv6

/-- The variables of `copyinstr`; `next` says how far `dst` has moved. -/
structure StrCopy where
  dst : ℕ → UInt8
  next : ℕ
  max : ℕ
  gotNull : Bool
  reads : List ℕ

/-- `*dst = '\0'`. -/
def StrCopy.finish (s : StrCopy) (p : ℕ) : StrCopy :=
  { s with
    dst := Function.update s.dst s.next 0
    gotNull := true
    reads := p :: s.reads }

/-- `*dst = *p`, and on to the next byte. -/
def StrCopy.advance (s : StrCopy) (p : ℕ) (b : UInt8) : StrCopy :=
  { s with
    dst := Function.update s.dst s.next b
    next := s.next + 1
    max := s.max - 1
    reads := p :: s.reads }

def copyinstrPage (m : PhysMem) : ℕ → ℕ → StrCopy → StrCopy
  | 0, _, s => s
  | n + 1, p, s =>
    if m.byte p = 0 then s.finish p
    else copyinstrPage m n (p + 1) (s.advance p (m.byte p))

/-- The outer loop, with a bound on the rounds that are left; the result says
whether `copyinstr` returns 0. -/
def copyinstrLoop (pt : ℕ) (m : PhysMem) : ℕ → ℕ → StrCopy → Bool × StrCopy
  | 0, _, s => (s.gotNull, s)
  | rounds + 1, srcva, s =>
    if s.gotNull = false ∧ s.max > 0 then
      let va0 := pgrounddown srcva
      let pa0 := walkaddr pt va0 m
      if pa0 = 0 then (false, s)
      else
        let n := min (pgsize - (srcva - va0)) s.max
        copyinstrLoop pt m rounds ((va0 + pgsize) % 2 ^ 64)
          (copyinstrPage m n (pa0 + (srcva - va0)) s)
    else (s.gotNull, s)

def copyinstr (pt : ℕ) (dst : ℕ → UInt8) (srcva max : ℕ) (m : PhysMem) : Bool × StrCopy :=
  copyinstrLoop pt m (max / pgsize + 2) srcva ⟨dst, 0, max, false, []⟩

/-- The loop of `strlen` on a buffer with `room` bytes left; there is no
result if it reads past the end. -/
def strlenFrom (s : ℕ → UInt8) : ℕ → ℕ → Option ℕ
  | 0, _ => none
  | room + 1, n => if s n = 0 then some n else strlenFrom s room (n + 1)

def strlen (s : ℕ → UInt8) (size : ℕ) : Option ℕ := strlenFrom s size 0

/-- There is no result if `strlen` reads past the end of `buf`. -/
def PhysMem.fetchstr (m : PhysMem) (pt addr : ℕ) (buf : ℕ → UInt8) (max : ℕ) : Option ℤ :=
  match copyinstr pt buf addr max m with
  | (false, _) => some (-1)
  | (true, s) => (strlen s.dst max).map Int.ofNat

/-- There is a string of length `k` at `a`. -/
structure PhysMem.UserString (m : PhysMem) (pt a k : ℕ) : Prop where
  readable : ∀ i ≤ k, m.Readable pt (a + i)
  text : ∀ i < k, m.userByte pt (a + i) ≠ some 0
  nul : m.userByte pt (a + k) = some 0

section

variable {m : PhysMem} {pt : ℕ}

theorem PhysMem.UserString.length_unique {a j k : ℕ}
    (h : m.UserString pt a j) (h' : m.UserString pt a k) : j = k := by
  rcases Nat.lt_trichotomy j k with hlt | heq | hgt
  · exact absurd h.nul (h'.text j hlt)
  · exact heq
  · exact absurd h'.nul (h.text k hgt)

/-- From `a` on, `j` bytes have been copied that are not NUL and, if it has
been found, the NUL behind them. -/
structure StrCopy.Scanned (m : PhysMem) (pt a : ℕ) (s : StrCopy) (j : ℕ)
    (s' : StrCopy) : Prop where
  text : ∀ i < j, m.Readable pt (a + i) ∧ m.userByte pt (a + i) ≠ some 0
  nul : s'.gotNull = true → m.Readable pt (a + j) ∧ m.userByte pt (a + j) = some 0 ∧ 0 < s'.max
  next : s'.next = s.next + j
  max : s.max = s'.max + j
  dst : ∀ i, s'.dst i = if s.next ≤ i ∧ i < s.next + (j + s'.gotNull.toNat) then
      (m.userByte pt (a + (i - s.next))).getD 0
    else s.dst i
  reads : ∀ pa ∈ s'.reads, pa ∈ s.reads ∨ ∃ va, a ≤ va ∧ va < a + s.max ∧ m.Readable pt va ∧
      m.userPhys pt va = some pa

theorem StrCopy.Scanned.nothing (a : ℕ) {s : StrCopy}
    (hs : s.gotNull = false) : s.Scanned m pt a 0 s where
  text := fun i hi => absurd hi (by omega)
  nul := fun h => by rw [hs] at h; contradiction
  next := rfl
  max := rfl
  dst := by
    intro i
    rw [hs, if_neg]
    rintro ⟨hle, hlt⟩
    exact absurd hlt (not_lt.mpr hle)
  reads := fun pa hpa => Or.inl hpa

theorem StrCopy.Scanned.append {a j k : ℕ} {s s1 s2 : StrCopy}
    (h : s.Scanned m pt a j s1) (hs1 : s1.gotNull = false)
    (h' : s1.Scanned m pt (a + j) k s2) : s.Scanned m pt a (j + k) s2 where
  text := by
    intro i hi
    by_cases hij : i < j
    · exact h.text i hij
    · have := h'.text (i - j) (by omega)
      rwa [Nat.add_assoc, Nat.add_sub_of_le (by omega)] at this
  nul := by
    intro hnull
    rw [← Nat.add_assoc]
    exact h'.nul hnull
  next := by rw [h'.next, h.next, Nat.add_assoc]
  max := by
    have := h.max
    have := h'.max
    omega
  dst := by
    intro i
    have hfirst := h.dst i
    rw [hs1, Bool.toNat_false, Nat.add_zero] at hfirst
    rw [h'.dst i, h.next, hfirst]
    by_cases hi : s.next + j ≤ i ∧ i < s.next + j + (k + s2.gotNull.toNat)
    · have hindex : a + j + (i - (s.next + j)) = a + (i - s.next) := by omega
      rw [if_pos hi, if_pos (by omega), hindex]
    rw [if_neg hi]
    by_cases hi' : s.next ≤ i ∧ i < s.next + j
    · rw [if_pos hi', if_pos (by omega)]
    · rw [if_neg hi', if_neg (by omega)]
  reads := by
    intro pa hpa
    have hmax := h.max
    rcases h'.reads pa hpa with hpa | ⟨va, hle, hlt, hva⟩
    · exact h.reads pa hpa
    · exact Or.inr ⟨va, by omega, by omega, hva⟩

theorem StrCopy.dst_next (s : StrCopy) {va : ℕ} {b : UInt8} (hbyte : m.userByte pt va = some b)
    (i : ℕ) : Function.update s.dst s.next b i = if s.next ≤ i ∧ i < s.next + 1 then
        (m.userByte pt (va + (i - s.next))).getD 0
      else s.dst i := by
  by_cases hi : i = s.next
  · subst hi
    rw [Function.update_self, if_pos (by omega), Nat.sub_self, Nat.add_zero, hbyte]
    rfl
  · rw [Function.update_of_ne hi, if_neg (by omega)]

/-! ## One page -/

section

variable {va0 pte : ℕ} (halign : va0 % pgsize = 0) (hva0 : va0 < maxva)
  (hpte : m.lookup pt va0 = some pte) (hU : pte &&& pteU ≠ 0)

include halign hpte in
theorem userByte_of_page {va : ℕ} (hle : va0 ≤ va) (hlt : va < va0 + pgsize) :
    m.userByte pt va = some (m.byte (pte2pa pte + (va - va0))) := by
  rw [m.userByte_eq_map, PhysMem.userPhys_of_page halign hpte hle hlt, Option.map_some]

include halign hva0 hpte hU

theorem readable_of_page {va : ℕ} (hle : va0 ≤ va) (hlt : va < va0 + pgsize) :
    m.Readable pt va := by
  unfold PhysMem.Readable
  rw [pgrounddown_of_page halign hle hlt]
  exact ⟨hva0, pte, hpte, hU⟩

theorem StrCopy.reads_next {va : ℕ} (hle : va0 ≤ va) (hlt : va < va0 + pgsize)
    {s : StrCopy} (hmax : 0 < s.max) : ∀ pa ∈ (pte2pa pte + (va - va0)) :: s.reads, pa ∈ s.reads ∨
    ∃ va', va ≤ va' ∧ va' < va + s.max ∧ m.Readable pt va' ∧ m.userPhys pt va' = some pa := by
  intro pa hpa
  rcases List.mem_cons.mp hpa with rfl | hpa
  · exact Or.inr ⟨va, le_rfl, by omega, readable_of_page halign hva0 hpte hU hle hlt,
      PhysMem.userPhys_of_page halign hpte hle hlt⟩
  · exact Or.inl hpa

theorem StrCopy.Scanned.advance
    {va : ℕ} {s : StrCopy} (hs : s.gotNull = false) (hle : va0 ≤ va) (hlt : va < va0 + pgsize)
    (hmax : 0 < s.max) {b : UInt8} (hb : m.byte (pte2pa pte + (va - va0)) = b) (hnot : b ≠ 0) :
    s.Scanned m pt va 1 (s.advance (pte2pa pte + (va - va0)) b) := by
  have hbyte := userByte_of_page halign hpte hle hlt
  rw [hb] at hbyte
  refine ⟨?_, ?_, rfl, ?_, ?_, StrCopy.reads_next halign hva0 hpte hU hle hlt hmax⟩
  · intro i hi
    obtain rfl : i = 0 := by omega
    refine ⟨readable_of_page halign hva0 hpte hU hle hlt, ?_⟩
    rw [Nat.add_zero, hbyte]
    exact fun h => hnot (Option.some.inj h)
  · intro h
    exact absurd (hs.symm.trans h) Bool.noConfusion
  · exact (Nat.sub_add_cancel hmax).symm
  · intro i
    have hflag : (s.advance (pte2pa pte + (va - va0)) b).gotNull = false := hs
    rw [hflag]
    exact s.dst_next hbyte i

theorem StrCopy.Scanned.finish {va : ℕ} {s : StrCopy} (hle : va0 ≤ va)
    (hlt : va < va0 + pgsize) (hmax : 0 < s.max) (hb : m.byte (pte2pa pte + (va - va0)) = 0) :
    s.Scanned m pt va 0 (s.finish (pte2pa pte + (va - va0))) := by
  have hbyte := userByte_of_page halign hpte hle hlt
  rw [hb] at hbyte
  refine ⟨fun i hi => absurd hi (by omega), ?_, rfl, rfl, ?_,
    StrCopy.reads_next halign hva0 hpte hU hle hlt hmax⟩
  · exact fun _ => ⟨readable_of_page halign hva0 hpte hU hle hlt, hbyte, hmax⟩
  · exact s.dst_next hbyte

theorem copyinstrPage_spec {n va : ℕ} {s : StrCopy}
    (hs : s.gotNull = false) (hle : va0 ≤ va) (hfits : va + n ≤ va0 + pgsize) (hmax : n ≤ s.max) :
    ∃ j, s.Scanned m pt va j (copyinstrPage m n (pte2pa pte + (va - va0)) s) ∧
    ((copyinstrPage m n (pte2pa pte + (va - va0)) s).gotNull = false → j = n) := by
  induction n generalizing va s with
  | zero => exact ⟨0, .nothing va hs, fun _ => rfl⟩
  | succ n ih =>
    rw [copyinstrPage]
    by_cases hzero : m.byte (pte2pa pte + (va - va0)) = 0
    · rw [if_pos hzero]
      exact ⟨0, .finish halign hva0 hpte hU hle (by omega) (by omega) hzero,
        fun h => Bool.noConfusion h⟩
    · have hone := StrCopy.Scanned.advance halign hva0 hpte hU hs hle
        (by omega) (by omega) rfl hzero
      have hp : pte2pa pte + (va - va0) + 1 = pte2pa pte + (va + 1 - va0) := by
        omega
      rw [if_neg hzero, hp]
      have hmax1 := hone.max
      generalize hs1 : s.advance _ _ = s1 at hone hmax1 ⊢
      have hnull : s1.gotNull = false := hs1 ▸ hs
      obtain ⟨j, hj, hstop⟩ := ih hnull (Nat.le_succ_of_le hle) (by omega) (by omega)
      refine ⟨1 + j, hone.append hnull hj, fun h => ?_⟩
      rw [hstop h, Nat.add_comm]

end

/-! ## `copyinstr` -/

theorem copyinstrLoop_done (rounds srcva : ℕ) {s : StrCopy}
    (hs : ¬(s.gotNull = false ∧ s.max > 0)) :
    copyinstrLoop pt m rounds srcva s = (s.gotNull, s) := by
  cases rounds with
  | zero => rfl
  | succ rounds => rw [copyinstrLoop, if_neg hs]

theorem copyinstrLoop_spec (h : m.NonzeroPages pt) {rounds srcva : ℕ}
    {s : StrCopy} (hs : s.gotNull = false) (hrounds : srcva % pgsize + s.max ≤ rounds * pgsize) :
    ∃ r s' j, copyinstrLoop pt m rounds srcva s = (r, s') ∧ s.Scanned m pt srcva j s' ∧
    s'.gotNull = r ∧ (r = false → j = s.max ∨ ¬m.Readable pt (srcva + j)) := by
  induction rounds generalizing srcva s with
  | zero =>
    rw [copyinstrLoop]
    exact ⟨_, s, 0, rfl, .nothing srcva hs, rfl, fun _ => by omega⟩
  | succ rounds ih =>
    rw [copyinstrLoop]
    by_cases hmax : s.max > 0
    swap
    · rw [if_neg fun h => hmax h.2]
      exact ⟨_, s, 0, rfl, .nothing srcva hs, rfl, fun _ => by omega⟩
    rw [if_pos ⟨hs, hmax⟩]
    dsimp only
    by_cases hzero : walkaddr pt (pgrounddown srcva) m = 0
    · rw [if_pos hzero]
      rw [h.walkaddr_eq_zero_iff] at hzero
      exact ⟨false, s, 0, rfl, .nothing srcva hs, hs, fun _ => Or.inr hzero⟩
    rw [if_neg hzero]
    obtain ⟨hva, pte, hpte, hU⟩ := lookup_of_walkaddr hzero
    obtain ⟨halign, hle, hlt⟩ := pgrounddown_spec srcva
    rw [pgrounddown_next hva, walkaddr_of_lookup hpte hU]
    generalize hn : min (pgsize - (srcva - pgrounddown srcva)) s.max = n
    obtain ⟨j, hscan, hstop⟩ := copyinstrPage_spec (n := n) halign hva hpte
      hU hs hle (by omega) (by omega)
    generalize copyinstrPage m n _ s = s1 at hscan hstop
    have hmax1 := hscan.max
    by_cases hdone : s1.gotNull = false ∧ s1.max > 0
    swap
    · rw [copyinstrLoop_done _ _ hdone]
      refine ⟨_, s1, j, rfl, hscan, rfl, fun hs1 => Or.inl ?_⟩
      have := not_and.mp hdone hs1
      omega
    obtain ⟨hs1, hpos⟩ := hdone
    obtain rfl := hstop hs1
    have hnext : pgrounddown srcva + pgsize = srcva + j := by omega
    obtain ⟨r, s', k, hcall, hscan', hnull, hend⟩ := ih hs1
      ((rounds_next hn.symm hrounds).trans' (Nat.add_le_add_left (by omega) _))
    rw [hnext] at hcall hscan' hend
    rw [hnext]
    refine ⟨r, s', j + k, hcall, hscan.append hs1 hscan', hnull, ?_⟩
    intro hr
    rw [← Nat.add_assoc]
    exact (hend hr).imp_left fun h => by omega

theorem PhysMem.Readable.userByte {va : ℕ} (h : m.Readable pt va) :
    some ((m.userByte pt va).getD 0) = m.userByte pt va := by
  obtain ⟨-, pte, hpte, -⟩ := h
  unfold PhysMem.userByte
  rw [hpte]
  rfl

theorem copyinstr_spec (h : m.NonzeroPages pt) (dst : ℕ → UInt8) (a max : ℕ) :
    ∃ r s, copyinstr pt dst a max m = (r, s) ∧ (∀ i, max ≤ i → s.dst i = dst i) ∧
    (∀ pa ∈ s.reads, ∃ va, a ≤ va ∧ va < a + max ∧ m.Readable pt va ∧ m.userPhys pt va = some pa) ∧
    ((∃ k < max, m.UserString pt a k ∧ r = true ∧ ∀ i ≤ k, some (s.dst i) = m.userByte pt (a + i)) ∨
    (¬∃ k < max, m.UserString pt a k) ∧ r = false) := by
  obtain ⟨r, s, j, hcall, hscan, hnull, hend⟩ := copyinstrLoop_spec h
    (s := ⟨dst, 0, max, false, []⟩) rfl (rounds_enough a max)
  have hmax : max = s.max + j := hscan.max
  have hdst : ∀ i, s.dst i = if i < j + r.toNat then
      (m.userByte pt (a + i)).getD 0 else dst i := by
    intro i
    simpa [hnull] using hscan.dst i
  have hlen : j + r.toNat ≤ max := by
    cases r with
    | true =>
      obtain ⟨-, -, hpos⟩ := hscan.nul hnull
      rw [Bool.toNat_true]
      omega
    | false => exact hmax ▸ Nat.le_add_left j s.max
  refine ⟨r, s, hcall, fun i hi => ?_, fun pa hpa => ?_, ?_⟩
  · rw [hdst i, if_neg (by omega)]
  · rcases hscan.reads pa hpa with hnil | hva
    · exact absurd hnil List.not_mem_nil
    · exact hva
  cases r with
  | true =>
    obtain ⟨hread, hzero, -⟩ := hscan.nul hnull
    have hall : ∀ i ≤ j, m.Readable pt (a + i) := by
      intro i hi
      rcases Nat.lt_or_eq_of_le hi with hlt | rfl
      · exact (hscan.text i hlt).1
      · exact hread
    refine Or.inl ⟨j, by rwa [Bool.toNat_true] at hlen,
      ⟨hall, fun i hi => (hscan.text i hi).2, hzero⟩, rfl, fun i hi => ?_⟩
    rw [hdst i, if_pos (by rw [Bool.toNat_true]; omega)]
    exact (hall i hi).userByte
  | false =>
    refine Or.inr ⟨?_, rfl⟩
    rintro ⟨k, hk, hstr⟩
    by_cases hkj : k < j
    · exact (hscan.text k hkj).2 hstr.nul
    · rcases hend rfl with rfl | hnot
      · exact hkj hk
      · exact hnot (hstr.readable j (by omega))

theorem strlenFrom_eq {s : ℕ → UInt8} {room n k : ℕ} (hk : k < room)
    (htext : ∀ i < k, s (n + i) ≠ 0) (hnul : s (n + k) = 0) :
    strlenFrom s room n = some (n + k) := by
  induction room generalizing n k with
  | zero => omega
  | succ room ih =>
    rw [strlenFrom]
    cases k with
    | zero =>
      rw [Nat.add_zero] at hnul
      rw [if_pos hnul, Nat.add_zero]
    | succ k =>
      have hfirst : s n ≠ 0 := htext 0 (by omega)
      rw [if_neg hfirst, ih (k := k) (by omega), Nat.add_assoc, Nat.add_comm 1 k]
      · intro i hi
        rw [Nat.add_assoc, Nat.add_comm 1 i]
        exact htext (i + 1) (by omega)
      · rw [Nat.add_assoc, Nat.add_comm 1 k]
        exact hnul

/-- `copyinstr` succeeds exactly if there is a string of less than `max`
bytes, and then copies it.  It only reads bytes of pages that it has looked
up, and `strlen` stays in the buffer. -/
theorem PhysMem.NonzeroPages.copyinstr_exact (h : m.NonzeroPages pt) (dst : ℕ → UInt8) (a max : ℕ) :
    ((copyinstr pt dst a max m).1 = true ↔ ∃ k < max, m.UserString pt a k) ∧
    (∀ k < max, m.UserString pt a k → ∀ i ≤ k,
      some ((copyinstr pt dst a max m).2.dst i) = m.userByte pt (a + i)) ∧
    (∀ i, max ≤ i → (copyinstr pt dst a max m).2.dst i = dst i) ∧
    (∀ pa ∈ (copyinstr pt dst a max m).2.reads, ∃ va, a ≤ va ∧ va < a + max ∧ m.Readable pt va ∧
        m.userPhys pt va = some pa) ∧
    (∀ k < max, m.UserString pt a k → m.fetchstr pt a dst max = some (k : ℤ)) ∧
    ((¬∃ k < max, m.UserString pt a k) → m.fetchstr pt a dst max = some (-1)) := by
  obtain ⟨r, s, hcall, hout, hreads, hstr⟩ := copyinstr_spec h dst a max
  unfold PhysMem.fetchstr
  rw [hcall]
  rcases hstr with ⟨k, hk, hstr, rfl, hdst⟩ | ⟨hnone, rfl⟩
  · have hlen : strlen s.dst max = some k := by
      rw [strlen, strlenFrom_eq (k := k) hk, Nat.zero_add]
      · intro i hi hzero
        rw [Nat.zero_add] at hzero
        refine hstr.text i hi ?_
        rw [← hdst i hi.le, hzero]
      · rw [Nat.zero_add]
        exact Option.some.inj ((hdst k le_rfl).trans hstr.nul)
    refine ⟨iff_of_true rfl ⟨k, hk, hstr⟩, ?_, hout, hreads, ?_, ?_⟩
    · intro k' _ hstr'
      obtain rfl := hstr.length_unique hstr'
      exact hdst
    · intro k' _ hstr'
      obtain rfl := hstr.length_unique hstr'
      exact congrArg (Option.map Int.ofNat) hlen
    · exact fun hnone => absurd ⟨k, hk, hstr⟩ hnone
  · refine ⟨iff_of_false Bool.false_ne_true hnone, ?_, hout, hreads, ?_,
      fun _ => rfl⟩ <;> exact fun k hk hstr => absurd ⟨k, hk, hstr⟩ hnone

end

/-- The NUL is the last byte that is allowed and on a page of its own. -/
theorem copyinstr_boundary : ∃ m : PhysMem, m.NonzeroPages 0x1000 ∧ m.UserString 0x1000 4090 6 ∧
      (copyinstr 0x1000 (fun _ => 1) 4090 7 m).1 = true ∧
      m.fetchstr 0x1000 4090 (fun _ => 1) 7 = some 6 := by
  have htable := twoPages_userTable 0 (userPage 0x5000) 1 (userPage 0x4000)
    (by decide) (by decide) (by decide)
  have hwrote := htable.store 4090 (n := 6) (fun _ => 97)
    (Nat.zero_mod pgsize) (by decide +kernel : _ = some (userPage 0x5000))
    (by decide) (by decide)
  have hnonzero := (hwrote.table.userTable htable).nonzero
  have hstr : ((twoPages 0 (userPage 0x5000) 1 (userPage 0x4000)).store
      (pte2pa (userPage 0x5000) + 4090) (fun _ => 97) 6).UserString
        0x1000 4090 6 :=
    ⟨by decide +kernel, by decide +kernel, by decide +kernel⟩
  have hspec := hnonzero.copyinstr_exact (fun _ => 1) 4090 7
  exact ⟨_, hnonzero, hstr, hspec.1.mpr ⟨6, by decide, hstr⟩, hspec.2.2.2.2.1 6 (by decide) hstr⟩

/-- A string at physical address 0 is not found. -/
theorem copyinstr_page_zero : (twoPages 0 (userPage 0) 1 (userPage 0x4000)).UserString 0x1000 0 0 ∧
      (copyinstr 0x1000 (fun _ => 1) 0 1 (twoPages 0 (userPage 0) 1 (userPage 0x4000))).1 = false :=
  ⟨⟨by decide +kernel, by decide +kernel, by decide +kernel⟩, by decide +kernel⟩

end Xv6
