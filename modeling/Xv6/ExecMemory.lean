import Xv6.Exec

/-!
# What loading a program does to memory

`exec` builds a new address space next to the old one and gives one of the two
back, whichever call fails.  As for the other functions on memory, the
specification says that no page is lost or taken twice.
-/

namespace Xv6

section

variable {m m' : PhysMem} {A own : List ℕ} {pt : ℕ} {T ptes : List ℕ}
  {hi : ℕ → Option ℕ} {trampoline : ℕ}

/-! ## `loadseg` -/

theorem flags2perm_lt (flags : ℕ) : flags2perm flags < 2 ^ 10 := by
  unfold flags2perm
  apply Nat.or_lt_two_pow <;> (split <;> decide)

variable {va sz trapframe : ℕ} {pages : List ℕ}

theorem walkaddr_of_lookup {pte : ℕ} (hpte : m.lookup pt va = some pte)
    (hU : pte &&& pteU ≠ 0) : walkaddr pt va m = pte2pa pte := by
  obtain ⟨hva, page, hwalk, _, hword, hvalid⟩ := PhysMem.walk_of_lookup hpte
  unfold walkaddr
  rw [if_neg (not_le.mpr hva), hwalk]
  dsimp only
  rw [hword, if_neg hvalid, if_neg hU]

def AllUser (ptes : List ℕ) : Prop := ∀ pte ∈ ptes, pte &&& pteU ≠ 0

theorem PhysMem.Owns.length_mul_le (h : m.Owns (mapped ptes ++ T)) :
    ptes.length * pgsize ≤ phystop := by
  have hlength := h.length_le
  simp only [List.length_append, mapped, List.length_map] at hlength
  have hle : ptes.length ≤ phystop / pgsize := by omega
  exact le_trans (Nat.mul_le_mul_right _ hle) (Nat.div_mul_le_self _ _)

theorem PhysMem.Shape.walkaddr (h : m.Shape pt T ptes hi) (huser : AllUser ptes)
    (halign : va % pgsize = 0) (hva : va < ptes.length * pgsize) :
    Xv6.walkaddr pt va m ∈ mapped ptes := by
  obtain ⟨j, rfl⟩ := Nat.dvd_of_mod_eq_zero halign
  rw [Nat.mul_comm] at hva ⊢
  have hj : j < ptes.length := Nat.lt_of_mul_lt_mul_right hva
  have hmem : ptes[j] ∈ ptes := List.getElem_mem hj
  rw [walkaddr_of_lookup (h.user j hj) (huser _ hmem)]
  exact List.mem_map_of_mem hmem

theorem PhysMem.Shape.loadsegLoop (h : m.Shape pt T ptes hi)
    (hown : m.Owns (mapped ptes ++ T)) (huser : AllUser ptes) (hkend : 0 < m.kend) (ip : ExecInode)
    (offset : ℕ) (halign : va % pgsize = 0) (hsz : va + sz ≤ ptes.length * pgsize) (rounds : ℕ)
    {i : ℕ} (hi' : i % pgsize = 0) (henough : sz ≤ i + rounds * pgsize) : ∃ r m1, Xv6.loadsegLoop pt
    va ip offset sz (rounds + 1) i m = .ok (r, m1) ∧ m.Extends (mapped ptes) m1 (mapped ptes) := by
  induction rounds generalizing m i with
  | zero =>
    rw [Nat.zero_mul, Nat.add_zero] at henough
    rw [Xv6.loadsegLoop]
    exact ⟨true, m, if_neg (not_lt.mpr henough), .refl m _⟩
  | succ rounds ih =>
    rw [Xv6.loadsegLoop]
    by_cases hlt : i < sz
    · have hbound := hown.length_mul_le
      have hva : (va + i) % 2 ^ 64 = va + i := by
        unfold phystop kernbase at hbound
        omega
      have hnext : (i + pgsize) % 2 ^ 32 = i + pgsize := by
        unfold phystop kernbase pgsize at *
        omega
      have halign' : (va + i) % pgsize = 0 := by
        rw [Nat.add_mod, halign, hi', Nat.add_zero, Nat.zero_mod]
      have hpa := h.walkaddr huser halign' (by omega)
      rw [if_pos hlt, hva, hnext]
      dsimp only
      generalize Xv6.walkaddr pt (va + i) m = pa at hpa
      have hrange : m.InRange pa := hown.range pa
        (List.mem_append_left _ (List.mem_append_left _ hpa))
      have hpos : pa ≠ 0 := by
        have := hrange.2.1
        omega
      rw [if_neg hpos]
      generalize hn : (if sz - i < pgsize then sz - i else pgsize) = n
      have hn : n ≤ pgsize := by
        rw [← hn]
        split <;> omega
      generalize hb : ip.readi ((offset + i) % 2 ^ 32) n = b
      have hlen : b.length ≤ n := hb ▸ ip.length_le _ _
      have hext : m.Extends (mapped ptes)
          (m.store pa (fun k => b.getD k 0) b.length) (mapped ptes) := by
        have hstore := m.store_extends 0 (fun k => b.getD k 0) (n := b.length) hrange.1 (by omega)
        rw [Nat.add_zero] at hstore
        exact hstore.of_mem hpa
      by_cases hshort : b.length ≠ n
      · exact ⟨false, _, if_pos hshort, hext⟩
      · rw [if_neg hshort]
        have hown1 := hown.of_extends (hext.append T)
        obtain ⟨r, m1, hcall, hext1⟩ :=
          ih (i := i + pgsize) (h.congr (hown.words_eq hext)) hown1 (hext.kend ▸ hkend)
          (by rw [Nat.add_mod_right, hi']) (by rw [Nat.add_mul, Nat.one_mul] at henough; omega)
        exact ⟨r, m1, hcall, hext.trans hext1⟩
    · exact ⟨true, m, if_neg hlt, .refl m _⟩

theorem PhysMem.Shape.loadseg (h : m.Shape pt T ptes hi) (hown : m.Owns (mapped ptes ++ T))
    (huser : AllUser ptes) (hkend : 0 < m.kend) (ip : ExecInode) (offset : ℕ)
    (halign : va % pgsize = 0) (hsz : va + sz ≤ ptes.length * pgsize) : ∃ r m1, Xv6.loadseg
    pt va ip offset sz m = .ok (r, m1) ∧ m.Extends (mapped ptes) m1 (mapped ptes) := by
  have hmod : sz % 2 ^ 32 ≤ sz := Nat.mod_le _ _
  apply h.loadsegLoop hown huser hkend ip _ halign (by omega)
  · rfl
  · simp only [pgsize]
    omega

/-! ## The program headers -/

theorem field_lt (b : List UInt8) (off k : ℕ) : field b off k < 256 ^ k := Bytes.readLE_lt _ off k

theorem or_pteU_ne_zero (mem xperm : ℕ) :
    (pa2pte mem ||| (pteR ||| pteU ||| xperm) ||| pteV) &&& pteU ≠ 0 := by
  apply or_and_ne_zero
  rw [Nat.and_or_distrib_right]
  have hle : (pteR ||| pteU) &&& pteU ≤
      ((pteR ||| pteU) &&& pteU) ||| (xperm &&& pteU) := Nat.left_le_or
  have hpos : 0 < (pteR ||| pteU) &&& pteU := by decide
  omega

theorem PhysMem.Shape.loadLoop (h : m.Shape pt T ptes hi) (hown : m.Owns (mapped ptes ++ T))
    (huser : AllUser ptes) (hkend : 0 < m.kend) (ip : ExecInode) (n off : ℕ)
    (hsz : TakesPages ptes.length sz) : ∃ r sz1 m1 T1 ptes1, Xv6.loadLoop pt ip n off sz m = .ok
    (r, sz1, m1) ∧ m1.Shape pt T1 ptes1 hi ∧ TakesPages ptes1.length sz1 ∧
    AllUser ptes1 ∧ m.Extends (mapped ptes ++ T) m1 (mapped ptes1 ++ T1) := by
  induction n generalizing m T ptes off sz with
  | zero => exact ⟨true, sz, m, T, ptes, rfl, h, hsz, huser, .refl m _⟩
  | succ n ih =>
    have hbad : ∃ r sz1 m1 T1 ptes1, (.ok (false, sz, m) : Except VmPanic (Bool × ℕ × PhysMem)) =
      .ok (r, sz1, m1) ∧ m1.Shape pt T1 ptes1 hi ∧ TakesPages ptes1.length sz1 ∧
      AllUser ptes1 ∧ m.Extends (mapped ptes ++ T) m1 (mapped ptes1 ++ T1) :=
      ⟨false, sz, m, T, ptes, rfl, h, hsz, huser, .refl m _⟩
    rw [Xv6.loadLoop]
    generalize ip.readi off sizeofProghdr = b
    dsimp only
    by_cases hlen : b.length ≠ sizeofProghdr
    · rw [if_pos hlen]
      exact hbad
    rw [if_neg hlen]
    by_cases htype : (Proghdr.ofBytes b).type ≠ elfProgLoad
    · rw [if_pos htype]
      exact ih h hown huser hkend _ hsz
    rw [if_neg htype]
    by_cases hmemsz : (Proghdr.ofBytes b).memsz < (Proghdr.ofBytes b).filesz
    · rw [if_pos hmemsz]
      exact hbad
    rw [if_neg hmemsz]
    by_cases hwrap : ((Proghdr.ofBytes b).vaddr +
        (Proghdr.ofBytes b).memsz) % 2 ^ 64 < (Proghdr.ofBytes b).vaddr
    · rw [if_pos hwrap]
      exact hbad
    rw [if_neg hwrap]
    by_cases halign : (Proghdr.ofBytes b).vaddr % pgsize ≠ 0
    · rw [if_pos halign]
      exact hbad
    rw [if_neg halign]
    have hvaddr : (Proghdr.ofBytes b).vaddr < 2 ^ 64 := field_lt b 16 8
    have hmem : (Proghdr.ofBytes b).memsz < 2 ^ 64 := field_lt b 40 8
    generalize Proghdr.ofBytes b = ph at *
    have hend : (ph.vaddr + ph.memsz) % 2 ^ 64 = ph.vaddr + ph.memsz := by
      omega
    rw [hend]
    rcases h.uvmalloc hown (ph.vaddr + ph.memsz) (flags2perm_lt ph.flags)
      hsz with ⟨m1, T1, hcall, hshape, hext⟩ | ⟨m1, T1, new, hcall, hshape, hext, hnew, htakes⟩
    · refine ⟨false, sz, m1, T1, ptes, ?_, hshape, hsz, huser, hext⟩
      simp [hcall, bind, Except.bind]
    · have huser1 : AllUser (ptes ++ new) := by
        intro pte hpte
        rcases List.mem_append.mp hpte with hpte | hpte
        · exact huser pte hpte
        · obtain ⟨mem, rfl⟩ := hnew pte hpte
          exact or_pteU_ne_zero mem _
      have hown1 := hown.of_extends hext
      by_cases hzero : max sz (ph.vaddr + ph.memsz) = 0
      · have hsz0 : sz = max sz (ph.vaddr + ph.memsz) := by omega
        refine ⟨false, sz, m1, T1, ptes ++ new, ?_, hshape, hsz0 ▸ htakes, huser1, hext⟩
        simp [hcall, hzero, bind, Except.bind]
      · have hfits : ph.vaddr + ph.filesz ≤ (ptes ++ new).length * pgsize := by
          have := htakes.1
          omega
        obtain ⟨r, m2, hload, hext2⟩ := hshape.loadseg hown1 huser1
          (hext.kend ▸ hkend) ip ph.off (not_not.mp halign) hfits
        have hshape2 := hshape.congr (hown1.words_eq hext2)
        have hext2 := hext.trans (hext2.append T1)
        cases r with
        | false =>
          refine ⟨false, max sz (ph.vaddr + ph.memsz), m2, T1,
            ptes ++ new, ?_, hshape2, htakes, huser1, hext2⟩
          simp only [hcall, hzero, hload, bind, Except.bind]
          rfl
        | true =>
          obtain ⟨r, sz1, m3, T3, ptes3, hrest, hshape3, htakes3, huser3,
            hext3⟩ := ih hshape2 (hown.of_extends hext2) huser1
              (hext2.kend ▸ hkend) ((off + sizeofProghdr) % 2 ^ 32) htakes
          refine ⟨r, sz1, m3, T3, ptes3, ?_, hshape3, htakes3, huser3, hext2.trans hext3⟩
          rw [← hrest]
          simp only [hcall, hzero, hload, bind, Except.bind]
          rfl

/-! ## The stack -/

theorem PhysMem.Shape.copyout (h : m.Shape pt T ptes hi) (hhi : Supervisor hi)
    (hown : m.Owns (mapped ptes ++ T)) (dstva : ℕ) (src : ℕ → UInt8) (len : ℕ) : ∃ r m1, Xv6.copyout
    pt dstva src len m = .ok (r, m1) ∧ m.Extends (mapped ptes) m1 (mapped ptes) := by
  rw [Xv6.copyout]
  exact h.copyoutLoop hhi hown _ dstva src len

theorem PhysMem.Shape.pushArgs (h : m.Shape pt T ptes hi) (hhi : Supervisor hi)
    (hown : m.Owns (mapped ptes ++ T)) (stackbase : ℕ) (argv : List (List UInt8))
    (sp : ℕ) (ustack : List ℕ) : ∃ r m1, Xv6.pushArgs pt stackbase argv sp ustack m = .ok (r, m1) ∧
    m.Extends (mapped ptes) m1 (mapped ptes) := by
  induction argv generalizing m sp ustack with
  | nil => exact ⟨_, m, rfl, .refl m _⟩
  | cons s argv ih =>
    rw [Xv6.pushArgs]
    by_cases hmany : ustack.length ≥ maxarg
    · exact ⟨none, m, if_pos hmany, .refl m _⟩
    rw [if_neg hmany]
    dsimp only
    generalize pushSp sp (s.length + 1) = sp'
    by_cases hlow : sp' < stackbase
    · exact ⟨none, m, if_pos hlow, .refl m _⟩
    rw [if_neg hlow]
    obtain ⟨r, m1, hcopy, hext⟩ := h.copyout hhi hown sp' (fun k => s.getD k 0) (s.length + 1)
    rw [hcopy, ok_bind]
    cases r with
    | false => exact ⟨none, m1, rfl, hext⟩
    | true =>
      obtain ⟨r, m2, hrest, hext2⟩ := ih (h.congr (hown.words_eq hext))
          (hown.of_extends (hext.append T)) sp' (ustack ++ [sp'])
      exact ⟨r, m2, hrest, hext.trans hext2⟩

theorem PhysMem.Shape.pushStack (h : m.Shape pt T ptes hi) (hhi : Supervisor hi)
    (hown : m.Owns (mapped ptes ++ T)) (sz : ℕ) (argv : List (List UInt8)) : ∃ r m1, Xv6.pushStack
    pt sz argv m = .ok (r, m1) ∧ m.Extends (mapped ptes) m1 (mapped ptes) := by
  obtain ⟨r, m1, hpush, hext⟩ := h.pushArgs hhi hown (sz - userstack * pgsize) argv sz []
  rw [Xv6.pushStack, hpush, ok_bind]
  cases r with
  | none => exact ⟨none, m1, rfl, hext⟩
  | some x =>
    obtain ⟨sp, ustack⟩ := x
    dsimp only
    generalize pushSp sp ((ustack.length + 1) * 8) = sp'
    by_cases hlow : sp' < sz - userstack * pgsize
    · exact ⟨none, m1, if_pos hlow, hext⟩
    · rw [if_neg hlow]
      obtain ⟨r, m2, hcopy, hext2⟩ := (h.congr (hown.words_eq hext)).copyout hhi
          (hown.of_extends (hext.append T)) sp' (ustackByte ustack) ((ustack.length + 1) * 8)
      rw [hcopy, ok_bind]
      exact ⟨_, m2, rfl, hext.trans hext2⟩

/-! ## The new image -/

/-- An address space of a process, of `sz` bytes, in the pages that it
owns. -/
structure PhysMem.Space (m : PhysMem) (trampoline trapframe pt sz : ℕ)
    (T ptes : List ℕ) : Prop where
  shape : m.Shape pt T ptes (procHi trampoline trapframe)
  takes : TakesPages ptes.length sz

section

variable (h : m.Space trampoline trapframe pt sz T ptes)
include h

theorem PhysMem.Space.congr (hwords : ∀ a ∈ T, m'.words a = m.words a) :
    m'.Space trampoline trapframe pt sz T ptes :=
  ⟨h.shape.congr hwords, h.takes⟩

theorem PhysMem.Space.free (hown : m.Owns (mapped ptes ++ T)) :
    ∃ m1, procFreepagetable pt sz m = .ok m1 ∧ m.Extends (mapped ptes ++ T) m1 [] :=
  h.shape.procFreepagetable hown h.takes

theorem PhysMem.Space.addStack (hown : m.Owns (mapped ptes ++ T)) :
    (∃ m1 T1, uvmalloc pt (pgroundup sz)
        ((pgroundup sz + (userstack + 1) * pgsize) % 2 ^ 64) pteW m = .ok (0, m1) ∧
      m1.Space trampoline trapframe pt (pgroundup sz) T1 ptes ∧
      m.Extends (mapped ptes ++ T) m1 (mapped ptes ++ T1)) ∨
    ∃ n sz1 m1 m2 T1 ptes1, sz1 = (n + 2) * pgsize ∧ uvmalloc pt (pgroundup sz)
        ((pgroundup sz + (userstack + 1) * pgsize) % 2 ^ 64) pteW m = .ok (sz1, m1) ∧
      uvmclear pt (sz1 - (userstack + 1) * pgsize) m1 = .ok m2 ∧
      m2.Space trampoline trapframe pt sz1 T1 ptes1 ∧
      m.Extends (mapped ptes ++ T) m2 (mapped ptes1 ++ T1) := by
  have hround := pgroundup_eq h.takes h.shape.bound
  have hbound := h.shape.bound
  have hend : (pgroundup sz + (userstack + 1) * pgsize) % 2 ^ 64 = (ptes.length + 2) * pgsize := by
    rw [hround]
    simp only [trapframeVa, trampolineVa, maxva, userstack, pgsize] at *
    omega
  have htakes : TakesPages ptes.length (pgroundup sz) := by
    rw [hround]
    exact takesPages_mul _
  rw [hend]
  rcases h.shape.uvmalloc hown ((ptes.length + 2) * pgsize)
      (show pteW < 2 ^ 10 by decide) htakes with
    ⟨m1, T1, hcall, hshape, hext⟩ |
    ⟨m1, T1, new, hcall, hshape, hext, -, htakes1⟩
  · exact Or.inl ⟨m1, T1, hcall, ⟨hshape, htakes⟩, hext⟩
  · have hmax : max (pgroundup sz) ((ptes.length + 2) * pgsize) = (ptes.length + 2) * pgsize := by
      rw [hround]
      exact Nat.max_eq_right (Nat.mul_le_mul_right _ (by omega))
    rw [hmax] at hcall htakes1
    have hlen : (ptes ++ new).length = ptes.length + 2 :=
      (takesPages_mul (ptes.length + 2)).eq htakes1
    have hguard : (ptes.length + 2) * pgsize - (userstack + 1) * pgsize = ptes.length * pgsize := by
      rw [← Nat.sub_mul]
      rfl
    have hk : ptes.length < (ptes ++ new).length := by omega
    have hown1 := hown.of_extends hext
    obtain ⟨m2, hclear, hext2, hshape2⟩ := hshape.uvmclear hown1.right hk
    refine Or.inr ⟨ptes.length, (ptes.length + 2) * pgsize, m1, m2, T1, _, rfl,
      hcall, ?_, ⟨hshape2, ?_⟩, ?_⟩
    · rw [hguard]
      exact hclear
    · rw [List.length_set, hlen]
      exact takesPages_mul _
    · rw [mapped_set hk (pte2pa_withoutU _)]
      exact hext.trans (hext2.appendLeft _)

end

/-- The arguments have been pushed to the stack of an address space, and its
pages have not changed since. -/
def PhysMem.Pushed (m : PhysMem) (trampoline trapframe pt sz sp : ℕ)
    (T ptes : List ℕ) (argv : List (List UInt8)) : Prop :=
  ∃ n m₀ m₁, sz = (n + 2) * pgsize ∧ m₀.Space trampoline trapframe pt sz T ptes ∧
    m₀.Owns (mapped ptes ++ T) ∧
    Xv6.pushStack pt sz argv m₀ = .ok (some sp, m₁) ∧
    ∀ a ∈ mapped ptes ++ T, m.words a = m₁.words a

theorem PhysMem.Pushed.congr {sp : ℕ} {argv : List (List UInt8)}
    (h : m.Pushed trampoline trapframe pt sz sp T ptes argv)
    (hwords : ∀ a ∈ mapped ptes ++ T, m'.words a = m.words a) :
    m'.Pushed trampoline trapframe pt sz sp T ptes argv := by
  obtain ⟨n, m0, m1, hsz, hspace, hown, hpush, hsame⟩ := h
  exact ⟨n, m0, m1, hsz, hspace, hown, hpush, fun a ha =>
    (hwords a ha).trans (hsame a ha)⟩

theorem PhysMem.Owns.execImage
    (h : m.Owns []) (hkend : 0 < m.kend) (htrampoline : trampoline < 2 ^ 64)
    (htrapframe : trapframe < 2 ^ 64) (ip : ExecInode) (elf : Elfhdr) (argv : List (List UInt8)) :
    (∃ m1, Xv6.execImage trampoline trapframe ip elf argv m = .ok (none, m1) ∧ m.Extends [] m1 []) ∨
    ∃ sz sp m1 pt T ptes, Xv6.execImage trampoline trapframe ip elf argv m = .ok
    (some (pt, sz, sp), m1) ∧ m1.Space trampoline trapframe pt sz T ptes ∧
    m.Extends [] m1 (mapped ptes ++ T) ∧ m1.Pushed trampoline trapframe pt sz sp T ptes argv := by
  rcases h.procPagetable htrampoline htrapframe with ⟨m1, hpt, hext⟩ |
    ⟨pt, m1, T, hpt, hext, hshape⟩
  · left
    refine ⟨m1, ?_, hext⟩
    rw [Xv6.execImage, hpt, ok_bind]
  rw [Xv6.execImage, hpt, ok_bind]
  dsimp only
  -- the program
  have hown1 : m1.Owns (mapped [] ++ T) := h.of_extends hext
  obtain ⟨r, sz, m2, T2, ptes2, hload, hshape2, htakes2, -, hext2⟩ := hshape.loadLoop hown1
    (by simp [AllUser]) (hext.kend ▸ hkend) ip elf.phnum (elf.phoff % 2 ^ 32) takesPages_zero
  have hspace2 : m2.Space trampoline trapframe pt sz T2 ptes2 := ⟨hshape2, htakes2⟩
  have hext2 : m.Extends [] m2 (mapped ptes2 ++ T2) := hext.trans hext2
  have hown2 := h.of_extends hext2
  rw [hload, ok_bind]
  cases r with
  | false =>
    obtain ⟨m3, hfree, hext3⟩ := hspace2.free hown2
    left
    refine ⟨m3, ?_, hext2.trans hext3⟩
    dsimp only
    rw [if_pos rfl, hfree, ok_bind]
  | true =>
    dsimp only
    rw [if_neg (by simp)]
    -- the stack
    rcases hspace2.addStack hown2 with ⟨m3, T3, halloc, hspace3, hext3⟩ |
      ⟨n, sz3, m3, m4, T4, ptes4, hsz, halloc, hclear, hspace4, hext4⟩
    · have hext3 := hext2.trans hext3
      obtain ⟨m4, hfree, hext4⟩ := hspace3.free (h.of_extends hext3)
      left
      refine ⟨m4, ?_, hext3.trans hext4⟩
      rw [halloc, ok_bind]
      dsimp only
      rw [if_pos rfl, hfree, ok_bind]
    · have hext4 := hext2.trans hext4
      have hown4 := h.of_extends hext4
      obtain ⟨r, m5, hpush, hext5⟩ := hspace4.shape.pushStack procHi_supervisor hown4 sz3 argv
      have hspace5 := hspace4.congr (hown4.words_eq hext5)
      have hext5 := hext4.trans (hext5.append T4)
      rw [halloc, ok_bind]
      dsimp only
      have hne : sz3 ≠ 0 := by
        rw [hsz]
        exact Nat.mul_ne_zero (by omega) (by decide)
      rw [if_neg hne, hclear, ok_bind, hpush, ok_bind]
      cases r with
      | none =>
        obtain ⟨m6, hfree, hext6⟩ := hspace5.free (h.of_extends hext5)
        left
        refine ⟨m6, ?_, hext5.trans hext6⟩
        dsimp only
        rw [hfree, ok_bind]
      | some sp =>
        right
        exact ⟨sz3, sp, m5, pt, T4, ptes4, rfl, hspace5, hext5, n, m4, m5,
          hsz, hspace4, hown4, hpush, fun _ _ => rfl⟩

/-! ## `exec` -/

theorem PhysMem.setWord_extends (m : PhysMem) {a : ℕ} (i : Fin 512) (w : ℕ)
    (ha : a ∈ own) : m.Extends own (m.setWord a i w) own :=
  m.setPage_extends _ ha

def PhysMem.Started (m : PhysMem) (trampoline : ℕ) (p : ProcMem)
    (T ptes : List ℕ) (argv : List (List UInt8)) : Prop :=
  ∃ sp, m.Pushed trampoline p.trapframe p.pagetable p.sz sp T ptes argv ∧
    m.words p.trapframe trapframeA1 = sp ∧
    m.words p.trapframe trapframeSp = sp

theorem PhysMem.Space.exec
    {p : ProcMem} (h : m.Space trampoline p.trapframe p.pagetable p.sz T ptes)
    (hown : m.Owns (p.trapframe :: (mapped ptes ++ T))) (hkend : 0 < m.kend)
    (htrampoline : trampoline < 2 ^ 64) (path : List UInt8) (ip : Option ExecInode)
    (argv : List (List UInt8)) : (∃ m1, Xv6.exec trampoline path ip argv p m = .ok (none, p, m1) ∧
    m.Extends [] m1 []) ∨ ∃ p1 m1 T1 ptes1, Xv6.exec trampoline path ip argv p m = .ok
    (some argv.length, p1, m1) ∧ p1.trapframe = p.trapframe ∧
    p1.ofile = p.ofile ∧ m1.Space trampoline p.trapframe p1.pagetable p1.sz T1 ptes1 ∧
    m.Extends (p.trapframe :: (mapped ptes ++ T)) m1 (p.trapframe :: (mapped ptes1 ++ T1)) ∧
    mapped ptes ++ T ⊆ m1.freelist ∧ m1.Started trampoline p1 T1 ptes1 argv := by
  cases ip with
  | none => exact Or.inl ⟨m, rfl, .refl m _⟩
  | some ip =>
    have htrapframe : p.trapframe < 2 ^ 64 := lt_trans (hown.range _ (by simp)).lt (by decide)
    rw [Xv6.exec]
    dsimp only
    by_cases hlen : (ip.readi 0 sizeofElfhdr).length ≠ sizeofElfhdr
    · exact Or.inl ⟨m, if_pos hlen, .refl m _⟩
    rw [if_neg hlen]
    generalize Elfhdr.ofBytes (ip.readi 0 sizeofElfhdr) = elf
    by_cases hmagic : elf.magic ≠ elfMagic
    · exact Or.inl ⟨m, if_pos hmagic, .refl m _⟩
    rw [if_neg hmagic]
    have hnone : m.Owns [] := hown.of_sublist (List.nil_sublist _)
    rcases hnone.execImage hkend htrampoline htrapframe ip elf argv with
      ⟨m1, himage, hext⟩ |
      ⟨sz, sp, m1, pt, T1, ptes1, himage, hspace, hext, hpushed⟩
    · left
      refine ⟨m1, ?_, hext⟩
      rw [himage, ok_bind]
    · right
      rw [himage, ok_bind]
      dsimp only
      have hext1 := hext.append (p.trapframe :: (mapped ptes ++ T))
      have hown1 := hown.of_extends hext1
      have hspace0 := h.congr fun a ha => hown.words_eq (A := []) hext a
        (List.mem_cons_of_mem _ (List.mem_append_right _ ha))
      -- the registers
      generalize hm2 : ((m1.setWord p.trapframe trapframeA1 sp).setWord
        p.trapframe trapframeEpc elf.entry).setWord
        p.trapframe trapframeSp sp = m2
      have hregs : m1.Extends [p.trapframe] m2 [p.trapframe] := by
        rw [← hm2]
        have hmem := List.mem_singleton_self p.trapframe
        exact ((m1.setWord_extends _ _ hmem).trans (setWord_extends _ _ _ hmem)).trans
          (setWord_extends _ _ _ hmem)
      have hperm : (mapped ptes1 ++ T1 ++ p.trapframe :: (mapped ptes ++ T)).Perm
          ([p.trapframe] ++ (mapped ptes ++ T ++ (mapped ptes1 ++ T1))) := by
        rw [List.perm_iff_count]
        intro a
        simp only [List.count_append, List.count_cons, List.count_nil]
        omega
      have hown1 := hown1.of_perm hperm
      have hwords := hown1.words_eq hregs
      have hown2 := hown1.of_extends (hregs.append _)
      have hspace0 := hspace0.congr fun a ha => hwords a
        (List.mem_append_left _ (List.mem_append_right _ ha))
      have hspace2 := hspace.congr fun a ha => hwords a
        (List.mem_append_right _ (List.mem_append_right _ ha))
      -- the old image
      obtain ⟨m3, hfree, hext3⟩ := hspace0.free hown2.right.left
      have hwords3 := hown2.right.words_eq hext3
      have hsub : (p.trapframe :: (mapped ptes ++ T)).Sublist
          ([p.trapframe] ++ (mapped ptes ++ T ++ (mapped ptes1 ++ T1))) :=
        (List.sublist_append_left _ _).cons_cons _
      have htf := ((hown2.of_sublist hsub).of_perm
        (List.perm_append_singleton p.trapframe _).symm).words_eq hext3
        p.trapframe (List.mem_singleton_self _)
      refine ⟨{ p with
          pagetable := pt
          sz := sz
          name := (pathLast path).take 15 },
        m3, T1, ptes1, ?_, rfl, rfl, ?_, ?_, ?_, ?_⟩
      · rw [hfree, ok_bind]
      · exact hspace2.congr fun a ha => hwords3 a (List.mem_append_right _ ha)
      · have hext2 := (hext1.of_perm (List.Perm.refl _) hperm).trans (hregs.append _)
        have hext3 := (hext3.append (mapped ptes1 ++ T1)).appendLeft [p.trapframe]
        exact hext2.trans hext3
      · intro a ha
        exact hext3.perm.mem_iff.mpr (List.mem_append_left _ ha)
      · refine ⟨sp, hpushed.congr fun a ha => ?_, ?_, ?_⟩
        · rw [hwords3 a ha, hwords a (List.mem_append_right _ ha)]
        · rw [htf, ← hm2]
          simp [setWord, setPage, trapframeA1, trapframeEpc, trapframeSp]
        · rw [htf, ← hm2]
          simp [setWord, setPage]

/-! ## `sys_exec` -/

theorem PhysMem.Owns.kfreeAll (h : m.Owns pages) :
    ∃ m1, Xv6.kfreeAll pages m = .ok m1 ∧ m.Extends pages m1 [] := by
  induction pages generalizing m with
  | nil => exact ⟨m, rfl, .refl m _⟩
  | cons pa pages ih =>
    obtain ⟨m1, hfree, hext, -⟩ := h.kfree_head
    obtain ⟨m2, hrest, hext2⟩ := ih (h.of_extends hext)
    refine ⟨m2, ?_, hext.trans hext2⟩
    rw [Xv6.kfreeAll, hfree, ok_bind, hrest]

theorem PhysMem.fetchstr_extends (m : PhysMem) {pa : ℕ} (s : List UInt8)
    (halign : pa % pgsize = 0) : m.Extends [pa] (fetchstr pa s m) [pa] := by
  have hstore := m.store_extends 0 (fun k => s.getD k 0)
    (n := min (s.length + 1) pgsize) halign (by omega)
  rwa [Nat.add_zero] at hstore

theorem PhysMem.Owns.fetchPage (h : m.Owns pages) (s : List UInt8) :
    (∃ m1, Xv6.kalloc m = (none, m1) ∧ m.Extends pages m1 pages) ∨
    ∃ pa m1, Xv6.kalloc m = (some pa, m1) ∧ m.Extends pages (fetchstr pa s m1) (pages ++ [pa]) := by
  rcases h.kalloc with ⟨m1, hk, hext, -⟩ | ⟨pa, m1, hk, hext, -⟩
  · exact Or.inl ⟨m1, hk, hext⟩
  · right
    have hrange := (h.of_extends hext).range pa (by simp)
    have hfetch := (m1.fetchstr_extends s hrange.1).append pages
    refine ⟨pa, m1, hk, (hext.trans hfetch).of_perm (List.Perm.refl _) ?_⟩
    exact (List.perm_append_singleton pa pages).symm

theorem PhysMem.Owns.fetchArgs (h : m.Owns pages) (args : List UserArg) (argv : List (List UInt8)) :
    ∃ pages1 r m1, Xv6.fetchArgs args pages argv m = (pages1, r, m1) ∧
      m.Extends pages m1 pages1 := by
  induction args generalizing m pages argv with
  | nil => exact ⟨pages, _, m, rfl, .refl m _⟩
  | cons arg args ih =>
    unfold Xv6.fetchArgs
    by_cases hmany : pages.length ≥ maxarg
    · exact ⟨pages, none, m, if_pos hmany, .refl m _⟩
    rw [if_neg hmany]
    cases arg with
    | badAddr => exact ⟨pages, none, m, rfl, .refl m _⟩
    | badStr s =>
      rcases h.fetchPage s with ⟨m1, hk, hext⟩ | ⟨pa, m1, hk, hext⟩
      · exact ⟨pages, none, m1, by simp only [hk], hext⟩
      · exact ⟨_, none, _, by simp only [hk], hext⟩
    | str s hs =>
      rcases h.fetchPage s with ⟨m1, hk, hext⟩ | ⟨pa, m1, hk, hext⟩
      · exact ⟨pages, none, m1, by simp only [hk], hext⟩
      · obtain ⟨pages2, r, m2, hrest, hext2⟩ := ih (h.of_extends hext) (argv ++ [s])
        refine ⟨pages2, r, m2, ?_, hext.trans hext2⟩
        simp only [hk]
        exact hrest

/-- The strings that have been found at the places of the user's `argv`. -/
def Fetched (args : List UserArg) (argv : List (List UInt8)) : Prop :=
  argv.length < maxarg ∧
    List.Forall₂ (fun arg s => ∃ hs, arg = .str s hs) args argv

theorem fetchArgs_fetched {args : List UserArg} {pages' : List ℕ} {argv argv' : List (List UInt8)}
    (hcall : Xv6.fetchArgs args pages argv m = (pages', some argv', m')) :
    ∃ new, argv' = argv ++ new ∧ pages.length + new.length < maxarg ∧
      List.Forall₂ (fun arg s => ∃ hs, arg = .str s hs) args new := by
  induction args generalizing m pages argv with
  | nil =>
    simp only [Xv6.fetchArgs, Prod.mk.injEq] at hcall
    obtain ⟨-, hargv, -⟩ := hcall
    split at hargv
    · cases hargv
    · cases hargv
      exact ⟨[], (List.append_nil _).symm, by simpa using not_le.mp ‹_›, .nil⟩
  | cons arg args ih =>
    unfold Xv6.fetchArgs at hcall
    split at hcall
    · simp at hcall
    cases arg with
    | badAddr => simp at hcall
    | badStr s =>
      dsimp only at hcall
      split at hcall <;> simp at hcall
    | str s hs =>
      dsimp only at hcall
      split at hcall
      · simp at hcall
      · obtain ⟨new, rfl, hlen, hnew⟩ := ih hcall
        refine ⟨s :: new, by simp, ?_, .cons ⟨hs, rfl⟩ hnew⟩
        simp only [List.length_append, List.length_singleton] at hlen
        rw [List.length_cons]
        omega

theorem PhysMem.Space.sysExec
    {p : ProcMem} (h : m.Space trampoline p.trapframe p.pagetable p.sz T ptes)
    (hown : m.Owns (p.trapframe :: (mapped ptes ++ T))) (hkend : 0 < m.kend)
    (htrampoline : trampoline < 2 ^ 64) (path : Option (List UInt8)) (ip : Option ExecInode)
    (args : List UserArg) : (∃ m1, Xv6.sysExec trampoline path ip args p m = .ok (none, p, m1) ∧
    m.Extends [] m1 []) ∨ ∃ argv p1 m1 T1 ptes1, Xv6.sysExec trampoline path ip args p m = .ok
    (some argv.length, p1, m1) ∧ p1.trapframe = p.trapframe ∧
    p1.ofile = p.ofile ∧ m1.Space trampoline p.trapframe p1.pagetable p1.sz T1 ptes1 ∧
    m.Extends (p.trapframe :: (mapped ptes ++ T)) m1 (p.trapframe :: (mapped ptes1 ++ T1)) ∧ mapped
    ptes ++ T ⊆ m1.freelist ∧ Fetched args argv ∧ m1.Started trampoline p1 T1 ptes1 argv := by
  cases path with
  | none => exact Or.inl ⟨m, rfl, .refl m _⟩
  | some path =>
  rw [Xv6.sysExec]
  have hnone : m.Owns [] := hown.of_sublist (List.nil_sublist _)
  obtain ⟨pages, r, m1, hfetch, hext⟩ := hnone.fetchArgs args []
  dsimp only
  rw [hfetch]
  cases r with
  | none =>
    obtain ⟨m2, hfree, hext2⟩ := (hnone.of_extends hext).kfreeAll
    left
    refine ⟨m2, ?_, hext.trans hext2⟩
    dsimp only
    rw [hfree, ok_bind]
  | some argv =>
    dsimp only
    have hext1 := hext.append (p.trapframe :: (mapped ptes ++ T))
    have hown1 := hown.of_extends hext1
    have hspace := h.congr fun a ha => hown.words_eq (A := []) hext a
      (List.mem_cons_of_mem _ (List.mem_append_right _ ha))
    rcases hspace.exec hown1.right (hext.kend ▸ hkend) htrampoline path ip argv with ⟨m2,
      hexec, hext2⟩ | ⟨p1, m2, T1, ptes1, hexec, htf, hofile, hspace1, hext2, hold, hstart⟩
    · have hext2 : m.Extends [] m2 pages := hext.trans (hext2.append pages)
      obtain ⟨m3, hfree, hext3⟩ := (hnone.of_extends hext2).kfreeAll
      left
      refine ⟨m3, ?_, hext2.trans hext3⟩
      rw [hexec, ok_bind]
      dsimp only
      rw [hfree, ok_bind]
    · have hext2 := hext1.trans (hext2.appendLeft pages)
      have hown2 := hown.of_extends hext2
      obtain ⟨m3, hfree, hext3⟩ := hown2.left.kfreeAll
      have hwords := hown2.words_eq hext3
      right
      refine ⟨argv, p1, m3, T1, ptes1, ?_, htf, hofile, ?_,
        hext2.trans (hext3.append _), ?_, ?_, ?_⟩
      · rw [hexec, ok_bind]
        dsimp only
        rw [hfree, ok_bind]
      · exact hspace1.congr fun a ha => hwords a
          (List.mem_cons_of_mem _ (List.mem_append_right _ ha))
      · intro a ha
        exact hext3.perm.mem_iff.mpr (List.mem_append_right _ (hold ha))
      · obtain ⟨new, hargv, hlen, hall⟩ := fetchArgs_fetched hfetch
        rw [List.nil_append] at hargv
        subst hargv
        exact ⟨by simpa using hlen, hall⟩
      · obtain ⟨sp, hpushed, ha1, hsp⟩ := hstart
        rw [htf] at ha1 hsp
        refine ⟨sp, hpushed.congr fun a ha => ?_, ?_, ?_⟩
        · exact hwords a (List.mem_cons_of_mem _ ha)
        · rw [htf, hwords _ List.mem_cons_self, ha1]
        · rw [htf, hwords _ List.mem_cons_self, hsp]

end

end Xv6
