import Xv6.AddressSpace

/-!
# Writing to user memory

`copyout` and `loadseg` write to the pages that a page table maps for the user,
and `uvmclear` takes one of them from the user.  None of them takes or frees a
page.
-/

namespace Xv6

section

variable {m m' : PhysMem} {pt : ℕ} {T ptes : List ℕ} {hi : ℕ → Option ℕ}

/-! ## `uvmclear` -/

/-- A PTE without `PTE_U`. -/
def withoutU (pte : ℕ) : ℕ := pte &&& (2 ^ 64 - 1 - pteU)

variable {pte k page va : ℕ}

theorem withoutU_and {bits : ℕ} (hbits : (2 ^ 64 - 1 - pteU) &&& bits = bits) :
    withoutU pte &&& bits = pte &&& bits := by
  rw [withoutU, Nat.and_assoc, hbits]

theorem pte2pa_withoutU (pte : ℕ) : pte2pa (withoutU pte) = pte2pa pte := by
  have hshift : withoutU pte >>> 10 = pte / 2 ^ 10 % 2 ^ 54 := by
    rw [withoutU, Nat.shiftRight_and_distrib, Nat.shiftRight_eq_div_pow]
    exact Nat.and_two_pow_sub_one_eq_mod _ 54
  rw [Nat.shiftRight_eq_div_pow] at hshift
  rw [pte2pa_eq, pte2pa_eq, hshift]
  omega

theorem mapped_set (hk : k < ptes.length) (hpte : pte2pa pte = pte2pa ptes[k]) :
    mapped (ptes.set k pte) = mapped ptes := by
  unfold mapped
  rw [List.map_set, hpte, ← List.getElem_map pte2pa (h := by simpa using hk)]
  exact List.set_getElem_self _

theorem PhysMem.Shape.uvmclear (h : m.Shape pt T ptes hi) (hown : m.Owns T) (hk : k < ptes.length) :
    ∃ m1, Xv6.uvmclear pt (k * pgsize) m = .ok m1 ∧ m.Extends T m1 T ∧
      m1.Shape pt T (ptes.set k (withoutU ptes[k])) hi := by
  obtain ⟨hva, page, hwalk, hpage, hword, hvalid⟩ := walk_of_lookup (h.user k hk)
  have htable := h.pageTable hown
  have halign : k * pgsize % pgsize = 0 := Nat.mul_mod_left k pgsize
  obtain ⟨htable1, hext, _⟩ := htable.setLeaf (px 0 (k * pgsize))
    (withoutU ptes[k]) (length_pxPath _ 2) hpage
  have hlookup := fun {b} hb => htable.setLeaf_lookup (b := b)
    (withoutU ptes[k]) halign hva hpage hb
  refine ⟨_, ?_, hext, htable1.tree, htable1.interior, ?_, ?_, ?_, h.low, ?_⟩
  · simp only [Xv6.uvmclear, hwalk, hword, bind, Except.bind]
    rfl
  · intro j hj
    rw [List.length_set] at hj
    rw [hlookup (Nat.mul_mod_left j pgsize)]
    by_cases hjk : j = k
    · subst hjk
      rw [if_pos rfl, withoutU_and (by decide), if_pos hvalid]
      simp
    · rw [if_neg fun heq => hjk (Nat.eq_of_mul_eq_mul_right pgsize_pos heq),
        h.user j hj, List.getElem_set_of_ne (Ne.symm hjk)]
  · intro pte hpte
    rcases List.mem_or_eq_of_mem_set hpte with hpte | rfl
    · exact h.leaf pte hpte
    · rw [withoutU_and (by decide)]
      exact h.leaf _ (List.getElem_mem hk)
  · intro b hb hle
    rw [List.length_set] at hle
    rw [hlookup hb, if_neg, h.high b hb hle]
    have hlt : k * pgsize < ptes.length * pgsize := (Nat.mul_lt_mul_right pgsize_pos).mpr hk
    omega
  · rw [List.length_set]
    exact h.bound

/-! ## Storing bytes -/

theorem pgrounddown_add (halign : page % pgsize = 0) (hk : k < pgsize) :
    pgrounddown (page + k) = page := by
  unfold pgrounddown
  simp only [pgsize] at halign hk ⊢
  omega

theorem PhysMem.store_extends (m : PhysMem) (off : ℕ) (src : ℕ → UInt8) {n : ℕ}
    (halign : page % pgsize = 0) (hfits : off + n ≤ pgsize) :
    m.Extends [page] (m.store (page + off) src n) [page] := by
  induction n with
  | zero => exact .refl m _
  | succ n ih =>
    refine (ih (by omega)).trans ?_
    rw [PhysMem.store, setByte, Nat.add_assoc, pgrounddown_add halign (by omega)]
    exact setPage_extends _ _ (List.mem_singleton_self page)

/-! ## `copyout` -/

/-- What is mapped above user memory is not for the user. -/
def Supervisor (hi : ℕ → Option ℕ) : Prop := ∀ b pte, hi b = some pte → pte &&& pteU = 0

theorem PhysMem.Shape.user_pte (h : m.Shape pt T ptes hi) (hhi : Supervisor hi)
    (halign : va % pgsize = 0) (hpte : m.lookup pt va = some pte)
    (hU : pte &&& pteU ≠ 0) : pte ∈ ptes := by
  by_cases hin : va < ptes.length * pgsize
  · obtain ⟨j, rfl⟩ := Nat.dvd_of_mod_eq_zero halign
    rw [Nat.mul_comm] at hin hpte
    have hj : j < ptes.length := Nat.lt_of_mul_lt_mul_right hin
    rw [h.user j hj] at hpte
    rw [← Option.some.inj hpte]
    exact List.getElem_mem hj
  · rw [h.high va halign (not_lt.mp hin)] at hpte
    exact absurd (hhi va pte hpte) hU

theorem PhysMem.lookup_of_walk
    {i : Fin 512} (hwalk : Xv6.walk pt va false m = .ok (some (page, i), m'))
    (hvalid : m.words page i &&& pteV ≠ 0) : m.lookup pt va = some (m.words page i) := by
  unfold PhysMem.lookup
  rw [hwalk]
  exact if_pos hvalid

theorem walk_false_ok (pt : ℕ) (hva : va < maxva) (m : PhysMem) :
    ∃ slot, walk pt va false m = .ok (slot, m) := by
  unfold walk
  rw [if_neg (not_le.mpr hva), walkFrom_false]
  exact ⟨_, rfl⟩

theorem pgrounddown_spec (a : ℕ) : pgrounddown a % pgsize = 0 ∧ pgrounddown a ≤ a ∧
      a < pgrounddown a + pgsize := by
  unfold pgrounddown
  simp only [pgsize]
  omega

theorem PhysMem.Shape.copyoutLoop (h : m.Shape pt T ptes hi) (hhi : Supervisor hi)
    (hown : m.Owns (mapped ptes ++ T)) (rounds : ℕ) (dstva : ℕ) (src : ℕ → UInt8) (len : ℕ) :
    ∃ r m1, Xv6.copyoutLoop pt rounds dstva src len m = .ok (r, m1) ∧
    m.Extends (mapped ptes) m1 (mapped ptes) := by
  induction rounds generalizing m dstva src len with
  | zero => exact ⟨true, m, rfl, .refl m _⟩
  | succ rounds ih =>
    rw [Xv6.copyoutLoop]
    by_cases hlen : len > 0
    · rw [if_pos hlen]
      dsimp only
      by_cases hva : pgrounddown dstva ≥ maxva
      · exact ⟨false, m, if_pos hva, .refl m _⟩
      · rw [if_neg hva]
        obtain ⟨slot, hwalk⟩ := walk_false_ok pt (not_le.mp hva) m
        simp only [hwalk, bind, Except.bind]
        cases slot with
        | none => exact ⟨false, m, rfl, .refl m _⟩
        | some slot =>
          obtain ⟨page, i⟩ := slot
          dsimp only
          split
          · exact ⟨false, m, rfl, .refl m _⟩
          · rename_i hpte
            simp only [not_or] at hpte
            obtain ⟨hvalid, hU, _⟩ := hpte
            obtain ⟨halign, hle, hlt⟩ := pgrounddown_spec dstva
            have hmem := h.user_pte hhi halign (lookup_of_walk hwalk hvalid) hU
            have hpa : pte2pa (m.words page i) ∈ mapped ptes := List.mem_map_of_mem hmem
            have hrange := hown.range _ (List.mem_append_left _ (List.mem_append_left _ hpa))
            have hext := (m.store_extends (dstva - pgrounddown dstva) src
              (n := min (pgsize - (dstva - pgrounddown dstva)) len)
              hrange.1 (by omega)).of_mem hpa
            have hown1 := hown.of_extends (hext.append T)
            obtain ⟨r, m1, hcall, hext1⟩ := ih (h.congr (hown.words_eq hext)) hown1 _ _ _
            exact ⟨r, m1, hcall, hext.trans hext1⟩
    · exact ⟨true, m, if_neg hlen, .refl m _⟩

theorem ok_bind {ε α β : Type} (a : α) (f : α → Except ε β) : (Except.ok a >>= f) = f a := rfl

theorem copyoutLoop_succ (pt rounds dstva : ℕ) (src : ℕ → UInt8) (len : ℕ) (m : PhysMem) :
    Xv6.copyoutLoop pt (rounds + 1) dstva src len m = if len > 0 then
        if pgrounddown dstva ≥ maxva then .ok (false, m)
        else
          match m.lookup pt (pgrounddown dstva) with
          | none => .ok (false, m)
          | some pte =>
            if pte &&& pteU = 0 ∨ pte &&& pteW = 0 then .ok (false, m)
            else
              let n := min (pgsize - (dstva - pgrounddown dstva)) len
              Xv6.copyoutLoop pt rounds
                ((pgrounddown dstva + pgsize) % 2 ^ 64)
                (fun k => src (n + k)) (len - n)
                (m.store (pte2pa pte + (dstva - pgrounddown dstva)) src n)
      else .ok (true, m) := by
  rw [Xv6.copyoutLoop]
  by_cases hlen : len > 0
  swap
  · rw [if_neg hlen, if_neg hlen]
  rw [if_pos hlen, if_pos hlen]
  dsimp only
  by_cases hva : pgrounddown dstva ≥ maxva
  · rw [if_pos hva, if_pos hva]
  rw [if_neg hva, if_neg hva]
  obtain ⟨slot, hwalk⟩ := walk_false_ok pt (not_le.mp hva) m
  unfold PhysMem.lookup
  rw [hwalk, ok_bind]
  rcases slot with _ | ⟨page, i⟩
  · rfl
  · dsimp only
    by_cases hvalid : m.words page i &&& pteV = 0
    · rw [if_pos (Or.inl hvalid), if_neg (not_not.mpr hvalid)]
    · simp only [hvalid, false_or, ne_eq, not_false_eq_true, if_true]

theorem PhysMem.Shape.lookup_eq {T' : List ℕ} (h : m.Shape pt T ptes hi)
    (h' : m'.Shape pt T' ptes hi) (hva : va % pgsize = 0) : m'.lookup pt va = m.lookup pt va := by
  by_cases hlt : va < ptes.length * pgsize
  · have hj : va / pgsize < ptes.length := (Nat.div_lt_iff_lt_mul pgsize_pos).mpr hlt
    have hback : va / pgsize * pgsize = va := Nat.div_mul_cancel (Nat.dvd_of_mod_eq_zero hva)
    rw [← hback, h.user _ hj, h'.user _ hj]
  · have hle := Nat.le_of_not_lt hlt
    rw [h.high va hva hle, h'.high va hva hle]

theorem PhysMem.Shape.copyoutLoop_result (h : m.Shape pt T ptes hi) (h' : m'.Shape pt T ptes hi)
    (hhi : Supervisor hi) (hown : m.Owns (mapped ptes ++ T)) (hown' : m'.Owns (mapped ptes ++ T))
    {rounds dstva len : ℕ} {src : ℕ → UInt8} {r : Bool} {m1 : PhysMem}
    (hcall : Xv6.copyoutLoop pt rounds dstva src len m = .ok (r, m1)) (src' : ℕ → UInt8) :
    ∃ m1', Xv6.copyoutLoop pt rounds dstva src' len m' = .ok (r, m1') := by
  induction rounds generalizing m m' dstva src src' len with
  | zero =>
    cases hcall
    exact ⟨m', rfl⟩
  | succ rounds ih =>
    obtain ⟨halign, hle, hlt⟩ := pgrounddown_spec dstva
    rw [copyoutLoop_succ] at hcall ⊢
    rw [h.lookup_eq h' halign]
    by_cases hlen : len > 0
    swap
    · rw [if_neg hlen] at hcall ⊢
      cases hcall
      exact ⟨m', rfl⟩
    rw [if_pos hlen] at hcall ⊢
    by_cases hva : pgrounddown dstva ≥ maxva
    · rw [if_pos hva] at hcall ⊢
      cases hcall
      exact ⟨m', rfl⟩
    rw [if_neg hva] at hcall ⊢
    cases hpte : m.lookup pt (pgrounddown dstva) with
    | none =>
      rw [hpte] at hcall
      cases hcall
      exact ⟨m', rfl⟩
    | some pte =>
      rw [hpte] at hcall
      dsimp only at hcall ⊢
      by_cases hflags : pte &&& pteU = 0 ∨ pte &&& pteW = 0
      · rw [if_pos hflags] at hcall ⊢
        cases hcall
        exact ⟨m', rfl⟩
      rw [if_neg hflags] at hcall ⊢
      rw [not_or] at hflags
      have hpa : pte2pa pte ∈ mapped ptes :=
        List.mem_map_of_mem (h.user_pte hhi halign hpte hflags.1)
      have hrange := hown.range _ (List.mem_append_left _ (List.mem_append_left _ hpa))
      have hfits : dstva - pgrounddown dstva +
          min (pgsize - (dstva - pgrounddown dstva)) len ≤ pgsize := by
        omega
      have hext := (m.store_extends _ src hrange.1 hfits).of_mem hpa
      have hext' := (m'.store_extends _ src' hrange.1 hfits).of_mem hpa
      exact ih (h.congr (hown.words_eq hext)) (h'.congr (hown'.words_eq hext'))
        (hown.of_extends (hext.append T)) (hown'.of_extends (hext'.append T)) hcall _

end

end Xv6
