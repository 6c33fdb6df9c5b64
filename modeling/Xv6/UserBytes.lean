import Xv6.ExecMemory

/-!
# The bytes of user memory

What a program sees of memory: the byte at a virtual address, read through its
page table, and what `copyout` does to it.
-/

namespace Xv6

open Function (update update_of_ne update_self)

def PhysMem.byte (m : PhysMem) (pa : ℕ) : UInt8 :=
  UInt8.ofNat (m.words (pgrounddown pa) (Fin.ofNat 512 (pa % pgsize / 8)) >>> (8 * (pa % 8)))

def PhysMem.userByte (m : PhysMem) (pt va : ℕ) : Option UInt8 :=
  (m.lookup pt (pgrounddown va)).map fun pte =>
    m.byte (pte2pa pte + va % pgsize)

/-! ## Physical bytes -/

section

variable {m m' : PhysMem}

theorem UInt8.ofNat_mod (n : ℕ) : UInt8.ofNat (n % 256) = UInt8.ofNat n := by
  apply UInt8.toNat.inj
  simp

theorem PhysMem.byte_congr {page page' off : ℕ} (halign : page % pgsize = 0)
    (halign' : page' % pgsize = 0) (hoff : off < pgsize) (h : m'.words page' = m.words page) :
    m'.byte (page' + off) = m.byte (page + off) := by
  have hmod : (page' + off) % 8 = (page + off) % 8 ∧
      (page' + off) % pgsize = (page + off) % pgsize := by
    simp only [pgsize] at halign halign' ⊢
    omega
  unfold PhysMem.byte
  rw [pgrounddown_add halign hoff, pgrounddown_add halign' hoff, h, hmod.1, hmod.2]

theorem PhysMem.words_setByte (m : PhysMem) (pa : ℕ) (b : UInt8) :
    (m.setByte pa b).words = update m.words (pgrounddown pa)
      (update (m.words (pgrounddown pa)) (Fin.ofNat 512 (pa % pgsize / 8))
        (Bytes.replaceByte (m.words (pgrounddown pa)
          (Fin.ofNat 512 (pa % pgsize / 8))) (pa % 8) b.toNat)) := rfl

theorem PhysMem.byte_setByte_self (m : PhysMem) (pa : ℕ) (b : UInt8) :
    (m.setByte pa b).byte pa = b := by
  unfold PhysMem.byte
  rw [m.words_setByte, update_self, update_self,
    ← UInt8.ofNat_mod, Bytes.replaceByte_self _ _ b.toNat_lt]
  exact UInt8.ofNat_toNat

theorem PhysMem.byte_setByte_of_ne (m : PhysMem) {pa a : ℕ} (b : UInt8)
    (hne : a ≠ pa) : (m.setByte pa b).byte a = m.byte a := by
  unfold PhysMem.byte
  rw [m.words_setByte]
  by_cases hpage : pgrounddown a = pgrounddown pa
  · rw [hpage, update_self]
    by_cases hword : (Fin.ofNat 512 (a % pgsize / 8)) = Fin.ofNat 512 (pa % pgsize / 8)
    · have hmod : a % 8 ≠ pa % 8 := by
        intro hmod
        have hval := congrArg Fin.val hword
        simp only [Fin.ofNat, pgrounddown, pgsize] at hval hpage
        omega
      rw [hword, update_self, ← UInt8.ofNat_mod,
        Bytes.replaceByte_of_ne _ b.toNat_lt hmod, UInt8.ofNat_mod]
    · rw [update_of_ne hword]
  · rw [update_of_ne hpage]

theorem PhysMem.byte_store (m : PhysMem) (pa : ℕ) (src : ℕ → UInt8) (n a : ℕ) :
    (m.store pa src n).byte a = if pa ≤ a ∧ a < pa + n then src (a - pa) else m.byte a := by
  induction n with
  | zero =>
    rw [if_neg (by omega)]
    rfl
  | succ n ih =>
    rw [PhysMem.store]
    by_cases ha : a = pa + n
    · subst ha
      rw [byte_setByte_self, if_pos (by omega), Nat.add_sub_cancel_left]
    · rw [byte_setByte_of_ne _ _ ha, ih]
      have hiff : pa ≤ a ∧ a < pa + n ↔ pa ≤ a ∧ a < pa + (n + 1) := by
        omega
      simp only [hiff]

end

/-! ## User memory -/

section

variable {m m' : PhysMem} {pt : ℕ} {T ptes : List ℕ} {hi : ℕ → Option ℕ}

theorem pgrounddown_eq (va : ℕ) : pgrounddown va = va / pgsize * pgsize := rfl

theorem PhysMem.Shape.userByte_eq (h : m.Shape pt T ptes hi) {va : ℕ}
    (hva : va / pgsize < ptes.length) :
    m.userByte pt va = some (m.byte (pte2pa ptes[va / pgsize] + va % pgsize)) := by
  unfold userByte
  rw [pgrounddown_eq, h.user _ hva, Option.map_some]

theorem PhysMem.Owns.page_aligned (h : m.Owns (mapped ptes ++ T)) {j : ℕ}
    (hj : j < ptes.length) : pte2pa ptes[j] % pgsize = 0 := by
  have hmem : pte2pa ptes[j] ∈ mapped ptes := List.mem_map_of_mem (List.getElem_mem hj)
  exact (h.range _ (List.mem_append_left _ (List.mem_append_left _ hmem))).1

theorem PhysMem.Owns.page_inj (h : m.Owns (mapped ptes ++ T)) {i j : ℕ} (hi : i < ptes.length)
    (hj : j < ptes.length) (heq : pte2pa ptes[i] = pte2pa ptes[j]) : i = j := by
  have hnodup : (ptes.map pte2pa).Nodup := by
    have hall := h.nodup
    rw [List.append_assoc] at hall
    exact (List.nodup_append.mp hall).1
  have hi' : i < (ptes.map pte2pa).length := by simpa using hi
  have hj' : j < (ptes.map pte2pa).length := by simpa using hj
  have heq' : (ptes.map pte2pa)[i] = (ptes.map pte2pa)[j] := by
    simpa using heq
  exact hnodup.getElem_inj_iff.mp heq'

theorem PhysMem.Shape.userByte_congr {pt' : ℕ} {T' ptes' : List ℕ}
    {hi' : ℕ → Option ℕ} (h : m.Shape pt T ptes hi) (hown : m.Owns (mapped ptes ++ T))
    (h' : m'.Shape pt' T' ptes' hi') (hown' : m'.Owns (mapped ptes' ++ T'))
    {va : ℕ} (hva : va / pgsize < ptes.length) (hva' : va / pgsize < ptes'.length)
    (hwords : m'.words (pte2pa ptes'[va / pgsize]) = m.words (pte2pa ptes[va / pgsize])) :
    m'.userByte pt' va = m.userByte pt va := by
  rw [h.userByte_eq hva, h'.userByte_eq hva']
  exact congrArg some (byte_congr (hown.page_aligned hva)
    (hown'.page_aligned hva') (Nat.mod_lt _ pgsize_pos) hwords)

theorem PhysMem.Shape.userByte_store (h : m.Shape pt T ptes hi)
    (hown : m.Owns (mapped ptes ++ T)) {j off n : ℕ} (src : ℕ → UInt8) (hj : j < ptes.length)
    (hfits : off + n ≤ pgsize) (h' : (m.store (pte2pa ptes[j] + off) src n).Shape pt T ptes hi)
    {va : ℕ} (hva : va / pgsize < ptes.length) : (m.store (pte2pa ptes[j] + off) src n).userByte
    pt va = if j * pgsize + off ≤ va ∧ va < j * pgsize + off + n then
        some (src (va - (j * pgsize + off)))
      else m.userByte pt va := by
  rw [h'.userByte_eq hva, h.userByte_eq hva, byte_store]
  have hlt : va % pgsize < pgsize := Nat.mod_lt _ pgsize_pos
  have hsplit : va = va / pgsize * pgsize + va % pgsize := (Nat.div_add_mod' va pgsize).symm
  by_cases hpage : va / pgsize = j
  · subst hpage
    generalize pte2pa ptes[va / pgsize] = pa
    have hiff : pa + off ≤ pa + va % pgsize ∧ pa + va % pgsize < pa + off + n ↔
        va / pgsize * pgsize + off ≤ va ∧ va < va / pgsize * pgsize + off + n := by omega
    have hindex : pa + va % pgsize - (pa + off) = va - (va / pgsize * pgsize + off) := by omega
    simp only [hiff, hindex]
    split <;> rfl
  · have hne : pte2pa ptes[va / pgsize] ≠ pte2pa ptes[j] := fun heq =>
      hpage (hown.page_inj hva hj heq)
    have halign := hown.page_aligned hva
    have halign' := hown.page_aligned hj
    rw [if_neg, if_neg]
    · rintro ⟨hle, hgt⟩
      apply hpage
      rw [Nat.div_eq_of_lt_le]
      · omega
      · rw [Nat.succ_mul]
        omega
    · rintro ⟨hle, hgt⟩
      apply hne
      simp only [pgsize] at *
      omega

theorem PhysMem.Shape.user_index (h : m.Shape pt T ptes hi) (hhi : Supervisor hi) {va pte : ℕ}
    (halign : va % pgsize = 0) (hpte : m.lookup pt va = some pte) (hU : pte &&& pteU ≠ 0) :
    ∃ hj : va / pgsize < ptes.length, pte = ptes[va / pgsize] := by
  have hback : va / pgsize * pgsize = va := Nat.div_mul_cancel (Nat.dvd_of_mod_eq_zero halign)
  by_cases hin : va < ptes.length * pgsize
  · have hj : va / pgsize < ptes.length := (Nat.div_lt_iff_lt_mul pgsize_pos).mpr hin
    have huser := h.user _ hj
    rw [hback, hpte] at huser
    exact ⟨hj, Option.some.inj huser⟩
  · rw [h.high va halign (not_lt.mp hin)] at hpte
    exact absurd (hhi va pte hpte) hU

/-- What a user sees after `copyout`. -/
def PhysMem.Wrote (m : PhysMem) (pt npages dstva : ℕ) (src : ℕ → UInt8)
    (len : ℕ) (m' : PhysMem) : Prop :=
  ∀ va, va / pgsize < npages → m'.userByte pt va =
    if dstva ≤ va ∧ va < dstva + len then some (src (va - dstva))
    else m.userByte pt va

theorem PhysMem.Shape.copyoutLoop_bytes
    (h : m.Shape pt T ptes hi) (hhi : Supervisor hi) (hown : m.Owns (mapped ptes ++ T)) {rounds : ℕ}
    {dstva : ℕ} {src : ℕ → UInt8} {len : ℕ} (hrounds : dstva % pgsize + len ≤ rounds * pgsize)
    (hcall : Xv6.copyoutLoop pt rounds dstva src len m = .ok (true, m')) :
    m.Wrote pt ptes.length dstva src len m' := by
  induction rounds generalizing m dstva src len with
  | zero =>
    cases hcall
    intro va _
    rw [if_neg (by omega)]
  | succ rounds ih =>
    rw [Xv6.copyoutLoop] at hcall
    by_cases hlen : len > 0
    swap
    · rw [if_neg hlen] at hcall
      cases hcall
      intro va _
      rw [if_neg (by omega)]
    rw [if_pos hlen] at hcall
    dsimp only at hcall
    by_cases hva : pgrounddown dstva ≥ maxva
    · rw [if_pos hva] at hcall
      cases hcall
    rw [if_neg hva] at hcall
    obtain ⟨slot, hwalk⟩ := walk_false_ok pt (not_le.mp hva) m
    rw [hwalk, ok_bind] at hcall
    cases slot with
    | none => cases hcall
    | some slot =>
      obtain ⟨page, i⟩ := slot
      dsimp only at hcall
      split at hcall
      · cases hcall
      rename_i hpte
      simp only [not_or] at hpte
      obtain ⟨hvalid, hU, -⟩ := hpte
      obtain ⟨halign, hle, hlt⟩ := pgrounddown_spec dstva
      obtain ⟨hj, hpte⟩ := h.user_index hhi halign (lookup_of_walk hwalk hvalid) hU
      rw [hpte] at hcall
      have hpa : pte2pa ptes[pgrounddown dstva / pgsize] ∈ mapped ptes :=
        List.mem_map_of_mem (List.getElem_mem hj)
      generalize hn : min (pgsize - (dstva - pgrounddown dstva)) len = n
        at hcall
      have hext := (m.store_extends (dstva - pgrounddown dstva) src
        (n := n) (hown.page_aligned hj) (by omega)).of_mem hpa
      have hshape := h.congr (hown.words_eq hext)
      have hnext : (pgrounddown dstva + pgsize) % 2 ^ 64 = pgrounddown dstva + pgsize := by
        simp only [maxva, pgsize] at hva ⊢
        omega
      have hback : pgrounddown dstva / pgsize * pgsize = pgrounddown dstva :=
        Nat.div_mul_cancel (Nat.dvd_of_mod_eq_zero halign)
      have hoff : dstva % pgsize = dstva - pgrounddown dstva := by
        have := Nat.div_add_mod' dstva pgsize
        rw [pgrounddown_eq] at *
        omega
      rw [hnext] at hcall
      have hrest := ih hshape (hown.of_extends (hext.append T)) (by
        rw [Nat.add_mod_right, halign]
        rw [Nat.succ_mul] at hrounds
        omega) hcall
      intro va hva'
      rw [hrest va hva', h.userByte_store hown src hj (by omega) hshape hva', hback]
      have hstart : pgrounddown dstva + (dstva - pgrounddown dstva) = dstva := by omega
      rw [hstart]
      by_cases hsecond : pgrounddown dstva + pgsize ≤ va ∧
          va < pgrounddown dstva + pgsize + (len - n)
      · have hindex : n + (va - (pgrounddown dstva + pgsize)) = va - dstva := by omega
        rw [if_pos hsecond, if_pos (by omega)]
        dsimp only
        rw [hindex]
      · have hiff : dstva ≤ va ∧ va < dstva + n ↔ dstva ≤ va ∧ va < dstva + len := by omega
        rw [if_neg hsecond]
        simp only [hiff]

theorem PhysMem.Shape.copyout_bytes
    (h : m.Shape pt T ptes hi) (hhi : Supervisor hi) (hown : m.Owns (mapped ptes ++ T)) {dstva : ℕ}
    {src : ℕ → UInt8} {len : ℕ} (hcall : Xv6.copyout pt dstva src len m = .ok (true, m')) :
    m.Wrote pt ptes.length dstva src len m' := by
  rw [Xv6.copyout] at hcall
  refine h.copyoutLoop_bytes hhi hown ?_ hcall
  have hoff : dstva % pgsize < pgsize := Nat.mod_lt _ pgsize_pos
  have hdiv := Nat.lt_div_mul_add (a := len) pgsize_pos
  rw [Nat.add_mul]
  omega

end

end Xv6
