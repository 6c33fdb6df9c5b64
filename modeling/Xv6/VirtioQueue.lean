import Xv6.VirtioDisk

/-!
# Descriptors and rings of the virtio disk

What the functions on descriptors compute when they are called as the driver
calls them, and what its steps do to the entries of the two rings.
-/

namespace Xv6

open Function (update update_of_ne)

namespace VirtioDisk

variable {s : VirtioDisk} {idx : List DescNo}

/-! ## Freeing -/

@[simp] theorem wakeupFree_wakeupFree (pc : Fin nproc → DiskPc) :
    wakeupFree (wakeupFree pc) = wakeupFree pc := by
  funext p
  cases hp : pc p <;> simp [wakeupFree, hp]

/-- `free_desc` on each of `idx`, after its checks. -/
def freedAll (idx : List DescNo) (s : VirtioDisk) : VirtioDisk :=
  { s with
    desc := fun d => if d ∈ idx then .zero else s.desc d
    free := fun d => if d ∈ idx then true else s.free d
    pc := if idx = [] then s.pc else wakeupFree s.pc }

@[simp] theorem freedAll_nil (s : VirtioDisk) : s.freedAll [] = s := by
  simp [freedAll]

theorem freedAll_cons (i : DescNo) (idx : List DescNo) (s : VirtioDisk) :
    s.freedAll (i :: idx) = (s.freed i).freedAll idx := by
  have hif (α : Type) (f : DescNo → α) (a : α) : (fun d => if d ∈ i :: idx then a else f d) =
        fun d => if d ∈ idx then a else update f i a d := by
    funext d
    by_cases hd : d = i <;> simp [hd]
  simp only [freedAll, freed, hif, wakeupFree_wakeupFree, ite_self, List.cons_ne_nil, if_false]

theorem freeDesc_eq {i : DescNo} (hi : s.free i = false) : s.freeDesc i = .ok (s.freed i) := by
  unfold freeDesc
  rw [dif_pos i.isLt, if_neg]
  simp [hi]

theorem freeDescs_eq (hnodup : idx.Nodup) (hbusy : ∀ i ∈ idx, s.free i = false) :
    s.freeDescs idx = .ok (s.freedAll idx) := by
  induction idx generalizing s with
  | nil => simp [freeDescs]
  | cons i idx ih =>
    rw [List.nodup_cons] at hnodup
    rw [freeDescs, freeDesc_eq (hbusy i List.mem_cons_self), freedAll_cons]
    apply ih hnodup.2
    intro d hd
    have hne : d ≠ i := fun h => hnodup.1 (h ▸ hd)
    simpa [freed, hne] using hbusy d (List.mem_cons_of_mem i hd)

/-- The descriptors of a request that has been formatted. -/
structure Chain (s : VirtioDisk) (r : DiskReq) (i j k : DescNo) : Prop where
  op : s.desc i = opDesc i j
  data : s.desc j = dataDesc r k
  status : s.desc k = statusDesc i

theorem freeChain_last {fuel : ℕ} {i : DescNo} (hi : s.free i = false)
    (hflags : (s.desc i).flags &&& vringDescFNext = 0) :
    freeChain (fuel + 1) i s = .ok (s.freed i) := by
  rw [freeChain, freeDesc_eq hi]
  simp [hflags]

theorem freeChain_next {fuel : ℕ} {i j : DescNo} (hi : s.free i = false)
    (hflags : (s.desc i).flags &&& vringDescFNext ≠ 0) (hnext : (s.desc i).next = UInt16.ofNat j) :
    freeChain (fuel + 1) i s = freeChain fuel j (s.freed i) := by
  have hj : (UInt16.ofNat j).toNat = j := UInt16.toNat_ofNat_of_lt (j.isLt.trans (by decide))
  rw [freeChain, freeDesc_eq hi]
  simp [hflags, hnext, hj]

theorem freeChain_eq {r : DiskReq} {i j k : DescNo} (hchain : s.Chain r i j k)
    (hnodup : [i, j, k].Nodup) (hbusy : ∀ d ∈ [i, j, k], s.free d = false) :
    freeChain (num + 1) i s = .ok (s.freedAll [i, j, k]) := by
  simp only [List.nodup_cons, List.mem_cons, List.not_mem_nil, or_false,
    not_or, not_false_eq_true, List.nodup_nil, and_true] at hnodup
  simp only [List.mem_cons, List.not_mem_nil, or_false, forall_eq_or_imp, forall_eq] at hbusy
  have hij : j ≠ i := Ne.symm hnodup.1.1
  have hik : k ≠ i := Ne.symm hnodup.1.2
  have hjk : k ≠ j := Ne.symm hnodup.2
  have hwrite : ((if r.write = true then 0 else vringDescFWrite) |||
      vringDescFNext) &&& vringDescFNext ≠ 0 := by
    cases r.write <;> decide
  have hop : vringDescFNext &&& vringDescFNext ≠ 0 := by decide
  rw [show num + 1 = 6 + 1 + 1 + 1 from rfl,
    freeChain_next (j := j) hbusy.1 (by rw [hchain.op]; exact hop)
      (by rw [hchain.op]; rfl),
    freeChain_next (j := k) (by simpa [freed, hij] using hbusy.2.1)
      (by simpa [freed, hij, hchain.data, dataDesc] using hwrite)
      (by simp [freed, hij, hchain.data, dataDesc]),
    freeChain_last (by simpa [freed, hik, hjk] using hbusy.2.2)
      (by simp [freed, hik, hjk, hchain.status, statusDesc]; decide)]
  simp only [freedAll_cons, freedAll_nil]

/-! ## Allocating -/

def nfree (s : VirtioDisk) : ℕ := (Finset.univ.filter fun d => s.free d = true).card

/-- The descriptors `idx` marked as not free. -/
def took (idx : List DescNo) (s : VirtioDisk) : VirtioDisk :=
  { s with free := fun d => if d ∈ idx then false else s.free d }

@[simp] theorem took_nil (s : VirtioDisk) : s.took [] = s := by
  simp [took]

theorem took_cons (i : DescNo) (idx : List DescNo) (s : VirtioDisk) : s.took (i :: idx) =
      ({ s with free := update s.free i false }).took idx := by
  simp only [took, VirtioDisk.mk.injEq, true_and, and_true]
  funext d
  by_cases hd : d = i <;> simp [hd]

theorem nfree_took (hnodup : idx.Nodup) (hfree : ∀ i ∈ idx, s.free i = true) :
    (s.took idx).nfree + idx.length = s.nfree := by
  have hset : (Finset.univ.filter fun d => (s.took idx).free d = true) =
      (Finset.univ.filter fun d => s.free d = true) \ idx.toFinset := by
    ext d
    simp only [took, Finset.mem_filter, Finset.mem_univ, true_and,
      Finset.mem_sdiff, List.mem_toFinset]
    by_cases hd : d ∈ idx <;> simp [hd]
  have hsub : idx.toFinset ⊆ Finset.univ.filter fun d => s.free d = true := by
    intro d hd
    simpa using hfree d (List.mem_toFinset.mp hd)
  rw [nfree, nfree, hset, ← List.toFinset_card_of_nodup hnodup]
  exact Finset.card_sdiff_add_card_eq_card hsub

theorem nfree_freedAll (hnodup : idx.Nodup) (hbusy : ∀ i ∈ idx, s.free i = false) :
    (s.freedAll idx).nfree = s.nfree + idx.length := by
  have hset : (Finset.univ.filter fun d => (s.freedAll idx).free d = true) =
      (Finset.univ.filter fun d => s.free d = true) ∪ idx.toFinset := by
    ext d
    simp only [freedAll, Finset.mem_filter, Finset.mem_univ, true_and,
      Finset.mem_union, List.mem_toFinset]
    by_cases hd : d ∈ idx <;> simp [hd]
  have hdisj : Disjoint (Finset.univ.filter fun d => s.free d = true) idx.toFinset := by
    rw [Finset.disjoint_left]
    intro d hd hmem
    simp [hbusy d (List.mem_toFinset.mp hmem)] at hd
  rw [nfree, nfree, hset, Finset.card_union_of_disjoint hdisj, List.toFinset_card_of_nodup hnodup]

theorem allocDesc_cases (s : VirtioDisk) : (∃ i, s.free i = true ∧ s.allocDesc = some (i, { s with
        free := update s.free i false })) ∨
    (s.nfree = 0 ∧ s.allocDesc = none) := by
  unfold allocDesc
  cases hfind : (List.finRange num).find? (fun i => s.free i) with
  | some i => exact Or.inl ⟨i, List.find?_some hfind, rfl⟩
  | none =>
    right
    rw [List.find?_eq_none] at hfind
    rw [nfree, Finset.card_eq_zero, Finset.filter_eq_empty_iff]
    exact ⟨fun i _ => hfind i (List.mem_finRange i), rfl⟩

theorem allocDescs_cases (n : ℕ) (hnodup : idx.Nodup) (hbusy : ∀ i ∈ idx, s.free i = false) :
    ∃ new, new.Nodup ∧ (∀ i ∈ new, s.free i = true) ∧
      (new.length = n ∧ s.allocDescs n idx = .ok (some (idx ++ new), s.took new) ∨
        s.nfree < n ∧ s.allocDescs n idx = .ok (none, (s.took new).freedAll (idx ++ new))) := by
  induction n generalizing s idx with
  | zero =>
    refine ⟨[], List.nodup_nil, by simp, Or.inl ⟨rfl, ?_⟩⟩
    simp [allocDescs]
  | succ n ih =>
    rcases s.allocDesc_cases with ⟨i, hi, halloc⟩ | ⟨hnone, halloc⟩
    · have hnew : i ∉ idx := by
        intro hmem
        simp [hbusy i hmem] at hi
      have hnodup' : (idx ++ [i]).Nodup := List.nodup_append.mpr ⟨hnodup, List.nodup_singleton i, by
          intro a ha b hb hab
          rw [List.mem_singleton] at hb
          exact hnew (hb ▸ hab ▸ ha)⟩
      have hbusy' : ∀ d ∈ idx ++ [i], update s.free i false d = false := by
        intro d hd
        by_cases hdi : d = i
        · simp [hdi]
        · have hd : d ∈ idx := by simpa [hdi] using hd
          simpa [hdi] using hbusy d hd
      obtain ⟨new, hnew', hfree, hresult⟩ := ih (s := { s with free := update s.free i false })
          hnodup' hbusy'
      have hinew : i ∉ new := by
        intro hmem
        simpa using hfree i hmem
      have hcount : (s.took [i]).nfree + [i].length = s.nfree :=
        nfree_took (List.nodup_singleton i) (by simpa using hi)
      rw [took_cons, took_nil, List.length_singleton] at hcount
      refine ⟨i :: new, List.nodup_cons.mpr ⟨hinew, hnew'⟩, ?_, ?_⟩
      · intro d hd
        rcases List.mem_cons.mp hd with rfl | hd
        · exact hi
        · have hdi : d ≠ i := fun h => hinew (h ▸ hd)
          simpa [hdi] using hfree d hd
      · rw [List.append_cons idx i new, took_cons, allocDescs, halloc]
        rcases hresult with ⟨hlen, hrun⟩ | ⟨hlt, hrun⟩
        · exact Or.inl ⟨by simp [hlen], hrun⟩
        · exact Or.inr ⟨by omega, hrun⟩
    · refine ⟨[], List.nodup_nil, by simp, Or.inr ⟨by omega, ?_⟩⟩
      rw [allocDescs, halloc]
      simp only [freeDescs_eq hnodup hbusy, took_nil, List.append_nil]

theorem alloc3Desc_cases (s : VirtioDisk) : ∃ new, new.Nodup ∧ (∀ i ∈ new, s.free i = true) ∧
      (new.length = 3 ∧ s.alloc3Desc = .ok (some new, s.took new) ∨
        s.nfree < 3 ∧ s.alloc3Desc = .ok (none, (s.took new).freedAll new)) :=
  allocDescs_cases 3 List.nodup_nil (by simp)

theorem free_freedAll_took (hfree : ∀ i ∈ idx, s.free i = true) :
    ((s.took idx).freedAll idx).free = s.free := by
  funext d
  by_cases hd : d ∈ idx
  · simp [freedAll, hd, hfree d hd]
  · simp [freedAll, took, hd]

/-! ## The rings -/

/-- The heads that the device has not yet taken from the avail ring. -/
def availHeads (s : VirtioDisk) : List DescNo :=
  Ring.window 65536 s.avail.ring s.lastAvail.toNat s.avail.idx.toNat

/-- The heads that `virtio_disk_intr` has not yet taken from the used ring. -/
def usedHeads (s : VirtioDisk) : List DescNo :=
  Ring.window 65536 s.used.ring s.usedIdx.toNat s.used.idx.toNat

/-- The heads between `avail->idx += 1` and `used_idx += 1`. -/
def flight (s : VirtioDisk) : List DescNo := s.availHeads ++ s.taken ++ s.usedHeads

theorem num_dvd : num ∣ 65536 := by decide

theorem toNat_lt (x : UInt16) : x.toNat < 65536 := x.toNat_lt

theorem toNat_succ (x : UInt16) : (x + 1).toNat = (x.toNat + 1) % 65536 := by
  rw [UInt16.toNat_add]
  rfl

theorem window_update (ring : Fin num → DescNo) (r w : UInt16)
    (i : DescNo) (hroom : (Ring.window 65536 ring r.toNat w.toNat).length < num) : Ring.window 65536
    (update ring (Virtq.slot w) i) r.toNat w.toNat = Ring.window 65536 ring r.toNat w.toNat := by
  rw [Ring.length_window] at hroom
  unfold Ring.window
  apply List.map_congr_left
  intro k hk
  rw [Virtq.slot, update_of_ne]
  exact Ring.ofNat_count_ne num_dvd (toNat_lt r) (List.mem_range.mp hk) hroom

theorem window_succ_write (ring : Fin num → DescNo)
    (r w : UInt16) (i : DescNo) (hroom : (Ring.window 65536 ring r.toNat w.toNat).length < num) :
    Ring.window 65536 (update ring (Virtq.slot w) i) r.toNat
    (w + 1).toNat = Ring.window 65536 ring r.toNat w.toNat ++ [i] := by
  rw [Ring.length_window] at hroom
  rw [toNat_succ, Virtq.slot]
  exact Ring.window_push ring i num_dvd (by decide) (toNat_lt r) hroom

theorem window_succ_read (ring : Fin num → DescNo) (r w : UInt16) (hne : r ≠ w) : Ring.window 65536
    ring r.toNat w.toNat = ring (Virtq.slot r) :: Ring.window 65536 ring (r + 1).toNat w.toNat := by
  rw [toNat_succ, Virtq.slot]
  apply Ring.window_pop ring (toNat_lt r) (toNat_lt w)
  rw [Nat.pos_iff_ne_zero, Ne, Ring.count_eq_zero_iff (toNat_lt r) (toNat_lt w), UInt16.toNat_inj]
  exact hne

theorem length_lt_num {l : List DescNo} {i : DescNo}
    (hnodup : l.Nodup) (hi : i ∉ l) : l.length < num := by
  have h := (List.nodup_cons.mpr ⟨hi, hnodup⟩).length_le_card
  simpa using h

end VirtioDisk

end Xv6
