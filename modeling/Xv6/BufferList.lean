import Xv6.BufferCache
import Xv6.Lib.Links
import Xv6.Lib.Machine

/-!
# The links of the buffer cache

`bio.c` with the `next` and `prev` pointers of its buffers; node `NBUF` is
`bcache.head`.  The history variable `released` has the number of the last
`brelse` that released a buffer, or 0.
-/

namespace Xv6

open Function (update update_self update_of_ne)

open Links (Circular)

structure BufList where
  buf : ℕ → Buf
  ring : Links.Nodes ℕ
  now : ℕ
  released : ℕ → ℕ

inductive BufLabel
  | bget (blockno : ℕ)
  | brelse (i : Fin nbuf)
  | bpin (i : Fin nbuf)
  | bunpin (i : Fin nbuf)

namespace BufList

/-- `binit`: the head is linked to itself, and each buffer is inserted. -/
def init : BufList where
  buf := Xv6.binit.buf
  ring := (List.range nbuf).foldl (fun r b => Links.insertFirst nbuf b r)
    ⟨fun _ => nbuf, fun _ => nbuf⟩
  now := 0
  released := fun _ => 0

def setBuf (i : ℕ) (b : Buf) (s : BufList) : BufList :=
  { s with buf := update s.buf i b }

/-- The two loops of `bget`; `none` is `panic("bget: no buffers")`. -/
def bget (dev blockno : ℕ) (s : BufList) : Option (ℕ × BufList) :=
  match Links.scan s.ring.next nbuf
      (fun i => (s.buf i).dev == dev && (s.buf i).blockno == blockno)
      (nbuf + 1) (s.ring.next nbuf) with
  | some i =>
    some (i, s.setBuf i { s.buf i with refcnt := (s.buf i).refcnt + 1 })
  | none =>
    match Links.scan s.ring.prev nbuf (fun i => (s.buf i).refcnt == 0)
        (nbuf + 1) (s.ring.prev nbuf) with
    | some i =>
      some (i, s.setBuf i
        { s.buf i with
          dev := dev, blockno := blockno, valid := false, refcnt := 1 })
    | none => none

def brelse (i : ℕ) (s : BufList) : BufList :=
  let b := { s.buf i with refcnt := decr (s.buf i).refcnt }
  if b.refcnt = 0 then
    { buf := update s.buf i b
      ring := Links.insertFirst nbuf i (Links.unlink i s.ring)
      now := s.now + 1
      released := update s.released i (s.now + 1) }
  else s.setBuf i b

def step (l : BufLabel) (s : BufList) : Option BufList :=
  match l with
  | .bget blockno => (s.bget rootDev blockno).map (·.2)
  | .brelse i => some (s.brelse i)
  | .bpin i =>
    some (s.setBuf i { s.buf i with refcnt := (s.buf i).refcnt + 1 })
  | .bunpin i =>
    some (s.setBuf i { s.buf i with refcnt := decr (s.buf i).refcnt })

/-- The buffers are linked in the order of `order`, which is that of their last
releases. -/
structure Inv (s : BufList) (order : List ℕ) : Prop where
  ring : Circular s.ring nbuf order
  perm : order.Perm (List.range nbuf)
  unique : ∀ i < nbuf, ∀ j < nbuf, (s.buf i).dev = rootDev →
    (s.buf j).dev = rootDev → (s.buf i).blockno = (s.buf j).blockno → i = j
  sorted : order.Pairwise fun i j => s.released j ≤ s.released i
  past : ∀ i, s.released i ≤ s.now

variable {s t : BufList} {order : List ℕ}

theorem Inv.mem (h : s.Inv order) {i : ℕ} : i ∈ order ↔ i < nbuf := by
  rw [h.perm.mem_iff, List.mem_range]

theorem Inv.bget_eq (h : s.Inv order) (dev blockno : ℕ) : s.bget dev blockno =
    (Xv6.bget dev blockno ⟨s.buf, order⟩).map fun r => (r.1, { s with buf := r.2.buf }) := by
  have hlen : order.length < nbuf + 1 := by simp [h.perm.length_eq]
  obtain ⟨hnodup, hnext, hprev⟩ := h.ring
  have hnot := (List.nodup_cons.mp hnodup).1
  unfold BufList.bget Xv6.bget Bcache.lookup Bcache.lru
  rw [Links.scan_eq_find _ hnext hnot hlen, Links.scan_eq_find _ hprev
    (by simpa using hnot) (by simpa using hlen)]
  cases List.find? _ order with
  | some i => rfl
  | none => cases List.find? _ order.reverse <;> rfl

/-- The second loop of `bget` finds the buffer that was released first. -/
theorem Inv.lru (h : s.Inv order) {i : ℕ} (hlru : (⟨s.buf, order⟩ : Bcache).lru = some i)
    {j : ℕ} (hj : j < nbuf) (hfree : (s.buf j).refcnt = 0) : s.released i ≤ s.released j := by
  obtain ⟨-, before, after, horder, hused⟩ := List.find?_eq_some_iff_append.mp hlru
  have hmem : j ∈ order.reverse := List.mem_reverse.mpr (h.mem.mpr hj)
  have hsorted := List.pairwise_reverse.mpr h.sorted
  change order.reverse = _ at horder
  rw [horder] at hmem hsorted
  rcases List.mem_append.mp hmem with hmem | hmem
  · simpa [hfree] using hused j hmem
  · rcases List.mem_cons.mp hmem with rfl | hmem
    · exact le_rfl
    · exact (List.pairwise_cons.mp (List.pairwise_append.mp hsorted).2.1).1 j hmem

theorem init_inv : init.Inv (List.range nbuf).reverse where
  ring := by
    have hfold : ∀ n, n ≤ nbuf → Circular ((List.range n).foldl
        (fun r b => Links.insertFirst nbuf b r)
        ⟨fun _ => nbuf, fun _ => nbuf⟩) nbuf (List.range n).reverse := by
      intro n
      induction n with
      | zero => exact fun _ => ⟨by simp, rfl, rfl⟩
      | succ n ih =>
        intro hn
        rw [List.range_succ, List.foldl_append, List.reverse_append]
        refine (ih (by omega)).insertFirst ?_
        simp
        omega
    exact hfold nbuf le_rfl
  perm := List.reverse_perm _
  unique := by simp [init, Xv6.binit, rootDev]
  sorted := List.pairwise_of_forall fun _ _ => le_rfl
  past := by simp [init]

theorem Inv.setRefcnt (h : s.Inv order) (i n : ℕ) :
    (s.setBuf i { s.buf i with refcnt := n }).Inv order := by
  refine ⟨h.ring, h.perm, ?_, h.sorted, h.past⟩
  have hkey : ∀ j, ((s.setBuf i { s.buf i with refcnt := n }).buf j).dev = (s.buf j).dev ∧
      ((s.setBuf i { s.buf i with refcnt := n }).buf j).blockno = (s.buf j).blockno := by
    intro j
    by_cases hj : j = i <;> simp [setBuf, hj]
  intro j hj k hk
  rw [(hkey j).1, (hkey k).1, (hkey j).2, (hkey k).2]
  exact h.unique j hj k hk

theorem Inv.recycle (h : s.Inv order) {i blockno : ℕ} (hmiss : ∀ j < nbuf, (s.buf j).dev = rootDev →
    (s.buf j).blockno ≠ blockno) : (s.setBuf i { s.buf i with
        dev := rootDev, blockno := blockno, valid := false, refcnt := 1 }).Inv order := by
  refine ⟨h.ring, h.perm, ?_, h.sorted, h.past⟩
  intro j hj k hk hdj hdk heq
  by_cases hji : j = i <;> by_cases hki : k = i
  · rw [hji, hki]
  · simp only [hji, setBuf, update_self, update_of_ne hki] at hdk heq
    exact absurd heq.symm (hmiss k hk hdk)
  · simp only [hki, setBuf, update_self, update_of_ne hji] at hdj heq
    exact absurd heq (hmiss j hj hdj)
  · simp only [setBuf, update_of_ne hji, update_of_ne hki] at hdj hdk heq
    exact h.unique j hj k hk hdj hdk heq

theorem Inv.brelse (h : s.Inv order) {i : ℕ} (hi : i < nbuf) :
    ∃ order', (s.brelse i).Inv order' := by
  unfold BufList.brelse
  dsimp only
  split_ifs with hzero
  · have hset := h.setRefcnt i (decr (s.buf i).refcnt)
    obtain ⟨l, l', rfl⟩ := List.append_of_mem (h.mem.mpr hi)
    have hunlink := h.ring.unlink
    have hnodup := (List.nodup_cons.mp h.ring.1).2
    have hperm : (l ++ i :: l').Perm (i :: (l ++ l')) := List.perm_middle
    have hnot : i ∉ l ++ l' := (List.nodup_cons.mp (hperm.nodup_iff.mp hnodup)).1
    refine ⟨i :: (l ++ l'), hunlink.insertFirst ?_, hperm.symm.trans h.perm, hset.unique, ?_, ?_⟩
    · rw [List.mem_cons, not_or]
      exact ⟨hi.ne, hnot⟩
    · have hsub := h.sorted.sublist ((List.sublist_cons_self i l').append_left l)
      have hkeep : ∀ j ∈ l ++ l', update s.released i (s.now + 1) j = s.released j := by
        intro j hj
        exact update_of_ne (by rintro rfl; exact hnot hj) _ _
      refine List.pairwise_cons.mpr ⟨fun j hj => ?_, ?_⟩
      · dsimp only
        rw [hkeep j hj, update_self]
        exact (h.past j).trans (Nat.le_succ _)
      · refine hsub.imp_of_mem fun {j k} hj hk hle => ?_
        dsimp only
        rwa [hkeep j hj, hkeep k hk]
    · intro j
      dsimp only
      by_cases hj : j = i
      · rw [hj, update_self]
      · rw [update_of_ne hj]
        exact (h.past j).trans (Nat.le_succ _)
  · exact ⟨order, h.setRefcnt i _⟩

theorem Inv.step (h : s.Inv order) {l : BufLabel} (hstep : s.step l = some t) :
    ∃ order', t.Inv order' := by
  cases l with
  | bget blockno =>
    rw [BufList.step, h.bget_eq, Option.map_map, Option.map_eq_some_iff] at hstep
    obtain ⟨⟨i, c⟩, hget, rfl⟩ := hstep
    refine ⟨order, ?_⟩
    rcases bget_eq_some hget with ⟨-, -, -, rfl⟩ | ⟨hmiss, -, -, rfl⟩
    · exact h.setRefcnt i _
    · exact h.recycle fun j hj => hmiss j (h.mem.mpr hj)
  | brelse i =>
    cases hstep
    exact h.brelse i.isLt
  | bpin i | bunpin i =>
    cases hstep
    exact ⟨order, h.setRefcnt i _⟩

end BufList

/-- The links of the buffer cache form one list of all buffers, with a block in
at most one of them; a miss recycles the unused buffer that was released
first. -/
theorem buffer_list_lru (labels : List BufLabel) (s : BufList)
    (hrun : Machine.run BufList.step labels BufList.init = some s) :
    (∃ order, Circular s.ring nbuf order ∧ order.Perm (List.range nbuf)) ∧
    (∀ i < nbuf, ∀ j < nbuf, (s.buf i).dev = rootDev →
      (s.buf j).dev = rootDev → (s.buf i).blockno = (s.buf j).blockno →
      i = j) ∧
    ∀ blockno, (∀ j < nbuf, (s.buf j).dev = rootDev → (s.buf j).blockno ≠ blockno) →
      (∀ i t, s.bget rootDev blockno = some (i, t) →
        i < nbuf ∧ (s.buf i).refcnt = 0 ∧ (t.buf i).blockno = blockno ∧
        ∀ j < nbuf, (s.buf j).refcnt = 0 → s.released i ≤ s.released j) ∧
      (s.bget rootDev blockno = none → ∀ j < nbuf, 0 < (s.buf j).refcnt) := by
  obtain ⟨order, h⟩ : ∃ order, s.Inv order :=
    Machine.run_invariant (I := fun s => ∃ order, BufList.Inv s order)
      (fun l s t ⟨order, hs⟩ hstep => hs.step hstep)
      ⟨_, BufList.init_inv⟩ hrun
  refine ⟨⟨order, h.ring, h.perm⟩, h.unique, fun blockno hmiss => ⟨?_, ?_⟩⟩
  · intro i t hget
    have hlookup : (⟨s.buf, order⟩ : Bcache).lookup rootDev blockno = none :=
      Bcache.lookup_eq_none.mpr fun j hj => hmiss j (h.mem.mp hj)
    rw [h.bget_eq, bget, hlookup] at hget
    cases hlru : (⟨s.buf, order⟩ : Bcache).lru with
    | none => simp [hlru] at hget
    | some k =>
      rw [hlru] at hget
      obtain ⟨rfl, rfl⟩ : k = i ∧ _ := by simpa using hget
      obtain ⟨hmem, hfree⟩ := Bcache.lru_eq_some hlru
      exact ⟨h.mem.mp hmem, hfree, by simp, fun j => h.lru hlru⟩
  · intro hget j hj
    rw [h.bget_eq, Option.map_eq_none_iff, bget_eq_none] at hget
    exact Nat.pos_of_ne_zero (hget.2 j (h.mem.mpr hj))

theorem buffer_list_lru_released : ∃ s, Machine.run BufList.step
        [.bget 5, .brelse ⟨0, by decide⟩] BufList.init = some s ∧
      ∃ order, Circular s.ring nbuf order ∧ order.Perm (List.range nbuf) := by
  refine Machine.exists_run (P := fun _ => true) (by decide +kernel) ?_
  exact fun s hrun _ => (buffer_list_lru _ s hrun).1

end Xv6
