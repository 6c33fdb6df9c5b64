import Xv6.LogSystem

/-!
# Reference counts of the buffer cache

Every reference to a buffer belongs to one process, which holds the buffer's
sleep-lock, waits for it, or is about to give the reference back; beside these
only a pin by `log_write` counts.  The invariant says that `refcnt` is exactly
their number, and that no two buffers cache the same block.  Each primitive of
`bio.c` keeps it.
-/

namespace Xv6

open Function (update update_of_ne update_self)
open Bcache

/-- The references to buffer `i` that a call in progress holds beside the
lock. -/
def Call.holds (i : ℕ) : Call → ℕ
  | .none => 0
  | .want j _ => if j = i then 1 else 0
  | .check _ _ => 0
  | .drop j => if j = i then 1 else 0

def pinCount (pins : List ℕ) (b : Buf) : ℕ := if b.dev = rootDev ∧ b.blockno ∈ pins then 1 else 0

structure CacheInv
    (c : Bcache) (call : ℕ → Call) (refs : List (ℕ × ℕ)) (pins : List ℕ) :
    Prop where
  mem_order : ∀ i, i ∈ c.order ↔ i < nbuf
  unique : ∀ i j, i < nbuf → j < nbuf → (c.buf i).dev = rootDev → (c.buf j).dev = rootDev →
    (c.buf i).blockno = (c.buf j).blockno → i = j
  refcnt : ∀ i, i < nbuf → (c.buf i).refcnt =
      refs.countP (fun r => r.2 == i) + pinCount pins (c.buf i)
  refs_count : ∀ p i, refs.count (p, i) =
      (if (c.buf i).lock = some p then 1 else 0) + (call p).holds i
  refs_ok : ∀ r ∈ refs, r.2 < nbuf ∧ (c.buf r.2).dev = rootDev
  want : ∀ p i b, call p = .want i b → (c.buf i).blockno = b
  check : ∀ p i b, call p = .check i b → (c.buf i).lock = some p ∧ (c.buf i).blockno = b
  pins_nodup : pins.Nodup
  pinned : ∀ b ∈ pins, ∃ i, i < nbuf ∧ (c.buf i).dev = rootDev ∧ (c.buf i).blockno = b

theorem binit_cacheInv : CacheInv binit (fun _ => .none) [] [] := by
  constructor
  · intro i
    simp [binit]
  · intro i j _ _ hdev
    simp [binit, rootDev] at hdev
  · intro i _
    simp [binit, pinCount]
  · intro p i
    simp [binit, Call.holds]
  · simp
  · intro p i b hcall
    contradiction
  · intro p i b hcall
    contradiction
  · exact List.nodup_nil
  · simp

theorem Bcache.set_field {α : Type*} (c : Bcache) {i : ℕ} {b : Buf}
    (f : Buf → α) (hsame : f b = f (c.buf i)) (j : ℕ) : f ((c.set i b).buf j) = f (c.buf j) := by
  by_cases hj : j = i
  · subst hj
    rw [set_buf_self]
    exact hsame
  · rw [set_buf_of_ne c b hj]

section

variable {c : Bcache} {call : ℕ → Call} {refs : List (ℕ × ℕ)} {pins : List ℕ}

variable {p i b : ℕ}

section

variable (h : CacheInv c call refs pins)
include h

theorem CacheInv.mem_refs_of_lock (hlock : (c.buf i).lock = some p) : (p, i) ∈ refs := by
  rw [← List.count_pos_iff, h.refs_count p i, if_pos hlock]
  omega

theorem CacheInv.mem_refs_of_holds (hholds : 0 < (call p).holds i) : (p, i) ∈ refs := by
  rw [← List.count_pos_iff, h.refs_count p i]
  omega

theorem CacheInv.refcnt_pos (hmem : (p, i) ∈ refs) : 0 < (c.buf i).refcnt := by
  rw [h.refcnt i (h.refs_ok _ hmem).1]
  have hcount : 0 < refs.countP (fun r => r.2 == i) := List.countP_pos_iff.mpr ⟨_, hmem, by simp⟩
  omega

theorem CacheInv.refcnt_pos_of_pinned (hi : i < nbuf)
    (hdev : (c.buf i).dev = rootDev) (hpin : (c.buf i).blockno ∈ pins) : 0 < (c.buf i).refcnt := by
  rw [h.refcnt i hi, pinCount, if_pos ⟨hdev, hpin⟩]
  omega

/-! ## `bget` -/

theorem CacheInv.refs_count_want (hcall : call p = .none) (q j : ℕ) : ((p, i) :: refs).count (q,
    j) = (if (c.buf j).lock = some q then 1 else 0) + (update call p (.want i b) q).holds j := by
  rw [List.count_cons, h.refs_count q j]
  by_cases hq : q = p
  · subst hq
    by_cases hj : i = j
    · subst hj
      simp [hcall, Call.holds]
    · simp [hcall, Call.holds, hj]
  · simp [hq, Ne.symm hq]

theorem CacheInv.bget_hit (hcall : call p = .none) (hmem : i ∈ c.order)
    (hdev : (c.buf i).dev = rootDev) (hblock : (c.buf i).blockno = b) :
    CacheInv (c.set i { c.buf i with refcnt := (c.buf i).refcnt + 1 })
      (update call p (.want i b)) ((p, i) :: refs) pins := by
  have hi := (h.mem_order i).mp hmem
  set c' := c.set i { c.buf i with refcnt := (c.buf i).refcnt + 1 } with hc'
  have hdev' : ∀ j, (c'.buf j).dev = (c.buf j).dev := c.set_field Buf.dev rfl
  have hblock' : ∀ j, (c'.buf j).blockno = (c.buf j).blockno := c.set_field Buf.blockno rfl
  have hlock' : ∀ j, (c'.buf j).lock = (c.buf j).lock := c.set_field Buf.lock rfl
  constructor
  · exact h.mem_order
  · simp only [hdev', hblock']
    exact h.unique
  · intro j hj
    rw [List.countP_cons, pinCount, hdev', hblock']
    by_cases hji : j = i
    · subst hji
      rw [hc', set_buf_self]
      simp only [h.refcnt j hj, pinCount, beq_self_eq_true, if_true]
      omega
    · rw [hc', set_buf_of_ne c _ hji, h.refcnt j hj]
      simp [Ne.symm hji, pinCount]
  · simp only [hlock']
    exact h.refs_count_want hcall
  · simp only [hdev']
    intro r hr
    rcases List.mem_cons.mp hr with rfl | hr
    · exact ⟨hi, hdev⟩
    · exact h.refs_ok r hr
  · intro q j b' hq
    rw [hblock']
    by_cases hqp : q = p
    · subst hqp
      simp only [update_self, Call.want.injEq] at hq
      rw [← hq.1, ← hq.2]
      exact hblock
    · rw [update_of_ne hqp] at hq
      exact h.want q j b' hq
  · intro q j b' hq
    rw [hblock', hlock']
    by_cases hqp : q = p
    · subst hqp
      simp at hq
    · rw [update_of_ne hqp] at hq
      exact h.check q j b' hq
  · exact h.pins_nodup
  · simp only [hdev', hblock']
    exact h.pinned

theorem CacheInv.bget_miss (hcall : call p = .none)
    (hmiss : ∀ j ∈ c.order, (c.buf j).dev = rootDev → (c.buf j).blockno ≠ b)
    (hmem : i ∈ c.order) (hfree : (c.buf i).refcnt = 0) : CacheInv (c.set i { c.buf i with
        dev := rootDev, blockno := b, valid := false, refcnt := 1 })
      (update call p (.want i b)) ((p, i) :: refs) pins := by
  have hi := (h.mem_order i).mp hmem
  have hmiss' : ∀ j, j < nbuf → (c.buf j).dev = rootDev → (c.buf j).blockno ≠ b := fun j hj =>
    hmiss j ((h.mem_order j).mpr hj)
  have hzero := h.refcnt i hi
  rw [hfree] at hzero
  have hnoref : ∀ r ∈ refs, r.2 ≠ i := by
    intro r hr hri
    have hcount : 0 < refs.countP (fun r => r.2 == i) :=
      List.countP_pos_iff.mpr ⟨r, hr, by simp [hri]⟩
    omega
  have hnopin : ¬((c.buf i).dev = rootDev ∧ (c.buf i).blockno ∈ pins) := by
    intro hpin
    rw [pinCount, if_pos hpin] at hzero
    omega
  have hb : b ∉ pins := by
    intro hb
    obtain ⟨j, hj, hdev, hblock⟩ := h.pinned b hb
    exact hmiss' j hj hdev hblock
  set c' := c.set i { c.buf i with
    dev := rootDev, blockno := b, valid := false, refcnt := 1 } with hc'
  have hself : c'.buf i = { c.buf i with
      dev := rootDev, blockno := b, valid := false, refcnt := 1 } :=
    set_buf_self c i _
  have hother : ∀ j, j ≠ i → c'.buf j = c.buf j := fun j hj =>
    set_buf_of_ne c _ hj
  have hlock' : ∀ j, (c'.buf j).lock = (c.buf j).lock := c.set_field Buf.lock rfl
  constructor
  · exact h.mem_order
  · intro j k hj hk hdevj hdevk hblock
    by_cases hji : j = i
    · subst hji
      by_cases hki : k = j
      · exact hki.symm
      · rw [hother k hki] at hdevk hblock
        rw [hself] at hblock
        exact absurd hblock.symm (hmiss' k hk hdevk)
    · rw [hother j hji] at hdevj hblock
      by_cases hki : k = i
      · subst hki
        rw [hself] at hblock
        exact absurd hblock (hmiss' j hj hdevj)
      · rw [hother k hki] at hdevk hblock
        exact h.unique j k hj hk hdevj hdevk hblock
  · intro j hj
    by_cases hji : j = i
    · subst hji
      have hnone : refs.countP (fun r => r.2 == j) = 0 := by
        rw [List.countP_eq_zero]
        intro r hr
        simpa using hnoref r hr
      rw [hself]
      simp [hnone, pinCount, hb]
    · rw [hother j hji, h.refcnt j hj, List.countP_cons]
      simp [Ne.symm hji]
  · simp only [hlock']
    exact h.refs_count_want hcall
  · intro r hr
    rcases List.mem_cons.mp hr with rfl | hr
    · exact ⟨hi, by rw [hself]⟩
    · rw [hother _ (hnoref r hr)]
      exact h.refs_ok r hr
  · intro q j b' hq
    by_cases hqp : q = p
    · subst hqp
      simp only [update_self, Call.want.injEq] at hq
      rw [← hq.1, ← hq.2, hself]
    · rw [update_of_ne hqp] at hq
      have hmemRef : (q, j) ∈ refs := h.mem_refs_of_holds (by simp [hq, Call.holds])
      rw [hother j (hnoref _ hmemRef)]
      exact h.want q j b' hq
  · intro q j b' hq
    by_cases hqp : q = p
    · subst hqp
      simp at hq
    · rw [update_of_ne hqp] at hq
      have hmemRef := h.mem_refs_of_lock (h.check q j b' hq).1
      rw [hother j (hnoref _ hmemRef)]
      exact h.check q j b' hq
  · exact h.pins_nodup
  · intro b' hb'
    obtain ⟨j, hj, hdev, hblock⟩ := h.pinned b' hb'
    have hji : j ≠ i := by
      rintro rfl
      exact hnopin ⟨hdev, hblock ▸ hb'⟩
    exact ⟨j, hj, by rw [hother j hji]; exact ⟨hdev, hblock⟩⟩

theorem CacheInv.bget
    {c' : Bcache} (hcall : call p = .none) (hget : bget rootDev b c = some (i, c')) :
    CacheInv c' (update call p (.want i b)) ((p, i) :: refs) pins := by
  rcases bget_eq_some hget with
    ⟨hmem, hdev, hblock, rfl⟩ | ⟨hmiss, hmem, hfree, rfl⟩
  · exact h.bget_hit hcall hmem hdev hblock
  · exact h.bget_miss hcall hmiss hmem hfree

/-! ## Locks and data -/

theorem CacheInv.set_lock {b : Buf} {call' : ℕ → Call}
    (hdev : b.dev = (c.buf i).dev) (hblock : b.blockno = (c.buf i).blockno)
    (hrefcnt : b.refcnt = (c.buf i).refcnt) (hcount : ∀ p j, refs.count (p, j) =
      (if ((c.set i b).buf j).lock = some p then 1 else 0) + (call' p).holds j)
    (hwant : ∀ p j b, call' p = .want j b → call p = .want j b)
    (hcheck : ∀ p j b', call' p = .check j b' →
      ((c.set i b).buf j).lock = some p ∧ (c.buf j).blockno = b') :
    CacheInv (c.set i b) call' refs pins := by
  have hdev' := c.set_field Buf.dev hdev
  have hblock' := c.set_field Buf.blockno hblock
  have hrefcnt' := c.set_field Buf.refcnt hrefcnt
  constructor
  · exact h.mem_order
  · simp only [hdev', hblock']
    exact h.unique
  · simp only [hrefcnt', pinCount, hdev', hblock']
    exact h.refcnt
  · exact hcount
  · simp only [hdev']
    exact h.refs_ok
  · simp only [hblock']
    intro p j b' hp
    exact h.want p j b' (hwant p j b' hp)
  · simp only [hblock']
    exact hcheck
  · exact h.pins_nodup
  · simp only [hdev', hblock']
    exact h.pinned

theorem CacheInv.set_data {b : Buf} (hdev : b.dev = (c.buf i).dev)
    (hblock : b.blockno = (c.buf i).blockno) (hrefcnt : b.refcnt = (c.buf i).refcnt)
    (hlock : b.lock = (c.buf i).lock) : CacheInv (c.set i b) call refs pins := by
  have hlock' := c.set_field Buf.lock hlock
  apply h.set_lock hdev hblock hrefcnt
  · simp only [hlock']
    exact h.refs_count
  · exact fun p j b hp => hp
  · simp only [hlock']
    exact h.check

theorem CacheInv.acquiresleep (hcall : call p = .want i b) (hfree : (c.buf i).lock = none) :
    CacheInv (c.set i { c.buf i with lock := some p }) (update call p (.check i b)) refs pins := by
  refine h.set_lock rfl rfl rfl ?_ ?_ ?_
  · intro q j
    rw [h.refs_count q j]
    by_cases hq : q = p
    · subst hq
      by_cases hj : j = i
      · subst hj
        simp [hcall, hfree, Call.holds]
      · simp [set_buf_of_ne c _ hj, hcall, Call.holds, Ne.symm hj]
    · rw [update_of_ne hq]
      by_cases hj : j = i
      · subst hj
        simp [hfree, Ne.symm hq]
      · rw [set_buf_of_ne c _ hj]
  · intro q j b' hq
    by_cases hqp : q = p
    · subst hqp
      simp at hq
    · rwa [update_of_ne hqp] at hq
  · intro q j b' hq
    by_cases hqp : q = p
    · subst hqp
      simp only [update_self, Call.check.injEq] at hq
      obtain ⟨rfl, rfl⟩ := hq
      exact ⟨by simp, h.want q i b hcall⟩
    · rw [update_of_ne hqp] at hq
      obtain ⟨hlock, hblock⟩ := h.check q j b' hq
      have hj : j ≠ i := by
        rintro rfl
        rw [hfree] at hlock
        contradiction
      rw [set_buf_of_ne c _ hj]
      exact ⟨hlock, hblock⟩

theorem CacheInv.call_none (hcall : call p = .check i b) :
    CacheInv c (update call p .none) refs pins := by
  constructor
  · exact h.mem_order
  · exact h.unique
  · exact h.refcnt
  · intro q j
    rw [h.refs_count q j]
    by_cases hq : q = p
    · subst hq
      simp [hcall, Call.holds]
    · rw [update_of_ne hq]
  · exact h.refs_ok
  · intro q j b' hq
    by_cases hqp : q = p
    · subst hqp
      simp at hq
    · rw [update_of_ne hqp] at hq
      exact h.want q j b' hq
  · intro q j b' hq
    by_cases hqp : q = p
    · subst hqp
      simp at hq
    · rw [update_of_ne hqp] at hq
      exact h.check q j b' hq
  · exact h.pins_nodup
  · exact h.pinned

theorem CacheInv.releasesleep (hcall : call p = .none) (hlock : (c.buf i).lock = some p) :
    CacheInv (c.set i { c.buf i with lock := none }) (update call p (.drop i)) refs pins := by
  refine h.set_lock rfl rfl rfl ?_ ?_ ?_
  · intro q j
    rw [h.refs_count q j]
    by_cases hq : q = p
    · subst hq
      by_cases hj : j = i
      · subst hj
        simp [hcall, hlock, Call.holds]
      · simp [set_buf_of_ne c _ hj, hcall, Call.holds, Ne.symm hj]
    · rw [update_of_ne hq]
      by_cases hj : j = i
      · subst hj
        simp [hlock, Ne.symm hq]
      · rw [set_buf_of_ne c _ hj]
  · intro q j b' hq
    by_cases hqp : q = p
    · subst hqp
      simp at hq
    · rwa [update_of_ne hqp] at hq
  · intro q j b' hq
    by_cases hqp : q = p
    · subst hqp
      simp at hq
    · rw [update_of_ne hqp] at hq
      obtain ⟨hlockq, hblock⟩ := h.check q j b' hq
      have hj : j ≠ i := by
        rintro rfl
        rw [hlock] at hlockq
        exact hqp (Option.some.inj hlockq).symm
      rw [set_buf_of_ne c _ hj]
      exact ⟨hlockq, hblock⟩

end

/-! ## Counting down -/

theorem brelse_buf_eq (c : Bcache) (i : ℕ) : (brelse i c).buf = update c.buf i
        { c.buf i with refcnt := decr (c.buf i).refcnt } := by
  unfold brelse
  dsimp only
  split <;> rfl

theorem mem_brelse_order (c : Bcache) (hi : i ∈ c.order) (j : ℕ) :
    j ∈ (brelse i c).order ↔ j ∈ c.order := by
  unfold brelse
  dsimp only
  split
  · by_cases hj : j = i
    · subst hj
      simp [hi]
    · simp [hj, List.mem_erase_of_ne hj]
  · rfl

section

variable (h : CacheInv c call refs pins)
include h

theorem CacheInv.drop (hcall : call p = .drop i) : CacheInv (brelse i c) (update call p .none)
      (refs.erase (p, i)) pins := by
  have hmem : (p, i) ∈ refs := h.mem_refs_of_holds (by simp [hcall, Call.holds])
  have hi := (h.refs_ok _ hmem).1
  have hpos := h.refcnt_pos hmem
  have hbuf := brelse_buf_eq c i
  have hfield : ∀ {α : Type} (f : Buf → α), (∀ n, f { c.buf i with refcnt := n } = f (c.buf i)) →
      ∀ j, f ((brelse i c).buf j) = f (c.buf j) := by
    intro α f hf j
    rw [hbuf]
    by_cases hj : j = i
    · subst hj
      rw [update_self, hf]
    · rw [update_of_ne hj]
  have hdev := hfield Buf.dev fun _ => rfl
  have hblock := hfield Buf.blockno fun _ => rfl
  have hlock := hfield Buf.lock fun _ => rfl
  constructor
  · intro j
    rw [mem_brelse_order c ((h.mem_order i).mpr hi) j]
    exact h.mem_order j
  · simp only [hdev, hblock]
    exact h.unique
  · intro j hj
    rw [pinCount, hdev, hblock, hbuf]
    by_cases hji : j = i
    · subst hji
      have herase : (refs.erase (p, j)).countP (fun r => r.2 == j) =
          refs.countP (fun r => r.2 == j) - 1 := by
        rw [List.countP_erase, if_pos ⟨hmem, by simp⟩]
      have hcount : 0 < refs.countP (fun r => r.2 == j) :=
        List.countP_pos_iff.mpr ⟨_, hmem, by simp⟩
      rw [update_self, herase]
      dsimp only
      rw [decr_eq hpos, h.refcnt j hj, pinCount]
      omega
    · have herase : (refs.erase (p, i)).countP (fun r => r.2 == j) =
          refs.countP (fun r => r.2 == j) := by
        rw [List.countP_erase]
        simp [Ne.symm hji]
      rw [update_of_ne hji, herase]
      exact h.refcnt j hj
  · intro q j
    rw [hlock, List.count_erase, h.refs_count q j]
    by_cases hq : q = p
    · subst hq
      by_cases hj : i = j
      · subst hj
        simp [hcall, Call.holds]
      · simp [hcall, Call.holds, hj]
    · simp [hq, Ne.symm hq]
  · intro r hr
    rw [hdev]
    exact h.refs_ok r (List.mem_of_mem_erase hr)
  · intro q j b' hq
    rw [hblock]
    by_cases hqp : q = p
    · subst hqp
      simp at hq
    · rw [update_of_ne hqp] at hq
      exact h.want q j b' hq
  · intro q j b' hq
    rw [hblock, hlock]
    by_cases hqp : q = p
    · subst hqp
      simp at hq
    · rw [update_of_ne hqp] at hq
      exact h.check q j b' hq
  · exact h.pins_nodup
  · simp only [hdev, hblock]
    exact h.pinned

/-! ## Pins -/

theorem CacheInv.set_pin {n : ℕ} {pins' : List ℕ} (hi : i < nbuf) (hdev : (c.buf i).dev = rootDev)
    (hrefcnt : n = refs.countP (fun r => r.2 == i) + pinCount pins' (c.buf i))
    (hpins : ∀ b, b ≠ (c.buf i).blockno → (b ∈ pins' ↔ b ∈ pins)) (hnodup : pins'.Nodup) :
    CacheInv (c.set i { c.buf i with refcnt := n }) call refs pins' := by
  set c' := c.set i { c.buf i with refcnt := n } with hc'
  have hdev' : ∀ j, (c'.buf j).dev = (c.buf j).dev := c.set_field Buf.dev rfl
  have hblock' : ∀ j, (c'.buf j).blockno = (c.buf j).blockno := c.set_field Buf.blockno rfl
  have hlock' : ∀ j, (c'.buf j).lock = (c.buf j).lock := c.set_field Buf.lock rfl
  constructor
  · exact h.mem_order
  · simp only [hdev', hblock']
    exact h.unique
  · intro j hj
    rw [pinCount, hdev', hblock']
    by_cases hji : j = i
    · subst hji
      rw [hc', set_buf_self]
      exact hrefcnt
    · rw [hc', set_buf_of_ne c _ hji, h.refcnt j hj]
      congr 1
      unfold pinCount
      by_cases hdevj : (c.buf j).dev = rootDev
      · have hne : (c.buf j).blockno ≠ (c.buf i).blockno := fun heq =>
          hji (h.unique j i hj hi hdevj hdev heq)
        simp [hpins _ hne]
      · simp [hdevj]
  · simp only [hlock']
    exact h.refs_count
  · simp only [hdev']
    exact h.refs_ok
  · simp only [hblock']
    exact h.want
  · simp only [hblock', hlock']
    exact h.check
  · exact hnodup
  · intro b hb
    simp only [hdev', hblock']
    by_cases hbi : b = (c.buf i).blockno
    · exact ⟨i, hi, hdev, hbi.symm⟩
    · exact h.pinned b ((hpins b hbi).mp hb)

theorem CacheInv.bpin (hmem : (p, i) ∈ refs) (hnew : (c.buf i).blockno ∉ pins) :
    CacheInv (bpin i c) call refs (pins ++ [(c.buf i).blockno]) := by
  obtain ⟨hi, hdev⟩ := h.refs_ok _ hmem
  apply h.set_pin hi hdev
  · rw [h.refcnt i hi]
    simp [pinCount, hdev, hnew]
  · intro b hb
    simp [hb]
  · refine List.Nodup.append h.pins_nodup (List.nodup_singleton _) ?_
    simpa using hnew

theorem CacheInv.bunpin (hi : i < nbuf) (hdev : (c.buf i).dev = rootDev)
    (hpin : (c.buf i).blockno ∈ pins) :
    CacheInv (bunpin i c) call refs (pins.erase (c.buf i).blockno) := by
  have hpos := h.refcnt_pos_of_pinned hi hdev hpin
  apply h.set_pin hi hdev
  · rw [decr_eq hpos, h.refcnt i hi]
    simp [pinCount, hdev, hpin, h.pins_nodup.mem_erase_iff]
  · intro b hb
    exact List.mem_erase_of_ne hb
  · exact h.pins_nodup.erase _

end

end

end Xv6
