import Xv6.CacheAccounting

/-!
# Contents of the buffer cache

`latest` is what the most recent change of each block has made of it.  A valid
buffer holds `latest` of its block.  The disk may be behind only for blocks
that are pinned, or whose buffer has been changed and neither logged nor written
since; such a buffer is still locked.  Each primitive of `bio.c` keeps this,
given the accounts of references.
-/

namespace Xv6

open Function (update update_of_ne update_self)
open Bcache

structure Contents
    (disk latest : ℕ → Block) (c : Bcache) (call : ℕ → Call)
    (dirty pins : List ℕ) : Prop where
  coherent : ∀ i, i < nbuf → (c.buf i).dev = rootDev →
    (c.buf i).valid = true → (c.buf i).data = latest (c.buf i).blockno
  filled : ∀ p i, (c.buf i).lock = some p → (∀ b, call p ≠ .check i b) → (c.buf i).valid = true
  pinned : ∀ i, i < nbuf → (c.buf i).dev = rootDev →
    (c.buf i).blockno ∈ pins → (c.buf i).valid = true
  dirty_locked : ∀ i ∈ dirty, (c.buf i).valid = true ∧ ∃ p, (c.buf i).lock = some p
  clean : ∀ b, disk b = latest b ∨ b ∈ pins ∨ ∃ i ∈ dirty, (c.buf i).blockno = b

theorem binit_contents (disk : ℕ → Block) : Contents disk disk binit (fun _ => .none) [] [] := by
  constructor
  · intro i _ hdev
    simp [binit, rootDev] at hdev
  · intro p i hlock
    simp [binit] at hlock
  · simp
  · simp
  · exact fun b => Or.inl rfl

section

variable {disk latest : ℕ → Block} {c : Bcache} {call : ℕ → Call}
  {refs : List (ℕ × ℕ)} {dirty pins : List ℕ}

variable {p i b : ℕ} {c' : Bcache}

theorem CacheInv.eq_of_lock
    (hc : CacheInv c call refs pins) {j : ℕ} (hlock : (c.buf i).lock = some p) (hj : j < nbuf)
    (hdev : (c.buf j).dev = rootDev) (hblock : (c.buf j).blockno = (c.buf i).blockno) : j = i := by
  obtain ⟨hi, hdevi⟩ := hc.refs_ok _ (hc.mem_refs_of_lock hlock)
  exact hc.unique j i hj hi hdev hdevi hblock

theorem Contents.data_of_lock (h : Contents disk latest c call dirty pins)
    (hc : CacheInv c call refs pins) (hlock : (c.buf i).lock = some p)
    (hcall : ∀ b, call p ≠ .check i b) : (c.buf i).data = latest (c.buf i).blockno := by
  obtain ⟨hi, hdev⟩ := hc.refs_ok _ (hc.mem_refs_of_lock hlock)
  exact h.coherent i hi hdev (h.filled p i hlock hcall)

theorem Contents.of_fields (h : Contents disk latest c call dirty pins) {call' : ℕ → Call}
    (hvalid : ∀ i, (c'.buf i).valid = (c.buf i).valid) (hdev : ∀ i, (c'.buf i).dev = (c.buf i).dev)
    (hblock : ∀ i, (c'.buf i).blockno = (c.buf i).blockno)
    (hlock : ∀ i, (c'.buf i).lock = (c.buf i).lock) (hdata : ∀ i, (c'.buf i).data = (c.buf i).data)
    (hcall : ∀ p i b, call p = .check i b → call' p = .check i b) :
    Contents disk latest c' call' dirty pins := by
  constructor
  · simp only [hvalid, hdev, hblock, hdata]
    exact h.coherent
  · simp only [hvalid, hlock]
    intro p i hp hnot
    exact h.filled p i hp fun b hb => hnot b (hcall p i b hb)
  · simp only [hvalid, hdev, hblock]
    exact h.pinned
  · simp only [hvalid, hlock]
    exact h.dirty_locked
  · simp only [hblock]
    exact h.clean

theorem Contents.of_refcnt (h : Contents disk latest c call dirty pins) {call' : ℕ → Call}
    (hsame : ∀ j, c'.buf j = { c.buf j with refcnt := (c'.buf j).refcnt })
    (hcall : ∀ p i b, call p = .check i b → call' p = .check i b) :
    Contents disk latest c' call' dirty pins := by
  refine h.of_fields ?_ ?_ ?_ ?_ ?_ hcall
  · intro i
    rw [hsame i]
  · intro i
    rw [hsame i]
  · intro i
    rw [hsame i]
  · intro i
    rw [hsame i]
  · intro i
    rw [hsame i]

theorem update_call_check {m : Call} (hcall : ∀ i b, call p ≠ .check i b)
    (q i b : ℕ) (hq : call q = .check i b) : update call p m q = .check i b := by
  have hne : q ≠ p := by
    rintro rfl
    exact hcall i b hq
  rwa [update_of_ne hne]

/-! ## `bget` -/

section

variable (h : Contents disk latest c call dirty pins)
include h

theorem Contents.bget (hc : CacheInv c call refs pins)
    (hcall : call p = .none) (hget : Xv6.bget rootDev b c = some (i, c')) :
    Contents disk latest c' (update call p (.want i b)) dirty pins := by
  have hcalls : ∀ q j b', call q = .check j b' → update call p (.want i b) q = .check j b' :=
    update_call_check (by simp [hcall])
  rcases bget_eq_some hget with ⟨_, _, _, rfl⟩ | ⟨hmiss, _, hzero, rfl⟩
  · refine h.of_refcnt ?_ hcalls
    intro j
    by_cases hj : j = i
    · subst hj
      simp only [set_buf_self]
    · simp only [set_buf_of_ne c _ hj]
  · -- a buffer with no reference is not locked, so neither dirty nor pinned
    have hunlocked : ∀ q, (c.buf i).lock ≠ some q := by
      intro q hlock
      have := hc.refcnt_pos (hc.mem_refs_of_lock hlock)
      omega
    have hclean : i ∉ dirty := by
      intro hmem
      obtain ⟨q, hlock⟩ := (h.dirty_locked i hmem).2
      exact hunlocked q hlock
    have hnew : b ∉ pins := by
      intro hmem
      obtain ⟨j, hj, hdev, hblock⟩ := hc.pinned b hmem
      exact hmiss j ((hc.mem_order j).mpr hj) hdev hblock
    constructor
    · intro j hj hdev hvalid
      by_cases hji : j = i
      · subst hji
        simp at hvalid
      · rw [set_buf_of_ne c _ hji] at hdev hvalid ⊢
        exact h.coherent j hj hdev hvalid
    · intro q j hlock hnot
      by_cases hji : j = i
      · subst hji
        simp only [set_buf_self] at hlock
        exact absurd hlock (hunlocked q)
      · rw [set_buf_of_ne c _ hji] at hlock ⊢
        exact h.filled q j hlock fun b' hb' => hnot b' (hcalls q j b' hb')
    · intro j hj hdev hpin
      by_cases hji : j = i
      · subst hji
        simp only [set_buf_self] at hpin
        exact absurd hpin hnew
      · rw [set_buf_of_ne c _ hji] at hdev hpin ⊢
        exact h.pinned j hj hdev hpin
    · intro j hmem
      have hji : j ≠ i := by
        rintro rfl
        exact hclean hmem
      rw [set_buf_of_ne c _ hji]
      exact h.dirty_locked j hmem
    · intro b'
      rcases h.clean b' with hb' | hb' | ⟨j, hmem, hblock⟩
      · exact Or.inl hb'
      · exact Or.inr (Or.inl hb')
      · have hji : j ≠ i := by
          rintro rfl
          exact hclean hmem
        refine Or.inr (Or.inr ⟨j, hmem, ?_⟩)
        rw [set_buf_of_ne c _ hji]
        exact hblock

/-! ## Locks -/

theorem Contents.acquiresleep (hcall : call p = .want i b) (hfree : (c.buf i).lock = none) :
    Contents disk latest (c.set i { c.buf i with lock := some p })
      (update call p (.check i b)) dirty pins := by
  have hvalid := c.set_field (i := i) (b := { c.buf i with lock := some p }) Buf.valid rfl
  have hdev := c.set_field (i := i) (b := { c.buf i with lock := some p }) Buf.dev rfl
  have hblock := c.set_field (i := i) (b := { c.buf i with lock := some p }) Buf.blockno rfl
  have hdata := c.set_field (i := i) (b := { c.buf i with lock := some p }) Buf.data rfl
  constructor
  · simp only [hvalid, hdev, hblock, hdata]
    exact h.coherent
  · intro q j hlock hnot
    rw [hvalid]
    by_cases hj : j = i
    · subst hj
      simp only [set_buf_self] at hlock
      cases hlock
      exact absurd (update_self _ _ _) (hnot b)
    · rw [set_buf_of_ne c _ hj] at hlock
      refine h.filled q j hlock fun b' hb' => hnot b' ?_
      exact update_call_check (by simp [hcall]) q j b' hb'
  · simp only [hvalid, hdev, hblock]
    exact h.pinned
  · intro j hmem
    obtain ⟨hv, q, hlock⟩ := h.dirty_locked j hmem
    have hj : j ≠ i := by
      rintro rfl
      rw [hfree] at hlock
      contradiction
    rw [set_buf_of_ne c _ hj]
    exact ⟨hv, q, hlock⟩
  · simp only [hblock]
    exact h.clean

theorem Contents.releasesleep (hcall : call p = .none)
    (hlock : (c.buf i).lock = some p) (hclean : i ∉ dirty) : Contents disk latest
    (c.set i { c.buf i with lock := none }) (update call p (.drop i)) dirty pins := by
  have hvalid := c.set_field (i := i) (b := { c.buf i with lock := none }) Buf.valid rfl
  have hdev := c.set_field (i := i) (b := { c.buf i with lock := none }) Buf.dev rfl
  have hblock := c.set_field (i := i) (b := { c.buf i with lock := none }) Buf.blockno rfl
  have hdata := c.set_field (i := i) (b := { c.buf i with lock := none }) Buf.data rfl
  constructor
  · simp only [hvalid, hdev, hblock, hdata]
    exact h.coherent
  · intro q j hq hnot
    rw [hvalid]
    by_cases hj : j = i
    · subst hj
      simp at hq
    · rw [set_buf_of_ne c _ hj] at hq
      refine h.filled q j hq fun b' hb' => hnot b' ?_
      exact update_call_check (by simp [hcall]) q j b' hb'
  · simp only [hvalid, hdev, hblock]
    exact h.pinned
  · intro j hmem
    have hj : j ≠ i := by
      rintro rfl
      exact hclean hmem
    rw [set_buf_of_ne c _ hj]
    exact h.dirty_locked j hmem
  · simp only [hblock]
    exact h.clean

/-! ## Reading, changing and writing -/

theorem Contents.disk_eq_of_invalid (hc : CacheInv c call refs pins)
    (hi : i < nbuf) (hdev : (c.buf i).dev = rootDev) (hinvalid : (c.buf i).valid ≠ true) :
    disk (c.buf i).blockno = latest (c.buf i).blockno := by
  rcases h.clean (c.buf i).blockno with hb | hb | ⟨j, hmem, hblock⟩
  · exact hb
  · exact absurd (h.pinned i hi hdev hb) hinvalid
  · obtain ⟨hvalid, q, hlock⟩ := h.dirty_locked j hmem
    obtain rfl := hc.eq_of_lock hlock hi hdev hblock.symm
    contradiction

theorem Contents.fill (hc : CacheInv c call refs pins) (hcall : call p = .check i b) :
    Contents disk latest (c.set i (if (c.buf i).valid = true then c.buf i
         else { c.buf i with data := disk (c.buf i).blockno, valid := true }))
      (update call p .none) dirty pins := by
  have hlock := (hc.check p i b hcall).1
  obtain ⟨hi, hdev⟩ := hc.refs_ok _ (hc.mem_refs_of_lock hlock)
  set d := if (c.buf i).valid = true then c.buf i
    else { c.buf i with data := disk (c.buf i).blockno, valid := true }
    with hd
  have hsame : d.dev = (c.buf i).dev ∧ d.blockno = (c.buf i).blockno ∧ d.lock = (c.buf i).lock := by
    rw [hd]
    split <;> exact ⟨rfl, rfl, rfl⟩
  have hvalid : d.valid = true := by
    rw [hd]
    split
    · assumption
    · rfl
  have hdata : d.data = latest (c.buf i).blockno := by
    rw [hd]
    split
    · rename_i hv
      exact h.coherent i hi hdev hv
    · rename_i hv
      exact h.disk_eq_of_invalid hc hi hdev hv
  have hdev' := c.set_field Buf.dev hsame.1
  have hblock' := c.set_field Buf.blockno hsame.2.1
  have hlock' := c.set_field Buf.lock hsame.2.2
  have hmono : ∀ j, (c.buf j).valid = true → ((c.set i d).buf j).valid = true := by
    intro j hj
    by_cases hji : j = i
    · subst hji
      rw [set_buf_self]
      exact hvalid
    · rwa [set_buf_of_ne c _ hji]
  constructor
  · intro j hj hdevj hvalidj
    rw [hblock']
    by_cases hji : j = i
    · subst hji
      rw [set_buf_self]
      exact hdata
    · rw [hdev'] at hdevj
      rw [set_buf_of_ne c _ hji] at hvalidj ⊢
      exact h.coherent j hj hdevj hvalidj
  · intro q j hq hnot
    rw [hlock'] at hq
    by_cases hji : j = i
    · subst hji
      rw [set_buf_self]
      exact hvalid
    · apply hmono
      refine h.filled q j hq fun b' hb' => ?_
      by_cases hqp : q = p
      · subst hqp
        rw [hcall] at hb'
        cases hb'
        exact hji rfl
      · exact hnot b' (by rwa [update_of_ne hqp])
  · intro j hj hdevj hpin
    rw [hdev'] at hdevj
    rw [hblock'] at hpin
    exact hmono j (h.pinned j hj hdevj hpin)
  · intro j hmem
    rw [hlock']
    obtain ⟨hv, hq⟩ := h.dirty_locked j hmem
    exact ⟨hmono j hv, hq⟩
  · simp only [hblock']
    exact h.clean

theorem Contents.store (hc : CacheInv c call refs pins) (data : Block)
    (hlock : (c.buf i).lock = some p) (hcall : call p = .none) :
    Contents disk (update latest (c.buf i).blockno data)
      (c.set i { c.buf i with data := data }) call (i :: dirty) pins := by
  have hvalid := c.set_field (i := i) (b := { c.buf i with data := data }) Buf.valid rfl
  have hdev := c.set_field (i := i) (b := { c.buf i with data := data }) Buf.dev rfl
  have hblock := c.set_field (i := i) (b := { c.buf i with data := data }) Buf.blockno rfl
  have hlock' := c.set_field (i := i) (b := { c.buf i with data := data }) Buf.lock rfl
  constructor
  · intro j hj hdevj hvalidj
    rw [hdev] at hdevj
    rw [hvalid] at hvalidj
    rw [hblock]
    by_cases hji : j = i
    · subst hji
      rw [set_buf_self, update_self]
    · have hne : (c.buf j).blockno ≠ (c.buf i).blockno := fun heq =>
        hji (hc.eq_of_lock hlock hj hdevj heq)
      rw [set_buf_of_ne c _ hji, update_of_ne hne]
      exact h.coherent j hj hdevj hvalidj
  · simp only [hvalid, hlock']
    exact h.filled
  · simp only [hvalid, hdev, hblock]
    exact h.pinned
  · intro j hmem
    rw [hvalid, hlock']
    rcases List.mem_cons.mp hmem with rfl | hmem
    · exact ⟨h.filled p j hlock (by simp [hcall]), p, hlock⟩
    · exact h.dirty_locked j hmem
  · intro b
    simp only [hblock]
    by_cases hb : b = (c.buf i).blockno
    · exact Or.inr (Or.inr ⟨i, List.mem_cons_self, hb.symm⟩)
    · rw [update_of_ne hb]
      rcases h.clean b with hb' | hb' | ⟨j, hmem, hj⟩
      · exact Or.inl hb'
      · exact Or.inr (Or.inl hb')
      · exact Or.inr (Or.inr ⟨j, List.mem_cons_of_mem _ hmem, hj⟩)

theorem Contents.restore {data : Block} (hdata : data = latest (c.buf i).blockno) :
    Contents disk latest (c.set i { c.buf i with data := data }) call dirty pins := by
  have hvalid := c.set_field (i := i) (b := { c.buf i with data := data }) Buf.valid rfl
  have hdev := c.set_field (i := i) (b := { c.buf i with data := data }) Buf.dev rfl
  have hblock := c.set_field (i := i) (b := { c.buf i with data := data }) Buf.blockno rfl
  have hlock := c.set_field (i := i) (b := { c.buf i with data := data }) Buf.lock rfl
  constructor
  · intro j hj hdevj hvalidj
    rw [hdev] at hdevj
    rw [hvalid] at hvalidj
    rw [hblock]
    by_cases hji : j = i
    · subst hji
      rw [set_buf_self]
      exact hdata
    · rw [set_buf_of_ne c _ hji]
      exact h.coherent j hj hdevj hvalidj
  · simp only [hvalid, hlock]
    exact h.filled
  · simp only [hvalid, hdev, hblock]
    exact h.pinned
  · simp only [hvalid, hlock]
    exact h.dirty_locked
  · simp only [hblock]
    exact h.clean

theorem Contents.bwrite (hc : CacheInv c call refs pins)
    (hlock : (c.buf i).lock = some p) (hcall : call p = .none) : Contents
    (update disk (c.buf i).blockno (c.buf i).data) latest c call (dirty.filter (· ≠ i)) pins := by
  have hdata := h.data_of_lock hc hlock (by simp [hcall])
  constructor
  · exact h.coherent
  · exact h.filled
  · exact h.pinned
  · intro j hmem
    exact h.dirty_locked j (List.mem_of_mem_filter hmem)
  · intro b
    by_cases hb : b = (c.buf i).blockno
    · left
      rw [hb, update_self]
      exact hdata
    · rw [update_of_ne hb]
      rcases h.clean b with hb' | hb' | ⟨j, hmem, hj⟩
      · exact Or.inl hb'
      · exact Or.inr (Or.inl hb')
      · refine Or.inr (Or.inr ⟨j, ?_, hj⟩)
        rw [List.mem_filter]
        refine ⟨hmem, ?_⟩
        rw [decide_eq_true_eq]
        rintro rfl
        exact hb hj.symm

/-! ## Pins -/

theorem Contents.pin (hc : CacheInv c call refs pins) {pins' : List ℕ}
    (hlock : (c.buf i).lock = some p) (hcall : call p = .none) (hpins : ∀ b, b ∈ pins' ↔ b ∈ pins ∨
    b = (c.buf i).blockno) : Contents disk latest c call (dirty.filter (· ≠ i)) pins' := by
  constructor
  · exact h.coherent
  · exact h.filled
  · intro j hj hdev hpin
    rcases (hpins _).mp hpin with hpin | hpin
    · exact h.pinned j hj hdev hpin
    · obtain rfl := hc.eq_of_lock hlock hj hdev hpin
      exact h.filled p j hlock (by simp [hcall])
  · intro j hmem
    exact h.dirty_locked j (List.mem_of_mem_filter hmem)
  · intro b
    rcases h.clean b with hb | hb | ⟨j, hmem, hj⟩
    · exact Or.inl hb
    · exact Or.inr (Or.inl ((hpins b).mpr (Or.inl hb)))
    · by_cases hji : j = i
      · subst hji
        exact Or.inr (Or.inl ((hpins b).mpr (Or.inr hj.symm)))
      · refine Or.inr (Or.inr ⟨j, ?_, hj⟩)
        rw [List.mem_filter]
        exact ⟨hmem, by simpa using hji⟩

theorem Contents.unpin (hdisk : disk b = latest b) :
    Contents disk latest c call dirty (pins.erase b) := by
  constructor
  · exact h.coherent
  · exact h.filled
  · intro j hj hdev hpin
    exact h.pinned j hj hdev (List.mem_of_mem_erase hpin)
  · exact h.dirty_locked
  · intro b'
    by_cases hb : b' = b
    · subst hb
      exact Or.inl hdisk
    · rw [List.mem_erase_of_ne hb]
      exact h.clean b'

end

end

end Xv6
