import Xv6.InodeRefs

/-!
# Coherence of the inode table

The copy of an inode in a valid entry that is in use is what is on the disk,
unless the holder of its sleep-lock has changed it.  `ialloc` takes no inode
that such an entry is for, since its type is not 0 there; the entry whose inode
`iput` has marked as free on the disk stays locked until it is not valid.
-/

namespace Xv6

open InodePc

/-- The entry whose inode `iput` has marked, or is about to mark, as free on
the disk. -/
def InodePc.frees : InodePc → Option InodeIx
  | .freeing .update i | .freeing .invalidate i => some i
  | _ => none

/-- The entry that `iput` is about to unlock. -/
def InodePc.unlocks : InodePc → Option InodeIx
  | .freeing .release i => some i
  | _ => none

namespace InodeTable

structure Copies (sb : InodeArea) (s : InodeTable) : Prop where
  held : ∀ i, s.stale i = true → s.lock i ≠ none
  fresh : ∀ i, 0 < s.ref i → s.valid i = true → s.stale i = false →
    s.copy i = s.dinode sb (s.dev i) (s.inum i)
  typed : ∀ i, 0 < s.ref i → s.valid i = true → s.panicked = false →
    (s.copy i).type ≠ 0 ∨ ∃ p, (s.pc p).frees = some i
  freeing : ∀ p i, (s.pc p).frees = some i → s.stale i = true
  unlocking : ∀ p i, (s.pc p).unlocks = some i → s.stale i = false

variable {sb : InodeArea} {s s' : InodeTable} {p q : Slot} {o o' : InodeOwner}
  {i j : InodeIx} {k : InodePc}

theorem dinode_setDinode_self (s : InodeTable) (dev inum : ℕ) (d : Dinode) :
    (s.setDinode sb dev inum d).dinode sb dev inum = d := by
  simp [dinode, setDinode]

theorem dinode_setDinode_of_ne (s : InodeTable) {dev inum dev' inum' : ℕ}
    (d : Dinode) (hne : ¬ (dev' = dev ∧ inum' = inum)) :
    (s.setDinode sb dev inum d).dinode sb dev' inum' = s.dinode sb dev' inum' := by
  unfold dinode setDinode
  by_cases hdev : dev' = dev
  · subst hdev
    have hinum : sb.iblock inum' ≠ sb.iblock inum := fun heq => hne ⟨rfl, sb.iblock_injective heq⟩
    simp [hinum]
  · simp [hdev]

namespace Copies

section

variable (h : s.Copies sb)
include h

theorem keep (hentry : ∀ i, 0 < s'.ref i → s'.valid i = true → 0 < s.ref i ∧
    s.valid i = true ∧ s'.copy i = s.copy i ∧ s'.dev i = s.dev i ∧ s'.inum i = s.inum i)
    (hdisk : s'.disk = s.disk) (hstale : s'.stale = s.stale)
    (hlock : ∀ i, s.stale i = true → s.lock i ≠ none → s'.lock i ≠ none)
    (hfrees : ∀ p, (s'.pc p).frees = (s.pc p).frees) (hunlocks : ∀ p i, (s'.pc p).unlocks = some i →
    s.stale i = false) (hpanic : s'.panicked = false → s.panicked = false) : s'.Copies sb := by
  refine ⟨?_, ?_, ?_, ?_, ?_⟩
  · intro i hi
    rw [hstale] at hi
    exact hlock i hi (h.held i hi)
  · intro i href hvalid hfresh
    obtain ⟨href', hvalid', hcopy, hdev, hinum⟩ := hentry i href hvalid
    rw [hstale] at hfresh
    rw [hcopy, hdev, hinum, dinode, hdisk]
    exact h.fresh i href' hvalid' hfresh
  · intro i href hvalid hcalm
    obtain ⟨href', hvalid', hcopy, _, _⟩ := hentry i href hvalid
    rw [hcopy]
    simp only [hfrees]
    exact h.typed i href' hvalid' (hpanic hcalm)
  · intro p i hp
    rw [hfrees] at hp
    rw [hstale]
    exact h.freeing p i hp
  · intro p i hp
    rw [hstale]
    exact hunlocks p i hp

theorem frame (href : s'.ref = s.ref) (hvalid : s'.valid = s.valid)
    (hcopy : s'.copy = s.copy) (hdev : s'.dev = s.dev) (hinum : s'.inum = s.inum)
    (hdisk : s'.disk = s.disk) (hstale : s'.stale = s.stale) (hlock : s'.lock = s.lock)
    (hpc : s'.pc = s.pc) (hpanic : s'.panicked = false → s.panicked = false) : s'.Copies sb := by
  refine h.keep ?_ hdisk hstale ?_ ?_ ?_ hpanic
  · intro i hi hv
    rw [href] at hi
    rw [hvalid] at hv
    rw [hcopy, hdev, hinum]
    exact ⟨hi, hv, rfl, rfl, rfl⟩
  · intro i _ hi
    rwa [hlock]
  · intro p
    rw [hpc]
  · intro p i hp
    rw [hpc] at hp
    exact h.unlocking p i hp

theorem goto (hfrees : k.frees = (s.pc p).frees)
    (hunlocks : ∀ i, k.unlocks = some i → s.stale i = false) : (s.goto p k).Copies sb := by
  refine h.keep (fun i hi hv => ⟨hi, hv, rfl, rfl, rfl⟩) rfl rfl (fun i _ hi => hi) ?_ ?_ id
  · intro q
    by_cases hqp : q = p
    · simp [InodeTable.goto, hqp, hfrees]
    · simp [InodeTable.goto, hqp]
  · intro q i hq
    by_cases hqp : q = p
    · subst hqp
      simp only [InodeTable.goto, Function.update_self] at hq
      exact hunlocks i hq
    · simp only [InodeTable.goto, Function.update_of_ne hqp] at hq
      exact h.unlocking q i hq

theorem addRef (hi : 0 < s.ref i) : (s.addRef o i).Copies sb := by
  refine h.keep ?_ rfl rfl (fun j _ hj => hj) (fun _ => rfl) h.unlocking id
  intro j hj hv
  refine ⟨?_, hv, rfl, rfl, rfl⟩
  by_cases hji : j = i
  · rw [hji]
    exact hi
  · simpa [InodeTable.addRef, hji] using hj

theorem recycle (dev inum : ℕ) : (s.recycle o i dev inum).Copies sb := by
  refine h.keep ?_ rfl rfl (fun j _ hj => hj) (fun _ => rfl) h.unlocking id
  intro j hj hv
  by_cases hji : j = i
  · simp [InodeTable.recycle, hji] at hv
  · simpa [InodeTable.recycle, hji] using And.intro hj hv

theorem setLock {holder : Slot × InodeOwner} : (s.setLock i (some holder)).Copies sb := by
  refine h.keep (fun j hj hv => ⟨hj, hv, rfl, rfl, rfl⟩) rfl rfl ?_ (fun _ => rfl) h.unlocking id
  intro j _ hj
  by_cases hji : j = i
  · simp [InodeTable.setLock, hji]
  · simpa [InodeTable.setLock, hji] using hj

theorem unlock (hi : s.stale i = false) : (s.setLock i none).Copies sb := by
  refine h.keep (fun j hj hv => ⟨hj, hv, rfl, rfl, rfl⟩) rfl rfl ?_ (fun _ => rfl) h.unlocking id
  intro j hj hlock
  by_cases hji : j = i
  · rw [hji, hi] at hj
    contradiction
  · simpa [InodeTable.setLock, hji] using hlock

theorem giveRef : (s.giveRef o o' i).Copies sb := h.frame rfl rfl rfl rfl rfl rfl rfl rfl rfl id

theorem dropRef : (s.dropRef o i).Copies sb := by
  refine h.keep ?_ rfl rfl (fun j _ hj => hj) (fun _ => rfl) h.unlocking id
  intro j hj hv
  refine ⟨?_, hv, rfl, rfl, rfl⟩
  by_cases hji : j = i
  · subst hji
    simp only [InodeTable.dropRef, Function.update_self] at hj
    omega
  · simpa [InodeTable.dropRef, hji] using hj

theorem modify (hlock : s.lock i ≠ none) {d : Dinode} (htype : d.type = (s.copy i).type ∨
    k.frees = some i) (hp : (s.pc p).frees = none) (hk : ∀ j, k.frees = some j → j = i)
    (hunlocks : k.unlocks = none) (hother : ∀ q, q ≠ p → (s.pc q).unlocks ≠ some i) :
    (((s.setCopy i d).setStale i true).goto p k).Copies sb := by
  have hfrees : ∀ j, (∃ q, (s.pc q).frees = some j) →
      ∃ q, (Function.update s.pc p k q).frees = some j := by
    rintro j ⟨q, hq⟩
    have hqp : q ≠ p := by
      rintro rfl
      rw [hp] at hq
      contradiction
    refine ⟨q, ?_⟩
    rw [Function.update_of_ne hqp]
    exact hq
  refine ⟨?_, ?_, ?_, ?_, ?_⟩
  · intro j hj
    by_cases hji : j = i
    · rw [hji]
      exact hlock
    · refine h.held j ?_
      simpa [InodeTable.goto, setStale, setCopy, hji] using hj
  · intro j href hvalid hfresh
    by_cases hji : j = i
    · simp [InodeTable.goto, setStale, hji] at hfresh
    · simp only [InodeTable.goto, setStale, setCopy, Function.update_of_ne hji] at hfresh ⊢
      exact h.fresh j href hvalid hfresh
  · intro j href hvalid hcalm
    have hold := h.typed j href hvalid hcalm
    by_cases hji : j = i
    · subst hji
      simp only [InodeTable.goto, setStale, setCopy, Function.update_self]
      rcases htype with htype | hfree
      · rw [htype]
        exact hold.imp_right (hfrees j)
      · refine Or.inr ⟨p, ?_⟩
        rw [Function.update_self]
        exact hfree
    · simp only [InodeTable.goto, setStale, setCopy, Function.update_of_ne hji]
      exact hold.imp_right (hfrees j)
  · intro q j hq
    by_cases hji : j = i
    · simp [InodeTable.goto, setStale, hji]
    · simp only [InodeTable.goto, setStale, setCopy, Function.update_of_ne hji]
      by_cases hqp : q = p
      · subst hqp
        simp only [InodeTable.goto, Function.update_self] at hq
        exact absurd (hk j hq) hji
      · simp only [InodeTable.goto, Function.update_of_ne hqp] at hq
        exact h.freeing q j hq
  · intro q j hq
    by_cases hqp : q = p
    · subst hqp
      simp [InodeTable.goto, hunlocks] at hq
    · simp only [InodeTable.goto, Function.update_of_ne hqp] at hq
      by_cases hji : j = i
      · rw [hji] at hq
        exact absurd hq (hother q hqp)
      · simp only [InodeTable.goto, setStale, setCopy, Function.update_of_ne hji]
        exact h.unlocking q j hq

theorem iupdate (ht : s.Table) (hi : 0 < s.ref i) : (s.iupdate sb i).Copies sb := by
  refine ⟨h.held, ?_, h.typed, h.freeing, h.unlocking⟩
  intro j href hvalid hfresh
  change s.copy j = (s.iupdate sb i).dinode sb (s.dev j) (s.inum j)
  by_cases hji : j = i
  · rw [hji, InodeTable.iupdate, dinode_setDinode_self]
  · rw [InodeTable.iupdate, dinode_setDinode_of_ne]
    · exact h.fresh j href hvalid hfresh
    · exact fun heq => hji (ht.unique j i href hi heq.1 heq.2)

theorem clean (hcopy : s.copy i = s.dinode sb (s.dev i) (s.inum i))
    (hnot : ∀ q, (s.pc q).frees ≠ some i) : (s.setStale i false).Copies sb := by
  refine ⟨?_, ?_, h.typed, ?_, ?_⟩
  · intro j hj
    by_cases hji : j = i
    · simp [setStale, hji] at hj
    · refine h.held j ?_
      simpa [setStale, hji] using hj
  · intro j href hvalid hfresh
    by_cases hji : j = i
    · rw [hji]
      exact hcopy
    · refine h.fresh j href hvalid ?_
      simpa [setStale, hji] using hfresh
  · intro q j hq
    have hji : j ≠ i := by
      rintro rfl
      exact hnot q hq
    simp only [setStale, Function.update_of_ne hji]
    exact h.freeing q j hq
  · intro q j hq
    by_cases hji : j = i
    · simp [setStale, hji]
    · simp only [setStale, Function.update_of_ne hji]
      exact h.unlocking q j hq

end

end Copies

theorem Table.frees_lock (h : s.Table) (hq : (s.pc q).frees = some i) :
    s.lock i = some (q, .call q) := by
  refine h.locks q _ i ?_
  cases hpc : s.pc q with
  | freeing f j =>
    rw [hpc] at hq
    cases f <;> simp only [InodePc.frees, reduceCtorEq, Option.some.injEq] at hq
    all_goals
      subst hq
      rfl
  | _ =>
    rw [hpc] at hq
    contradiction

theorem Table.unlocks_lock (h : s.Table) (hq : (s.pc q).unlocks = some i) :
    s.lock i = some (q, .call q) := by
  refine h.locks q _ i ?_
  cases hpc : s.pc q with
  | freeing f j =>
    rw [hpc] at hq
    cases f <;> cases hq
    rfl
  | _ =>
    rw [hpc] at hq
    contradiction

namespace Copies

theorem not_frees (ht : s.Table) (hlock : s.lock i = some (p, o))
    (hp : (s.pc p).frees = none) (q : Slot) : (s.pc q).frees ≠ some i := by
  intro hq
  have := ht.frees_lock hq
  rw [hlock] at this
  simp only [Option.some.injEq, Prod.mk.injEq] at this
  rw [← this.1, hp] at hq
  contradiction

theorem not_unlocks (ht : s.Table) (hlock : s.lock i = some (p, o))
    (q : Slot) (hqp : q ≠ p) : (s.pc q).unlocks ≠ some i := by
  intro hq
  have := ht.unlocks_lock hq
  rw [hlock] at this
  simp only [Option.some.injEq, Prod.mk.injEq] at this
  exact hqp this.1.symm

section

variable (h : s.Copies sb)
include h

theorem iget (p : Slot) (dev inum : ℕ) : (s.iget p dev inum).Copies sb := by
  unfold InodeTable.iget
  split
  · rename_i i hscan
    exact h.addRef (igetScan_found hscan).1
  · exact h.recycle dev inum
  · exact h.frame rfl rfl rfl rfl rfl rfl rfl rfl rfl (by simp [panic])

theorem iallocRound (hcalm : s.panicked = false) {dev inum : ℕ} {type : Int16}
    (hpc : s.pc p = .searching dev type inum) : (s.iallocRound sb p dev type inum).Copies sb := by
  have hp : (s.pc p).frees = none := by
    rw [hpc]
    rfl
  unfold InodeTable.iallocRound
  split
  · split
    · rename_i hfree
      refine Copies.goto ?_ hp.symm (by simp [unlocks])
      refine ⟨h.held, ?_, h.typed, h.freeing, h.unlocking⟩
      intro j href hvalid hfresh
      have hcopy := h.fresh j href hvalid hfresh
      change s.copy j = (s.setDinode sb dev inum _).dinode sb (s.dev j) (s.inum j)
      rw [dinode_setDinode_of_ne]
      · exact hcopy
      · rintro ⟨hdev, hinum⟩
        rw [hdev, hinum] at hcopy
        rcases h.typed j href hvalid hcalm with htype | ⟨q, hq⟩
        · rw [hcopy] at htype
          exact htype hfree
        · change s.stale j = false at hfresh
          rw [h.freeing q j hq] at hfresh
          contradiction
    · exact h.goto hp.symm (by simp [unlocks])
  · exact h.goto hp.symm (by simp [unlocks])

theorem ilockRead (hpc : s.pc p = .reading o i) : (s.ilockRead sb p i).Copies sb := by
  have hp : (s.pc p).frees = none := by
    rw [hpc]
    rfl
  have hfresh : ∀ j, 0 < s.ref j → Function.update s.valid i true j = true → s.stale j = false →
      Function.update s.copy i (s.dinode sb (s.dev i) (s.inum i)) j =
        s.dinode sb (s.dev j) (s.inum j) := by
    intro j href hvalid hstale
    by_cases hji : j = i
    · rw [hji, Function.update_self]
    · rw [Function.update_of_ne hji] at hvalid ⊢
      exact h.fresh j href hvalid hstale
  unfold InodeTable.ilockRead
  split
  · exact h.goto hp.symm (by simp [unlocks])
  · split
    · exact ⟨h.held, hfresh, by simp [panic], h.freeing, h.unlocking⟩
    · rename_i htype
      refine Copies.goto ?_ hp.symm (by simp [unlocks])
      refine ⟨h.held, hfresh, ?_, h.freeing, h.unlocking⟩
      intro j href hvalid hcalm
      by_cases hji : j = i
      · left
        simpa [setValid, setCopy, hji] using htype
      · simp only [setValid, setCopy, Function.update_of_ne hji] at hvalid ⊢
        exact h.typed j href hvalid hcalm

theorem invalidate (ht : s.Table) (hpc : s.pc p = .freeing .invalidate i) :
    (((s.setValid i false).setStale i false).goto p (.freeing .release i)).Copies sb := by
  have hlock : s.lock i = some (p, .call p) := ht.frees_lock (by rw [hpc]; rfl)
  refine ⟨?_, ?_, ?_, ?_, ?_⟩
  · intro j hj
    by_cases hji : j = i
    · simp [InodeTable.goto, setStale, hji] at hj
    · refine h.held j ?_
      simpa [InodeTable.goto, setStale, setValid, hji] using hj
  · intro j href hvalid hfresh
    by_cases hji : j = i
    · simp [InodeTable.goto, setStale, setValid, hji] at hvalid
    · simp only [InodeTable.goto, setStale, setValid, Function.update_of_ne hji] at hvalid hfresh
      exact h.fresh j href hvalid hfresh
  · intro j href hvalid hcalm
    by_cases hji : j = i
    · simp [InodeTable.goto, setStale, setValid, hji] at hvalid
    · simp only [InodeTable.goto, setStale, setValid, Function.update_of_ne hji] at hvalid ⊢
      refine (h.typed j href hvalid hcalm).imp_right ?_
      rintro ⟨q, hq⟩
      have hqp : q ≠ p := by
        rintro rfl
        rw [hpc] at hq
        simp only [InodePc.frees, Option.some.injEq] at hq
        exact hji hq.symm
      exact ⟨q, by simpa [hqp] using hq⟩
  · intro q j hq
    have hqp : q ≠ p := by
      rintro rfl
      simp [InodeTable.goto, InodePc.frees] at hq
    simp only [InodeTable.goto, Function.update_of_ne hqp] at hq
    have hji : j ≠ i := by
      rintro rfl
      have := ht.frees_lock hq
      rw [hlock] at this
      simp only [Option.some.injEq, Prod.mk.injEq] at this
      exact hqp this.1.symm
    simp only [InodeTable.goto, setStale, setValid, Function.update_of_ne hji]
    exact h.freeing q j hq
  · intro q j hq
    by_cases hji : j = i
    · simp [InodeTable.goto, setStale, hji]
    · have hqp : q ≠ p := by
        rintro rfl
        simp only [InodeTable.goto, Function.update_self, unlocks, Option.some.injEq] at hq
        exact hji hq.symm
      simp only [InodeTable.goto, Function.update_of_ne hqp] at hq
      simp only [InodeTable.goto, setStale, setValid, Function.update_of_ne hji]
      exact h.unlocking q j hq

theorem iputFree (ht : s.Table) {f : FreeStep} (hpc : s.pc p = .freeing f i) :
    (s.iputFree sb p i f).Copies sb := by
  have hhas : s.Has p (.call p) i := ht.used p _ i (by rw [hpc]; rfl)
  have href := ht.ref_pos hhas
  have hlock : f ≠ .drop → s.lock i = some (p, .call p) := by
    intro hf
    refine ht.locks p _ i ?_
    rw [hpc, locks_freeing hf]
  cases f with
  | trunc =>
    have hlock := hlock (by simp)
    exact h.modify (by simp [hlock]) (Or.inl rfl) (by rw [hpc]; rfl)
      (by simp [InodePc.frees]) rfl (not_unlocks ht hlock)
  | truncUpdate =>
    have hp : (s.pc p).frees = none := by
      rw [hpc]
      rfl
    have hnot := not_frees ht (hlock (by simp)) hp
    have hclean := (h.iupdate ht href).clean (dinode_setDinode_self s _ _ _).symm hnot
    exact hclean.goto hp.symm (by simp [unlocks])
  | clearType =>
    have hlock := hlock (by simp)
    refine h.modify (by simp [hlock]) (Or.inr rfl) (by rw [hpc]; rfl) ?_ rfl (not_unlocks ht hlock)
    intro j hj
    simp only [InodePc.frees, Option.some.injEq] at hj
    exact hj.symm
  | update =>
    refine (h.iupdate ht href).goto ?_ (by simp [unlocks])
    change _ = (s.pc p).frees
    rw [hpc]
    rfl
  | invalidate => exact h.invalidate ht hpc
  | release =>
    have hstale := h.unlocking p i (by rw [hpc]; rfl)
    exact (h.unlock hstale).goto (by
      change _ = (s.pc p).frees
      rw [hpc]
      rfl) (by simp [unlocks])
  | drop =>
    exact h.dropRef.goto (by
      change _ = (s.pc p).frees
      rw [hpc]
      rfl) (by simp [unlocks])

theorem next (ht : s.Table) (hcalm : s.panicked = false)
    (hnext : s.next sb p = some s') : s'.Copies sb := by
  unfold InodeTable.next at hnext
  cases hpc : s.pc p with
  | idle => simp [hpc] at hnext
  | acquiring o i =>
    simp only [hpc] at hnext
    split at hnext
    · cases hnext
      exact h.setLock.goto (by
        change _ = (s.pc p).frees
        rw [hpc]
        rfl) (by simp [unlocks])
    · contradiction
  | reading o i =>
    rw [hpc] at hnext
    cases hnext
    exact h.ilockRead hpc
  | freeing f i =>
    rw [hpc] at hnext
    cases hnext
    exact h.iputFree ht hpc
  | searching dev type inum =>
    rw [hpc] at hnext
    cases hnext
    exact h.iallocRound hcalm hpc
  | getting dev inum =>
    rw [hpc] at hnext
    cases hnext
    refine (h.iget p dev inum).goto ?_ (by simp [unlocks])
    have hsame : (s.iget p dev inum).pc = s.pc := by
      unfold InodeTable.iget
      split <;> rfl
    rw [hsame, hpc]
    rfl

theorem call (ht : s.Table) {l : InodeLabel} (hpc : s.pc l.proc = .idle)
    (hcall : s.call sb l = some s') : s'.Copies sb := by
  have hidle : (s.pc l.proc).frees = none := by
    rw [hpc]
    rfl
  cases l with
  | iget p dev inum =>
    cases hcall
    exact h.iget p dev inum
  | idup p o i o' =>
    simp only [InodeTable.call, ite_eq_some] at hcall
    obtain ⟨hhas, rfl⟩ := hcall
    exact h.addRef (ht.ref_pos hhas)
  | give p o i o' =>
    simp only [InodeTable.call, ite_eq_some] at hcall
    obtain ⟨_, rfl⟩ := hcall
    exact h.giveRef
  | ilock p o i =>
    simp only [InodeTable.call, Option.ite_none_right_eq_some] at hcall
    obtain ⟨_, hcall⟩ := hcall
    split at hcall
    · cases hcall
      exact h.frame rfl rfl rfl rfl rfl rfl rfl rfl rfl (by simp [panic])
    · cases hcall
      exact h.goto hidle.symm (by simp [unlocks])
  | modify p i d =>
    simp only [InodeTable.call, ite_eq_some, Option.map_eq_some_iff] at hcall
    obtain ⟨⟨⟨⟨q, o⟩, hlock, hq⟩, htype⟩, rfl⟩ := hcall
    change q = p at hq
    subst hq
    change s.pc q = .idle at hpc
    have := h.modify (p := q) (k := .idle)
      (by simp [hlock]) (Or.inl htype) hidle (by simp [InodePc.frees]) rfl (not_unlocks ht hlock)
    rwa [goto_self (s := (s.setCopy i d).setStale i true) hpc] at this
  | iupdate p i =>
    simp only [InodeTable.call, ite_eq_some, Option.map_eq_some_iff] at hcall
    obtain ⟨⟨⟨q, o⟩, hlock, hq⟩, rfl⟩ := hcall
    change q = p at hq
    subst hq
    have href := ht.ref_pos (ht.locked q o i hlock)
    have hnot := not_frees ht hlock hidle
    exact (h.iupdate ht href).clean (dinode_setDinode_self s _ _ _).symm hnot
  | iunlock p i =>
    simp only [InodeTable.call, Option.ite_none_left_eq_some, Option.some.injEq] at hcall
    obtain ⟨hstale, rfl⟩ := hcall
    unfold InodeTable.iunlock
    split
    · exact h.frame rfl rfl rfl rfl rfl rfl rfl rfl rfl (by simp [panic])
    · rename_i hheld
      simp only [ne_eq, not_or, not_not] at hheld
      refine h.unlock ?_
      simpa [hheld.1] using hstale
  | ialloc p dev type =>
    cases hcall
    exact h.goto hidle.symm (by simp [unlocks])
  | iput p o i =>
    simp only [InodeTable.call, ite_eq_some] at hcall
    obtain ⟨_, rfl⟩ := hcall
    unfold InodeTable.iput
    split
    · split
      · exact h.giveRef.setLock.goto hidle.symm (by simp [unlocks])
      · exact h.frame rfl rfl rfl rfl rfl rfl rfl rfl rfl id
    · exact h.dropRef
  | next p => simp [InodeTable.call] at hcall

theorem move (ht : s.Table) {l : InodeLabel}
    (hstep : InodeTable.step sb l s = some s') : s'.Copies sb := by
  obtain ⟨hcalm, ⟨hpc, hcall⟩ | ⟨p, hnext⟩⟩ := step_cases hstep
  · exact h.call ht hpc hcall
  · exact h.next ht hcalm hnext

end

end Copies

theorem iinit_copies (sb : InodeArea) (disk : ℕ → ℕ × Fin ipb → Dinode) :
    (iinit disk).Copies sb := by
  refine ⟨?_, ?_, ?_, ?_, ?_⟩
  · simp [iinit]
  · simp [iinit]
  · simp [iinit]
  · simp [iinit, InodePc.frees]
  · simp [iinit, unlocks]

end InodeTable

/-- A disk with a directory as inode 1 and a file as inode 2. -/
def twoInodes : ℕ → ℕ × Fin ipb → Dinode := fun _ x =>
  if x = (32, 1) then { Dinode.fresh 1 with nlink := 1 }
  else if x = (32, 2) then { Dinode.fresh 2 with nlink := 1 }
  else Dinode.fresh 0

end Xv6
