import Xv6.FileRefs

/-!
# Opened files

Filling in an entry of `ftable` opens a file; the `fileclose` that drops the
last reference takes the file out of the entry and calls `pipeclose` or `iput`
for it.  Files are numbered in the order in which they are opened.
-/

namespace Xv6

namespace FileTable

variable {s s' : FileTable} {p q : Slot} {f : FileIx} {fd : Fd} {k : FilePc}

/-- How many entries hold the file with number `n`. -/
def openEntries (s : FileTable) (n : ℕ) : ℕ := ∑ f, if s.obj f ≠ none ∧ s.openNo f = n then 1 else 0

/-- How many calls of `fileclose` are about to close it. -/
def closingCalls (s : FileTable) (n : ℕ) : ℕ := ∑ p, if (s.pc p).pending = some n then 1 else 0

/-- Every file that has been opened is in one entry, or is being closed, or
has been closed once. -/
def Opens (s : FileTable) : Prop :=
  ∀ n, s.openEntries n + s.closingCalls n + s.closed.count n =
    if n < s.opens then 1 else 0

theorem closingCalls_update (s s' : FileTable) (hpc : s'.pc = Function.update s.pc p k) (n : ℕ) :
    s'.closingCalls n + (if (s.pc p).pending = some n then 1 else 0) =
      s.closingCalls n + if k.pending = some n then 1 else 0 := by
  have h := Counting.sum_change (fun q => if (s.pc q).pending = some n then 1 else 0)
    (fun q => if (s'.pc q).pending = some n then 1 else 0) p (by
      intro q hq
      simp only [hpc, Function.update_of_ne hq])
  simp only [hpc, Function.update_self] at h
  simpa [closingCalls, hpc] using h

theorem openEntries_update (s s' : FileTable) (obj : Option FileObj) (m : ℕ)
    (hobj : s'.obj = Function.update s.obj f obj) (hno : s'.openNo = Function.update s.openNo f m)
    (n : ℕ) : s'.openEntries n + (if s.obj f ≠ none ∧ s.openNo f = n then 1 else 0) =
    s.openEntries n + if obj ≠ none ∧ m = n then 1 else 0 := by
  have h := Counting.sum_change (fun g => if s.obj g ≠ none ∧ s.openNo g = n then 1 else 0)
    (fun g => if s'.obj g ≠ none ∧ s'.openNo g = n then 1 else 0) f (by
      intro g hg
      simp only [hobj, hno, Function.update_of_ne hg])
  simp only [hobj, hno, Function.update_self] at h
  simpa [openEntries, hobj, hno] using h

namespace Opens

section

variable (h : s.Opens)
include h

theorem frame (hobj : s'.obj = s.obj) (hno : s'.openNo = s.openNo) (hopens : s'.opens = s.opens)
    (hclosed : s'.closed = s.closed) (hpc : ∀ q, (s'.pc q).pending = (s.pc q).pending) :
    s'.Opens := by
  intro n
  have := h n
  simp only [openEntries, closingCalls, hobj, hno, hopens, hclosed, hpc] at this ⊢
  exact this

theorem goto (hp : (s.pc p).pending = none) (hk : k.pending = none) : (s.goto p k).Opens := by
  refine h.frame rfl rfl rfl rfl ?_
  intro q
  by_cases hq : q = p
  · simp [FileTable.goto, hq, hp, hk]
  · simp [FileTable.goto, hq]

theorem close {n : ℕ} (hp : (s.pc p).pending = some n) (hk : k.pending = none) :
    ((s.closeObj n).goto p k).Opens := by
  intro m
  have hcalls := closingCalls_update s ((s.closeObj n).goto p k) (p := p) (k := k) rfl m
  have hcount : ((s.closeObj n).goto p k).closed.count m =
      s.closed.count m + if n = m then 1 else 0 := by
    simp [FileTable.goto, closeObj, List.count_singleton]
  have hentries : ((s.closeObj n).goto p k).openEntries m = s.openEntries m := rfl
  have hopens : ((s.closeObj n).goto p k).opens = s.opens := rfl
  have := h m
  simp only [hp, hk, Option.some.injEq, reduceCtorEq, if_false] at hcalls
  rw [hopens]
  omega

theorem initFile (hobj : s.obj f = none) (obj : FileObj) : (s.initFile f obj).Opens := by
  intro n
  have hentries := openEntries_update s (s.initFile f obj) (some obj) s.opens (f := f) rfl rfl n
  have hcalls : (s.initFile f obj).closingCalls n = s.closingCalls n := rfl
  have hclosed : (s.initFile f obj).closed = s.closed := rfl
  have hopens : (s.initFile f obj).opens = s.opens + 1 := rfl
  have := h n
  simp only [hobj, ne_eq, not_true_eq_false, false_and, if_false,
    reduceCtorEq, not_false_eq_true, true_and] at hentries
  rw [hcalls, hclosed, hopens]
  by_cases heq : s.opens = n
  · rw [if_pos heq] at hentries
    rw [if_neg (by omega)] at this
    rw [if_pos (by omega)]
    omega
  · rw [if_neg heq] at hentries
    by_cases hlt : n < s.opens
    · rw [if_pos hlt] at this
      rw [if_pos (by omega)]
      omega
    · rw [if_neg hlt] at this
      rw [if_neg (by omega)]
      omega

theorem fileclose (href : 0 < s.ref f) (hp : (s.pc p).pending = none)
    (hk : k.pending = (s.lastClose f).map Prod.fst) : ((s.fileclose f).goto p k).Opens := by
  unfold FileTable.fileclose
  rw [if_neg (by omega)]
  split
  · rename_i hmore
    have hlast : s.lastClose f = none := if_neg (by omega)
    rw [hlast] at hk
    exact Opens.goto (h.frame rfl rfl rfl rfl (fun _ => rfl)) hp hk
  · rename_i hone
    have hlast : s.lastClose f = (s.obj f).map fun obj => (s.openNo f, obj) := if_pos (by omega)
    intro n
    have hentries := openEntries_update s ((s.clearFile f).goto p k) none
      (s.openNo f) (f := f) rfl (by simp [FileTable.goto, clearFile]) n
    have hcalls := closingCalls_update s ((s.clearFile f).goto p k) (p := p) (k := k) rfl n
    have hclosed : ((s.clearFile f).goto p k).closed = s.closed := rfl
    have hopens : ((s.clearFile f).goto p k).opens = s.opens := rfl
    have hpending : (k.pending = some n) ↔ (s.obj f ≠ none ∧ s.openNo f = n) := by
      rw [hk, hlast]
      cases s.obj f <;> simp
    have := h n
    simp only [hp, reduceCtorEq, if_false, hpending] at hcalls
    simp only [not_true_eq_false, false_and, if_false, ne_eq] at hentries hcalls
    rw [hclosed, hopens]
    omega

theorem keep (hobj : s'.obj = s.obj) (hno : s'.openNo = s.openNo) (hopens : s'.opens = s.opens)
    (hclosed : s'.closed = s.closed) (hpc : s'.pc = s.pc) (hp : (s.pc p).pending = none)
    (hk : k.pending = none) : (s'.goto p k).Opens := by
  refine (h.frame hobj hno hopens hclosed ?_).goto ?_ hk
  · intro q
    rw [hpc]
  · rwa [hpc]

theorem filedup (hp : (s.pc p).pending = none) (hk : k.pending = none) :
    ((s.filedup f).goto p k).Opens := by
  unfold FileTable.filedup
  split <;> exact h.keep rfl rfl rfl rfl rfl hp hk

theorem closeNext (href : 0 < s.ref f) (hp : (s.pc p).pending = none) (fs : List FileIx) (ret : ℤ) :
    (s.closeNext p f fs ret).Opens := by
  refine h.fileclose href hp ?_
  cases s.lastClose f <;> rfl

theorem exitClose (href : 0 < s.ref f) (hp : (s.pc p).pending = none) (fd : Fd) :
    (s.exitClose p fd f).Opens := by
  refine h.fileclose href hp ?_
  cases s.lastClose f <;> rfl

theorem forkFile (hr : s.Refs) {np : Slot} {i : ℕ} (hpc : s.pc p = .forkFile np i) :
    (s.forkFile p np i).Opens := by
  have hp : (s.pc p).pending = none := by rw [hpc]; rfl
  have hplace := hr.place p
  rw [hpc] at hplace
  have hnp : (s.pc np).pending = none := by
    rcases hr.idle np (by rw [hplace.1]; decide) with hx | ⟨ret, hx⟩
    · rw [hx]; rfl
    · rw [hx]; rfl
  unfold FileTable.forkFile
  split
  · split
    · exact h.goto hp rfl
    · exact h.filedup hp rfl
  · refine (h.keep rfl rfl rfl rfl rfl hnp rfl).goto ?_ rfl
    by_cases hq : p = np
    · simp [FileTable.goto, hq, FilePc.pending]
    · simpa [FileTable.goto, hq] using hp

theorem exitFile (hr : s.Refs) {i : ℕ} (hpc : s.pc p = .exitFile i) : (s.exitFile p i).Opens := by
  have hp : (s.pc p).pending = none := by rw [hpc]; rfl
  unfold FileTable.exitFile
  split
  · split
    · exact h.goto hp rfl
    · rename_i f hfd
      have hle := hr.refs_le p f
      have hpos : 0 < s.refs p f := by
        unfold refs
        rw [hpc]
        exact Nat.add_pos_left (slotRefs_pos hfd) _
      exact h.exitClose (by omega) hp _
  · exact h.keep rfl rfl rfl rfl rfl hp rfl

theorem next (hr : s.Refs) {ok : Bool} {pi : ℕ} (hnext : s.next p ok pi = some s') : s'.Opens := by
  unfold FileTable.next at hnext
  have hheld : ∀ f ∈ (s.pc p).held, 0 < s.ref f := by
    intro f hf
    have hle := hr.refs_le p f
    have hcount := List.count_pos_iff.mpr hf
    unfold refs at hle
    omega
  have hfresh := hr.fresh p
  have hplace := hr.place p
  cases hpc : s.pc p with
  | user ret | exited => simp [hpc] at hnext
  | dupCount f fd =>
    rw [hpc] at hnext
    cases hnext
    exact h.filedup (by rw [hpc]; rfl) rfl
  | closing fs ret =>
    cases fs with
    | nil =>
      rw [hpc] at hnext
      cases hnext
      exact h.goto (by rw [hpc]; rfl) rfl
    | cons f fs =>
      rw [hpc] at hnext
      cases hnext
      have hf : f ∈ (s.pc p).held := by simp [hpc, FilePc.held]
      exact h.closeNext (hheld f hf) (by rw [hpc]; rfl) fs ret
  | closeObj n obj fs ret | exitObj fd n obj =>
    rw [hpc] at hnext
    cases hnext
    exact h.close (by rw [hpc]; rfl) rfl
  | openFd f obj | pipeFirst f0 | pipeInit f0 f1 | pipeCopy f0 f1 fd0 fd1 =>
    simp only [hpc] at hnext
    split at hnext <;> cases hnext
    · exact h.goto (by rw [hpc]; rfl) rfl
    · exact h.keep rfl rfl rfl rfl rfl (by rw [hpc]; rfl) rfl
  | openInit f fd obj =>
    rw [hpc] at hnext
    cases hnext
    have hf : f ∈ (s.pc p).fresh := by simp [hpc, FilePc.fresh]
    have hp : (s.pc p).pending = none := by rw [hpc]; rfl
    exact (h.initFile (hfresh f hf).2 obj).goto hp rfl
  | pipeBoth f0 f1 =>
    simp only [hpc] at hnext
    have hp : (s.pc p).pending = none := by rw [hpc]; rfl
    split at hnext <;> cases hnext
    · rw [hpc] at hplace hfresh
      have hf0 := (hfresh f0 (by simp [FilePc.fresh])).2
      have hf1 := (hfresh f1 (by simp [FilePc.fresh])).2
      have hne : f1 ≠ f0 := Ne.symm hplace
      have hf1' : (s.initFile f0 (.pipe pi false)).obj f1 = none := by
        simp [FileTable.initFile, hne, hf1]
      exact ((h.initFile hf0 _).initFile hf1' _).goto hp rfl
    · exact h.goto hp rfl
  | pipeFd f0 f1 fd0 =>
    simp only [hpc] at hnext
    split at hnext <;> cases hnext <;>
      exact h.keep rfl rfl rfl rfl rfl (by rw [hpc]; rfl) rfl
  | forkFile np i =>
    rw [hpc] at hnext
    cases hnext
    exact h.forkFile hr hpc
  | forkSet np fd f | exitClear fd =>
    rw [hpc] at hnext
    cases hnext
    exact h.keep rfl rfl rfl rfl rfl (by rw [hpc]; rfl) rfl
  | exitFile i =>
    rw [hpc] at hnext
    cases hnext
    exact h.exitFile hr hpc

theorem sysDup (hp : (s.pc p).pending = none) (n : ℤ) : (s.sysDup p n).Opens := by
  unfold FileTable.sysDup
  split
  · exact h.goto hp rfl
  · split
    · exact h.goto hp rfl
    · exact h.keep rfl rfl rfl rfl rfl hp rfl

theorem sysClose (hp : (s.pc p).pending = none) (n : ℤ) : (s.sysClose p n).Opens := by
  unfold FileTable.sysClose
  split
  · exact h.goto hp rfl
  · exact h.keep rfl rfl rfl rfl rfl hp rfl

theorem sysOpen (hp : (s.pc p).pending = none) (obj : FileObj) : (s.sysOpen p obj).Opens := by
  unfold FileTable.sysOpen
  split
  · exact h.goto hp rfl
  · exact h.keep rfl rfl rfl rfl rfl hp rfl

theorem sysPipe (hp : (s.pc p).pending = none) : (s.sysPipe p).Opens := by
  unfold FileTable.sysPipe
  split
  · exact h.goto hp rfl
  · exact h.keep rfl rfl rfl rfl rfl hp rfl

theorem move (hr : s.Refs) {l : FileLabel} (hstep : FileTable.step l s = some s') : s'.Opens := by
  have huser : ∀ p, (∃ ret, s.pc p = .user ret) → (s.pc p).pending = none := by
    rintro p ⟨ret, hpc⟩
    rw [hpc]
    rfl
  unfold FileTable.step at hstep
  rw [if_neg (by simp [hr.calm])] at hstep
  cases l with
  | dup p n =>
    obtain ⟨_, hpc, rfl⟩ := call_spec hstep
    exact h.sysDup (huser p hpc) n
  | close p n =>
    obtain ⟨_, hpc, rfl⟩ := call_spec hstep
    exact h.sysClose (huser p hpc) n
  | «open» p obj =>
    obtain ⟨_, hpc, rfl⟩ := call_spec hstep
    exact h.sysOpen (huser p hpc) obj
  | pipe p =>
    obtain ⟨_, hpc, rfl⟩ := call_spec hstep
    exact h.sysPipe (huser p hpc)
  | fork p np =>
    dsimp only at hstep
    split at hstep
    · obtain ⟨_, hpc, rfl⟩ := call_spec hstep
      exact h.keep rfl rfl rfl rfl rfl (huser p hpc) rfl
    · contradiction
  | exit p =>
    dsimp only at hstep
    split at hstep
    · contradiction
    · obtain ⟨_, hpc, rfl⟩ := call_spec hstep
      exact h.goto (huser p hpc) rfl
  | next p ok pi =>
    dsimp only at hstep
    split at hstep
    · exact h.next hr hstep
    · contradiction
  | reap p =>
    dsimp only at hstep
    split at hstep
    · cases hstep
      exact h.frame rfl rfl rfl rfl (fun _ => rfl)
    · contradiction

end

end Opens

theorem fileinit_opens : fileinit.Opens := by
  intro n
  simp [openEntries, closingCalls, fileinit, FilePc.pending]

theorem run_refs_opens {labels : List FileLabel}
    (hrun : Machine.run FileTable.step labels fileinit = some s) : s.Refs ∧ s.Opens :=
  Machine.run_invariant (I := fun s => s.Refs ∧ s.Opens)
    (fun _ _ _ h hstep => ⟨h.1.move hstep, h.2.move h.1 hstep⟩)
    ⟨fileinit_refs, fileinit_opens⟩ hrun

/-! ## Descriptors -/

/-- The descriptors that name `f` and are counted: not the one that `sys_dup`
has filled before it calls `filedup`, and not the one whose file `exit` has
closed before it clears it. -/
def descriptors (s : FileTable) (f : FileIx) : Finset (Slot × Fd) :=
  Finset.univ.filter fun d =>
    s.ofile d.1 d.2 = some f ∧ (s.pc d.1).skips ≠ some d.2

/-- The references to `f` that calls in progress hold. -/
def heldRefs (s : FileTable) (f : FileIx) : ℕ := ∑ p, (s.pc p).held.count f

/-- `exit` has closed the file of the descriptor and not cleared it yet. -/
def ExitClears (s : FileTable) (p : Slot) (fd : Fd) : Prop :=
  s.pc p = .exitClear fd ∨ ∃ n obj, s.pc p = .exitObj fd n obj

theorem Refs.ref_eq (h : s.Refs) (f : FileIx) :
    s.ref f = (s.descriptors f).card + s.heldRefs f := by
  rw [h.count, heldRefs, descriptors, Finset.card_filter,
    Fintype.sum_prod_type, ← Finset.sum_add_distrib]
  refine Finset.sum_congr rfl ?_
  intro p _
  rw [refs, slotRefs_eq_card, Finset.card_filter]

theorem Refs.exitClears (h : s.Refs) (hf : s.ref f = 0)
    (hfd : s.ofile p fd = some f) : s.ExitClears p fd := by
  have hle := h.refs_le p f
  have hzero : slotRefs (s.ofile p) (s.pc p).skips f = 0 := by
    unfold refs at hle
    omega
  have hplace := h.place p
  have hskips : (s.pc p).skips = some fd := by
    by_contra hskips
    have hmem : fd ∈ Finset.univ.filter fun fd =>
        s.ofile p fd = some f ∧ (s.pc p).skips ≠ some fd := by
      simp [hfd, hskips]
    rw [slotRefs_eq_card, Finset.card_eq_zero] at hzero
    rw [hzero] at hmem
    simp at hmem
  cases hpc : s.pc p with
  | dupCount g fd' =>
    rw [hpc] at hplace hskips hzero
    obtain ⟨hg, other, hne, hother⟩ := hplace
    injection hskips with hskips
    subst hskips
    have hfg : f = g := by
      rw [hfd] at hg
      injection hg
    rw [← hfg] at hother
    have := slotRefs_skip_pos hne hother
    simp only [FilePc.skips] at hzero
    omega
  | exitObj fd' n obj =>
    rw [hpc] at hskips
    injection hskips with hskips
    exact Or.inr ⟨n, obj, by rw [hpc, hskips]⟩
  | exitClear fd' =>
    rw [hpc] at hskips
    injection hskips with hskips
    exact Or.inl (by rw [hpc, hskips])
  | _ =>
    rw [hpc] at hskips
    contradiction

end FileTable

end Xv6
