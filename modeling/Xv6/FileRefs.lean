import Xv6.FileTable
import Xv6.Lib.Counting

/-!
# Reference counts of files

The count of an entry of `ftable` is the number of descriptors that name it
and of references that calls in progress hold.  Two kinds of descriptors are
not counted for a moment: the one that `sys_dup` has filled before it calls
`filedup`, and the one whose file `exit` has closed before it clears it.
-/

namespace Xv6

open Function (update update_of_ne update_self)
open Counting

def FilePc.held : FilePc → List FileIx
  | .closing fs _ | .closeObj _ _ fs _ => fs
  | .openFd f _ | .pipeFirst f | .pipeFd _ f _ | .forkSet _ _ f => [f]
  | .pipeBoth f0 f1 | .pipeInit f0 f1 => [f0, f1]
  | _ => []

def FilePc.skips : FilePc → Option Fd
  | .dupCount _ fd | .exitObj fd _ _ | .exitClear fd => some fd
  | _ => none

/-- Entries that have been allocated and not yet filled in. -/
def FilePc.fresh : FilePc → List FileIx
  | .openFd f _ | .openInit f _ _ | .pipeFirst f => [f]
  | .pipeBoth f0 f1 => [f0, f1]
  | _ => []

/-- The process that `fork` copies the descriptors to. -/
def FilePc.child : FilePc → Option Slot
  | .forkFile np _ | .forkSet np _ _ => some np
  | _ => none

/-- The opened file that `fileclose` is about to close. -/
def FilePc.pending : FilePc → Option ℕ
  | .closeObj n _ _ _ | .exitObj _ n _ => some n
  | _ => none

/-! ## Counting descriptors -/

/-- How many descriptors name `f`, apart from `skip`. -/
def slotRefs (own : Fd → Option FileIx) (skip : Option Fd) (f : FileIx) : ℕ :=
  ∑ fd, if own fd = some f ∧ skip ≠ some fd then 1 else 0

section

variable {own : Fd → Option FileIx} {fd : Fd} {f g : FileIx}

theorem slotRefs_none (own : Fd → Option FileIx) (fd : Fd) (f : FileIx) : slotRefs own none f =
      slotRefs own (some fd) f + if own fd = some f then 1 else 0 := by
  have h := sum_change (fun fd' => if own fd' = some f ∧ some fd ≠ some fd' then 1 else 0)
    (fun fd' => if own fd' = some f ∧ none ≠ some fd' then 1 else 0) fd (by
      intro fd' hne
      simp [Ne.symm hne])
  simpa [slotRefs] using h

theorem slotRefs_update_skip (x : Option FileIx) :
    slotRefs (update own fd x) (some fd) f = slotRefs own (some fd) f := by
  refine Finset.sum_congr rfl ?_
  intro fd' _
  by_cases hfd : fd' = fd <;> simp [hfd]

theorem slotRefs_clear : slotRefs (update own fd none) none f = slotRefs own (some fd) f := by
  rw [slotRefs_none _ fd, slotRefs_update_skip]
  simp

theorem slotRefs_fill (own : Fd → Option FileIx) (hfree : own fd = none) :
    slotRefs (update own fd (some g)) none f = slotRefs own none f + if g = f then 1 else 0 := by
  rw [slotRefs_none _ fd, slotRefs_update_skip, slotRefs_none own fd]
  simp [hfree]

theorem slotRefs_pos (hfd : own fd = some f) : 0 < slotRefs own none f := by
  rw [slotRefs_none own fd, if_pos hfd]
  omega

theorem slotRefs_skip_pos {fd' : Fd} (hne : fd' ≠ fd)
    (hfd : own fd' = some f) : 0 < slotRefs own (some fd) f := by
  rw [← slotRefs_clear]
  have hfd' : update own fd none fd' = some f := by
    simpa [hne] using hfd
  exact slotRefs_pos hfd'

theorem slotRefs_eq_card (skip : Option Fd) : slotRefs own skip f =
      (Finset.univ.filter fun fd => own fd = some f ∧ skip ≠ some fd).card := by
  rw [slotRefs, Finset.card_filter]

theorem slotRefs_eq_zero (hown : ∀ fd, own fd = none) (skip : Option Fd)
    (f : FileIx) : slotRefs own skip f = 0 := by
  simp [slotRefs, hown]

end

attribute [irreducible] slotRefs

namespace FileTable

/-- The counted references to `f` that belong to `p`. -/
def refs (s : FileTable) (p : Slot) (f : FileIx) : ℕ :=
  slotRefs (s.ofile p) (s.pc p).skips f + (s.pc p).held.count f

/-- What the place of `p` in a call says about descriptors. -/
def Place (s : FileTable) (p : Slot) : FilePc → Prop
  | .dupCount f fd =>
    s.ofile p fd = some f ∧ ∃ fd', fd' ≠ fd ∧ s.ofile p fd' = some f
  | .openInit f fd _ => s.ofile p fd = some f
  | .pipeBoth f0 f1 => f0 ≠ f1
  | .pipeFd f0 _ fd0 => s.ofile p fd0 = some f0
  | .pipeCopy f0 f1 fd0 fd1 =>
    s.ofile p fd0 = some f0 ∧ s.ofile p fd1 = some f1 ∧ fd0 ≠ fd1
  | .forkFile np i =>
    s.status np = .embryo ∧ ∀ fd : Fd, i ≤ fd.val → s.ofile np fd = none
  | .forkSet np fd _ =>
    s.status np = .embryo ∧ ∀ fd' : Fd, fd.val ≤ fd'.val → s.ofile np fd' = none
  | .exitFile i => ∀ fd : Fd, fd.val < i → s.ofile p fd = none
  | .exitObj fd _ _ | .exitClear fd =>
    ∀ fd' : Fd, fd'.val < fd.val → s.ofile p fd' = none
  | _ => True

structure Refs (s : FileTable) : Prop where
  calm : s.panicked = false
  count : ∀ f, s.ref f = ∑ p, s.refs p f
  place : ∀ p, s.Place p (s.pc p)
  fresh : ∀ p, ∀ f ∈ (s.pc p).fresh, s.ref f = 1 ∧ s.obj f = none
  opened : ∀ f, s.obj f ≠ none → 0 < s.ref f
  idle : ∀ p, s.status p ≠ .live → s.pc p = .exited ∨ ∃ ret, s.pc p = .user ret
  empty : ∀ p, s.status p = .unused ∨ s.status p = .dead → ∀ fd, s.ofile p fd = none
  child : ∀ p q np, (s.pc p).child = some np → (s.pc q).child = some np → p = q

variable {s s' : FileTable} {p q : Slot} {f : FileIx} {fd : Fd} {k : FilePc}

theorem Place.child_embryo {np : Slot} (h : s.Place p k)
    (hk : k.child = some np) : s.status np = .embryo := by
  cases k <;> simp only [FilePc.child, Option.some.injEq, reduceCtorEq] at hk
  all_goals
    subst hk
    exact h.1

theorem Place.congr (h : s.Place p k) (hown : s'.ofile p = s.ofile p)
    (hchild : ∀ np, k.child = some np → s'.status np = s.status np ∧ s'.ofile np = s.ofile np) :
    s'.Place p k := by
  cases k with
  | forkFile np i | forkSet np fd f =>
    obtain ⟨hstatus, hofile⟩ := hchild np rfl
    simp only [Place, hstatus, hofile]
    exact h
  | _ =>
    first
      | trivial
      | simp only [Place, hown]; exact h

theorem fileclose_spec (href : 0 < s.ref f) : (s.fileclose f).ref = update s.ref f (s.ref f - 1) ∧
    (∀ g, g ≠ f → (s.fileclose f).obj g = s.obj g) ∧ ((s.fileclose f).obj f ≠ none →
    0 < s.ref f - 1) ∧ (s.fileclose f).pc = s.pc ∧ (s.fileclose f).status = s.status ∧
    (s.fileclose f).ofile = s.ofile ∧ (s.fileclose f).panicked = s.panicked := by
  unfold fileclose
  rw [if_neg (by omega)]
  split
  · rename_i hmore
    simp [setRef, hmore]
  · rename_i hlast
    have hone : s.ref f = 1 := by omega
    simp only [clearFile, hone]
    simp +contextual

theorem filealloc_ref (halloc : s.filealloc = some f) : s.ref f = 0 := by
  simpa using List.find?_some halloc

theorem fdalloc_ofile (halloc : s.fdalloc p = some fd) : s.ofile p fd = none := by
  simpa using List.find?_some halloc

theorem argfd_ofile {n : ℤ} (harg : s.argfd p n = some (fd, f)) : s.ofile p fd = some f := by
  unfold argfd at harg
  split at harg
  · obtain ⟨g, hg, heq⟩ := Option.map_eq_some_iff.mp harg
    injection heq with hfd hf
    rwa [← hfd, ← hf]
  · contradiction

namespace Refs

section

variable (h : s.Refs)
include h

theorem refs_le (p : Slot) (f : FileIx) : s.refs p f ≤ s.ref f := by
  rw [h.count]
  exact le_sum (fun p => s.refs p f) p

theorem refs_add_le (hpq : p ≠ q) (f : FileIx) : s.refs p f + s.refs q f ≤ s.ref f := by
  rw [h.count]
  exact add_le_sum (fun p => s.refs p f) hpq

theorem fresh_refs (hf : f ∈ (s.pc p).fresh) : 0 < s.refs p f := by
  have hplace := h.place p
  unfold refs
  cases hpc : s.pc p with
  | openInit g fd obj =>
    rw [hpc] at hf hplace
    simp only [FilePc.fresh, List.mem_singleton] at hf
    subst hf
    exact Nat.add_pos_left (slotRefs_pos hplace) _
  | openFd g obj | pipeFirst g =>
    rw [hpc] at hf
    simp only [FilePc.fresh, List.mem_singleton] at hf
    subst hf
    simp [FilePc.held]
  | pipeBoth g g' =>
    rw [hpc] at hf
    have hheld : f ∈ [g, g'] := hf
    exact Nat.add_pos_right _ (List.count_pos_iff.mpr hheld)
  | _ =>
    rw [hpc] at hf
    simp [FilePc.fresh] at hf

section

variable (hlive : s.status p = .live)
include hlive

/-- A live process goes on at `k`: it may change its own descriptors and the
entries that it has references to, and take entries that nobody refers to. -/
theorem step (hpc : s'.pc = update s.pc p k) (hstatus : s'.status = s.status)
    (hofile : ∀ q, q ≠ p → s'.ofile q = s.ofile q) (hcalm : s'.panicked = false)
    (hcount : ∀ f, s'.ref f + s.refs p f = s.ref f + s'.refs p f) (hplace : s'.Place p k)
    (hfresh : ∀ f ∈ k.fresh, s'.ref f = 1 ∧ s'.obj f = none) (hkeep : ∀ f, s.refs p f = 0 →
    0 < s.ref f → s'.ref f = s.ref f ∧ s'.obj f = s.obj f) (hopened : ∀ f, s'.obj f ≠ none →
    0 < s'.ref f) (hchild : ∀ np, k.child = some np → (s.pc p).child = some np ∨
    s.status np = .embryo ∧ ∀ q, (s.pc q).child ≠ some np) : s'.Refs := by
  have hother : ∀ q, q ≠ p → s'.pc q = s.pc q := by
    intro q hq
    rw [hpc, update_of_ne hq]
  have hself : s'.pc p = k := by rw [hpc, update_self]
  -- a child has one parent, be it an old one or a new one
  have hparent : ∀ q np, q ≠ p → (s.pc q).child = some np → k.child ≠ some np := by
    intro q np hq hnp hk
    rcases hchild np hk with hold | ⟨_, hnone⟩
    · exact hq (h.child q p np hnp hold)
    · exact hnone q hnp
  refine ⟨hcalm, ?_, ?_, ?_, hopened, ?_, ?_, ?_⟩
  · intro f
    have hsum := sum_change (fun q => s.refs q f) (fun q => s'.refs q f) p (by
        intro q hq
        simp only [refs, hother q hq, hofile q hq])
    have hf := hcount f
    have hold := h.count f
    omega
  · intro q
    by_cases hq : q = p
    · subst hq
      rw [hself]
      exact hplace
    · rw [hother q hq]
      refine (h.place q).congr (hofile q hq) ?_
      intro np hnp
      have hne : np ≠ p := by
        rintro rfl
        rw [(h.place q).child_embryo hnp] at hlive
        contradiction
      exact ⟨by rw [hstatus], hofile np hne⟩
  · intro q f hf
    by_cases hq : q = p
    · subst hq
      rw [hself] at hf
      exact hfresh f hf
    · rw [hother q hq] at hf
      obtain ⟨href, hobj⟩ := h.fresh q f hf
      have hpos := h.fresh_refs hf
      have hle := h.refs_add_le hq f
      obtain ⟨href', hobj'⟩ := hkeep f (by omega) (by omega)
      exact ⟨href'.trans href, hobj'.trans hobj⟩
  · intro q hq
    rw [hstatus] at hq
    have hqp : q ≠ p := by
      rintro rfl
      exact hq hlive
    rw [hother q hqp]
    exact h.idle q hq
  · intro q hq fd
    rw [hstatus] at hq
    have hqp : q ≠ p := by
      rintro rfl
      rw [hlive] at hq
      simp at hq
    rw [hofile q hqp]
    exact h.empty q hq fd
  · intro q r np hq hr
    by_cases hqp : q = p <;> by_cases hrp : r = p
    · rw [hqp, hrp]
    · rw [hqp, hself] at hq
      rw [hother r hrp] at hr
      exact absurd hq (hparent r np hrp hr)
    · rw [hrp, hself] at hr
      rw [hother q hqp] at hq
      exact absurd hr (hparent q np hqp hq)
    · rw [hother q hqp] at hq
      rw [hother r hrp] at hr
      exact h.child q r np hq hr

theorem goto (hrefs : ∀ f, slotRefs (s.ofile p) k.skips f + k.held.count f = s.refs p f)
    (hplace : s.Place p k) (hfresh : ∀ f ∈ k.fresh, f ∈ (s.pc p).fresh)
    (hchild : ∀ np, k.child = some np → (s.pc p).child = some np ∨
      s.status np = .embryo ∧ ∀ q, (s.pc q).child ≠ some np) : (s.goto p k).Refs := by
  refine h.step hlive rfl rfl (fun _ _ => rfl) h.calm ?_ ?_ ?_ ?_ h.opened hchild
  · intro f
    have := hrefs f
    simp only [FileTable.goto, refs, update_self] at this ⊢
    omega
  · exact hplace.congr rfl (fun _ _ => ⟨rfl, rfl⟩)
  · exact fun f hf => h.fresh p f (hfresh f hf)
  · exact fun f _ _ => ⟨rfl, rfl⟩

theorem alloc (hf : s.ref f = 0) (hrefs : ∀ g, slotRefs (s.ofile p) k.skips g + k.held.count g =
      s.refs p g + if f = g then 1 else 0) (hplace : s.Place p k)
    (hfresh : ∀ g ∈ k.fresh, g = f ∨ g ∈ (s.pc p).fresh) (hchild : k.child = none) :
    ((s.setRef f 1).goto p k).Refs := by
  have hobj : s.obj f = none := by
    by_contra hne
    have := h.opened f hne
    omega
  refine h.step hlive rfl rfl (fun _ _ => rfl) h.calm ?_ ?_ ?_ ?_ ?_ ?_
  · intro g
    have := hrefs g
    simp only [FileTable.goto, setRef, refs, update_self] at this ⊢
    by_cases hg : g = f
    · subst hg
      rw [if_pos rfl] at this
      rw [update_self]
      omega
    · rw [if_neg (Ne.symm hg)] at this
      rw [update_of_ne hg]
      omega
  · exact hplace.congr rfl (fun _ _ => ⟨rfl, rfl⟩)
  · intro g hg
    by_cases hgf : g = f
    · subst hgf
      simpa [FileTable.goto, setRef] using hobj
    · have hold := (hfresh g hg).resolve_left hgf
      simpa [FileTable.goto, setRef, hgf] using h.fresh p g hold
  · intro g _ hpos
    have hgf : g ≠ f := by
      rintro rfl
      omega
    simp [FileTable.goto, setRef, hgf]
  · intro g hg
    by_cases hgf : g = f
    · simp [FileTable.goto, setRef, hgf]
    · simpa [FileTable.goto, setRef, hgf] using h.opened g hg
  · simp [hchild]

theorem slot {x : Option FileIx}
    (hrefs : ∀ g, slotRefs (update (s.ofile p) fd x) k.skips g + k.held.count g = s.refs p g)
    (hplace : (s.setOfile p fd x).Place p k) (hfresh : ∀ g ∈ k.fresh, g ∈ (s.pc p).fresh)
    (hchild : k.child = none) : ((s.setOfile p fd x).goto p k).Refs := by
  refine h.step hlive rfl rfl ?_ h.calm ?_ ?_ ?_ ?_ h.opened ?_
  · intro q hq
    simp [FileTable.goto, setOfile, hq]
  · intro g
    have := hrefs g
    simp only [FileTable.goto, setOfile, refs, update_self] at this ⊢
    omega
  · exact hplace.congr rfl (fun _ _ => ⟨rfl, rfl⟩)
  · exact fun f hf => h.fresh p f (hfresh f hf)
  · exact fun f _ _ => ⟨rfl, rfl⟩
  · simp [hchild]

theorem dup (hf : 0 < s.refs p f) (hrefs : ∀ g, slotRefs (s.ofile p) k.skips g + k.held.count g =
      s.refs p g + if f = g then 1 else 0) (hplace : s.Place p k) (hfresh : k.fresh = [])
    (hchild : ∀ np, k.child = some np → (s.pc p).child = some np) :
    ((s.filedup f).goto p k).Refs := by
  have href := h.refs_le p f
  have hdup : s.filedup f = s.setRef f (s.ref f + 1) := if_neg (by omega)
  rw [hdup]
  refine h.step hlive rfl rfl (fun _ _ => rfl) h.calm ?_ ?_ ?_ ?_ ?_ ?_
  · intro g
    have := hrefs g
    simp only [FileTable.goto, setRef, refs, update_self] at this ⊢
    by_cases hg : g = f
    · subst hg
      rw [if_pos rfl] at this
      rw [update_self]
      omega
    · rw [if_neg (Ne.symm hg)] at this
      rw [update_of_ne hg]
      omega
  · exact hplace.congr rfl (fun _ _ => ⟨rfl, rfl⟩)
  · simp [hfresh]
  · intro g hg _
    have hgf : g ≠ f := by
      rintro rfl
      omega
    simp [FileTable.goto, setRef, hgf]
  · intro g hg
    by_cases hgf : g = f
    · simp [FileTable.goto, setRef, hgf]
    · simpa [FileTable.goto, setRef, hgf] using h.opened g hg
  · exact fun np hnp => Or.inl (hchild np hnp)

theorem drop (hrefs : ∀ g, slotRefs (s.ofile p) k.skips g + k.held.count g +
      (if f = g then 1 else 0) = s.refs p g) (hplace : s.Place p k) (hfresh : k.fresh = [])
    (hchild : k.child = none) : ((s.fileclose f).goto p k).Refs := by
  have href := h.refs_le p f
  have hpos := hrefs f
  rw [if_pos rfl] at hpos
  obtain ⟨hr, hobj, hlast, hpc, hstatus, hofile, hpanic⟩ :=
    fileclose_spec (s := s) (f := f) (by omega)
  refine h.step (k := k) hlive ?_ hstatus ?_ ?_ ?_ ?_ ?_ ?_ ?_ ?_
  · simp [FileTable.goto, hpc]
  · simp [FileTable.goto, hofile]
  · simp [FileTable.goto, hpanic, h.calm]
  · intro g
    have := hrefs g
    simp only [FileTable.goto, refs, update_self, hr, hofile] at this ⊢
    by_cases hg : g = f
    · subst hg
      rw [if_pos rfl] at this
      rw [update_self]
      omega
    · rw [if_neg (Ne.symm hg)] at this
      rw [update_of_ne hg]
      omega
  · exact hplace.congr (by simp [FileTable.goto, hofile])
      (by simp [FileTable.goto, hofile, hstatus])
  · simp [hfresh]
  · intro g hg _
    have hgf : g ≠ f := by
      rintro rfl
      omega
    simp [FileTable.goto, hr, hgf, hobj g hgf]
  · intro g hg
    by_cases hgf : g = f
    · subst hgf
      simpa [FileTable.goto, hr] using hlast hg
    · simp only [FileTable.goto, hobj g hgf] at hg
      simpa [FileTable.goto, hr, hgf] using h.opened g hg
  · simp [hchild]

end

theorem setStatus (p : Slot) (status : FileProc) (hnone : ∀ q, (s.pc q).child ≠ some p)
    (hidle : status ≠ .live → s.pc p = .exited ∨ ∃ ret, s.pc p = .user ret)
    (hempty : status = .unused ∨ status = .dead → ∀ fd, s.ofile p fd = none) :
    ({ s with status := update s.status p status } : FileTable).Refs := by
  refine ⟨h.calm, h.count, ?_, h.fresh, h.opened, ?_, ?_, h.child⟩
  · intro q
    refine (h.place q).congr rfl ?_
    intro np hnp
    have hne : np ≠ p := by
      rintro rfl
      exact hnone q hnp
    simp [hne]
  · intro q hq
    by_cases hqp : q = p
    · subst hqp
      exact hidle (by simpa using hq)
    · exact h.idle q (by simpa [hqp] using hq)
  · intro q hq
    by_cases hqp : q = p
    · subst hqp
      exact hempty (by simpa using hq)
    · exact h.empty q (by simpa [hqp] using hq)

end

end Refs

/-! ## The calls -/

theorem refs_user {ret : Option ℤ} (hpc : s.pc p = .user ret) (f : FileIx) :
    s.refs p f = slotRefs (s.ofile p) none f := by
  simp [refs, hpc, FilePc.skips, FilePc.held]

theorem setOfile_self (x : Option FileIx) :
    (s.setOfile p fd x).ofile p = update (s.ofile p) fd x := by
  simp [setOfile]

namespace Refs

variable {ret : Option ℤ}

section

variable (h : s.Refs)
include h

section

variable (hlive : s.status p = .live)
include hlive

theorem sysDup (hpc : s.pc p = .user ret) (n : ℤ) : (s.sysDup p n).Refs := by
  have hfail : (s.goto p (.user (some (-1)))).Refs := h.goto hlive
    (fun f => (refs_user hpc f).symm) trivial (by simp [FilePc.fresh]) (by simp [FilePc.child])
  unfold FileTable.sysDup
  split
  · exact hfail
  · rename_i old f harg
    split
    · exact hfail
    · rename_i new halloc
      have hold := argfd_ofile harg
      have hnew := fdalloc_ofile halloc
      refine h.slot hlive ?_ ?_ (by simp [FilePc.fresh]) rfl
      · intro g
        rw [refs_user hpc, slotRefs_none (s.ofile p) new]
        simp [FilePc.skips, FilePc.held, slotRefs_update_skip, hnew]
      · have hne : old ≠ new := by
          rintro rfl
          rw [hold] at hnew
          contradiction
        refine ⟨?_, old, hne, ?_⟩
        · simp [setOfile_self]
        · simpa [setOfile_self, hne] using hold

theorem release (hfd : s.ofile p fd = some f) (hskips : (s.pc p).skips = none) (fs : List FileIx)
    (r : ℤ) (hfs : ∀ g, fs.count g = (s.pc p).held.count g + if f = g then 1 else 0) :
    ((s.setOfile p fd none).goto p (.closing fs r)).Refs := by
  refine h.slot hlive ?_ trivial (by simp [FilePc.fresh]) rfl
  intro g
  have hsplit := slotRefs_none (s.ofile p) fd g
  simp only [hfd, Option.some.injEq] at hsplit
  change slotRefs (update (s.ofile p) fd none) none g + fs.count g = _
  rw [slotRefs_clear, refs, hskips, hfs g, hsplit]
  omega

theorem sysClose (hpc : s.pc p = .user ret) (n : ℤ) : (s.sysClose p n).Refs := by
  unfold FileTable.sysClose
  split
  · exact h.goto hlive (fun f => (refs_user hpc f).symm) trivial
      (by simp [FilePc.fresh]) (by simp [FilePc.child])
  · rename_i old f harg
    refine h.release hlive (argfd_ofile harg) (by rw [hpc]; rfl) [f] 0 ?_
    simp [hpc, FilePc.held, List.count_singleton]

theorem first (hpc : s.pc p = .user ret) (halloc : s.filealloc = some f) (hskips : k.skips = none)
    (hheld : k.held = [f]) (hfresh : k.fresh = [f]) (hplace : s.Place p k) (hchild : k.child = none)
    : ((s.setRef f 1).goto p k).Refs := by
  refine h.alloc hlive (filealloc_ref halloc) ?_ hplace ?_ hchild
  · intro g
    rw [refs_user hpc, hskips, hheld, List.count_singleton]
    simp
  · simp [hfresh]

theorem sysOpen (hpc : s.pc p = .user ret) (obj : FileObj) : (s.sysOpen p obj).Refs := by
  unfold FileTable.sysOpen
  split
  · exact h.goto hlive (fun f => (refs_user hpc f).symm) trivial
      (by simp [FilePc.fresh]) (by simp [FilePc.child])
  · rename_i f halloc
    exact h.first hlive hpc halloc rfl rfl rfl trivial rfl

theorem sysPipe (hpc : s.pc p = .user ret) : (s.sysPipe p).Refs := by
  unfold FileTable.sysPipe
  split
  · exact h.goto hlive (fun f => (refs_user hpc f).symm) trivial
      (by simp [FilePc.fresh]) (by simp [FilePc.child])
  · rename_i f halloc
    exact h.first hlive hpc halloc rfl rfl rfl trivial rfl

theorem closeNext {fs : List FileIx} {r : ℤ} (hpc : s.pc p = .closing (f :: fs) r) :
    (s.closeNext p f fs r).Refs := by
  have hrefs : ∀ g, slotRefs (s.ofile p) none g + fs.count g +
      (if f = g then 1 else 0) = s.refs p g := by
    intro g
    simp only [refs, hpc, FilePc.skips, FilePc.held, List.count_cons, beq_iff_eq]
    omega
  unfold FileTable.closeNext
  split <;> exact h.drop hlive hrefs trivial rfl rfl

end

theorem exitClose (fd : Fd) (hlive : s.status p = .live) (hpc : s.pc p = .exitFile fd)
    (hfd : s.ofile p fd = some f) : (s.exitClose p fd f).Refs := by
  have hrefs : ∀ g, slotRefs (s.ofile p) (some fd) g + (if f = g then 1 else 0) = s.refs p g := by
    intro g
    have := slotRefs_none (s.ofile p) fd g
    rw [hfd] at this
    simp only [refs, hpc, FilePc.skips, FilePc.held, this,
      Option.some.injEq, List.count_nil, Nat.add_zero]
  have hplace : ∀ fd' : Fd, fd'.val < fd.val → s.ofile p fd' = none := by
    have := h.place p
    rwa [hpc] at this
  unfold FileTable.exitClose
  split <;> exact h.drop hlive hrefs hplace rfl rfl

section

variable (hlive : s.status p = .live)
include hlive

theorem fillIn (hpc : s'.pc = update s.pc p k) (href : s'.ref = s.ref)
    (hstatus : s'.status = s.status) (hofile : s'.ofile = s.ofile)
    (hpanic : s'.panicked = s.panicked) (hobj : ∀ f, f ∉ (s.pc p).fresh → s'.obj f = s.obj f)
    (hrefs : ∀ f, slotRefs (s.ofile p) k.skips f + k.held.count f = s.refs p f)
    (hplace : s.Place p k) (hfresh : k.fresh = []) (hchild : k.child = none) : s'.Refs := by
  refine h.step hlive hpc hstatus (fun _ _ => by rw [hofile]) (hpanic ▸ h.calm) ?_ ?_ ?_ ?_ ?_ ?_
  · intro f
    have := hrefs f
    simp only [refs, hpc, update_self, hofile, href] at this ⊢
    omega
  · exact hplace.congr (by rw [hofile]) (fun _ _ => by simp [hstatus, hofile])
  · simp [hfresh]
  · intro f hzero _
    refine ⟨by rw [href], hobj f ?_⟩
    intro hf
    have := h.fresh_refs hf
    omega
  · intro f hf
    rw [href]
    by_cases hmem : f ∈ (s.pc p).fresh
    · rw [(h.fresh p f hmem).1]
      exact Nat.one_pos
    · rw [hobj f hmem] at hf
      exact h.opened f hf
  · simp [hchild]

theorem forkSet {np : Slot} (hpc : s.pc p = .forkSet np fd f) :
    ((s.setOfile np fd (some f)).goto p (.forkFile np (fd + 1))).Refs := by
  have hplace := h.place p
  rw [hpc] at hplace
  obtain ⟨hembryo, hempty⟩ := hplace
  have hne : np ≠ p := by
    rintro rfl
    rw [hembryo] at hlive
    contradiction
  have hskips : (s.pc np).skips = none ∧ (s.pc np).held = [] := by
    rcases h.idle np (by rw [hembryo]; decide) with hk | ⟨_, hk⟩ <;>
      simp [hk, FilePc.skips, FilePc.held]
  have honly : ∀ q, q ≠ p → (s.pc q).child ≠ some np := by
    intro q hq hchild
    exact hq (h.child q p np hchild (by rw [hpc]; rfl))
  have hother : ∀ q, q ≠ p → ((s.setOfile np fd (some f)).goto p (.forkFile np (fd + 1))).pc q =
        s.pc q := by
    intro q hq
    simp [FileTable.goto, setOfile, hq]
  refine ⟨h.calm, ?_, ?_, ?_, h.opened, ?_, ?_, ?_⟩
  · intro g
    -- first the child's descriptor, then the reference of the parent
    have hchild := sum_change (fun q => s.refs q g)
      (fun q => (s.setOfile np fd (some f)).refs q g) np (by
        intro q hq
        simp [refs, setOfile, hq])
    have hself := sum_change (fun q => (s.setOfile np fd (some f)).refs q g)
      (fun q => ((s.setOfile np fd (some f)).goto p (.forkFile np (fd + 1))).refs q g) p (by
        intro q hq
        simp only [refs, hother q hq]
        simp [FileTable.goto, setOfile])
    have hfill := slotRefs_fill (s.ofile np) (g := f) (f := g) (hempty fd (le_refl _))
    have hcount := h.count g
    have hnew : (s.setOfile np fd (some f)).refs np g = s.refs np g + if f = g then 1 else 0 := by
      simp only [refs, setOfile, update_self, hskips.1, hskips.2, List.count_nil, hfill]
      omega
    have hold : (s.setOfile np fd (some f)).refs p g =
        ((s.setOfile np fd (some f)).goto p (.forkFile np (fd + 1))).refs p g +
          if f = g then 1 else 0 := by
      simp [refs, FileTable.goto, setOfile, Ne.symm hne, hpc, FilePc.skips,
        FilePc.held, List.count_singleton]
    have href : ((s.setOfile np fd (some f)).goto p (.forkFile np (fd + 1))).ref g = s.ref g := rfl
    omega
  · intro q
    by_cases hq : q = p
    · subst hq
      simp only [FileTable.goto, update_self]
      refine ⟨hembryo, ?_⟩
      intro fd' hfd'
      have hfd : fd' ≠ fd := by
        rintro rfl
        omega
      simp only [setOfile, update_self, update_of_ne hfd]
      exact hempty fd' (by omega)
    · rw [hother q hq]
      have hq' : q = np → ∀ ret, s.pc q ≠ .exitFile ret := by
        rintro rfl
        rcases h.idle q (by rw [hembryo]; decide) with hk | ⟨_, hk⟩ <;>
          simp [hk]
      by_cases hqn : q = np
      · subst hqn
        rcases h.idle q (by rw [hembryo]; decide) with hk | ⟨_, hk⟩ <;>
          rw [hk] <;> trivial
      · refine (h.place q).congr (by simp [FileTable.goto, setOfile, hqn]) ?_
        intro n hn
        have hnn : n ≠ np := by
          rintro rfl
          exact honly q hq hn
        simp [FileTable.goto, setOfile, hnn]
  · intro q g hg
    by_cases hq : q = p
    · subst hq
      simp [FileTable.goto, FilePc.fresh] at hg
    · rw [hother q hq] at hg
      exact h.fresh q g hg
  · intro q hq
    have hqp : q ≠ p := by
      rintro rfl
      exact hq hlive
    rw [hother q hqp]
    exact h.idle q hq
  · intro q hq fd'
    have hqn : q ≠ np := by
      rintro rfl
      simp [FileTable.goto, setOfile, hembryo] at hq
    simp only [FileTable.goto, setOfile, update_of_ne hqn]
    exact h.empty q hq fd'
  · intro q r n hq hr
    have hold : ∀ x, (((s.setOfile np fd (some f)).goto p
        (.forkFile np (fd + 1))).pc x).child = (s.pc x).child := by
      intro x
      by_cases hx : x = p
      · simp [FileTable.goto, hx, hpc, FilePc.child]
      · rw [hother x hx]
    rw [hold] at hq hr
    exact h.child q r n hq hr

theorem fill (halloc : s.fdalloc p = some fd) (hskips : (s.pc p).skips = none) (hk : k.skips = none)
    (hheld : ∀ g, (s.pc p).held.count g = k.held.count g + if f = g then 1 else 0)
    (hplace : (s.setOfile p fd (some f)).Place p k) (hfresh : ∀ g ∈ k.fresh, g ∈ (s.pc p).fresh)
    (hchild : k.child = none) : ((s.setOfile p fd (some f)).goto p k).Refs := by
  refine h.slot hlive ?_ hplace hfresh hchild
  intro g
  rw [hk, slotRefs_fill _ (fdalloc_ofile halloc), refs, hskips, hheld g]
  omega

theorem giveUp (hskips : (s.pc p).skips = none) (r : ℤ) :
    (s.goto p (.closing (s.pc p).held r)).Refs := by
  refine h.goto hlive ?_ trivial (by simp [FilePc.fresh]) (by simp [FilePc.child])
  intro f
  rw [refs, hskips]
  rfl

theorem forkFile {np : Slot} {i : ℕ} (hpc : s.pc p = .forkFile np i) :
    (s.forkFile p np i).Refs := by
  have hplace := h.place p
  rw [hpc] at hplace
  have hrefs : ∀ f, s.refs p f = slotRefs (s.ofile p) none f := by
    intro f
    simp [refs, hpc, FilePc.skips, FilePc.held]
  unfold FileTable.forkFile
  split
  · rename_i hi
    split
    · refine h.goto hlive (fun f => (hrefs f).symm) ?_ (by simp [FilePc.fresh])
        (by simp [hpc, FilePc.child])
      exact ⟨hplace.1, fun fd hfd => hplace.2 fd (by omega)⟩
    · rename_i f hf
      refine h.dup hlive ?_ ?_ hplace rfl (by simp [hpc, FilePc.child])
      · rw [hrefs]
        exact slotRefs_pos hf
      · intro g
        rw [hrefs]
        simp [FilePc.skips, FilePc.held, List.count_singleton]
  · -- the child is let go, becomes live, and returns 0
    have hleft : (s.goto p (.user none)).Refs := h.goto hlive
      (fun f => (hrefs f).symm) trivial (by simp [FilePc.fresh]) (by simp [FilePc.child])
    have hne : np ≠ p := by
      rintro rfl
      rw [hplace.1] at hlive
      contradiction
    have hborn := hleft.setStatus np .live (by
        intro q hq
        by_cases hqp : q = p
        · subst hqp
          simp [FileTable.goto, FilePc.child] at hq
        · simp only [FileTable.goto, update_of_ne hqp] at hq
          exact hqp (h.child q p np hq (by rw [hpc]; rfl)))
      (by simp) (by simp)
    have hidle := hleft.idle np (by
      simp only [FileTable.goto]
      rw [hplace.1]
      decide)
    have hreturn := hborn.goto (p := np) (k := .user (some 0)) (by simp) (by
        intro f
        simp only [refs]
        rcases hidle with hk | ⟨_, hk⟩ <;> rw [hk] <;> rfl)
      trivial (by simp [FilePc.fresh]) (by simp [FilePc.child])
    have heq : (({ s with
        status := update s.status np .live } : FileTable).goto np
          (.user (some 0))).goto p (.user none) =
        ({ s.goto p (.user none) with
          status := update s.status np .live } : FileTable).goto np
            (.user (some 0)) := by
      simp only [FileTable.goto]
      rw [Function.update_comm hne]
    rw [heq]
    exact hreturn

theorem exitFile {i : ℕ} (hpc : s.pc p = .exitFile i) : (s.exitFile p i).Refs := by
  have hplace := h.place p
  rw [hpc] at hplace
  have hrefs : ∀ f, s.refs p f = slotRefs (s.ofile p) none f := by
    intro f
    simp [refs, hpc, FilePc.skips, FilePc.held]
  unfold FileTable.exitFile
  split
  · rename_i hi
    split
    · rename_i hnone
      refine h.goto hlive (fun f => (hrefs f).symm) ?_ (by simp [FilePc.fresh])
        (by simp [FilePc.child])
      intro fd hfd
      by_cases heq : fd.val = i
      · rw [← hnone]
        congr 1
        exact Fin.ext heq
      · exact hplace fd (by omega)
    · rename_i f hf
      exact h.exitClose ⟨i, hi⟩ hlive hpc hf
  · have hleft : (s.goto p .exited).Refs := h.goto hlive
      (fun f => (hrefs f).symm) trivial (by simp [FilePc.fresh]) (by simp [FilePc.child])
    refine hleft.setStatus p .dead ?_ ?_ ?_
    · intro q hq
      have := (hleft.place q).child_embryo hq
      have hlive' : (s.goto p .exited).status p = .live := hlive
      rw [hlive'] at this
      contradiction
    · simp [FileTable.goto]
    · intro _ fd
      exact hplace fd (by omega)

theorem next {ok : Bool} {pi : ℕ} (hnext : s.next p ok pi = some s') : s'.Refs := by
  unfold FileTable.next at hnext
  have hplace := h.place p
  cases hpc : s.pc p with
  | user ret | exited => simp [hpc] at hnext
  | dupCount f fd =>
    simp only [hpc, Option.some.injEq] at hnext hplace
    subst hnext
    obtain ⟨hfd, fd', hne, hfd'⟩ := hplace
    have hrefs : ∀ g, s.refs p g = slotRefs (s.ofile p) (some fd) g := by
      intro g
      simp [refs, hpc, FilePc.skips, FilePc.held]
    refine h.dup hlive ?_ ?_ trivial rfl (by simp [FilePc.child])
    · rw [hrefs]
      exact slotRefs_skip_pos hne hfd'
    · intro g
      rw [hrefs]
      simpa [FilePc.skips, FilePc.held, hfd] using slotRefs_none (s.ofile p) fd g
  | closing fs ret =>
    cases fs with
    | nil =>
      rw [hpc] at hnext
      cases hnext
      exact h.goto hlive (fun f => by simp [refs, hpc, FilePc.skips, FilePc.held]) trivial
        (by simp [FilePc.fresh]) (by simp [FilePc.child])
    | cons f fs =>
      rw [hpc] at hnext
      cases hnext
      exact h.closeNext hlive hpc
  | closeObj n obj fs ret =>
    rw [hpc] at hnext
    cases hnext
    refine Refs.goto (s := s.closeObj n) ⟨h.calm, h.count, h.place, h.fresh, h.opened,
      h.idle, h.empty, h.child⟩ hlive ?_ trivial (by simp [FilePc.fresh]) (by simp [FilePc.child])
    intro f
    simp [refs, FileTable.closeObj, hpc, FilePc.skips, FilePc.held]
  | openFd f obj =>
    simp only [hpc] at hnext
    split at hnext <;> cases hnext
    · have hgive := h.giveUp hlive (by rw [hpc]; rfl) (-1)
      rw [hpc] at hgive
      exact hgive
    · rename_i fd halloc
      refine h.fill hlive halloc (by rw [hpc]; rfl) rfl ?_ ?_ ?_ rfl
      · simp [hpc, FilePc.held, List.count_singleton]
      · simp [Place, setOfile_self]
      · simp [hpc, FilePc.fresh]
  | openInit f fd obj =>
    rw [hpc] at hnext
    cases hnext
    refine h.fillIn (p := p) (k := .user (some fd.val)) hlive rfl rfl rfl rfl
      rfl ?_ ?_ trivial rfl rfl
    · intro g hg
      simp only [hpc, FilePc.fresh, List.mem_singleton] at hg
      simp [FileTable.goto, initFile, hg]
    · intro g
      simp [refs, hpc, FilePc.skips, FilePc.held]
  | pipeFirst f0 =>
    simp only [hpc] at hnext
    split at hnext <;> cases hnext
    · have hgive := h.giveUp hlive (by rw [hpc]; rfl) (-1)
      rw [hpc] at hgive
      exact hgive
    · rename_i f1 halloc
      have href := filealloc_ref halloc
      have hne : f0 ≠ f1 := by
        rintro rfl
        have := (h.fresh p f0 (by simp [hpc, FilePc.fresh])).1
        omega
      refine h.alloc hlive href ?_ hne ?_ rfl
      · intro g
        simp only [refs, hpc, FilePc.skips, FilePc.held, List.count_cons,
          List.count_nil, beq_iff_eq]
        omega
      · simp [hpc, FilePc.fresh, or_comm]
  | pipeBoth f0 f1 =>
    simp only [hpc] at hnext
    split at hnext <;> cases hnext
    · refine h.fillIn (p := p) (k := .pipeInit f0 f1) hlive rfl rfl rfl rfl
        rfl ?_ ?_ trivial rfl rfl
      · intro g hg
        simp only [hpc, FilePc.fresh, List.mem_cons, List.not_mem_nil, or_false, not_or] at hg
        simp [FileTable.goto, initFile, hg.1, hg.2]
      · intro g
        simp [refs, hpc, FilePc.skips, FilePc.held]
    · have hgive := h.giveUp hlive (by rw [hpc]; rfl) (-1)
      rw [hpc] at hgive
      exact hgive
  | pipeInit f0 f1 =>
    simp only [hpc] at hnext
    split at hnext <;> cases hnext
    · have hgive := h.giveUp hlive (by rw [hpc]; rfl) (-1)
      rw [hpc] at hgive
      exact hgive
    · rename_i fd halloc
      refine h.fill hlive halloc (by rw [hpc]; rfl) rfl ?_ ?_ (by simp [FilePc.fresh]) rfl
      · intro g
        simp only [hpc, FilePc.held, List.count_cons, List.count_nil, beq_iff_eq]
      · simp [Place, setOfile_self]
  | pipeFd f0 f1 fd0 =>
    simp only [hpc] at hnext hplace
    split at hnext <;> cases hnext
    · refine h.release hlive hplace (by rw [hpc]; rfl) [f0, f1] (-1) ?_
      intro g
      simp only [hpc, FilePc.held, List.count_cons, List.count_nil, beq_iff_eq]
    · rename_i fd halloc
      have hne : fd0 ≠ fd := by
        rintro rfl
        rw [Place, fdalloc_ofile halloc] at hplace
        contradiction
      refine h.fill hlive halloc (by rw [hpc]; rfl) rfl ?_ ?_ (by simp [FilePc.fresh]) rfl
      · simp [hpc, FilePc.held, List.count_singleton]
      · refine ⟨?_, ?_, hne⟩
        · rw [setOfile_self, update_of_ne hne]
          exact hplace
        · simp [setOfile_self]
  | pipeCopy f0 f1 fd0 fd1 =>
    simp only [hpc] at hnext hplace
    obtain ⟨hfd0, hfd1, hne⟩ := hplace
    split at hnext <;> cases hnext
    · exact h.goto hlive (fun f => by simp [refs, hpc, FilePc.skips, FilePc.held]) trivial
        (by simp [FilePc.fresh]) (by simp [FilePc.child])
    · -- the two descriptors are cleared one after the other
      have hfirst := h.release hlive hfd0 (by rw [hpc]; rfl) [f0] (-1)
        (by simp [hpc, FilePc.held, List.count_singleton])
      have hfd1' : ((s.setOfile p fd0 none).goto p (.closing [f0] (-1))).ofile p fd1 = some f1 := by
        simpa [FileTable.goto, setOfile_self, Ne.symm hne] using hfd1
      have hsecond := hfirst.release hlive hfd1'
        (by simp [FileTable.goto, FilePc.skips]) [f0, f1] (-1) (by
          intro g
          simp only [FileTable.goto, update_self, FilePc.held,
            List.count_cons, List.count_nil, beq_iff_eq]
          omega)
      simpa [FileTable.goto, setOfile] using hsecond
  | forkFile np i =>
    rw [hpc] at hnext
    cases hnext
    exact h.forkFile hlive hpc
  | forkSet np fd f =>
    rw [hpc] at hnext
    cases hnext
    exact h.forkSet hlive hpc
  | exitFile i =>
    rw [hpc] at hnext
    cases hnext
    exact h.exitFile hlive hpc
  | exitObj fd n obj =>
    simp only [hpc, Option.some.injEq] at hnext hplace
    subst hnext
    refine Refs.goto (s := s.closeObj n) ⟨h.calm, h.count, h.place, h.fresh, h.opened,
      h.idle, h.empty, h.child⟩ hlive ?_ hplace (by simp [FilePc.fresh]) (by simp [FilePc.child])
    intro f
    simp [refs, FileTable.closeObj, hpc, FilePc.skips, FilePc.held]
  | exitClear fd =>
    simp only [hpc, Option.some.injEq] at hnext hplace
    subst hnext
    refine h.slot hlive ?_ ?_ (by simp [FilePc.fresh]) rfl
    · intro g
      simp [refs, hpc, FilePc.skips, FilePc.held, slotRefs_clear]
    · intro fd' hfd'
      by_cases heq : fd' = fd
      · simp [setOfile_self, heq]
      · rw [setOfile_self, update_of_ne heq]
        refine hplace fd' ?_
        have : fd'.val ≠ fd.val := fun hval => heq (Fin.ext hval)
        omega

theorem fork (hpc : s.pc p = .user ret) {np : Slot} (hnp : s.status np = .unused) :
    (({ s with status := update s.status np .embryo } :
      FileTable).goto p (.forkFile np 0)).Refs := by
  have hnone : ∀ q, (s.pc q).child ≠ some np := by
    intro q hq
    have := (h.place q).child_embryo hq
    rw [hnp] at this
    contradiction
  have hne : p ≠ np := by
    rintro rfl
    rw [hnp] at hlive
    contradiction
  have hembryo := h.setStatus np .embryo hnone (fun _ => h.idle np (by rw [hnp]; decide)) (by simp)
  refine hembryo.goto (by simpa [hne] using hlive) ?_ ?_ (by simp [FilePc.fresh]) ?_
  · intro f
    simp [refs, hpc, FilePc.skips, FilePc.held]
  · exact ⟨by simp, fun fd _ => h.empty np (Or.inl hnp) fd⟩
  · intro n hn
    cases hn
    exact Or.inr ⟨by simp, hnone⟩

end

end

end Refs

theorem call_spec {act : FileTable → FileTable} (hcall : s.call p act = some s') :
    s.status p = .live ∧ (∃ ret, s.pc p = .user ret) ∧ s' = act s := by
  unfold call at hcall
  split at hcall
  · rename_i ret hlive hpc
    simp only [Option.some.injEq] at hcall
    exact ⟨hlive, ⟨ret, hpc⟩, hcall.symm⟩
  · contradiction

theorem fileinit_refs : fileinit.Refs := by
  refine ⟨rfl, ?_, ?_, ?_, ?_, ?_, ?_, ?_⟩
  · intro f
    simp [fileinit, refs, slotRefs_eq_zero, FilePc.held]
  · intro p
    trivial
  · simp [fileinit, FilePc.fresh]
  · simp [fileinit]
  · intro p _
    exact Or.inr ⟨none, rfl⟩
  · simp [fileinit]
  · simp [fileinit, FilePc.child]

theorem Refs.move (h : s.Refs) {l : FileLabel}
    (hstep : FileTable.step l s = some s') : s'.Refs := by
  unfold FileTable.step at hstep
  rw [if_neg (by simp [h.calm])] at hstep
  cases l with
  | dup p n =>
    obtain ⟨hlive, ⟨_, hpc⟩, rfl⟩ := call_spec hstep
    exact h.sysDup hlive hpc n
  | close p n =>
    obtain ⟨hlive, ⟨_, hpc⟩, rfl⟩ := call_spec hstep
    exact h.sysClose hlive hpc n
  | «open» p obj =>
    obtain ⟨hlive, ⟨_, hpc⟩, rfl⟩ := call_spec hstep
    exact h.sysOpen hlive hpc obj
  | pipe p =>
    obtain ⟨hlive, ⟨_, hpc⟩, rfl⟩ := call_spec hstep
    exact h.sysPipe hlive hpc
  | fork p np =>
    dsimp only at hstep
    split at hstep
    · rename_i hnp
      obtain ⟨hlive, ⟨_, hpc⟩, rfl⟩ := call_spec hstep
      exact h.fork hlive hpc hnp
    · contradiction
  | exit p =>
    dsimp only at hstep
    split at hstep
    · contradiction
    · obtain ⟨hlive, ⟨_, hpc⟩, rfl⟩ := call_spec hstep
      exact h.goto hlive (fun f => (refs_user hpc f).symm)
        (fun fd hfd => absurd hfd (Nat.not_lt_zero _))
        (by simp [FilePc.fresh]) (by simp [FilePc.child])
  | next p ok pi =>
    dsimp only at hstep
    split at hstep
    · rename_i hlive
      exact h.next hlive hstep
    · contradiction
  | reap p =>
    dsimp only at hstep
    split at hstep
    · rename_i hdead
      cases hstep
      refine h.setStatus p .unused ?_ ?_ ?_
      · intro q hq
        have := (h.place q).child_embryo hq
        rw [hdead] at this
        contradiction
      · exact fun _ => h.idle p (by rw [hdead]; decide)
      · exact fun _ => h.empty p (Or.inr hdead)
    · contradiction

end FileTable

end Xv6
