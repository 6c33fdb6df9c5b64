import Xv6.DirTree
import Xv6.Lib.Hoare

/-!
# References to inodes in system calls

An inode has as many references as open files, current directories and the call
in progress have to it.  An allocated inode whose link count is 0 has one, so
that it is freed with the last `iput`.  Calls of `iget`, `ilock` and `iput`
change the disk only by freeing inodes that nothing refers to any more.

`L i` is how many references to inode `i` the call in progress has.
-/

namespace Xv6

open Function (update update_of_ne update_self)
open FsDisk

def one (i : ℕ) : ℕ → ℕ := Pi.single i 1

@[simp] theorem one_self (i : ℕ) : one i i = 1 := by simp [one]

theorem one_of_ne {i k : ℕ} (h : k ≠ i) : one i k = 0 := by simp [one, h]

namespace Fs

def held (s : Fs) (i : ℕ) : ℕ := s.files.count i + ∑ p, if s.cwd p = some i then 1 else 0

structure Mem (s : Fs) (L : ℕ → ℕ) : Prop where
  refs : ∀ i, s.ref i = s.held i + L i
  held : ∀ i, 0 < s.held i → s.disk.Alloc i
  live : ∀ i, s.disk.Alloc i → (s.inode i).nlink = 0 → 0 < s.ref i
  read : ∀ i, 0 < s.ref i → s.valid i = true → s.disk.Alloc i
  unread : ∀ i, 0 < s.ref i → s.valid i = false → s.disk.Alloc i → (s.inode i).nlink ≠ 0

structure Inv (s : Fs) (L D : ℕ → ℕ) : Prop where
  tree : s.disk.Tree D
  mem : s.Mem L

def Tidy (s : Fs) : Prop := ∀ d, s.disk.IsDir d → (s.inode d).nlink ≠ 0

/-- What calls of `iget`, `ilock` and `iput` leave alone. -/
structure Same (s t : Fs) : Prop where
  ninodes : t.disk.ninodes = s.disk.ninodes
  gen : t.disk.gen = s.disk.gen
  cwd : t.cwd = s.cwd
  files : t.files = s.files
  stopped : t.stopped = s.stopped
  wrapped : t.wrapped = s.wrapped
  strayed : t.strayed = s.strayed
  orphaned : t.orphaned = s.orphaned

/-- Inodes with a reference are kept, others are kept or freed. -/
structure Keeps (L : ℕ → ℕ) (s t : Fs) : Prop where
  used : ∀ i, 0 < s.held i + L i → t.inode i = s.inode i
  other : ∀ i, t.inode i = s.inode i ∨ ¬ t.disk.Alloc i

variable {s t u : Fs} {L D : ℕ → ℕ} {i j d : ℕ}

namespace Same

theorem refl (s : Fs) : s.Same s := ⟨rfl, rfl, rfl, rfl, rfl, rfl, rfl, rfl⟩

theorem trans (h : s.Same t) (h' : t.Same u) : s.Same u :=
  ⟨h'.ninodes.trans h.ninodes,
    h'.gen.trans h.gen, h'.cwd.trans h.cwd, h'.files.trans h.files, h'.stopped.trans h.stopped,
    h'.wrapped.trans h.wrapped, h'.strayed.trans h.strayed, h'.orphaned.trans h.orphaned⟩

theorem held (h : s.Same t) (i : ℕ) : t.held i = s.held i := by
  unfold Fs.held
  rw [h.files, h.cwd]

end Same

namespace Keeps

theorem of_disk (h : t.disk = s.disk) : Keeps L s t := by
  have hinode : ∀ i, t.inode i = s.inode i := by
    intro i
    rw [inode, inode, h]
  exact ⟨fun i _ => hinode i, fun i => Or.inl (hinode i)⟩

theorem trans (hs : s.Same t) (h : Keeps L s t) (h' : Keeps L t u) : Keeps L s u := by
  constructor
  · intro i hi
    rw [h'.used i (by rw [hs.held]; exact hi), h.used i hi]
  · intro i
    rcases h'.other i with hi | hi
    · rcases h.other i with hi' | hi'
      · exact Or.inl (hi.trans hi')
      · right
        unfold Alloc at hi' ⊢
        change ¬ (u.inode i).type ≠ .free
        rw [hi]
        exact hi'
    · exact Or.inr hi

theorem weaken {M : ℕ → ℕ} (h : Keeps (L + M) s t) : Keeps L s t := by
  refine ⟨fun i hi => h.used i ?_, h.other⟩
  rw [Pi.add_apply]
  omega

theorem alloc_used (h : Keeps L s t) (hi : 0 < s.held i + L i)
    (ha : s.disk.Alloc i) : t.disk.Alloc i := by
  unfold Alloc at ha ⊢
  change (t.inode i).type ≠ .free
  rw [h.used i hi]
  exact ha

theorem alloc (h : Keeps L s t) (hi : t.disk.Alloc i) : t.inode i = s.inode i := by
  rcases h.other i with heq | hfree
  · exact heq
  · exact absurd hi hfree

theorem isDir (h : Keeps L s t) (hd : t.disk.IsDir d) : s.disk.IsDir d ∧ t.inode d = s.inode d := by
  have heq := h.alloc hd.alloc
  refine ⟨?_, heq⟩
  unfold IsDir at hd ⊢
  change (s.inode d).type = .dir
  rw [← heq]
  exact hd

theorem tidy (h : Keeps L s t) (ht : s.Tidy) : t.Tidy := by
  intro d hd
  obtain ⟨hd', heq⟩ := h.isDir hd
  rw [heq]
  exact ht d hd'

end Keeps

namespace Mem

theorem addRef (h : s.Mem L) (hi : 0 < s.ref i) : (s.setRef i (s.ref i + 1)).Mem (L + one i) := by
  have hpos : ∀ k, 0 < (s.setRef i (s.ref i + 1)).ref k → 0 < s.ref k := by
    intro k hk
    by_cases hki : k = i
    · rw [hki]
      exact hi
    · simpa [setRef, hki] using hk
  refine ⟨?_, h.held, ?_, ?_, ?_⟩
  · intro k
    have hk := h.refs k
    change update s.ref i (s.ref i + 1) k = s.held k + (L + one i) k
    by_cases hki : k = i
    · subst hki
      simp only [update_self, Pi.add_apply, one_self]
      omega
    · simp only [update_of_ne hki, Pi.add_apply, one_of_ne hki]
      omega
  · intro k ha hz
    have := h.live k ha hz
    by_cases hki : k = i
    · simp [setRef, hki]
    · simpa [setRef, hki] using this
  · intro k hk
    exact h.read k (hpos k hk)
  · intro k hk
    exact h.unread k (hpos k hk)

theorem firstRef (h : s.Mem L) (hi : s.ref i = 0) :
    ((s.setRef i 1).setValid i false).Mem (L + one i) := by
  refine ⟨?_, h.held, ?_, ?_, ?_⟩
  · intro k
    have hk := h.refs k
    change update s.ref i 1 k = s.held k + (L + one i) k
    by_cases hki : k = i
    · subst hki
      simp only [update_self, Pi.add_apply, one_self]
      omega
    · simp only [update_of_ne hki, Pi.add_apply, one_of_ne hki]
      omega
  · intro k ha hz
    have := h.live k ha hz
    by_cases hki : k = i
    · simp [setRef, setValid, hki]
    · simpa [setRef, setValid, hki] using this
  · intro k hk hv
    by_cases hki : k = i
    · simp [setValid, hki] at hv
    · simp only [setRef, setValid, update_of_ne hki] at hk hv
      exact h.read k hk hv
  · intro k hk hv ha
    by_cases hki : k = i
    · subst hki
      intro hz
      have := h.live k ha hz
      omega
    · simp only [setRef, setValid, update_of_ne hki] at hk hv
      exact h.unread k hk hv ha

theorem setValid (h : s.Mem L) (ha : s.disk.Alloc i) : (s.setValid i true).Mem L := by
  refine ⟨h.refs, h.held, h.live, ?_, ?_⟩
  · intro k hk hv
    by_cases hki : k = i
    · rw [hki]
      exact ha
    · simp only [Fs.setValid, update_of_ne hki] at hv
      exact h.read k hk hv
  · intro k hk hv
    by_cases hki : k = i
    · simp [Fs.setValid, hki] at hv
    · simp only [Fs.setValid, update_of_ne hki] at hv
      exact h.unread k hk hv

theorem refs_drop (h : s.Mem (L + one i)) (k : ℕ) :
    update s.ref i (s.ref i - 1) k = s.held k + L k := by
  have hk := h.refs k
  by_cases hki : k = i
  · subst hki
    simp only [Pi.add_apply, one_self] at hk
    rw [update_self]
    omega
  · simp only [Pi.add_apply, one_of_ne hki] at hk
    rw [update_of_ne hki]
    omega

theorem dropRef (h : s.Mem (L + one i))
    (hkeep : ¬ (s.ref i = 1 ∧ s.valid i = true ∧ (s.inode i).nlink = 0)) :
    (s.setRef i (s.ref i - 1)).Mem L := by
  have hpos : ∀ k, 0 < (s.setRef i (s.ref i - 1)).ref k → 0 < s.ref k := by
    intro k hk
    by_cases hki : k = i
    · subst hki
      simp only [setRef, update_self] at hk
      omega
    · simpa [setRef, hki] using hk
  refine ⟨h.refs_drop, h.held, ?_, ?_, ?_⟩
  · intro k ha hz
    have hlive := h.live k ha hz
    by_cases hki : k = i
    · subst hki
      simp only [setRef, update_self]
      by_contra hlast
      refine hkeep ⟨by omega, ?_, hz⟩
      by_contra hv
      simp only [Bool.not_eq_true] at hv
      exact h.unread k hlive hv ha hz
    · simpa [setRef, hki] using hlive
  · intro k hk
    exact h.read k (hpos k hk)
  · intro k hk
    exact h.unread k (hpos k hk)

theorem dropFree (h : s.Mem (L + one i)) (hone : s.ref i = 1) :
    (((s.setDisk (s.disk.free i)).setValid i false).setRef i (s.ref i - 1)).Mem L := by
  have hinode : ∀ x, x ≠ i → (s.disk.free i).inode x = s.disk.inode x := by
    intro x hx
    simp [FsDisk.free, setInode, hx]
  have hfree : ¬ (s.disk.free i).Alloc i := by
    simp [FsDisk.free, setInode, Alloc]
  have halloc : ∀ x, (s.disk.free i).Alloc x → x ≠ i ∧ s.disk.Alloc x := by
    intro x hx
    have hxi : x ≠ i := by
      rintro rfl
      exact hfree hx
    unfold Alloc at hx ⊢
    rw [hinode x hxi] at hx
    exact ⟨hxi, hx⟩
  have hheld : s.held i = 0 := by
    have := h.refs i
    simp only [Pi.add_apply, one_self] at this
    omega
  refine ⟨h.refs_drop, ?_, ?_, ?_, ?_⟩
  · intro k hk
    change 0 < s.held k at hk
    have hki : k ≠ i := by
      rintro rfl
      omega
    have := h.held k hk
    unfold Alloc at this ⊢
    change ((s.disk.free i).inode k).type ≠ .free
    rw [hinode k hki]
    exact this
  · intro k ha hz
    obtain ⟨hki, ha'⟩ := halloc k ha
    change ((s.disk.free i).inode k).nlink = 0 at hz
    rw [hinode k hki] at hz
    have := h.live k ha' hz
    simpa [setRef, Fs.setValid, setDisk, hki] using this
  · intro k hk hv
    have hki : k ≠ i := by
      rintro rfl
      simp [setRef, Fs.setValid] at hv
    simp only [setRef, Fs.setValid, setDisk, update_of_ne hki] at hk hv
    have := h.read k hk hv
    unfold Alloc at this ⊢
    change ((s.disk.free i).inode k).type ≠ .free
    rw [hinode k hki]
    exact this
  · intro k hk hv ha
    obtain ⟨hki, ha'⟩ := halloc k ha
    change ((s.disk.free i).inode k).nlink ≠ 0
    rw [hinode k hki]
    simp only [setRef, Fs.setValid, setDisk, update_of_ne hki] at hk hv
    exact h.unread k hk hv ha'

end Mem

theorem Inv.of_disk {M : ℕ → ℕ} (h : s.Inv L D) (hdisk : t.disk = s.disk)
    (hmem : t.Mem M) : t.Inv M D :=
  ⟨by rw [hdisk]; exact h.tree, hmem⟩

end Fs

/-! ## `iget`, `ilock`, `iput` -/

open Fs Hoare

variable {s : Fs} {L D : ℕ → ℕ}

theorem iget_spec (i : ℕ) : Holds (iget i) s (fun _ t => s.Same t ∧
    t.disk = s.disk ∧ (s.Mem L → t.Mem (L + one i))) (fun e t => s.Same t ∧ e = .igetNoInodes) := by
  unfold iget
  refine Hoare.get_bind ?_
  split
  · rename_i hi
    exact Hoare.set ⟨⟨rfl, rfl, rfl, rfl, rfl, rfl, rfl, rfl⟩, rfl, fun h => h.addRef hi⟩
  · rename_i hi
    split
    · exact Hoare.set ⟨⟨rfl, rfl, rfl, rfl, rfl, rfl, rfl, rfl⟩, rfl,
        fun h => h.firstRef (by omega)⟩
    · exact Hoare.throw ⟨Same.refl _, rfl⟩

theorem idup_spec (i : ℕ) : Holds (idup i) s (fun _ t => s.Same t ∧
    t.disk = s.disk ∧ (s.Mem L → 0 < s.ref i → t.Mem (L + one i))) (fun _ _ => False) :=
  Hoare.modify ⟨⟨rfl, rfl, rfl, rfl, rfl, rfl, rfl, rfl⟩, rfl, fun h hi => h.addRef hi⟩

theorem ilock_spec (i : ℕ) : Holds (ilock i) s (fun _ t => s.Same t ∧
    t.disk = s.disk ∧ t.valid i = true ∧ (s.Mem L → t.Mem L ∧ t.disk.Alloc i))
    (fun e t => s.Same t ∧ e ≠ .unlinkNlink ∧ (e = .noType → ¬ s.disk.Alloc i)) := by
  unfold ilock
  refine Hoare.get_bind ?_
  split
  · exact Hoare.throw ⟨Same.refl _, by decide, by simp⟩
  · rename_i hi
    split
    · rename_i hv
      exact Hoare.pure ⟨Same.refl _, rfl, hv, fun h => ⟨h, h.read i (by omega) hv⟩⟩
    · split
      · rename_i hfree
        exact Hoare.throw ⟨Same.refl _, by decide, fun _ ha => ha hfree⟩
      · rename_i ha
        exact Hoare.set ⟨⟨rfl, rfl, rfl, rfl, rfl, rfl, rfl, rfl⟩, rfl,
          by simp [setValid], fun h => ⟨h.setValid ha, ha⟩⟩

theorem Fs.putInode_same (i : ℕ) (s : Fs) : s.Same (s.putInode i) := by
  unfold putInode
  split <;> exact ⟨rfl, rfl, rfl, rfl, rfl, rfl, rfl, rfl⟩

theorem Fs.Mem.putInode {i : ℕ} (h : s.Mem (L + one i)) :
    (s.putInode i).Mem L ∧ Keeps L s (s.putInode i) := by
  unfold Fs.putInode
  split
  · rename_i hlast
    refine ⟨h.dropFree hlast.1, ?_⟩
    have hother : ∀ k, k ≠ i → (s.disk.free i).inode k = s.disk.inode k := by
      intro k hk
      simp [FsDisk.free, setInode, hk]
    constructor
    · intro k hk
      refine hother k ?_
      rintro rfl
      have := h.refs k
      simp only [Pi.add_apply, one_self] at this
      omega
    · intro k
      by_cases hk : k = i
      · right
        rw [hk]
        simp [setRef, Fs.setValid, setDisk, FsDisk.free, setInode, Alloc]
      · exact Or.inl (hother k hk)
  · rename_i hkeep
    exact ⟨h.dropRef hkeep, Keeps.of_disk rfl⟩

theorem FsDisk.Tree.putInode {i : ℕ} (h : s.disk.Tree D) : (s.putInode i).disk.Tree D := by
  unfold Fs.putInode
  split
  · rename_i hlast
    refine h.free (fun _ => hlast.2.2) ?_ ?_ rfl (fun _ _ => rfl)
    · intro k hk
      simp [setRef, Fs.setValid, setDisk, FsDisk.free, setInode, hk]
    · simp [setRef, Fs.setValid, setDisk, FsDisk.free, setInode, Alloc]
  · exact h

theorem Fs.Inv.putInode {i : ℕ} (h : s.Inv (L + one i) D) :
    (s.putInode i).Inv L D ∧ Keeps L s (s.putInode i) :=
  ⟨⟨h.tree.putInode, h.mem.putInode.1⟩, h.mem.putInode.2⟩

theorem iput_spec (i : ℕ) : Holds (iput i) s
    (fun _ t => s.Same t ∧ (s.Inv (L + one i) D → t.Inv L D ∧ Keeps L s t)) (fun _ _ => False) :=
  Hoare.modify ⟨s.putInode_same i, fun h => h.putInode⟩

/-! ## Looking up names -/

theorem dirlookup_spec (d : ℕ) (name : Name) : Holds (dirlookup d name) s
    (fun r t => s.Same t ∧ t.disk = s.disk ∧ s.disk.IsDir d ∧ match r with
      | none => t = s ∧ lookupEntry name (s.inode d).entries 0 = none
      | some (i, off) =>
        lookupEntry name (s.inode d).entries 0 = some (i, off) ∧ (s.Mem L → t.Mem (L + one i)))
    (fun e t => s.Same t ∧ e ≠ .unlinkNlink ∧ e ≠ .noType) := by
  unfold dirlookup
  refine Hoare.get_bind ?_
  split
  · exact Hoare.throw ⟨Same.refl _, by decide, by decide⟩
  · rename_i hdir
    have hdir : s.disk.IsDir d := not_not.mp hdir
    split
    · rename_i hnone
      exact Hoare.pure ⟨Same.refl _, rfl, hdir, rfl, hnone⟩
    · rename_i i off hsome
      refine Hoare.seq (iget_spec (L := L) i) ?_ ?_
      · rintro e t ⟨hsame, rfl⟩
        exact ⟨hsame, by decide, by decide⟩
      · rintro _ t ⟨hsame, hdisk, hinv⟩
        exact Hoare.pure ⟨hsame, hdisk, hdir, hsome, hinv⟩

theorem namexLoop_spec (parent : Bool) (elems : List Name) (i : ℕ) :
    Holds (namexLoop parent elems i) s (fun r t => s.Same t ∧ (s.Inv (L + one i) D → match r with
        | none => t.Inv L D ∧ Keeps L s t
        | some (j, _) => t.Inv (L + one j) D ∧ Keeps L s t ∧ (parent = true → t.disk.IsDir j) ∧
            (s.Tidy → s.disk.Alloc i → t.disk.Alloc j)))
      (fun e t => s.Same t ∧ e ≠ .unlinkNlink ∧ (e = .noType →
        s.Inv (L + one i) D → s.Tidy → ¬ s.disk.Alloc i)) := by
  induction elems generalizing i s with
  | nil =>
    unfold namexLoop
    split
    · refine Hoare.seq (iput_spec (L := L) (D := D) i) (by simp) ?_
      rintro _ t ⟨hsame, hinv⟩
      exact Hoare.pure ⟨hsame, hinv⟩
    · rename_i hparent
      exact Hoare.pure ⟨Same.refl _, fun h =>
        ⟨h, Keeps.of_disk rfl, fun hp => absurd hp hparent, fun _ ha => ha⟩⟩
  | cons name rest ih =>
    rw [namexLoop]
    refine Hoare.seq (ilock_spec (L := L + one i) i) ?_ ?_
    · rintro e t ⟨hsame, hne, hfree⟩
      exact ⟨hsame, hne, fun he _ _ => hfree he⟩
    rintro _ t1 ⟨hsame1, hdisk1, _, hmem1⟩
    have hinv1 : s.Inv (L + one i) D → t1.Inv (L + one i) D ∧ t1.disk.Alloc i := fun h =>
      ⟨h.of_disk hdisk1 (hmem1 h.mem).1, (hmem1 h.mem).2⟩
    refine Hoare.get_bind ?_
    split
    · refine Hoare.seq (iput_spec (L := L) (D := D) i) (by simp) ?_
      rintro _ t ⟨hsame, hinv⟩
      refine Hoare.pure ⟨hsame1.trans hsame, fun h => ?_⟩
      obtain ⟨hend, hkeeps⟩ := hinv (hinv1 h).1
      exact ⟨hend, (Keeps.of_disk hdisk1).trans hsame1 hkeeps⟩
    · rename_i hdir
      split
      · exact Hoare.pure ⟨hsame1, fun h =>
          ⟨(hinv1 h).1, Keeps.of_disk hdisk1, fun _ => not_not.mp hdir, fun _ _ => (hinv1 h).2⟩⟩
      · refine Hoare.seq (dirlookup_spec (L := L + one i) i name) ?_ ?_
        · rintro e t ⟨hsame, hne, htype⟩
          exact ⟨hsame1.trans hsame, hne, fun he => absurd he htype⟩
        rintro r t2 ⟨hsame2, hdisk2, hisDir, hfound⟩
        have hsame : s.Same t2 := hsame1.trans hsame2
        have hdisk : t2.disk = s.disk := hdisk2.trans hdisk1
        cases r with
        | none =>
          obtain ⟨rfl, _⟩ := hfound
          refine Hoare.seq (iput_spec (L := L) (D := D) i) (by simp) ?_
          rintro _ t ⟨hsame3, hinv⟩
          refine Hoare.pure ⟨hsame.trans hsame3, fun h => ?_⟩
          obtain ⟨hend, hkeeps⟩ := hinv (hinv1 h).1
          exact ⟨hend, (Keeps.of_disk hdisk).trans hsame hkeeps⟩
        | some found =>
          obtain ⟨next, off⟩ := found
          obtain ⟨hlookup, hmem2⟩ := hfound
          refine Hoare.seq (iput_spec (L := L + one next) (D := D) i) (by simp) ?_
          rintro _ t3 ⟨hsame3, hinv3⟩
          -- the state before the rest of the loop
          have hmid : s.Inv (L + one i) D →
              t3.Inv (L + one next) D ∧ Keeps (L + one next) s t3 := by
            intro h
            have hboth := (hinv1 h).1.of_disk hdisk2 (hmem2 (hinv1 h).1.mem)
            rw [add_right_comm] at hboth
            obtain ⟨hinv, hkeeps⟩ := hinv3 hboth
            exact ⟨hinv, (Keeps.of_disk hdisk).trans hsame hkeeps⟩
          have hsame' := hsame.trans hsame3
          have hnext : s.Inv (L + one i) D → s.Tidy → t3.disk.Alloc next := by
            intro h htidy
            rw [hdisk1] at hisDir
            have heq : t1.inode i = s.inode i := by
              rw [Fs.inode, Fs.inode, hdisk1]
            rw [heq] at hlookup
            refine (hmid h).2.alloc_used ?_ (h.tree.lookup_alloc ⟨hisDir, htidy i hisDir⟩ hlookup)
            simp only [Pi.add_apply, one_self]
            omega
          refine Hoare.mono (ih next) ?_ ?_
          · rintro r t ⟨hsame4, hinv4⟩
            refine ⟨hsame'.trans hsame4, fun h => ?_⟩
            obtain ⟨hinv, hkeeps⟩ := hmid h
            have hend := hinv4 hinv
            cases r with
            | none => exact ⟨hend.1, hkeeps.weaken.trans hsame' hend.2⟩
            | some res =>
              obtain ⟨hend1, hend2, hend3, hend4⟩ := hend
              exact ⟨hend1, hkeeps.weaken.trans hsame' hend2, hend3,
                fun ht _ => hend4 (hkeeps.tidy ht) (hnext h ht)⟩
          · rintro e t ⟨hsame4, hne, htype⟩
            refine ⟨hsame'.trans hsame4, hne, fun he h htidy _ => ?_⟩
            obtain ⟨hinv, hkeeps⟩ := hmid h
            exact htype he hinv (hkeeps.tidy htidy) (hnext h htidy)

theorem namex_spec (c : ℕ) (path : Path) (parent : Bool) : Holds (namex c path parent) s
      (fun r t => s.Same t ∧ (s.Inv L D → 0 < s.held c → match r with
        | none => t.Inv L D ∧ Keeps L s t
        | some (j, _) => t.Inv (L + one j) D ∧ Keeps L s t ∧
            (parent = true → t.disk.IsDir j) ∧ (s.Tidy → t.disk.Alloc j)))
      (fun e t => s.Same t ∧ e ≠ .unlinkNlink ∧ (e = .noType →
        s.Inv L D → 0 < s.held c → ¬ s.Tidy)) := by
  -- from a start `i` to which there is now a reference
  have hloop : ∀ i t1, s.Same t1 → t1.disk = s.disk → (s.Inv L D → 0 < s.held c →
      t1.Inv (L + one i) D ∧ s.disk.Alloc i) → Holds (namexLoop parent (pathElems path) i) t1
      (fun r t => s.Same t ∧ (s.Inv L D → 0 < s.held c → match r with
            | none => t.Inv L D ∧ Keeps L s t
            | some (j, _) => t.Inv (L + one j) D ∧ Keeps L s t ∧ (parent = true → t.disk.IsDir j) ∧
                (s.Tidy → t.disk.Alloc j)))
          (fun e t => s.Same t ∧ e ≠ .unlinkNlink ∧ (e = .noType →
            s.Inv L D → 0 < s.held c → ¬ s.Tidy)) := by
    intro i t1 hsame1 hdisk hinv1
    have hk : Keeps L s t1 := Keeps.of_disk hdisk
    refine Hoare.mono (namexLoop_spec (L := L) (D := D) parent _ i) ?_ ?_
    · rintro r t ⟨hsame, hinv⟩
      refine ⟨hsame1.trans hsame, fun h hc => ?_⟩
      obtain ⟨hstart, ha⟩ := hinv1 h hc
      have hend := hinv hstart
      cases r with
      | none => exact ⟨hend.1, hk.trans hsame1 hend.2⟩
      | some res =>
        obtain ⟨hend1, hend2, hend3, hend4⟩ := hend
        exact ⟨hend1, hk.trans hsame1 hend2, hend3,
          fun ht => hend4 (hk.tidy ht) (by rw [hdisk]; exact ha)⟩
    · rintro e t ⟨hsame, hne, htype⟩
      refine ⟨hsame1.trans hsame, hne, fun he h hc htidy => ?_⟩
      obtain ⟨hstart, ha⟩ := hinv1 h hc
      exact htype he hstart (hk.tidy htidy) (by rw [hdisk]; exact ha)
  unfold namex
  split
  · refine Hoare.seq (iget_spec (L := L) rootIno) ?_ ?_
    · rintro e t ⟨hsame, rfl⟩
      exact ⟨hsame, by decide, by simp⟩
    · rintro _ t1 ⟨hsame1, hdisk, hmem1⟩
      exact hloop rootIno t1 hsame1 hdisk
        (fun h _ => ⟨h.of_disk hdisk (hmem1 h.mem), h.tree.root.1.alloc⟩)
  · refine Hoare.seq (idup_spec (L := L) c) (by simp) ?_
    rintro _ t1 ⟨hsame1, hdisk, hmem1⟩
    refine hloop c t1 hsame1 hdisk (fun h hc => ⟨h.of_disk hdisk (hmem1 h.mem ?_), ?_⟩)
    · rw [h.mem.refs]
      omega
    · exact h.mem.held c hc

theorem namei_spec (c : ℕ) (path : Path) : Holds (namei c path) s
      (fun r t => s.Same t ∧ (s.Inv L D → 0 < s.held c → match r with
        | none => t.Inv L D ∧ Keeps L s t
        | some j => t.Inv (L + one j) D ∧ Keeps L s t ∧ (s.Tidy → t.disk.Alloc j)))
      (fun e t => s.Same t ∧ e ≠ .unlinkNlink ∧ (e = .noType →
        s.Inv L D → 0 < s.held c → ¬ s.Tidy)) := by
  unfold namei
  refine Hoare.bind (namex_spec (L := L) (D := D) c path false) ?_
  rintro r t ⟨hsame, hinv⟩
  cases r with
  | none => exact Hoare.pure ⟨hsame, hinv⟩
  | some res =>
    refine Hoare.pure ⟨hsame, fun h hc => ?_⟩
    obtain ⟨hend, hkeeps, _, halloc⟩ := hinv h hc
    exact ⟨hend, hkeeps, halloc⟩

end Xv6
