import Xv6.SystemCalls

/-!
# Link counts

`nlink` is a `short`, in memory and on disk.  As long as no count wraps around
it is the number of entries that name the inode.  Nothing in `sys_link` or
`create` stops it from wrapping around: the 32768th link makes it negative, and
removing any name of the file is a panic then.
-/

namespace Xv6

open Fs

/-- If all entries have been written in directories with links, link counts are
exact, and what is free is not named. -/
theorem link_counts_exact {img : FsDisk} (himg : img.WellFormed)
    {ls : List (Slot × FsCall)} {t : Fs}
    (hrun : Machine.run Fs.step ls (fsinit img) = some t)
    (hlinked : t.strayed = false) (hwrapped : t.wrapped = false) :
    (t.stopped = none → ∀ i, i ≠ 0 → (t.disk.Alloc i → (t.inode i).nlink.toInt = t.disk.naming i) ∧
      (¬ t.disk.Alloc i → t.disk.naming i = 0)) ∧
      t.stopped ≠ some .unlinkNlink := by
  have hgood : Good False t := run_good himg hrun ⟨hwrapped, fun hF => hF.elim, fun _ => hlinked⟩
  constructor
  · intro hrunning i hi
    have htree := (hgood.ok hrunning).inv.tree
    constructor
    · intro ha
      have hlinks := htree.links i ha
      simp only [Pi.zero_apply, Nat.cast_zero, add_zero] at hlinks
      exact hlinks
    · intro hfree
      exact htree.naming_eq_zero hi hfree
  · intro hstop
    exact (hgood.stop _ hstop).1 rfl

/-- A file gets a second name in another directory, and loses the first. -/
def renameFile : List (Slot × FsCall) :=
  [(0, .mkdir [47, 97] fun _ => true), (0, .open [47, 102] 0x200 none fun _ => true),
    (0, .link [47, 102] [47, 97, 47, 103] fun _ => true),
    (0, .unlink [47, 102])]

theorem link_counts_exact_renameFile :
    ∃ t, Machine.run Fs.step renameFile (fsinit (rootImage 8)) = some t ∧
      (t.inode 1).nlink.toInt = t.disk.naming 1 ∧
      (t.inode 3).nlink.toInt = t.disk.naming 3 := by
  refine Machine.exists_run (P := fun t => decide (t.strayed = false ∧ t.wrapped = false ∧
      t.stopped = none ∧ (t.inode 1).type ≠ .free ∧
      (t.inode 3).type ≠ .free))
    (by decide +kernel) ?_
  intro t hrun ht
  obtain ⟨hstrayed, hwrapped, hs, ha, ha'⟩ := of_decide_eq_true ht
  have hexact := (link_counts_exact
    (rootImage_wellFormed (by decide) (by decide)) hrun hstrayed hwrapped).1 hs
  exact ⟨(hexact 1 (by decide)).1 ha, (hexact 3 (by decide)).1 ha'⟩

theorem FsDisk.Tree.up_reaches {t : FsDisk} {D : ℕ → ℕ} {d : ℕ} (h : t.Tree D) (hd : t.Reach d)
    (hdir : t.IsDir d) : ∃ n, t.up^[n] d = rootIno := by
  induction hd with
  | root => exact ⟨0, rfl⟩
  | entry _ hparent he hreal hi hne ih =>
    subst hi
    obtain ⟨n, hn⟩ := ih hparent
    refine ⟨n + 1, ?_⟩
    rw [Function.iterate_succ_apply, ((h.names _ hparent _ he hreal hne).2.2.2 hdir).2, hn]

section

variable {img : FsDisk} (himg : img.WellFormed) {ls : List (Slot × FsCall)} {t : Fs}
  (hrun : Machine.run Fs.step ls (fsinit img) = some t) (hwrapped : t.wrapped = false)
  (hstrayed : t.strayed = false) (hrunning : t.stopped = none)
include himg hrun hwrapped hstrayed hrunning

theorem run_inv : t.Inv 0 0 :=
  ((run_good himg hrun ⟨hwrapped, False.elim, fun _ => hstrayed⟩).ok hrunning).inv

/-- From a directory with links ".." leads to the root, and it has one name, in
the directory that ".." names. -/
theorem directories_form_tree {d : ℕ} (hd : t.disk.Linked d) :
    (∃ n, t.disk.up^[n] d = rootIno) ∧ ∀ d', t.disk.IsDir d' →
      (t.inode d').entries.countP (fun e => e.Real ∧ e.inum = d) =
        if d ≠ rootIno ∧ d' = t.disk.up d then 1 else 0 := by
  have htree := (run_inv himg hrun hwrapped hstrayed hrunning).tree
  refine ⟨htree.up_reaches (htree.reach d hd) hd.1, fun d' hdir => ?_⟩
  split_ifs with hup
  · rw [hup.2]
    exact htree.once d hd hup.1
  · rw [List.countP_eq_zero]
    intro e he hnames
    obtain ⟨hreal, rfl⟩ := of_decide_eq_true hnames
    have hne : e.inum ≠ 0 := (htree.bound _ hd.alloc).1.ne'
    obtain ⟨hroot, heq⟩ := (htree.names d' hdir e he hreal hne).2.2.2 hd.1
    exact hup ⟨hroot, heq.symm⟩

/-- References are those of open files and of processes, and without links an
inode is kept as long as it has one. -/
theorem references_exact (i : ℕ) : t.ref i = t.held i ∧ (0 < t.held i → t.disk.Alloc i) ∧
    (t.disk.Alloc i → (t.inode i).nlink = 0 → 0 < t.held i) := by
  have hmem := (run_inv himg hrun hwrapped hstrayed hrunning).mem
  have hrefs : t.ref i = t.held i := by rw [hmem.refs, Pi.zero_apply, add_zero]
  exact ⟨hrefs, hmem.held i, fun ha hzero => hrefs ▸ hmem.live i ha hzero⟩

end

theorem directories_form_tree_renameFile :
    ∃ t, Machine.run Fs.step renameFile (fsinit (rootImage 8)) = some t ∧
      t.disk.Linked 2 ∧ ∃ n, t.disk.up^[n] 2 = rootIno := by
  refine Machine.exists_run (P := fun t => decide (t.wrapped = false ∧ t.strayed = false ∧
    t.stopped = none ∧ (t.inode 2).type = .dir ∧ (t.inode 2).nlink ≠ 0)) (by decide +kernel) ?_
  intro t hrun ht
  obtain ⟨hw, hs, hrunning, hd⟩ := of_decide_eq_true ht
  exact ⟨hd, (directories_form_tree (rootImage_wellFormed (by decide) (by decide))
    hrun hw hs hrunning hd).1⟩

theorem references_exact_openFile :
    ∃ t, Machine.run Fs.step [(0, .open [47, 102] 0x200 (some 0) fun _ => true),
      (0, .unlink [47, 102])] (fsinit (rootImage 8)) = some t ∧
      (t.inode 2).nlink = 0 ∧ 0 < t.held 2 := by
  refine Machine.exists_run (P := fun t => decide (t.wrapped = false ∧ t.strayed = false ∧
    t.stopped = none ∧ (t.inode 2).type ≠ .free ∧ (t.inode 2).nlink = 0)) (by decide +kernel) ?_
  intro t hrun ht
  obtain ⟨hw, hs, hrunning, ha, hzero⟩ := of_decide_eq_true ht
  exact ⟨hzero, (references_exact (rootImage_wellFormed (by decide) (by decide))
    hrun hw hs hrunning 2).2.2 ha hzero⟩

/-! ## A file with 32767 names -/

def linkName (k : ℕ) : Name := [UInt8.ofNat (128 + k / 128), UInt8.ofNat (128 + k % 128)]

/-- Entries `k < n` of directory `d`, all for inode 2. -/
def linkEntries (d n : ℕ) : List Dirent := ⟨d, dot, 0⟩ :: ⟨rootIno, dotdot, 0⟩ ::
    (List.range n).map fun k => ⟨2, linkName k, 0⟩

/-- File 2 has the name "f" in the root directory, and all others in "a" and
"b". -/
def linkImage : FsDisk where
  ninodes := 8
  inode
    | 1 => ⟨.dir, 0, 0, 3, [⟨1, dot, 0⟩, ⟨1, dotdot, 0⟩, ⟨2, [102], 0⟩, ⟨3, [97], 0⟩, ⟨4, [98], 0⟩]⟩
    | 2 => ⟨.file, 0, 0, 32767, []⟩
    | 3 => ⟨.dir, 0, 0, 1, linkEntries 3 16383⟩
    | 4 => ⟨.dir, 0, 0, 1, linkEntries 4 16383⟩
    | _ => ⟨.free, 0, 0, 0, []⟩
  gen := fun _ => 0

theorem linkName_real (k : ℕ) : linkName k ≠ dot ∧ linkName k ≠ dotdot := by
  constructor
  · simp [linkName, dot]
  · intro h
    simp only [linkName, dotdot, List.cons.injEq, and_true] at h
    have hbyte := congrArg UInt8.toNat h.2
    simp only [UInt8.toNat_ofNat', UInt8.reduceToNat] at hbyte
    omega

theorem naming_linkEntries (d n i : ℕ) : Inode.naming ⟨.dir, 0, 0, 1, linkEntries d n⟩ i =
      (if i = 2 then n else 0) + if i = rootIno then 1 else 0 := by
  have hdots : dotdot ≠ dot := by decide
  have hone : (1 : Int16) ≠ 0 := by decide
  have hlinks : ((List.range n).map fun k =>
      (⟨2, linkName k, 0⟩ : Dirent)).countP (Dirent.counts true i) = if i = 2 then n else 0 := by
    by_cases hi : i = 2
    · rw [if_pos hi, List.countP_eq_length.mpr]
      · simp
      · intro e he
        obtain ⟨k, _, rfl⟩ := List.mem_map.mp he
        exact FsDisk.Tree.real_counts (e := ⟨2, linkName k, 0⟩) (linkName_real k) hi.symm true
    · rw [if_neg hi, List.countP_eq_zero]
      intro e he
      obtain ⟨k, _, rfl⟩ := List.mem_map.mp he
      simp [Dirent.counts, Ne.symm hi]
  rw [Inode.naming_dir rfl]
  simp only [linkEntries, ne_eq, hone, not_false_eq_true, decide_true, List.countP_cons, hlinks]
  simp [Dirent.counts, hdots, eq_comm]

theorem linkImage_alloc {i : ℕ} (hi : linkImage.Alloc i) : i = 1 ∨ i = 2 ∨ i = 3 ∨ i = 4 := by
  by_contra hne
  push Not at hne
  apply hi
  unfold linkImage
  dsimp only
  split
  · exact absurd rfl hne.1
  · exact absurd rfl hne.2.1
  · exact absurd rfl hne.2.2.1
  · exact absurd rfl hne.2.2.2
  · rfl

theorem linkImage_dir {d : ℕ} (hd : linkImage.IsDir d) : d = 1 ∨ d = 3 ∨ d = 4 := by
  rcases linkImage_alloc hd.alloc with rfl | rfl | rfl | rfl
  · exact Or.inl rfl
  · exact absurd hd (show InodeType.file ≠ .dir by decide)
  · exact Or.inr (Or.inl rfl)
  · exact Or.inr (Or.inr rfl)

theorem linkImage_linked {d : ℕ} (hd : linkImage.IsDir d) : linkImage.Linked d := by
  refine ⟨hd, ?_⟩
  rcases linkImage_dir hd with rfl | rfl | rfl
  · change (3 : Int16) ≠ 0
    decide
  · change (1 : Int16) ≠ 0
    decide
  · change (1 : Int16) ≠ 0
    decide

theorem linkImage_naming (i : ℕ) : linkImage.naming i = (linkImage.inode 1).naming i +
      2 * ((if i = 2 then 16383 else 0) + if i = rootIno then 1 else 0) := by
  have hfree : ∀ d, (linkImage.inode d).type ≠ .dir → (linkImage.inode d).naming i = 0 :=
    fun d hd => Inode.naming_of_ne hd i
  have hthree : (linkImage.inode 3).naming i = _ := naming_linkEntries 3 16383 i
  have hfour : (linkImage.inode 4).naming i = _ := naming_linkEntries 4 16383 i
  unfold FsDisk.naming
  change ∑ d ∈ Finset.range 8, (linkImage.inode d).naming i = _
  simp only [Finset.sum_range_succ,
    Finset.sum_range_zero, hthree, hfour, hfree 0 (show InodeType.free ≠ .dir by decide),
    hfree 2 (show InodeType.file ≠ .dir by decide), hfree 5 (show InodeType.free ≠ .dir by decide),
    hfree 6 (show InodeType.free ≠ .dir by decide), hfree 7 (show InodeType.free ≠ .dir by decide)]
  omega

theorem linkImage_up {d : ℕ} (hd : linkImage.IsDir d) :
    linkImage.upEntry d = ⟨rootIno, dotdot, 0⟩ := by
  rcases linkImage_dir hd with rfl | rfl | rfl <;> rfl

theorem linkEntries_real {d n : ℕ} {e : Dirent} (he : e ∈ linkEntries d n)
    (hreal : e.Real) : e.inum = 2 ∧ e.gen = 0 := by
  simp only [linkEntries, List.mem_cons, List.mem_map] at he
  rcases he with rfl | rfl | ⟨k, _, rfl⟩
  · exact absurd rfl hreal.1
  · exact absurd rfl hreal.2
  · exact ⟨rfl, rfl⟩

theorem linkEntries_dots (d n : ℕ) : FsDisk.Dots d 0 (linkEntries d n) := by
  refine ⟨_, _, rfl, rfl, ?_⟩
  intro r hr _
  obtain ⟨k, _, rfl⟩ := List.mem_map.mp hr
  exact linkName_real k

theorem linkImage_names {d : ℕ} (hd : linkImage.IsDir d) {e : Dirent}
    (he : e ∈ (linkImage.inode d).entries) (hreal : e.Real) :
    e.gen = 0 ∧ (e.inum = 2 ∨ (e.inum = 3 ∨ e.inum = 4) ∧ d = rootIno) := by
  rcases linkImage_dir hd with rfl | rfl | rfl
  · change e ∈ [_, _, _, _, _] at he
    simp only [List.mem_cons, List.not_mem_nil, or_false] at he
    rcases he with rfl | rfl | rfl | rfl | rfl
    · exact absurd rfl hreal.1
    · exact absurd rfl hreal.2
    · exact ⟨rfl, Or.inl rfl⟩
    · exact ⟨rfl, Or.inr ⟨Or.inl rfl, rfl⟩⟩
    · exact ⟨rfl, Or.inr ⟨Or.inr rfl, rfl⟩⟩
  · obtain ⟨hinum, hgen⟩ := linkEntries_real he hreal
    exact ⟨hgen, Or.inl hinum⟩
  · obtain ⟨hinum, hgen⟩ := linkEntries_real he hreal
    exact ⟨hgen, Or.inl hinum⟩

theorem linkImage_wellFormed : linkImage.WellFormed := by
  have hroot : linkImage.IsDir rootIno := rfl
  have hdir : ∀ d, d = 3 ∨ d = 4 → linkImage.IsDir d := by
    rintro d (rfl | rfl) <;> rfl
  constructor
  · refine ⟨by decide, ?_, ?_, ?_, ?_, ?_, ?_, ?_, ?_⟩
    · intro i hi
      rcases linkImage_alloc hi with rfl | rfl | rfl | rfl
      all_goals decide
    · exact ⟨linkImage_linked hroot, by rw [FsDisk.up, linkImage_up hroot]⟩
    · intro d hd
      rcases linkImage_dir hd with rfl | rfl | rfl
      · refine ⟨_, _, rfl, rfl, ?_⟩
        decide
      · exact linkEntries_dots 3 16383
      · exact linkEntries_dots 4 16383
    · intro d hd e he hreal _
      obtain ⟨hgen, hinum⟩ := linkImage_names hd he hreal
      refine ⟨linkImage_linked hd, ?_, hgen, ?_⟩
      · rcases hinum with h2 | ⟨h34, _⟩
        · rw [h2]
          exact (show InodeType.file ≠ .free by decide)
        · exact (hdir _ h34).alloc
      · intro hsub
        rcases hinum with h2 | ⟨h34, hd1⟩
        · rw [h2] at hsub
          exact absurd hsub (show InodeType.file ≠ .dir by decide)
        · rw [FsDisk.up, linkImage_up hsub, hd1]
          refine ⟨?_, rfl⟩
          rcases h34 with h3 | h4
          · rw [h3]
            decide
          · rw [h4]
            decide
    · intro d hd
      rw [FsDisk.up, linkImage_up hd.1]
      exact ⟨linkImage_linked hroot, rfl⟩
    · intro d hd hne
      rw [FsDisk.up, linkImage_up hd.1]
      rcases linkImage_dir hd.1 with rfl | rfl | rfl
      · exact absurd rfl hne
      · decide +kernel
      · decide +kernel
    · intro i hi
      rw [linkImage_naming]
      rcases linkImage_alloc hi with rfl | rfl | rfl | rfl <;> decide +kernel
    · intro d hd
      rcases linkImage_dir hd.1 with rfl | rfl | rfl
      · exact .root
      · exact .entry .root hroot (e := ⟨3, [97], 0⟩)
          (show _ ∈ [_, _, _, _, _] by simp) (by decide) rfl (by decide)
      · exact .entry .root hroot (e := ⟨4, [98], 0⟩)
          (show _ ∈ [_, _, _, _, _] by simp) (by decide) rfl (by decide)
  · intro i hi
    rcases linkImage_alloc hi with rfl | rfl | rfl | rfl
    · exact (linkImage_linked hroot).2
    · change (32767 : Int16) ≠ 0
      decide
    · exact (linkImage_linked (hdir 3 (Or.inl rfl))).2
    · exact (linkImage_linked (hdir 4 (Or.inr rfl))).2

/-- The next link makes the count negative, and then the new name cannot be
removed. -/
theorem link_count_wraps : linkImage.WellFormed ∧
    (∃ t, Machine.run Fs.step [(0, .link [47, 102] [47, 103] fun _ => true)]
        (fsinit linkImage) = some t ∧ t.stopped = none ∧ t.strayed = false ∧
          t.disk.Alloc 2 ∧ (t.inode 2).nlink.toInt = -32768) ∧
    ∃ t, Machine.run Fs.step
      [(0, .link [47, 102] [47, 103] fun _ => true), (0, .unlink [47, 103])]
        (fsinit linkImage) = some t ∧ t.strayed = false ∧ t.stopped = some .unlinkNlink := by
  refine ⟨linkImage_wellFormed, ?_, ?_⟩
  · refine Machine.exists_run (P := fun t => decide (t.stopped = none ∧
        t.strayed = false ∧ (t.inode 2).type ≠ .free ∧
        (t.inode 2).nlink.toInt = -32768)) (by decide +kernel) ?_
    intro t _ ht
    obtain ⟨hs, hstrayed, ha, hnlink⟩ := of_decide_eq_true ht
    exact ⟨hs, hstrayed, ha, hnlink⟩
  · exact Machine.exists_run_decide (by decide +kernel)

end Xv6
