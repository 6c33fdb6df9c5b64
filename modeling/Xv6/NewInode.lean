import Xv6.FsChanges

/-!
# Creating an inode

`create` allocates an inode, gives it one link and makes the entries.  If one of
these cannot be written, the inode is freed again; until then the other inodes
are as they were.
-/

namespace Xv6

open FsDisk

namespace Fs

variable {T : Prop} {s t : Fs} {L D : ℕ → ℕ} {i d k : ℕ} {type : InodeType} {major minor : Int16}

/-- `create` has allocated inode `i` and given it one link. -/
def made (i : ℕ) (type : InodeType) (major minor : Int16) (s : Fs) : Fs :=
  { s with
    disk := (s.disk.alloc i type).setInode i ⟨type, major, minor, 1, []⟩
    ref := Function.update s.ref i 1
    valid := Function.update s.valid i true }

theorem made_self : (s.made i type major minor).inode i = ⟨type, major, minor, 1, []⟩ := by
  simp [made, inode, setInode]

theorem made_of_ne (hk : k ≠ i) : (s.made i type major minor).inode k = s.inode k := by
  simp [made, inode, setInode, FsDisk.alloc, hk]

/-- Nothing but inode `i` has changed. -/
structure Making (i : ℕ) (s t : Fs) : Prop where
  inode : ∀ k, k ≠ i → t.inode k = s.inode k
  ninodes : t.disk.ninodes = s.disk.ninodes
  gen : ∀ k, k ≠ i → t.disk.gen k = s.disk.gen k
  ref : t.ref = Function.update s.ref i 1
  valid : t.valid = Function.update s.valid i true
  cwd : t.cwd = s.cwd
  files : t.files = s.files

theorem Making.made : Making i s (s.made i type major minor) := by
  constructor
  · intro k hk
    exact made_of_ne hk
  · rfl
  · intro k hk
    simp [Fs.made, setInode, FsDisk.alloc, hk]
  · rfl
  · rfl
  · rfl
  · rfl

theorem withEntry_of_ne {name : Name} {j : ℕ} (hk : k ≠ d) :
    (s.withEntry d name j).inode k = s.inode k := by
  simp [withEntry, writeAt, setDisk, inode, setEntries, setInode, hk]

theorem withEntry_self {name : Name} {j : ℕ} : (s.withEntry d name j).inode d = { s.inode d with
      entries := writeEntry (s.inode d).entries
        (emptyEntry (s.inode d).entries) ⟨j % 2 ^ 16, name, s.disk.gen j⟩ } := by
  simp [withEntry, writeAt, setDisk, inode, setEntries, setInode]

theorem Making.withEntry (h : Making i s t) (name : Name) (j : ℕ) :
    Making i s (t.withEntry i name j) := by
  constructor
  · intro k hk
    rw [withEntry_of_ne hk]
    exact h.inode k hk
  · exact h.ninodes
  · exact h.gen
  · exact h.ref
  · exact h.valid
  · exact h.cwd
  · exact h.files

/-- Inode `i` is free again, and nothing else has changed. -/
structure Unmade (i : ℕ) (s t : Fs) : Prop where
  free : ¬ t.disk.Alloc i
  inode : ∀ k, k ≠ i → t.inode k = s.inode k
  ninodes : t.disk.ninodes = s.disk.ninodes
  gen : ∀ k, k ≠ i → t.disk.gen k = s.disk.gen k
  ref : t.ref = s.ref
  valid : ∀ k, k ≠ i → t.valid k = s.valid k
  cwd : t.cwd = s.cwd
  files : t.files = s.files

theorem Making.unmake (hm : Making i s t) (hzero : s.ref i = 0) :
    Unmade i s ((t.setDisk (t.disk.setNlink i 0)).putInode i) := by
  have href : t.ref i = 1 := by
    rw [hm.ref, Function.update_self]
  have hvalid : t.valid i = true := by
    rw [hm.valid, Function.update_self]
  have hnlink : ((t.setDisk (t.disk.setNlink i 0)).inode i).nlink = 0 := by
    simp [setDisk, Fs.inode, setNlink, setInode]
  have hput : (t.setDisk (t.disk.setNlink i 0)).putInode i =
      (((t.setDisk (t.disk.setNlink i 0)).setDisk
        ((t.disk.setNlink i 0).free i)).setValid i false).setRef i
          (t.ref i - 1) := by
    unfold putInode
    rw [if_pos ⟨href, hvalid, hnlink⟩]
    rfl
  rw [hput]
  refine ⟨?_, ?_, hm.ninodes, hm.gen, ?_, ?_, hm.cwd, hm.files⟩
  · simp [setRef, Fs.setValid, setDisk, FsDisk.free, setInode, Alloc]
  · intro k hk
    rw [← hm.inode k hk]
    simp [setRef, Fs.setValid, setDisk, Fs.inode, FsDisk.free, setNlink, setInode, hk]
  · funext k
    by_cases hk : k = i
    · simp [setRef, hk, href, hzero]
    · simp [setRef, Fs.setValid, setDisk, hm.ref, hk]
  · intro k hk
    simp [setRef, Fs.setValid, setDisk, hm.valid, hk]

theorem Ok.unmade (h : s.Ok T L D) (hu : Unmade i s t)
    (hfree : ¬ s.disk.Alloc i) (hzero : s.ref i = 0) : t.Ok T L D := by
  have hinv :
    t.Inv L D := ⟨h.inv.tree.free (fun ha => absurd ha hfree) hu.inode hu.free hu.ninodes hu.gen,
    h.inv.mem.freeAgain hfree hzero hu.free hu.inode hu.ref hu.valid hu.cwd hu.files⟩
  apply h.of_inv hinv
  intro x hx
  have hxi : x ≠ i := by
    rintro rfl
    exact hu.free hx.alloc
  have heq := hu.inode x hxi
  refine ⟨?_, by rw [heq]⟩
  unfold IsDir at hx ⊢
  change (s.inode x).type = .dir
  rw [← heq]
  exact hx

/-! ## Files and devices -/

theorem Ok.made (h : s.Ok T L D) (hfree : ¬ s.disk.Alloc i) (hzero : s.ref i = 0)
    (hi : 0 < i ∧ i < s.disk.ninodes) (hD : D i = 0) (htype : type ≠ .free) (hnot : type ≠ .dir) :
    (s.made i type major minor).Ok T (L + one i) (D + one i) := by
  have hself : (s.made i type major minor).disk.inode i = ⟨type, major, minor, 1, []⟩ := made_self
  have hother : ∀ k, k ≠ i → (s.made i type major minor).inode k = s.inode k :=
    fun k hk => made_of_ne hk
  have halloc : (s.made i type major minor).disk.Alloc i := by
    unfold Alloc
    rw [hself]
    exact htype
  have hnot' : ¬ (s.made i type major minor).disk.IsDir i := by
    unfold IsDir
    rw [hself]
    exact hnot
  have htree : (s.made i type major minor).disk.Tree (D + one i) := by
    apply h.inv.tree.setNode hi (fun hd => hfree hd.alloc) hnot' hother rfl
    · intro x hx
      have hxi : x ≠ i := hx.resolve_right hfree
      exact Making.made.gen x hxi
    · intro x hx
      rw [Pi.add_apply, one_of_ne hx, add_zero]
    · exact halloc
    · rw [hself, h.inv.tree.naming_eq_zero hi.1.ne' hfree, Pi.add_apply, hD, one_self]
      rfl
  apply h.of_inv
  · refine ⟨htree, h.inv.mem.newInode hzero rfl rfl rfl rfl ?_ ?_ ?_⟩
    · intro k hk
      rw [hother k hk]
    · intro k hk
      rw [hother k hk]
      exact id
    · exact halloc
  · intro x hx
    have hxi : x ≠ i := by
      rintro rfl
      exact hnot' hx
    have heq := hother x hxi
    refine ⟨?_, by rw [heq]⟩
    unfold IsDir at hx ⊢
    change (s.inode x).type = .dir
    rw [← heq]
    exact hx

/-! ## Directories -/

/-- `create` has made directory `i` and its first two entries. -/
def madeDots (d i : ℕ) (major minor : Int16) (s : Fs) : Fs :=
  ((s.made i .dir major minor).withEntry i dot i).withEntry i dotdot d

/-- `create` has made directory `i` in `d`. -/
def madeDir (d i : ℕ) (name : Name) (major minor : Int16) (s : Fs) : Fs :=
  ((s.madeDots d i major minor).withEntry d name i).linkUp d

section

variable {name : Name}

theorem Making.madeDots : Making i s (s.madeDots d i major minor) :=
  (Making.made.withEntry dot i).withEntry dotdot d

theorem madeDots_self (hi : 0 < i ∧ i < 2 ^ 16) (hd : d < 2 ^ 16) (hdi : d ≠ i) :
    (s.madeDots d i major minor).inode i = ⟨.dir, major, minor, 1,
      [⟨i, dot, s.disk.gen i + 1⟩, ⟨d, dotdot, s.disk.gen d⟩]⟩ := by
  have hmod : i % 2 ^ 16 = i := Nat.mod_eq_of_lt hi.2
  have hgen : (s.made i .dir major minor).disk.gen i = s.disk.gen i + 1 := by
    simp [Fs.made, setInode, FsDisk.alloc]
  have hgend : (s.made i .dir major minor).disk.gen d = s.disk.gen d := by
    simp [Fs.made, setInode, FsDisk.alloc, hdi]
  have hfirst : ((s.made i .dir major minor).withEntry i dot i).inode i =
      ⟨.dir, major, minor, 1, [⟨i, dot, s.disk.gen i + 1⟩]⟩ := by
    rw [withEntry_self, made_self, hgen, hmod]
    rfl
  have hgen' : ((s.made i .dir major minor).withEntry i dot i).disk.gen d = s.disk.gen d := hgend
  unfold madeDots
  rw [withEntry_self, hfirst, hgen', Nat.mod_eq_of_lt hd]
  simp [emptyEntry, writeEntry, hi.1.ne']

theorem madeDir_of_ne (hkd : k ≠ d) (hki : k ≠ i) :
    (s.madeDir d i name major minor).inode k = s.inode k := by
  have hup : (s.madeDir d i name major minor).inode k =
      ((s.madeDots d i major minor).withEntry d name i).inode k := by
    simp [madeDir, linkUp, setDisk, inode, setNlink, setInode, hkd]
  rw [hup, withEntry_of_ne hkd, Making.madeDots.inode k hki]

theorem madeDir_self (hi : 0 < i ∧ i < 2 ^ 16) (hd : d < 2 ^ 16) (hdi : d ≠ i) :
    (s.madeDir d i name major minor).inode i = ⟨.dir, major, minor, 1,
      [⟨i, dot, s.disk.gen i + 1⟩, ⟨d, dotdot, s.disk.gen d⟩]⟩ := by
  have hup : (s.madeDir d i name major minor).inode i =
      ((s.madeDots d i major minor).withEntry d name i).inode i := by
    simp [madeDir, linkUp, setDisk, inode, setNlink, setInode, Ne.symm hdi]
  rw [hup, withEntry_of_ne (Ne.symm hdi), madeDots_self hi hd hdi]

theorem madeDots_gen : (s.madeDots d i major minor).disk.gen i = s.disk.gen i + 1 := by
  simp [madeDots, withEntry, writeAt, setDisk, Fs.made, setEntries, setInode, FsDisk.alloc]

theorem madeDir_gen : (s.madeDir d i name major minor).disk.gen =
    (s.madeDots d i major minor).disk.gen := rfl

theorem madeDir_parent (hi : i < 2 ^ 16) (hdi : d ≠ i) :
    (s.madeDir d i name major minor).inode d = { s.inode d with
      entries := writeEntry (s.inode d).entries
        (emptyEntry (s.inode d).entries) ⟨i, name, s.disk.gen i + 1⟩
      nlink := (s.inode d).nlink + 1 } := by
  have hup : (s.madeDir d i name major minor).inode d =
      { ((s.madeDots d i major minor).withEntry d name i).inode d with
        nlink := (((s.madeDots d i major minor).withEntry d name i).inode d).nlink + 1 } := by
    simp [madeDir, linkUp, setDisk, inode, setNlink, setInode]
  rw [hup, withEntry_self, Making.madeDots.inode d hdi, madeDots_gen, Nat.mod_eq_of_lt hi]

theorem Ok.madeDir (h : s.Ok T L D) (hd : s.disk.Linked d)
    (hnone : lookupEntry name (s.inode d).entries 0 = none) (hfree : ¬ s.disk.Alloc i)
    (hzero : s.ref i = 0) (hi : 0 < i ∧ i < s.disk.ninodes) (hD : D i = 0)
    (hmax : (s.inode d).nlink ≠ 32767) : (s.madeDir d i name major minor).Ok T (L + one i) D := by
  have htree := h.inv.tree
  have hsize := htree.size
  have hbd := htree.bound d hd.alloc
  have hdi : d ≠ i := by
    rintro rfl
    exact hfree hd.alloc
  have hself : (s.madeDir d i name major minor).inode i = _ :=
    madeDir_self ⟨hi.1, by omega⟩ (by omega) hdi
  have hparent : (s.madeDir d i name major minor).inode d = _ := madeDir_parent (by omega) hdi
  have hother : ∀ k, k ≠ d → k ≠ i → (s.madeDir d i name major minor).inode k = s.inode k :=
    fun k hkd hki => madeDir_of_ne hkd hki
  have hgen : (s.madeDir d i name major minor).disk.gen i = s.disk.gen i + 1 := by
    rw [madeDir_gen, madeDots_gen]
  obtain ⟨zs, hswap, hzs⟩ := htree.swap_empty hd ⟨i, name, s.disk.gen i + 1⟩
  have hwrap : (s.disk.inode d).nlink.toInt < 32767 := by
    have hhigh := (s.inode d).nlink.toInt_lt
    have hne : (s.inode d).nlink.toInt ≠ 32767 := fun heq =>
      hmax (Int16.toInt_inj.mp heq)
    unfold inode at hhigh hne
    omega
  have hnew : (s.madeDir d i name major minor).disk.inode i = ⟨.dir, major, minor,
      1, [⟨i, dot, (s.madeDir d i name major minor).disk.gen i⟩, ⟨d, dotdot, s.disk.gen d⟩]⟩ := by
    rw [hgen]
    exact hself
  have hgens : ∀ y, y ≠ i → (s.madeDir d i name major minor).disk.gen y = s.disk.gen y := by
    intro y hy
    rw [madeDir_gen]
    exact Making.madeDots.gen y hy
  have htree' : (s.madeDir d i name major minor).disk.Tree D := htree.addDir hD hd
    hfree hi hswap hzs (htree.name_real hd hnone) rfl hgen.symm hwrap hother rfl hgens hparent hnew
  have hdnlink : ((s.madeDir d i name major minor).inode d).nlink ≠ 0 := by
    have hlinks := htree.links d hd.alloc
    rw [hparent, nlink_ne_zero_iff]
    change ((s.disk.inode d).nlink + 1).toInt ≠ 0
    rw [toInt_add_one hwrap]
    omega
  constructor
  · refine ⟨htree', h.inv.mem.newInode hzero rfl rfl rfl rfl ?_ ?_ ?_⟩
    · intro k hki
      by_cases hkd : k = d
      · rw [hkd, hparent]
      · rw [hother k hkd hki]
    · intro k hki hk
      by_cases hkd : k = d
      · rw [hkd] at hk
        exact absurd hk hdnlink
      · rwa [hother k hkd hki] at hk
    · change ((s.madeDir d i name major minor).inode i).type ≠ .free
      rw [hself]
      simp
  · intro hT x hx
    by_cases hxd : x = d
    · rw [hxd]
      exact hdnlink
    · by_cases hxi : x = i
      · rw [hxi, hself]
        change (1 : Int16) ≠ 0
        decide
      · have heq := hother x hxd hxi
        rw [heq]
        apply h.tidy hT x
        change (s.inode x).type = .dir
        rw [← heq]
        exact hx

end

end Fs

end Xv6
