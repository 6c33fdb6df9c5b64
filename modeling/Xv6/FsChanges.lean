import Xv6.FsHistory
import Xv6.Subdirectory

/-!
# Changes of the file system in system calls

What the invariant of the directory tree and of the references needs when link
counts, entries and references change.  `T` says that every directory has a
link; this is kept unless a directory is removed that is in use.
-/

namespace Xv6

open Function (update update_of_ne update_self)
open FsDisk

open Fs Hoare

namespace Fs

/-- Nothing has happened that the invariant does not survive. -/
structure Calm (T : Prop) (s : Fs) : Prop where
  wrapped : s.wrapped = false
  orphaned : T → s.orphaned = false
  strayed : ¬ T → s.strayed = false

structure Ok (T : Prop) (s : Fs) (L D : ℕ → ℕ) : Prop where
  inv : s.Inv L D
  tidy : T → s.Tidy

variable {T : Prop} {s t : Fs} {L D L' D' M : ℕ → ℕ} {i d : ℕ}

theorem Calm.of_grows (hgrows : s.Grows t) (h : t.Calm T) : s.Calm T := by
  refine ⟨?_, fun hT => ?_, fun hT => ?_⟩
  · by_contra hw
    simp only [Bool.not_eq_false] at hw
    have := hgrows.wrapped hw
    rw [h.wrapped] at this
    contradiction
  · by_contra ho
    simp only [Bool.not_eq_false] at ho
    have := hgrows.orphaned ho
    rw [h.orphaned hT] at this
    contradiction
  · by_contra hs
    simp only [Bool.not_eq_false] at hs
    have := hgrows.strayed hs
    rw [h.strayed hT] at this
    contradiction

theorem Mem.relink (h : s.Mem L) (href : t.ref = s.ref)
    (hvalid : t.valid = s.valid) (hcwd : t.cwd = s.cwd) (hfiles : t.files = s.files)
    (htype : ∀ k, (t.inode k).type = (s.inode k).type) (hnlink : ∀ k, (t.inode k).nlink = 0 →
    (s.inode k).nlink = 0 ∨ 0 < s.ref k ∧ s.valid k = true) : t.Mem L := by
  have hheld : ∀ k, t.held k = s.held k := by
    intro k
    unfold Fs.held
    rw [hfiles, hcwd]
  have halloc : ∀ k, t.disk.Alloc k ↔ s.disk.Alloc k := by
    intro k
    have := htype k
    unfold inode at this
    unfold Alloc
    rw [this]
  refine ⟨?_, ?_, ?_, ?_, ?_⟩
  · intro k
    rw [href, hheld]
    exact h.refs k
  · intro k hk
    rw [hheld] at hk
    exact (halloc k).mpr (h.held k hk)
  · intro k ha hz
    rw [href]
    rcases hnlink k hz with hold | hused
    · exact h.live k ((halloc k).mp ha) hold
    · exact hused.1
  · intro k hk hv
    rw [href] at hk
    rw [hvalid] at hv
    exact (halloc k).mpr (h.read k hk hv)
  · intro k hk hv ha hz
    rw [href] at hk
    rw [hvalid] at hv
    rcases hnlink k hz with hold | hused
    · exact h.unread k hk hv ((halloc k).mp ha) hold
    · rw [hused.2] at hv
      contradiction

theorem Mem.rehold (h : s.Mem L) (hdisk : t.disk = s.disk) (href : t.ref = s.ref)
    (hvalid : t.valid = s.valid) (hheld : ∀ k, t.held k + L' k = s.held k + L k)
    (halloc : ∀ k, 0 < t.held k → s.disk.Alloc k) : t.Mem L' := by
  have hinode : ∀ k, t.inode k = s.inode k := by
    intro k
    unfold inode
    rw [hdisk]
  refine ⟨?_, ?_, ?_, ?_, ?_⟩
  · intro k
    rw [href, h.refs k, hheld]
  · rw [hdisk]
    exact halloc
  · rw [hdisk, href]
    intro k ha hz
    rw [hinode] at hz
    exact h.live k ha hz
  · rw [hdisk, href, hvalid]
    exact h.read
  · rw [hdisk, href, hvalid]
    intro k hk hv ha
    rw [hinode]
    exact h.unread k hk hv ha

theorem Mem.newInode (h : s.Mem L) (hfree : s.ref i = 0) (href : t.ref = update s.ref i 1)
    (hvalid : t.valid = update s.valid i true) (hcwd : t.cwd = s.cwd) (hfiles : t.files = s.files)
    (htype : ∀ k, k ≠ i → (t.inode k).type = (s.inode k).type) (hnlink : ∀ k, k ≠ i →
    (t.inode k).nlink = 0 → (s.inode k).nlink = 0) (ha : t.disk.Alloc i) : t.Mem (L + one i) := by
  have hheld : ∀ k, t.held k = s.held k := by
    intro k
    unfold Fs.held
    rw [hfiles, hcwd]
  have halloc : ∀ k, k ≠ i → (t.disk.Alloc k ↔ s.disk.Alloc k) := by
    intro k hk
    have := htype k hk
    unfold inode at this
    unfold Alloc
    rw [this]
  have hother : ∀ k, k ≠ i → t.ref k = s.ref k ∧ t.valid k = s.valid k := by
    intro k hk
    rw [href, hvalid, update_of_ne hk, update_of_ne hk]
    exact ⟨rfl, rfl⟩
  have hself : t.ref i = 1 ∧ t.valid i = true := by
    rw [href, hvalid, update_self, update_self]
    exact ⟨rfl, rfl⟩
  refine ⟨?_, ?_, ?_, ?_, ?_⟩
  · intro k
    have hk := h.refs k
    rw [hheld, Pi.add_apply]
    by_cases hki : k = i
    · subst hki
      rw [hself.1, one_self]
      omega
    · rw [(hother k hki).1, one_of_ne hki]
      omega
  · intro k hk
    rw [hheld] at hk
    have hki : k ≠ i := by
      rintro rfl
      have := h.refs k
      omega
    exact (halloc k hki).mpr (h.held k hk)
  · intro k hk hz
    by_cases hki : k = i
    · rw [hki, hself.1]
      exact Nat.one_pos
    · rw [(hother k hki).1]
      exact h.live k ((halloc k hki).mp hk) (hnlink k hki hz)
  · intro k hk hv
    by_cases hki : k = i
    · rw [hki]
      exact ha
    · rw [(hother k hki).1] at hk
      rw [(hother k hki).2] at hv
      exact (halloc k hki).mpr (h.read k hk hv)
  · intro k hk hv hak hz
    by_cases hki : k = i
    · rw [hki, hself.2] at hv
      contradiction
    · rw [(hother k hki).1] at hk
      rw [(hother k hki).2] at hv
      exact h.unread k hk hv ((halloc k hki).mp hak) (hnlink k hki hz)

theorem Mem.freeAgain (h : s.Mem L) (hfree : ¬ s.disk.Alloc i)
    (hzero : s.ref i = 0) (hfree' : ¬ t.disk.Alloc i) (hinode : ∀ k, k ≠ i → t.inode k = s.inode k)
    (href : t.ref = s.ref) (hvalid : ∀ k, k ≠ i → t.valid k = s.valid k)
    (hcwd : t.cwd = s.cwd) (hfiles : t.files = s.files) : t.Mem L := by
  have hheld : ∀ k, t.held k = s.held k := by
    intro k
    unfold Fs.held
    rw [hfiles, hcwd]
  have hne : ∀ k, 0 < s.ref k → k ≠ i := by
    rintro k hk rfl
    omega
  have halloc : ∀ k, t.disk.Alloc k ↔ s.disk.Alloc k := by
    intro k
    by_cases hki : k = i
    · rw [hki]
      exact iff_of_false hfree' hfree
    · have := hinode k hki
      unfold inode at this
      unfold Alloc
      rw [this]
  refine ⟨?_, ?_, ?_, ?_, ?_⟩
  · intro k
    rw [href, hheld]
    exact h.refs k
  · intro k hk
    rw [hheld] at hk
    exact (halloc k).mpr (h.held k hk)
  · intro k ha hz
    have hki : k ≠ i := by
      rintro rfl
      exact hfree' ha
    rw [hinode k hki] at hz
    rw [href]
    exact h.live k ((halloc k).mp ha) hz
  · intro k hk hv
    rw [href] at hk
    rw [hvalid k (hne k hk)] at hv
    exact (halloc k).mpr (h.read k hk hv)
  · intro k hk hv ha
    rw [href] at hk
    rw [hvalid k (hne k hk)] at hv
    rw [hinode k (hne k hk)]
    exact h.unread k hk hv ((halloc k).mp ha)

namespace Ok

theorem of_keeps (h : s.Ok T L D) (hinv : t.Inv L' D') (hk : Keeps M s t) : t.Ok T L' D' :=
  ⟨hinv, fun hT => hk.tidy (h.tidy hT)⟩

theorem of_inv (h : s.Ok T L D) (hinv : t.Inv L' D') (hdir : ∀ d, t.disk.IsDir d →
    s.disk.IsDir d ∧ (t.inode d).nlink = (s.inode d).nlink) : t.Ok T L' D' := by
  refine ⟨hinv, fun hT d hd => ?_⟩
  obtain ⟨hd', heq⟩ := hdir d hd
  rw [heq]
  exact h.tidy hT d hd'

theorem setNlink (h : s.Ok T L D) (ha : s.disk.Alloc i) (hnot : ¬ s.disk.IsDir i) {n : Int16}
    (hD : ∀ x, x ≠ i → D' x = D x) (hn : n.toInt = s.disk.naming i + D' i) (hzero : n = 0 →
    0 < s.ref i ∧ s.valid i = true) : (s.setDisk (s.disk.setNlink i n)).Ok T L D' := by
  have hother : ∀ x, x ≠ i → (s.disk.setNlink i n).inode x = s.disk.inode x := by
    intro x hx
    simp [FsDisk.setNlink, setInode, hx]
  have htype : ∀ x, ((s.disk.setNlink i n).inode x).type = (s.disk.inode x).type := by
    intro x
    by_cases hx : x = i
    · simp [FsDisk.setNlink, setInode, hx]
    · rw [hother x hx]
  have hself : ((s.disk.setNlink i n).inode i).nlink = n := by
    simp [FsDisk.setNlink, setInode]
  have hdir : ∀ x, (s.disk.setNlink i n).IsDir x ↔ s.disk.IsDir x := by
    intro x
    unfold IsDir
    rw [htype]
  have halloc : (s.disk.setNlink i n).Alloc i := by
    unfold Alloc
    rw [htype]
    exact ha
  have htree : (s.disk.setNlink i n).Tree D' := h.inv.tree.setNode (h.inv.tree.bound i ha) hnot
      (fun hd => hnot ((hdir i).mp hd)) hother rfl (fun _ _ => rfl) hD halloc
      ((congrArg Int16.toInt hself).trans hn)
  refine h.of_inv ⟨htree, h.inv.mem.relink rfl rfl rfl rfl htype ?_⟩ ?_
  · intro k hk
    change ((s.disk.setNlink i n).inode k).nlink = 0 at hk
    by_cases hki : k = i
    · rw [hki, hself] at hk
      rw [hki]
      exact Or.inr (hzero hk)
    · rw [hother k hki] at hk
      exact Or.inl hk
  · intro d hd
    have hd' := (hdir d).mp hd
    have hdi : d ≠ i := by
      rintro rfl
      exact hnot hd'
    change s.disk.IsDir d ∧ ((s.disk.setNlink i n).inode d).nlink = _
    rw [hother d hdi]
    exact ⟨hd', rfl⟩

theorem linkUp (h : s.Ok T L D) (ha : s.disk.Alloc i) (hnot : ¬ s.disk.IsDir i)
    (hmax : (s.inode i).nlink ≠ 32767) : (s.linkUp i).Ok T L (D + one i) := by
  have hlinks := h.inv.tree.links i ha
  have hlt : (s.inode i).nlink.toInt < 32767 := by
    have hhigh := (s.inode i).nlink.toInt_lt
    have : (s.inode i).nlink.toInt ≠ 32767 := fun heq =>
      hmax (Int16.toInt_inj.mp heq)
    omega
  have hn : ((s.inode i).nlink + 1).toInt = s.disk.naming i + ((D + one i) i : ℕ) := by
    rw [toInt_add_one hlt, Pi.add_apply, one_self]
    change (s.inode i).nlink.toInt = _ at hlinks
    omega
  have hok := h.setNlink ha hnot (fun x hx => by rw [Pi.add_apply, one_of_ne hx, add_zero]) hn ?_
  · exact hok.of_inv ⟨hok.inv.tree, hok.inv.mem.rehold rfl rfl rfl
      (fun _ => rfl) hok.inv.mem.held⟩ (fun d hd => ⟨hd, rfl⟩)
  · intro hzero
    rw [hzero, Pi.add_apply, one_self] at hn
    have hz : (0 : Int16).toInt = 0 := rfl
    rw [hz] at hn
    omega

theorem linkDown (h : s.Ok T L (D + one i)) (ha : s.disk.Alloc i) (hnot : ¬ s.disk.IsDir i)
    (href : 0 < s.ref i) (hvalid : s.valid i = true) : (s.linkDown i).Ok T L D := by
  have hlinks := h.inv.tree.links i ha
  rw [Pi.add_apply, one_self] at hlinks
  refine h.setNlink ha hnot (fun x hx => ?_) ?_ (fun _ => ⟨href, hvalid⟩)
  · rw [Pi.add_apply, one_of_ne hx, add_zero]
  · change (s.inode i).nlink.toInt = _ at hlinks
    rw [toInt_sub_one (by omega)]
    omega

end Ok

/-- `dirlink` has written its entry. -/
def withEntry (d : ℕ) (name : Name) (i : ℕ) (s : Fs) : Fs :=
  s.writeAt d (emptyEntry (s.inode d).entries)
    ⟨i % 2 ^ 16, name, s.disk.gen i⟩

theorem writeAt_type (d off : ℕ) (e : Dirent) (s : Fs) (k : ℕ) :
    ((s.writeAt d off e).inode k).type = (s.inode k).type := by
  by_cases hk : k = d <;>
    simp [writeAt, setDisk, inode, setEntries, setInode, hk]

theorem writeAt_nlink (d off : ℕ) (e : Dirent) (s : Fs) (k : ℕ) :
    ((s.writeAt d off e).inode k).nlink = (s.inode k).nlink := by
  by_cases hk : k = d <;>
    simp [writeAt, setDisk, inode, setEntries, setInode, hk]

theorem Ok.writeAt (h : s.Ok T L D) {off : ℕ}
    {e : Dirent} (htree : (s.writeAt d off e).disk.Tree D') : (s.writeAt d off e).Ok T L D' := by
  refine h.of_inv ⟨htree, h.inv.mem.relink rfl rfl rfl rfl (writeAt_type d off e s) ?_⟩ ?_
  · intro k hk
    rw [writeAt_nlink] at hk
    exact Or.inl hk
  · intro x hx
    refine ⟨?_, writeAt_nlink d off e s x⟩
    have := writeAt_type d off e s x
    unfold IsDir at hx ⊢
    change (s.inode x).type = .dir
    rw [← this]
    exact hx

theorem Ok.linked (h : s.Ok T L D) (hd : s.disk.IsDir d)
    (hpos : ¬ T → 0 < (s.inode d).nlink) : s.disk.Linked d := by
  refine ⟨hd, ?_⟩
  by_cases hT : T
  · exact h.tidy hT d hd
  · intro hzero
    have := hpos hT
    unfold inode at this
    rw [hzero] at this
    exact absurd this (by decide)

theorem Calm.writeAt {off : ℕ} {e : Dirent}
    (h : (s.writeAt d off e).Calm T) : ¬ T → 0 < (s.inode d).nlink := by
  intro hT
  have hs := h.strayed hT
  simp only [Fs.writeAt, Bool.or_eq_false_iff, decide_eq_false_iff_not, not_not] at hs
  exact hs.2

theorem Ok.withEntry (h : s.Ok T L (D + one i))
    (hd : s.disk.Linked d) {name : Name} (hnone : lookupEntry name (s.inode d).entries 0 = none)
    (ha : s.disk.Alloc i) (hnot : ¬ s.disk.IsDir i) : (s.withEntry d name i).Ok T L D := by
  refine h.writeAt ?_
  have htree := h.inv.tree
  have hi := htree.bound i ha
  have hsize := htree.size
  have hmod : i % 2 ^ 16 = i := Nat.mod_eq_of_lt (by omega)
  obtain ⟨zs, hswap, hzs⟩ := htree.swap_empty hd ⟨i % 2 ^ 16, name, s.disk.gen i⟩
  have hreal := htree.name_real hd hnone
  refine htree.swap hd hswap ?_ ?_ ?_
  · exact fun z hz hne => absurd (hzs z hz) hne
  · intro w hw _
    simp only [List.mem_singleton] at hw
    subst hw
    simp only [hmod]
    exact ⟨hreal, ha, trivial, hnot⟩
  · intro k hk
    have hz : zs.countP (fun z => decide (z.inum = k)) = 0 := by
      refine List.countP_eq_zero.mpr ?_
      intro z hz hzk
      simp only [decide_eq_true_eq] at hzk
      rw [hzs z hz] at hzk
      exact hk hzk.symm
    rw [hz, List.countP_singleton, hmod]
    by_cases hik : k = i
    · subst hik
      simp
    · simp [one_of_ne hik, Ne.symm hik]

theorem Ok.withoutEntry (h : s.Ok T L D) (hd : s.disk.IsDir d) {name : Name} {off : ℕ}
    (hlookup : lookupEntry name (s.inode d).entries 0 = some (i, off))
    (hdot : name ≠ dot) (hdotdot : name ≠ dotdot) (hnot : ¬ s.disk.IsDir i) :
    (s.writeAt d off Dirent.zero).Ok T L (D + one i) := by
  obtain ⟨e, he, hreal, hinum, hi, hswap⟩ := h.inv.tree.swap_at hd hlookup hdot hdotdot Dirent.zero
  have hlinked := (h.inv.tree.names d hd e he hreal (by rw [hinum]; exact hi)).1
  refine h.writeAt (h.inv.tree.swap hlinked hswap ?_ ?_ ?_)
  · intro z hz _
    simp only [List.mem_singleton] at hz
    rw [hz, hinum]
    exact ⟨hreal, hnot⟩
  · intro w hw hne
    simp only [List.mem_singleton] at hw
    rw [hw] at hne
    exact absurd rfl hne
  · intro k hk
    simp only [List.countP_singleton, hinum, Dirent.zero, Ne.symm hk,
      decide_false, Bool.false_eq_true, if_false, add_zero, Pi.add_apply]
    by_cases hik : i = k
    · subst hik
      simp
    · simp [one_of_ne (Ne.symm hik), hik]

/-- `sys_unlink` has removed directory `x` from `d`. -/
def removed (d x off : ℕ) (s : Fs) : Fs :=
  (((s.writeAt d off Dirent.zero).linkDown d).markOrphan x).linkDown x

section

variable {x off : ℕ}

theorem removed_of_ne {k : ℕ} (hkd : k ≠ d) (hkx : k ≠ x) :
    (s.removed d x off).inode k = s.inode k := by
  simp [removed, markOrphan, linkDown, Fs.writeAt, setDisk, inode,
    FsDisk.setNlink, setEntries, setInode, hkd, hkx]

theorem removed_self (hxd : x ≠ d) : (s.removed d x off).inode x =
      { s.inode x with nlink := (s.inode x).nlink - 1 } := by
  simp [removed, markOrphan, linkDown, Fs.writeAt, setDisk, inode,
    FsDisk.setNlink, setEntries, setInode, hxd]

theorem removed_parent (hxd : x ≠ d) : (s.removed d x off).inode d = { s.inode d with
      entries := writeEntry (s.inode d).entries off Dirent.zero,
      nlink := (s.inode d).nlink - 1 } := by
  simp [removed, markOrphan, linkDown, Fs.writeAt, setDisk, inode,
    FsDisk.setNlink, setEntries, setInode, Ne.symm hxd]

theorem removed_type (hxd : x ≠ d) (k : ℕ) :
    ((s.removed d x off).inode k).type = (s.inode k).type := by
  by_cases hkx : k = x
  · rw [hkx, removed_self hxd]
  · by_cases hkd : k = d
    · rw [hkd, removed_parent hxd]
    · rw [removed_of_ne hkd hkx]

theorem Inv.removed (h : s.Inv L D) (hD : D x = 0) (hd : s.disk.IsDir d)
    {name : Name} (hlookup : lookupEntry name (s.inode d).entries 0 = some (x, off))
    (hdot : name ≠ dot) (hdotdot : name ≠ dotdot)
    (hxd : x ≠ d) (hx : s.disk.IsDir x) (hempty : isdirempty (s.inode x).entries = true)
    (href : 0 < s.ref x) (hvalid : s.valid x = true) : (s.removed d x off).Inv L D ∧
    ((s.removed d x off).inode d).nlink ≠ 0 ∧ ((s.removed d x off).inode x).nlink = 0 := by
  obtain ⟨e, _, hreal, hinum, hx0, hswap⟩ := h.tree.swap_at hd hlookup hdot hdotdot Dirent.zero
  have hnames : ∀ e ∈ (s.disk.inode x).entries, e.Real → e.inum = 0 := by
    obtain ⟨rest, hes, hname, _⟩ := h.tree.entries_eq hx
    unfold inode at hempty
    rw [hes] at hempty
    intro e' he' hreal'
    rw [hes] at he'
    simp only [List.mem_cons] at he'
    rcases he' with rfl | rfl | he'
    · exact absurd rfl hreal'.1
    · exact absurd hname hreal'.2
    · simp only [isdirempty, List.drop_succ_cons, List.drop_zero,
        List.all_eq_true, decide_eq_true_eq] at hempty
      exact hempty e' he'
  obtain ⟨htree, hnd, hnx⟩ : (s.removed d x off).disk.Tree D ∧ ((s.removed d x off).inode d).nlink ≠
    0 ∧ ((s.removed d x off).inode x).nlink = 0 := h.tree.removeDir hD hd hswap hreal hinum hx0 hx
    hnames (fun y hyd hyx => removed_of_ne hyd hyx) rfl rfl (removed_parent hxd) (removed_self hxd)
  refine ⟨⟨htree, h.mem.relink rfl rfl rfl rfl (removed_type hxd) ?_⟩, hnd, hnx⟩
  intro k hk
  by_cases hkx : k = x
  · rw [hkx]
    exact Or.inr ⟨href, hvalid⟩
  · by_cases hkd : k = d
    · rw [hkd] at hk
      exact absurd hk hnd
    · rw [removed_of_ne hkd hkx] at hk
      exact Or.inl hk

end

theorem putInode_of_nlink (h : (s.inode i).nlink ≠ 0) :
    s.putInode i = s.setRef i (s.ref i - 1) := by
  unfold putInode
  rw [if_neg]
  exact fun hlast => h hlast.2.2

theorem putInode_valid (h : i ≠ d) : (s.putInode d).valid i = s.valid i := by
  unfold putInode
  split
  · simp [setRef, setValid, setDisk, h]
  · rfl

theorem Ok.putLast (hinv : s.Inv (L + one i) D) (hone : T → s.ref i = 1)
    (hvalid : s.valid i = true) (hzero : (s.inode i).nlink = 0) (hother : T →
    ∀ d, d ≠ i → s.disk.IsDir d → (s.inode d).nlink ≠ 0) : (s.putInode i).Ok T L D := by
  refine ⟨hinv.putInode.1, fun hT d hd => ?_⟩
  have hput : s.putInode i = ((s.setDisk (s.disk.free i)).setValid i
      false).setRef i (s.ref i - 1) := by
    unfold putInode
    rw [if_pos ⟨hone hT, hvalid, hzero⟩]
  rw [hput] at hd ⊢
  have hdi : d ≠ i := by
    rintro rfl
    simp [setRef, Fs.setValid, setDisk, FsDisk.free, setInode, IsDir] at hd
  have heq : (s.disk.free i).inode d = s.disk.inode d := by
    simp [FsDisk.free, setInode, hdi]
  change ((s.disk.free i).inode d).nlink ≠ 0
  rw [heq]
  refine hother hT d hdi ?_
  change ((s.disk.free i).inode d).type = .dir at hd
  rw [heq] at hd
  exact hd

/-! ## Open files and current directories -/

/-- The `cwd` of process `p` is set. -/
def setCwd (p : Slot) (c : Option ℕ) (s : Fs) : Fs := { s with cwd := update s.cwd p c }

theorem held_setCwd (p : Slot) (c : Option ℕ) (k : ℕ) : (s.setCwd p c).held k +
    (if s.cwd p = some k then 1 else 0) = s.held k + (if c = some k then 1 else 0) := by
  have hold := Finset.add_sum_erase Finset.univ
    (fun q => if s.cwd q = some k then 1 else 0) (Finset.mem_univ p)
  have hnew := Finset.add_sum_erase Finset.univ
    (fun q => if update s.cwd p c q = some k then 1 else 0) (Finset.mem_univ p)
  have hrest : ∑ q ∈ Finset.univ.erase p, (if update s.cwd p c q = some k then 1 else 0) =
        ∑ q ∈ Finset.univ.erase p, if s.cwd q = some k then 1 else 0 := by
    apply Finset.sum_congr rfl
    intro q hq
    rw [update_of_ne (Finset.ne_of_mem_erase hq)]
  simp only [update_self] at hnew
  unfold held setCwd
  dsimp only
  omega

theorem putInode_setCwd (p : Slot) (c : Option ℕ) :
    (s.setCwd p c).putInode i = (s.putInode i).setCwd p c := by
  have hiff : (s.setCwd p c).ref i = 1 ∧ (s.setCwd p c).valid i = true ∧
      ((s.setCwd p c).inode i).nlink = 0 ↔
        s.ref i = 1 ∧ s.valid i = true ∧ (s.inode i).nlink = 0 := Iff.rfl
  unfold putInode
  by_cases hlast : s.ref i = 1 ∧ s.valid i = true ∧ (s.inode i).nlink = 0
  · rw [if_pos hlast, if_pos (hiff.mpr hlast)]
    rfl
  · rw [if_neg hlast, if_neg (fun h => hlast (hiff.mp h))]
    rfl

theorem Mem.give (h : s.Mem (L + one i)) (ha : s.disk.Alloc i)
    (hdisk : t.disk = s.disk) (href : t.ref = s.ref) (hvalid : t.valid = s.valid)
    (hheld : ∀ k, t.held k = s.held k + (if i = k then 1 else 0)) : t.Mem L := by
  refine h.rehold hdisk href hvalid ?_ ?_
  · intro k
    rw [hheld]
    by_cases hki : k = i
    · subst hki
      simp only [if_true, Pi.add_apply, one_self]
      omega
    · simp only [Ne.symm hki, if_false, Pi.add_apply, one_of_ne hki]
      omega
  · intro k hk
    by_cases hki : k = i
    · rw [hki]
      exact ha
    · rw [hheld, if_neg (Ne.symm hki), add_zero] at hk
      exact h.held k hk

theorem Mem.take (h : s.Mem L) (hdisk : t.disk = s.disk) (href : t.ref = s.ref)
    (hvalid : t.valid = s.valid) (hheld : ∀ k, t.held k + (if i = k then 1 else 0) = s.held k) :
    t.Mem (L + one i) := by
  refine h.rehold hdisk href hvalid ?_ ?_
  · intro k
    have hk := hheld k
    by_cases hki : k = i
    · subst hki
      simp only [if_true, Pi.add_apply, one_self] at hk ⊢
      omega
    · simp only [Ne.symm hki, if_false, Pi.add_apply, one_of_ne hki] at hk ⊢
      omega
  · intro k hk
    have heq := hheld k
    exact h.held k (by omega)

theorem Mem.newCwd (h : s.Mem (L + one i)) {p : Slot} (hc : s.cwd p = none) (ha : s.disk.Alloc i) :
    (s.setCwd p (some i)).Mem L := by
  refine h.give ha rfl rfl rfl ?_
  intro k
  have hk := held_setCwd (s := s) p (some i) k
  rw [hc] at hk
  simpa using hk

theorem Mem.dropCwd (h : s.Mem L) {p : Slot} (hc : s.cwd p = some d) :
    (s.setCwd p none).Mem (L + one d) := by
  refine h.take rfl rfl rfl ?_
  intro k
  have hk := held_setCwd (s := s) p none k
  rw [hc] at hk
  simpa using hk

theorem Mem.setCwd (h : s.Mem (L + one i)) {p : Slot}
    (hc : s.cwd p = some d) (ha : s.disk.Alloc i) : (s.setCwd p (some i)).Mem (L + one d) := by
  have hdrop := h.dropCwd hc
  rw [add_right_comm] at hdrop
  have hnew := hdrop.newCwd (p := p) (by simp [Fs.setCwd]) ha
  have heq : (s.setCwd p none).setCwd p (some i) = s.setCwd p (some i) := by
    simp [Fs.setCwd]
  rwa [heq] at hnew

theorem Mem.openFile (h : s.Mem (L + one i)) (ha : s.disk.Alloc i) :
    Mem { s with files := i :: s.files } L := by
  refine h.give ha rfl rfl rfl ?_
  intro k
  unfold Fs.held
  simp only [List.count_cons, beq_iff_eq]
  omega

theorem Mem.closeFile (h : s.Mem L) (hi : i ∈ s.files) :
    Mem { s with files := s.files.erase i } (L + one i) := by
  refine h.take rfl rfl rfl ?_
  intro k
  have hcount := (List.perm_cons_erase hi).count_eq k
  rw [List.count_cons] at hcount
  simp only [beq_iff_eq] at hcount
  unfold Fs.held
  dsimp only
  omega

theorem Ok.of_mem (h : s.Ok T L D) (hdisk : t.disk = s.disk) (hmem : t.Mem L') : t.Ok T L' D :=
  h.of_keeps (M := 0) (h.inv.of_disk hdisk hmem) (Keeps.of_disk hdisk)

end Fs

end Xv6
