import Xv6.FileSystem
import Xv6.Lib.Counting

/-!
# The directory tree

The linked directories, those whose link count is not 0, form a tree below the
root: each of them is named by one entry, in the directory that its ".." names.
A directory that has lost its link is empty.  The link count of an inode is the
number of entries that name it, apart from "." and from the ".." of directories
that are not linked.

`D i` is how much the link count of inode `i` is ahead of the entries in the
middle of a call.
-/

namespace Xv6

def Dirent.Real (e : Dirent) : Prop := e.name ≠ dot ∧ e.name ≠ dotdot

instance (e : Dirent) : Decidable e.Real := inferInstanceAs (Decidable (_ ∧ _))

/-- The entry counts as a link to inode `i`. -/
def Dirent.counts (linked : Bool) (i : ℕ) (e : Dirent) : Bool :=
  e.inum = i ∧ e.name ≠ dot ∧ (e.name = dotdot → linked = true)

/-- The number of links to `i` in a directory. -/
def Inode.naming (n : Inode) (i : ℕ) : ℕ :=
  if n.type = .dir then n.entries.countP (Dirent.counts (n.nlink ≠ 0) i) else 0

theorem Inode.naming_dir {n : Inode} (h : n.type = .dir) (i : ℕ) :
    n.naming i = n.entries.countP (Dirent.counts (n.nlink ≠ 0) i) :=
  if_pos h

theorem Inode.naming_of_ne {n : Inode} (h : n.type ≠ .dir) (i : ℕ) : n.naming i = 0 := if_neg h

namespace FsDisk

/-- The number of directory entries that name `i`, other than "." entries and
the ".." entries of directories that are not linked. -/
def naming (t : FsDisk) (i : ℕ) : ℕ := ∑ d ∈ Finset.range t.ninodes, (t.inode d).naming i

def Alloc (t : FsDisk) (i : ℕ) : Prop := (t.inode i).type ≠ .free

def IsDir (t : FsDisk) (d : ℕ) : Prop := (t.inode d).type = .dir

def Linked (t : FsDisk) (d : ℕ) : Prop := t.IsDir d ∧ (t.inode d).nlink ≠ 0

def upEntry (t : FsDisk) (d : ℕ) : Dirent := (t.inode d).entries.getD 1 Dirent.zero

def up (t : FsDisk) (d : ℕ) : ℕ := (t.upEntry d).inum

/-- Reachable from the root by a chain of directory entries. -/
inductive Reach (t : FsDisk) : ℕ → Prop
  | root : Reach t rootIno
  | entry {d i : ℕ} {e : Dirent} (hd : Reach t d) (hdir : t.IsDir d)
      (he : e ∈ (t.inode d).entries) (hreal : e.Real) (hi : e.inum = i)
      (hne : i ≠ 0) : Reach t i

/-- "." and ".." come first, and these names do not occur again. -/
def Dots (d gen : ℕ) (es : List Dirent) : Prop :=
  ∃ e rest, es = ⟨d, dot, gen⟩ :: e :: rest ∧ e.name = dotdot ∧ ∀ r ∈ rest, r.inum ≠ 0 → r.Real

structure Tree (t : FsDisk) (D : ℕ → ℕ) : Prop where
  size : t.ninodes ≤ 2 ^ 16
  bound : ∀ i, t.Alloc i → 0 < i ∧ i < t.ninodes
  root : t.Linked rootIno ∧ t.up rootIno = rootIno
  dots : ∀ d, t.IsDir d → Dots d (t.gen d) (t.inode d).entries
  names : ∀ d, t.IsDir d → ∀ e ∈ (t.inode d).entries, e.Real → e.inum ≠ 0 →
    t.Linked d ∧ t.Alloc e.inum ∧ e.gen = t.gen e.inum ∧
      (t.IsDir e.inum → e.inum ≠ rootIno ∧ t.up e.inum = d)
  parent : ∀ d, t.Linked d → t.Linked (t.up d) ∧ (t.upEntry d).gen = t.gen (t.up d)
  once : ∀ d, t.Linked d → d ≠ rootIno →
    (t.inode (t.up d)).entries.countP (fun e => e.Real ∧ e.inum = d) = 1
  links : ∀ i, t.Alloc i → (t.inode i).nlink.toInt = t.naming i + D i
  reach : ∀ d, t.Linked d → t.Reach d

variable {t t' : FsDisk} {D D' : ℕ → ℕ} {d i x : ℕ} {e : Dirent} {n : Inode}

theorem IsDir.alloc (h : t.IsDir d) : t.Alloc d := by
  unfold Alloc
  rw [h]
  decide

theorem Linked.alloc (h : t.Linked d) : t.Alloc d := h.1.alloc

theorem nlink_ne_zero_iff {x : Int16} : x ≠ 0 ↔ x.toInt ≠ 0 := by
  rw [← Int16.toInt_inj.ne]
  rfl

/-! ## Counting entries -/

theorem naming_setInode (hd : d < t.ninodes) (i : ℕ) :
    (t.setInode d n).naming i + (t.inode d).naming i = t.naming i + n.naming i := by
  have hmem : d ∈ Finset.range t.ninodes := Finset.mem_range.mpr hd
  have hold := Finset.add_sum_erase (Finset.range t.ninodes) (fun d => (t.inode d).naming i) hmem
  have hnew := Finset.add_sum_erase (Finset.range t.ninodes)
    (fun x => ((t.setInode d n).inode x).naming i) hmem
  have hrest : ∑ x ∈ (Finset.range t.ninodes).erase d, ((t.setInode d n).inode x).naming i =
        ∑ x ∈ (Finset.range t.ninodes).erase d, (t.inode x).naming i := by
    refine Finset.sum_congr rfl ?_
    intro x hx
    simp [setInode, Finset.ne_of_mem_erase hx]
  simp only [setInode, Function.update_self] at hnew hrest
  unfold naming
  simp only [setInode] at hnew hrest ⊢
  omega

theorem naming_le (hd : d < t.ninodes) (i : ℕ) : (t.inode d).naming i ≤ t.naming i :=
  Finset.single_le_sum (f := fun d => (t.inode d).naming i)
    (fun _ _ => Nat.zero_le _) (Finset.mem_range.mpr hd)

theorem naming_add_le (hd : d < t.ninodes) (hx : x < t.ninodes) (hne : d ≠ x)
    (i : ℕ) : (t.inode d).naming i + (t.inode x).naming i ≤ t.naming i := by
  have hsub : ({d, x} : Finset ℕ) ⊆ Finset.range t.ninodes := by
    intro y hy
    simp only [Finset.mem_insert, Finset.mem_singleton] at hy
    rcases hy with rfl | rfl
    · exact Finset.mem_range.mpr hd
    · exact Finset.mem_range.mpr hx
  have hsum := Finset.sum_le_sum_of_subset (f := fun y => (t.inode y).naming i) hsub
  rwa [Finset.sum_pair hne] at hsum

theorem naming_pos_iff : 0 < n.naming i ↔
    n.type = .dir ∧ ∃ e ∈ n.entries, e.counts (n.nlink ≠ 0) i = true := by
  unfold Inode.naming
  split
  · rename_i hdir
    simp [hdir, List.countP_pos_iff]
  · rename_i hdir
    simp [hdir]

theorem exists_naming (h : 0 < t.naming i) : ∃ d < t.ninodes, 0 < (t.inode d).naming i := by
  by_contra hnone
  push Not at hnone
  have : t.naming i = 0 := by
    refine Finset.sum_eq_zero ?_
    intro d hd
    have := hnone d (Finset.mem_range.mp hd)
    omega
  omega

namespace Tree

theorem entries_eq (h : t.Tree D) (hd : t.IsDir d) : ∃ rest,
    (t.inode d).entries = ⟨d, dot, t.gen d⟩ :: t.upEntry d :: rest ∧
      (t.upEntry d).name = dotdot ∧ ∀ r ∈ rest, r.inum ≠ 0 → r.Real := by
  obtain ⟨e, rest, hes, hname, hrest⟩ := h.dots d hd
  have hup : t.upEntry d = e := by
    unfold upEntry
    rw [hes]
    rfl
  exact ⟨rest, by rw [hes, hup], by rw [hup]; exact hname, hrest⟩

theorem entry_alloc (h : t.Tree D) (hd : t.Linked d) (he : e ∈ (t.inode d).entries)
    (hinum : e.inum ≠ 0) : t.Alloc e.inum ∧ e.gen = t.gen e.inum := by
  obtain ⟨rest, hes, _, hrest⟩ := h.entries_eq hd.1
  have hmem := he
  rw [hes] at hmem
  simp only [List.mem_cons] at hmem
  rcases hmem with rfl | rfl | hmem
  · exact ⟨hd.alloc, rfl⟩
  · obtain ⟨hl, hg⟩ := h.parent d hd
    exact ⟨hl.alloc, hg⟩
  · obtain ⟨_, ha, hg, _⟩ := h.names d hd.1 e he (hrest e hmem hinum) hinum
    exact ⟨ha, hg⟩

theorem lookup_alloc (h : t.Tree D) (hd : t.Linked d) {name : Name}
    {off : ℕ} (hlookup : lookupEntry name (t.inode d).entries 0 = some (i, off)) : t.Alloc i := by
  obtain ⟨pre, e, post, hes, _, hinum, hne, _⟩ := lookupEntry_eq_some hlookup
  rw [← hinum]
  exact (h.entry_alloc hd (by rw [hes]; simp) (by rw [hinum]; exact hne)).1

theorem counts_cases (h : t.Tree D) (hd : t.IsDir d) (hi : i ≠ 0) (he : e ∈ (t.inode d).entries)
    (hcounts : e.counts ((t.inode d).nlink ≠ 0) i = true) :
    e.inum = i ∧ (e.Real ∨ t.Linked d ∧ e = t.upEntry d) := by
  obtain ⟨rest, hes, hname, hrest⟩ := h.entries_eq hd
  simp only [Dirent.counts, decide_eq_true_eq] at hcounts
  obtain ⟨hinum, hdot, hdotdot⟩ := hcounts
  refine ⟨hinum, ?_⟩
  rw [hes] at he
  simp only [List.mem_cons] at he
  rcases he with rfl | rfl | hmem
  · exact absurd rfl hdot
  · exact Or.inr ⟨⟨hd, by simpa using hdotdot hname⟩, rfl⟩
  · exact Or.inl (hrest e hmem (by rw [hinum]; exact hi))

theorem real_counts (hreal : e.Real) (hinum : e.inum = i) (linked : Bool) :
    e.counts linked i = true := by
  simp [Dirent.counts, hinum, hreal.1, hreal.2]

theorem alloc_of_naming (h : t.Tree D) (hi : i ≠ 0) (hpos : 0 < t.naming i) : t.Alloc i := by
  obtain ⟨d, _, hd⟩ := exists_naming hpos
  obtain ⟨hdir, e, he, hcounts⟩ := naming_pos_iff.mp hd
  obtain ⟨hinum, hreal | ⟨hlinked, rfl⟩⟩ := h.counts_cases hdir hi he hcounts
  · have := (h.names d hdir e he hreal (by rw [hinum]; exact hi)).2.1
    rwa [hinum] at this
  · rw [← hinum]
    exact (h.parent d hlinked).1.alloc

theorem naming_eq_zero (h : t.Tree D) (hi : i ≠ 0) (hfree : ¬ t.Alloc i) : t.naming i = 0 := by
  by_contra hpos
  exact hfree (h.alloc_of_naming hi (Nat.pos_of_ne_zero hpos))

theorem naming_pos_of_real (hd : t.IsDir d)
    (he : e ∈ (t.inode d).entries) (hreal : e.Real) (hi : e.inum = i) : 0 < (t.inode d).naming i :=
  naming_pos_iff.mpr ⟨hd, e, he, real_counts hreal hi _⟩

theorem naming_pos_of_up (h : t.Tree D) (hd : t.Linked d) : 0 < (t.inode d).naming (t.up d) := by
  obtain ⟨rest, hes, hname, _⟩ := h.entries_eq hd.1
  refine naming_pos_iff.mpr ⟨hd.1, t.upEntry d, by rw [hes]; simp, ?_⟩
  have hdot : dotdot ≠ dot := by decide
  simp [Dirent.counts, hname, up, hd.2, hdot]

theorem nlink_ne_zero (h : t.Tree D) (hi : i ≠ 0) (hpos : 0 < t.naming i) :
    (t.inode i).nlink ≠ 0 := by
  have := h.links i (h.alloc_of_naming hi hpos)
  rw [nlink_ne_zero_iff]
  omega

theorem naming_of_nlink (h : t.Tree D) (halloc : t.Alloc i)
    (hzero : (t.inode i).nlink = 0) : t.naming i = 0 ∧ D i = 0 := by
  have := h.links i halloc
  rw [hzero] at this
  have hz : (0 : Int16).toInt = 0 := rfl
  rw [hz] at this
  omega

theorem naming_of_not_linked (h : t.Tree D) (hd : ¬ t.Linked d) (hi : i ≠ 0) :
    (t.inode d).naming i = 0 := by
  by_contra hpos
  obtain ⟨hdir, e, he, hcounts⟩ := naming_pos_iff.mp (Nat.pos_of_ne_zero hpos)
  obtain ⟨hinum, hreal | ⟨hlinked, _⟩⟩ := h.counts_cases hdir hi he hcounts
  · exact hd (h.names d hdir e he hreal (by rw [hinum]; exact hi)).1
  · exact hd hlinked

end Tree

/-! ## Freeing an inode -/

theorem Reach.keep {P : ℕ → Prop} (h : t.Reach d) (hkeep : ∀ d e, t.IsDir d →
    e ∈ (t.inode d).entries → e.Real → e.inum ≠ 0 → P e.inum → P d ∧ t'.IsDir d ∧
    ∃ e' ∈ (t'.inode d).entries, e'.Real ∧ e'.inum = e.inum) (hd : P d) : t'.Reach d := by
  induction h with
  | root => exact .root
  | entry hd' hdir he hreal hi hne ih =>
    subst hi
    obtain ⟨hp, hdir', e', he', hreal', hi'⟩ := hkeep _ _ hdir he hreal hne hd
    exact .entry (ih hp) hdir' he' hreal' hi' hne

theorem inode_setInode_self : (t.setInode d n).inode d = n := by
  simp [setInode]

theorem inode_setInode_of_ne (hx : x ≠ d) : (t.setInode d n).inode x = t.inode x := by
  simp [setInode, hx]

namespace Tree

theorem free (h : t.Tree D) (hzero : t.Alloc i → (t.inode i).nlink = 0)
    (hinode : ∀ x, x ≠ i → t'.inode x = t.inode x) (hfree : ¬ t'.Alloc i)
    (hsize : t'.ninodes = t.ninodes) (hgen : ∀ x, x ≠ i → t'.gen x = t.gen x) : t'.Tree D := by
  have hnot : ¬ t.Linked i := fun hl => hl.2 (hzero hl.alloc)
  -- no entry that counts names `i`
  have hnaming : i ≠ 0 → t.naming i = 0 := by
    intro hi
    by_cases halloc : t.Alloc i
    · exact (h.naming_of_nlink halloc (hzero halloc)).1
    · exact h.naming_eq_zero hi halloc
  have hdir : ∀ d, t'.IsDir d → d ≠ i ∧ t.IsDir d := by
    intro d hd
    have hne : d ≠ i := by
      rintro rfl
      exact hfree hd.alloc
    unfold IsDir at hd ⊢
    rw [hinode d hne] at hd
    exact ⟨hne, hd⟩
  have hlinked : ∀ d, t'.Linked d ↔ t.Linked d := by
    intro d
    by_cases hdi : d = i
    · subst hdi
      exact ⟨fun hl => absurd hl.1.alloc hfree, fun hl => absurd hl hnot⟩
    · unfold Linked IsDir
      rw [hinode d hdi]
  have hupEntry : ∀ d, d ≠ i → t'.upEntry d = t.upEntry d := by
    intro d hd
    unfold upEntry
    rw [hinode d hd]
  have hup : ∀ d, d ≠ i → t'.up d = t.up d := by
    intro d hd
    rw [up, up, hupEntry d hd]
  have hne : ∀ d, t.Linked d → d ≠ i := by
    rintro d hd rfl
    exact hnot hd
  have hrealNe : ∀ d e, t.IsDir d → e ∈ (t.inode d).entries → e.Real → e.inum ≠ 0 → e.inum ≠ i := by
    intro d e hd he hreal hinum hei
    have hpos := naming_pos_of_real hd he hreal hei
    have hle := naming_le (h.bound d hd.alloc).2 i
    have := hnaming (by rw [← hei]; exact hinum)
    omega
  have hcount : ∀ k, k ≠ 0 → t'.naming k = t.naming k := by
    intro k hk
    unfold naming
    rw [hsize]
    refine Finset.sum_congr rfl ?_
    intro d _
    by_cases hdi : d = i
    · subst hdi
      rw [h.naming_of_not_linked hnot hk]
      exact Inode.naming_of_ne (fun hd => hfree (IsDir.alloc hd)) k
    · rw [hinode d hdi]
  refine ⟨by rw [hsize]; exact h.size, ?_, ?_, ?_, ?_, ?_, ?_, ?_, ?_⟩
  · intro x hx
    have hxi : x ≠ i := by
      rintro rfl
      exact hfree hx
    unfold Alloc at hx
    rw [hinode x hxi] at hx
    rw [hsize]
    exact h.bound x hx
  · have hroot := h.root
    refine ⟨(hlinked _).mpr hroot.1, ?_⟩
    rw [hup _ (hne _ hroot.1)]
    exact hroot.2
  · intro d hd
    obtain ⟨hdi, hd'⟩ := hdir d hd
    rw [hinode d hdi, hgen d hdi]
    exact h.dots d hd'
  · intro d hd e he hreal hinum
    obtain ⟨hdi, hd'⟩ := hdir d hd
    rw [hinode d hdi] at he
    obtain ⟨hl, halloc, hg, hsub⟩ := h.names d hd' e he hreal hinum
    have hei := hrealNe d e hd' he hreal hinum
    refine ⟨(hlinked d).mpr hl, ?_, ?_, ?_⟩
    · unfold Alloc
      rw [hinode _ hei]
      exact halloc
    · rw [hgen _ hei]
      exact hg
    · intro hde
      rw [hup _ hei]
      exact hsub (hdir _ hde).2
  · intro d hd
    have hd' := (hlinked d).mp hd
    obtain ⟨hl, hg⟩ := h.parent d hd'
    rw [hup d (hne d hd'), hupEntry d (hne d hd'), hgen _ (hne _ hl)]
    exact ⟨(hlinked _).mpr hl, hg⟩
  · intro d hd hroot
    have hd' := (hlinked d).mp hd
    have hl := (h.parent d hd').1
    rw [hup d (hne d hd'), hinode _ (hne _ hl)]
    exact h.once d hd' hroot
  · intro x hx
    have hxi : x ≠ i := by
      rintro rfl
      exact hfree hx
    unfold Alloc at hx
    rw [hinode x hxi] at hx ⊢
    have hx0 : x ≠ 0 := (h.bound x hx).1.ne'
    rw [hcount x hx0]
    exact h.links x hx
  · intro d hd
    have hd' := (hlinked d).mp hd
    refine (h.reach d hd').keep (P := fun _ => True) ?_ trivial
    intro d e hdir' he hreal hinum _
    have hdi : d ≠ i := by
      rintro rfl
      exact hnot (h.names d hdir' e he hreal hinum).1
    refine ⟨trivial, ?_, e, ?_, hreal, rfl⟩
    · unfold IsDir
      rw [hinode d hdi]
      exact hdir'
    · rw [hinode d hdi]
      exact he

theorem setNode
    (h : t.Tree D) (hi : 0 < i ∧ i < t.ninodes) (hnot : ¬ t.IsDir i) (hnot' : ¬ t'.IsDir i)
    (hinode : ∀ x, x ≠ i → t'.inode x = t.inode x) (hsize : t'.ninodes = t.ninodes)
    (hgen : ∀ x, x ≠ i ∨ t.Alloc i → t'.gen x = t.gen x) (hD : ∀ x, x ≠ i → D' x = D x)
    (halloc : t'.Alloc i) (hlinks : (t'.inode i).nlink.toInt = t.naming i + D' i) : t'.Tree D' := by
  have hdir : ∀ d, t'.IsDir d ↔ t.IsDir d := by
    intro d
    by_cases hdi : d = i
    · rw [hdi]
      exact ⟨fun hd => absurd hd hnot', fun hd => absurd hd hnot⟩
    · unfold IsDir
      rw [hinode d hdi]
  have hne : ∀ d, t.IsDir d → d ≠ i := by
    rintro d hd rfl
    exact hnot hd
  have hlinked : ∀ d, t'.Linked d ↔ t.Linked d := by
    intro d
    constructor
    · intro hl
      have hd := (hdir d).mp hl.1
      refine ⟨hd, ?_⟩
      rw [← hinode d (hne d hd)]
      exact hl.2
    · intro hl
      refine ⟨(hdir d).mpr hl.1, ?_⟩
      rw [hinode d (hne d hl.1)]
      exact hl.2
  have hupEntry : ∀ d, t.IsDir d → t'.upEntry d = t.upEntry d := by
    intro d hd
    unfold upEntry
    rw [hinode d (hne d hd)]
  have hup : ∀ d, t.IsDir d → t'.up d = t.up d := by
    intro d hd
    rw [up, up, hupEntry d hd]
  have hcount : ∀ k, t'.naming k = t.naming k := by
    intro k
    unfold naming
    rw [hsize]
    refine Finset.sum_congr rfl ?_
    intro d _
    by_cases hdi : d = i
    · rw [hdi, Inode.naming_of_ne hnot, Inode.naming_of_ne hnot']
    · rw [hinode d hdi]
  have hkeep : ∀ x, t.Alloc x → t'.Alloc x := by
    intro x hx
    by_cases hxi : x = i
    · rw [hxi]
      exact halloc
    · unfold Alloc
      rw [hinode x hxi]
      exact hx
  refine ⟨by rw [hsize]; exact h.size, ?_, ?_, ?_, ?_, ?_, ?_, ?_, ?_⟩
  · intro x hx
    rw [hsize]
    by_cases hxi : x = i
    · rw [hxi]
      exact hi
    · unfold Alloc at hx
      rw [hinode x hxi] at hx
      exact h.bound x hx
  · obtain ⟨hl, hroot⟩ := h.root
    exact ⟨(hlinked _).mpr hl, by rw [hup _ hl.1]; exact hroot⟩
  · intro d hd
    have hd' := (hdir d).mp hd
    rw [hinode d (hne d hd'), hgen d (Or.inl (hne d hd'))]
    exact h.dots d hd'
  · intro d hd e he hreal hinum
    have hd' := (hdir d).mp hd
    rw [hinode d (hne d hd')] at he
    obtain ⟨hl, ha, hg, hsub⟩ := h.names d hd' e he hreal hinum
    refine ⟨(hlinked d).mpr hl, hkeep _ ha, ?_, ?_⟩
    · rw [hgen]
      · exact hg
      · by_cases hei : e.inum = i
        · exact Or.inr (by rw [← hei]; exact ha)
        · exact Or.inl hei
    · intro hde
      have hde' := (hdir _).mp hde
      rw [hup _ hde']
      exact hsub hde'
  · intro d hd
    have hd' := (hlinked d).mp hd
    obtain ⟨hl, hg⟩ := h.parent d hd'
    rw [hup d hd'.1, hupEntry d hd'.1, hgen _ (Or.inl (hne _ hl.1))]
    exact ⟨(hlinked _).mpr hl, hg⟩
  · intro d hd hroot
    have hd' := (hlinked d).mp hd
    have hl := (h.parent d hd').1
    rw [hup d hd'.1, hinode _ (hne _ hl.1)]
    exact h.once d hd' hroot
  · intro x hx
    by_cases hxi : x = i
    · rw [hxi, hcount]
      exact hlinks
    · unfold Alloc at hx
      rw [hinode x hxi] at hx ⊢
      rw [hcount, hD x hxi]
      exact h.links x hx
  · intro d hd
    refine (h.reach d ((hlinked d).mp hd)).keep (P := fun _ => True) ?_ trivial
    intro d e hdir' he hreal _ _
    refine ⟨trivial, (hdir d).mpr hdir', e, ?_, hreal, rfl⟩
    rw [hinode d (hne d hdir')]
    exact he

end Tree

/-! ## Writing entries -/

/-- The entries `zs` behind the first two are replaced by `ws`. -/
def Swap (es es' zs ws : List Dirent) : Prop :=
  ∃ a b pre post, es = a :: b :: (pre ++ zs ++ post) ∧
    es' = a :: b :: (pre ++ ws ++ post)

section

variable {es es' zs ws : List Dirent}

section

variable (h : Swap es es' zs ws)
include h

theorem Swap.countP (p : Dirent → Bool) :
    es'.countP p + zs.countP p = es.countP p + ws.countP p := by
  obtain ⟨a, b, pre, post, rfl, rfl⟩ := h
  simp only [List.countP_cons, List.countP_append]
  omega

theorem Swap.mem_of_mem (he : e ∈ es') : e ∈ es ∨ e ∈ ws := by
  obtain ⟨a, b, pre, post, rfl, rfl⟩ := h
  simp only [List.mem_cons, List.mem_append] at he ⊢
  tauto

theorem Swap.mem (he : e ∈ es) : e ∈ es' ∨ e ∈ zs := by
  obtain ⟨a, b, pre, post, rfl, rfl⟩ := h
  simp only [List.mem_cons, List.mem_append] at he ⊢
  tauto

theorem Swap.mem_new (he : e ∈ ws) : e ∈ es' := by
  obtain ⟨a, b, pre, post, rfl, rfl⟩ := h
  simp [he]

theorem Swap.second (z : Dirent) : es'.getD 1 z = es.getD 1 z := by
  obtain ⟨a, b, pre, post, rfl, rfl⟩ := h
  rfl

theorem Swap.dots {g : ℕ} (hdots : Dots d g es)
    (hws : ∀ w ∈ ws, w.inum ≠ 0 → w.Real) : Dots d g es' := by
  obtain ⟨a, b, pre, post, rfl, rfl⟩ := h
  obtain ⟨e, rest, hes, hname, hrest⟩ := hdots
  simp only [List.cons.injEq] at hes
  obtain ⟨rfl, rfl, rfl⟩ := hes
  refine ⟨b, pre ++ ws ++ post, rfl, hname, ?_⟩
  intro r hr
  simp only [List.mem_append] at hr
  rcases hr with (hr | hr) | hr
  · exact hrest r (by simp [hr])
  · exact hws r hr
  · exact hrest r (by simp [hr])

end

theorem countP_counts (hzs : ∀ z ∈ zs, z.inum ≠ 0 → z.Real) (hi : i ≠ 0) (linked : Bool) :
    zs.countP (Dirent.counts linked i) = zs.countP (fun z => z.inum = i) := by
  refine List.countP_congr ?_
  intro z hz
  constructor
  · intro hcounts
    simp only [Dirent.counts, decide_eq_true_eq] at hcounts
    simp [hcounts.1]
  · intro hzi
    simp only [decide_eq_true_eq] at hzi
    exact Tree.real_counts (hzs z hz (by rw [hzi]; exact hi)) hzi _

theorem Tree.swap (h : t.Tree D) (hd : t.Linked d) (hswap : Swap (t.inode d).entries es' zs ws)
    (hzs : ∀ z ∈ zs, z.inum ≠ 0 → z.Real ∧ ¬ t.IsDir z.inum) (hws : ∀ w ∈ ws, w.inum ≠ 0 →
    w.Real ∧ t.Alloc w.inum ∧ w.gen = t.gen w.inum ∧ ¬ t.IsDir w.inum) (hD : ∀ i, i ≠ 0 →
    D' i + ws.countP (fun w => w.inum = i) = D i + zs.countP (fun z => z.inum = i)) :
    (t.setEntries d es').Tree D' := by
  have htype : ∀ x, ((t.setEntries d es').inode x).type = (t.inode x).type := by
    intro x
    by_cases hx : x = d <;> simp [setEntries, setInode, hx]
  have hnlink : ∀ x, ((t.setEntries d es').inode x).nlink = (t.inode x).nlink := by
    intro x
    by_cases hx : x = d <;> simp [setEntries, setInode, hx]
  have hentries : ∀ x, x ≠ d → ((t.setEntries d es').inode x).entries = (t.inode x).entries := by
    intro x hx
    simp [setEntries, setInode, hx]
  have hself : ((t.setEntries d es').inode d).entries = es' := by
    simp [setEntries, setInode]
  have hdir : ∀ x, (t.setEntries d es').IsDir x ↔ t.IsDir x := by
    intro x
    unfold IsDir
    rw [htype]
  have hlinked : ∀ x, (t.setEntries d es').Linked x ↔ t.Linked x := by
    intro x
    unfold Linked
    rw [hdir, hnlink]
  have halloc : ∀ x, (t.setEntries d es').Alloc x ↔ t.Alloc x := by
    intro x
    unfold Alloc
    rw [htype]
  have hupEntry : ∀ x, (t.setEntries d es').upEntry x = t.upEntry x := by
    intro x
    unfold upEntry
    by_cases hx : x = d
    · subst hx
      rw [hself, hswap.second]
    · rw [hentries x hx]
  have hup : ∀ x, (t.setEntries d es').up x = t.up x := by
    intro x
    rw [up, up, hupEntry]
  have hzreal : ∀ z ∈ zs, z.inum ≠ 0 → z.Real := fun z hz h0 => (hzs z hz h0).1
  have hwreal : ∀ w ∈ ws, w.inum ≠ 0 → w.Real := fun w hw h0 => (hws w hw h0).1
  refine ⟨h.size, ?_, ?_, ?_, ?_, ?_, ?_, ?_, ?_⟩
  · intro i hi
    exact h.bound i ((halloc i).mp hi)
  · rw [hlinked, hup]
    exact h.root
  · intro x hx
    have hdots := h.dots x ((hdir x).mp hx)
    by_cases hxd : x = d
    · subst hxd
      rw [hself]
      exact hswap.dots hdots hwreal
    · rw [hentries x hxd]
      exact hdots
  · intro x hx e he hreal hinum
    rw [hlinked, halloc, hdir, hup]
    by_cases hxd : x = d
    · subst hxd
      rw [hself] at he
      rcases hswap.mem_of_mem he with hold | hnew
      · exact h.names x hd.1 e hold hreal hinum
      · obtain ⟨_, ha, hg, hnot⟩ := hws e hnew hinum
        exact ⟨hd, ha, hg, fun hdir => absurd hdir hnot⟩
    · rw [hentries x hxd] at he
      exact h.names x ((hdir x).mp hx) e he hreal hinum
  · intro x hx
    rw [hlinked, hup, hupEntry]
    exact h.parent x ((hlinked x).mp hx)
  · intro x hx hroot
    rw [hup]
    have hx' := (hlinked x).mp hx
    have honce := h.once x hx' hroot
    by_cases hxd : t.up x = d
    · rw [hxd] at honce ⊢
      rw [hself]
      have hcount := hswap.countP fun e => decide (e.Real ∧ e.inum = x)
      have hx0 : x ≠ 0 := (h.bound x hx'.alloc).1.ne'
      have hz : zs.countP (fun e => decide (e.Real ∧ e.inum = x)) = 0 := by
        refine List.countP_eq_zero.mpr ?_
        intro z hz hzx
        simp only [decide_eq_true_eq] at hzx
        have := (hzs z hz (by rw [hzx.2]; exact hx0)).2
        rw [hzx.2] at this
        exact this hx'.1
      have hw : ws.countP (fun e => decide (e.Real ∧ e.inum = x)) = 0 := by
        refine List.countP_eq_zero.mpr ?_
        intro w hw hwx
        simp only [decide_eq_true_eq] at hwx
        have := (hws w hw (by rw [hwx.2]; exact hx0)).2.2.2
        rw [hwx.2] at this
        exact this hx'.1
      omega
    · rw [hentries _ hxd]
      exact honce
  · intro i hi
    rw [hnlink]
    have hi' := (halloc i).mp hi
    have hi0 : i ≠ 0 := (h.bound i hi').1.ne'
    have hlinks := h.links i hi'
    have hsum := naming_setInode (n := { t.inode d with entries := es' }) (h.bound d hd.alloc).2 i
    have hcount := hswap.countP (Dirent.counts ((t.inode d).nlink ≠ 0) i)
    rw [countP_counts hzreal hi0, countP_counts hwreal hi0] at hcount
    have hnew : Inode.naming { t.inode d with entries := es' } i =
        es'.countP (Dirent.counts ((t.inode d).nlink ≠ 0) i) :=
      Inode.naming_dir (n := { t.inode d with entries := es' }) hd.1 i
    have hold := Inode.naming_dir hd.1 i
    have hDi := hD i hi0
    rw [hnew, hold] at hsum
    change (t.setEntries d es').naming i + _ = _ at hsum
    omega
  · intro x hx
    have hx' := (hlinked x).mp hx
    refine (h.reach x hx').keep (P := fun i => t.IsDir i) ?_ hx'.1
    intro y e hy he hreal hinum hdir'
    refine ⟨hy, (hdir y).mpr hy, e, ?_, hreal, rfl⟩
    by_cases hyd : y = d
    · subst hyd
      rw [hself]
      rcases hswap.mem he with hkeep | hgone
      · exact hkeep
      · exact absurd hdir' (hzs e hgone hinum).2
    · rw [hentries y hyd]
      exact he

end

namespace Tree

variable {name : Name} {off : ℕ}

theorem swap_empty (h : t.Tree D) (hd : t.Linked d) (e : Dirent) : ∃ zs,
    Swap (t.inode d).entries (writeEntry (t.inode d).entries
      (emptyEntry (t.inode d).entries) e) zs [e] ∧ ∀ z ∈ zs, z.inum = 0 := by
  obtain ⟨rest, hes, _, _⟩ := h.entries_eq hd.1
  obtain ⟨pre, zs, post, hrest, hwrite, hzs⟩ := writeEntry_emptyEntry rest e
  have hd0 : d ≠ 0 := (h.bound d hd.alloc).1.ne'
  have hup0 : (t.upEntry d).inum ≠ 0 := (h.bound _ (h.parent d hd).1.alloc).1.ne'
  refine ⟨zs, ⟨_, _, pre, post, by rw [hes, hrest], ?_⟩, hzs⟩
  rw [hes, emptyEntry, if_neg hd0, emptyEntry, if_neg hup0, writeEntry_cons,
    writeEntry_cons, hwrite]

theorem name_real (h : t.Tree D) (hd : t.Linked d)
    (hnone : lookupEntry name (t.inode d).entries 0 = none) : name ≠ dot ∧ name ≠ dotdot := by
  obtain ⟨rest, hes, hname, _⟩ := h.entries_eq hd.1
  have hnot := lookupEntry_eq_none hnone
  rw [hes] at hnot
  have hd0 : d ≠ 0 := (h.bound d hd.alloc).1.ne'
  have hup0 : (t.upEntry d).inum ≠ 0 := (h.bound _ (h.parent d hd).1.alloc).1.ne'
  constructor
  · exact (hnot _ List.mem_cons_self hd0).symm
  · have := hnot (t.upEntry d) (by simp) hup0
    rw [hname] at this
    exact this.symm

theorem swap_at (h : t.Tree D) (hd : t.IsDir d)
    (hlookup : lookupEntry name (t.inode d).entries 0 = some (i, off)) (hdot : name ≠ dot)
    (hdotdot : name ≠ dotdot) (x : Dirent) : ∃ e ∈ (t.inode d).entries, e.Real ∧ e.inum = i ∧
    i ≠ 0 ∧ Swap (t.inode d).entries (writeEntry (t.inode d).entries off x) [e] [x] := by
  obtain ⟨pre, e, post, hes, hoff, hinum, hi, hname⟩ := lookupEntry_eq_some hlookup
  obtain ⟨rest, hes', hup, _⟩ := h.entries_eq hd
  have hoff : off = pre.length := by omega
  refine ⟨e, by rw [hes]; simp, ?_, hinum, hi, ?_⟩
  · rw [Dirent.Real, hname]
    exact ⟨hdot, hdotdot⟩
  · rw [hes, hoff, writeEntry_append]
    rw [hes] at hes'
    match pre with
    | [] =>
      simp only [List.nil_append, List.cons.injEq] at hes'
      rw [hes'.1] at hname
      exact absurd hname.symm hdot
    | [y] =>
      simp only [List.cons_append, List.nil_append, List.cons.injEq] at hes'
      rw [hes'.2.1, hup] at hname
      exact absurd hname.symm hdotdot
    | y :: z :: pre => exact ⟨y, z, pre, post, by simp, by simp⟩

end Tree

end FsDisk

end Xv6
