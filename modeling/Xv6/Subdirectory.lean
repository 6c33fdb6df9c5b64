import Xv6.DirTree

/-!
# Making and removing directories

Both change the link counts of two directories: the entry in the parent counts
for the new directory, and its ".." counts for the parent.
-/

namespace Xv6

namespace FsDisk

variable {t t' : FsDisk} {D : ℕ → ℕ} {d i x : ℕ} {e : Dirent}

theorem toInt_add_one {x : Int16} (hx : x.toInt < 32767) : (x + 1).toInt = x.toInt + 1 := by
  have hlow := x.le_toInt
  have hone : (1 : Int16).toInt = 1 := rfl
  rw [Int16.toInt_add, hone]
  exact Int.bmod_eq_of_le (by omega) (by omega)

theorem toInt_sub_one {x : Int16} (hx : -32768 < x.toInt) : (x - 1).toInt = x.toInt - 1 := by
  have hhigh := x.toInt_lt
  have hone : (1 : Int16).toInt = 1 := rfl
  rw [Int16.toInt_sub, hone]
  exact Int.bmod_eq_of_le (by omega) (by omega)

theorem naming_two {a b : Inode} (hd : d < t.ninodes) (hx : x < t.ninodes) (hne : x ≠ d)
    (hsize : t'.ninodes = t.ninodes) (hinode : ∀ y, y ≠ d → y ≠ x → t'.inode y = t.inode y)
    (hda : t'.inode d = a) (hxb : t'.inode x = b) (i : ℕ) : t'.naming i +
    (t.inode d).naming i + (t.inode x).naming i = t.naming i + a.naming i + b.naming i := by
  have hfirst := naming_setInode (n := a) hd i
  have hsecond := naming_setInode (t := t.setInode d a) (n := b) hx i
  rw [inode_setInode_of_ne hne] at hsecond
  have heq : t'.naming i = ((t.setInode d a).setInode x b).naming i := by
    unfold naming
    rw [hsize]
    refine Finset.sum_congr rfl ?_
    intro y _
    by_cases hyx : y = x
    · rw [hyx, hxb, inode_setInode_self]
    · rw [inode_setInode_of_ne hyx]
      by_cases hyd : y = d
      · rw [hyd, hda, inode_setInode_self]
      · rw [inode_setInode_of_ne hyd, hinode y hyd hyx]
  omega

namespace Tree

theorem named (h : t.Tree D) (hd : t.Linked d) (hroot : d ≠ rootIno) :
    ∃ e ∈ (t.inode (t.up d)).entries, e.Real ∧ e.inum = d := by
  have hpos : 0 < (t.inode (t.up d)).entries.countP (fun e => decide (e.Real ∧ e.inum = d)) := by
    rw [h.once d hd hroot]
    exact Nat.one_pos
  obtain ⟨e, he, hed⟩ := List.countP_pos_iff.mp hpos
  exact ⟨e, he, by simpa using hed⟩

theorem naming_self (h : t.Tree D) (hd : t.Linked d) : ∃ y, t.Linked y ∧ 0 < (t.inode y).naming d ∧
    (y = rootIno ∨ ∃ e ∈ (t.inode y).entries, e.Real ∧ e.inum ≠ 0) := by
  by_cases hroot : d = rootIno
  · have hpos := h.naming_pos_of_up h.root.1
    rw [h.root.2] at hpos
    exact ⟨rootIno, h.root.1, by rw [hroot]; exact hpos, Or.inl rfl⟩
  · obtain ⟨e, he, hreal, hinum⟩ := h.named hd hroot
    have hl := (h.parent d hd).1
    have hd0 : d ≠ 0 := (h.bound d hd.alloc).1.ne'
    exact ⟨t.up d, hl, naming_pos_of_real hl.1 he hreal hinum,
      Or.inr ⟨e, he, hreal, by rw [hinum]; exact hd0⟩⟩

theorem up_ne_empty (h : t.Tree D) (hroot : x ≠ rootIno)
    (hempty : ∀ e ∈ (t.inode x).entries, e.Real → e.inum = 0) (hd : t.Linked d) : t.up d ≠ x := by
  intro hdx
  by_cases hdr : d = rootIno
  · rw [hdr, h.root.2] at hdx
    exact hroot hdx.symm
  · obtain ⟨e, he, hreal, hinum⟩ := h.named hd hdr
    rw [hdx] at he
    have := hempty e he hreal
    rw [hinum] at this
    exact (h.bound d hd.alloc).1.ne' this

theorem naming_empty (h : t.Tree D) (hx : t.IsDir x) (hempty : ∀ e ∈ (t.inode x).entries, e.Real →
    e.inum = 0) (hi : i ≠ 0) (linked : Bool) : (t.inode x).entries.countP
    (Dirent.counts linked i) = if linked = true ∧ t.up x = i then 1 else 0 := by
  obtain ⟨rest, hes, hname, hrest⟩ := h.entries_eq hx
  have hzero : rest.countP (Dirent.counts linked i) = 0 := by
    refine List.countP_eq_zero.mpr ?_
    intro r hr hcounts
    simp only [Dirent.counts, decide_eq_true_eq] at hcounts
    have hr0 : r.inum ≠ 0 := by
      rw [hcounts.1]
      exact hi
    exact hr0 (hempty r (by rw [hes]; simp [hr]) (hrest r hr hr0))
  have hdot : dotdot ≠ dot := by decide
  rw [hes, List.countP_cons, List.countP_cons, hzero]
  cases linked with
  | false => simp [Dirent.counts, hname, hdot]
  | true => simp [Dirent.counts, hname, hdot, up]

theorem naming_empty_self (h : t.Tree D) (hx : t.Linked x) (hroot : x ≠ rootIno)
    (hempty : ∀ e ∈ (t.inode x).entries, e.Real → e.inum = 0) : t.naming x = 1 := by
  have hx0 : x ≠ 0 := (h.bound x hx.alloc).1.ne'
  have hl := (h.parent x hx).1
  have hone : (t.inode (t.up x)).naming x = 1 := by
    rw [Inode.naming_dir hl.1, ← h.once x hx hroot]
    refine List.countP_congr ?_
    intro e he
    constructor
    · intro hcounts
      obtain ⟨hinum, hreal | ⟨_, rfl⟩⟩ := h.counts_cases hl.1 hx0 he hcounts
      · simp [hreal, hinum]
      · exact absurd hinum (h.up_ne_empty hroot hempty hl)
    · intro hreal
      simp only [decide_eq_true_eq] at hreal
      exact real_counts hreal.1 hreal.2 _
  rw [← hone]
  refine Finset.sum_eq_single_of_mem (t.up x) (Finset.mem_range.mpr (h.bound _ hl.alloc).2) ?_
  intro y _ hyx
  by_contra hpos
  obtain ⟨hdir, e, he, hcounts⟩ := naming_pos_iff.mp (Nat.pos_of_ne_zero hpos)
  obtain ⟨hinum, hreal | ⟨hly, rfl⟩⟩ := h.counts_cases hdir hx0 he hcounts
  · have := (h.names y hdir e he hreal (by rw [hinum]; exact hx0)).2.2.2
    rw [hinum] at this
    exact hyx (this hx.1).2.symm
  · exact h.up_ne_empty hroot hempty hly hinum

theorem removeDir (h : t.Tree D) (hDx : D x = 0) (hd : t.IsDir d) {es' : List Dirent}
    (hswap : Swap (t.inode d).entries es' [e] [Dirent.zero]) (hreal : e.Real) (hex : e.inum = x)
    (hx0 : x ≠ 0) (hx : t.IsDir x) (hempty : ∀ e ∈ (t.inode x).entries, e.Real → e.inum = 0)
    (hinode : ∀ y, y ≠ d → y ≠ x → t'.inode y = t.inode y)
    (hsize : t'.ninodes = t.ninodes) (hgen : t'.gen = t.gen) (hnd : t'.inode d = { t.inode d with
      entries := es', nlink := (t.inode d).nlink - 1 })
    (hnx : t'.inode x = { t.inode x with nlink := (t.inode x).nlink - 1 }) :
    t'.Tree D ∧ (t'.inode d).nlink ≠ 0 ∧ (t'.inode x).nlink = 0 := by
  have he : e ∈ (t.inode d).entries := by
    obtain ⟨a, b, pre, post, hes, _⟩ := hswap
    rw [hes]
    simp
  obtain ⟨hld, _, _, hsub⟩ := h.names d hd e he hreal (by rw [hex]; exact hx0)
  rw [hex] at hsub
  obtain ⟨hroot, hupx⟩ := hsub hx
  have hxd : x ≠ d := by
    rintro rfl
    exact hx0 (by rw [← hex]; exact hempty e he hreal)
  have hbx := (h.bound x hx.alloc).2
  have hbd := (h.bound d hd.alloc).2
  have hlx : t.Linked x := by
    refine ⟨hx, h.nlink_ne_zero hx0 ?_⟩
    exact lt_of_lt_of_le (naming_pos_of_real hd he hreal hex) (naming_le hbd x)
  -- the link counts of the two directories
  have hzero : (t'.inode x).nlink = 0 := by
    have hlinks := h.links x hx.alloc
    rw [h.naming_empty_self hlx hroot hempty, hDx] at hlinks
    rw [hnx, ← Int16.toInt_inj, toInt_sub_one (by omega), hlinks]
    rfl
  have hdlinks := h.links d hd.alloc
  have htwo : 2 ≤ t.naming d := by
    obtain ⟨y, hy, hpos, hysource⟩ := h.naming_self hld
    have hyx : y ≠ x := by
      rintro rfl
      rcases hysource with hyr | ⟨e, he, hreal, hinum⟩
      · exact hroot hyr
      · exact hinum (hempty e he hreal)
    have hxpos := h.naming_pos_of_up hlx
    rw [hupx] at hxpos
    have := naming_add_le (h.bound y hy.alloc).2 hbx hyx d
    omega
  have hdnlink : (t'.inode d).nlink.toInt = (t.inode d).nlink.toInt - 1 := by
    rw [hnd]
    exact toInt_sub_one (by omega)
  have hdne : (t'.inode d).nlink ≠ 0 := by
    rw [nlink_ne_zero_iff, hdnlink]
    omega
  -- what stays as it is
  have htype : ∀ y, (t'.inode y).type = (t.inode y).type := by
    intro y
    by_cases hyd : y = d
    · rw [hyd, hnd]
    · by_cases hyx : y = x
      · rw [hyx, hnx]
      · rw [hinode y hyd hyx]
  have hentries : ∀ y, y ≠ d → (t'.inode y).entries = (t.inode y).entries := by
    intro y hyd
    by_cases hyx : y = x
    · rw [hyx, hnx]
    · rw [hinode y hyd hyx]
  have hself : (t'.inode d).entries = es' := by rw [hnd]
  have hdir : ∀ y, t'.IsDir y ↔ t.IsDir y := by
    intro y
    unfold IsDir
    rw [htype]
  have halloc : ∀ y, t'.Alloc y ↔ t.Alloc y := by
    intro y
    unfold Alloc
    rw [htype]
  have hlinked : ∀ y, t'.Linked y ↔ t.Linked y ∧ y ≠ x := by
    intro y
    by_cases hyx : y = x
    · subst hyx
      exact ⟨fun hl => absurd hzero hl.2, fun hl => absurd rfl hl.2⟩
    · by_cases hyd : y = d
      · subst hyd
        exact ⟨fun _ => ⟨hld, hyx⟩, fun _ => ⟨(hdir y).mpr hd, hdne⟩⟩
      · unfold Linked IsDir
        rw [hinode y hyd hyx]
        simp [hyx]
  have hupEntry : ∀ y, t'.upEntry y = t.upEntry y := by
    intro y
    unfold upEntry
    by_cases hyd : y = d
    · subst hyd
      rw [hself, hswap.second]
    · rw [hentries y hyd]
  have hup : ∀ y, t'.up y = t.up y := by
    intro y
    rw [up, up, hupEntry]
  have hcount : ∀ k, k ≠ 0 → t'.naming k + (if x = k then 1 else 0) +
      (if d = k then 1 else 0) = t.naming k := by
    intro k hk
    have hsum := naming_two hbd hbx hxd hsize hinode rfl rfl k
    have holdd := Inode.naming_dir hd k
    have hnewd := Inode.naming_dir ((hdir d).mpr hd) k
    have holdx := Inode.naming_dir hx k
    have hnewx := Inode.naming_dir ((hdir x).mpr hx) k
    have hswapk := hswap.countP (Dirent.counts true k)
    have hone : [e].countP (Dirent.counts true k) = if x = k then 1 else 0 := by
      simp [Dirent.counts, hex, hreal.1]
    have hnone : [Dirent.zero].countP (Dirent.counts true k) = 0 := by
      simp [Dirent.counts, Dirent.zero, Ne.symm hk]
    rw [h.naming_empty hx hempty hk] at holdx
    rw [hentries x hxd, h.naming_empty hx hempty hk] at hnewx
    have hdl : (t.inode d).nlink ≠ 0 := hld.2
    have hxl : (t.inode x).nlink ≠ 0 := hlx.2
    simp only [hself, hdne, hdl, hxl, hzero, hupx, ne_eq, not_false_eq_true,
      not_true_eq_false, decide_true, decide_false, true_and, Bool.false_eq_true,
      false_and, if_false] at holdd hnewd holdx hnewx
    omega
  refine ⟨⟨by rw [hsize]; exact h.size, ?_, ?_, ?_, ?_, ?_, ?_, ?_, ?_⟩, hdne, hzero⟩
  · intro i hi
    rw [hsize]
    exact h.bound i ((halloc i).mp hi)
  · rw [hlinked, hup]
    exact ⟨⟨h.root.1, Ne.symm hroot⟩, h.root.2⟩
  · intro y hy
    have hdots := h.dots y ((hdir y).mp hy)
    rw [hgen]
    by_cases hyd : y = d
    · subst hyd
      rw [hself]
      exact hswap.dots hdots (by simp [Dirent.zero])
    · rw [hentries y hyd]
      exact hdots
  · intro y hy e' he' hreal' hinum
    have hy' := (hdir y).mp hy
    have hold : e' ∈ (t.inode y).entries := by
      by_cases hyd : y = d
      · subst hyd
        rw [hself] at he'
        rcases hswap.mem_of_mem he' with hmem | hmem
        · exact hmem
        · simp only [List.mem_singleton] at hmem
          rw [hmem] at hinum
          exact absurd rfl hinum
      · rwa [hentries y hyd] at he'
    have hyx : y ≠ x := by
      rintro rfl
      exact hinum (hempty e' hold hreal')
    obtain ⟨hl, ha, hg, hsub'⟩ := h.names y hy' e' hold hreal' hinum
    rw [hlinked, halloc, hgen, hdir, hup]
    exact ⟨⟨hl, hyx⟩, ha, hg, hsub'⟩
  · intro y hy
    obtain ⟨hy', _⟩ := (hlinked y).mp hy
    obtain ⟨hl, hg⟩ := h.parent y hy'
    rw [hlinked, hup, hupEntry, hgen]
    exact ⟨⟨hl, h.up_ne_empty hroot hempty hy'⟩, hg⟩
  · intro y hy hyr
    obtain ⟨hy', hyx⟩ := (hlinked y).mp hy
    have honce := h.once y hy' hyr
    rw [hup]
    by_cases hyd : t.up y = d
    · rw [hyd] at honce ⊢
      rw [hself]
      have hy0 : y ≠ 0 := (h.bound y hy'.alloc).1.ne'
      have hc := hswap.countP fun e => decide (e.Real ∧ e.inum = y)
      simp only [List.countP_singleton, hex, Dirent.zero,
        Ne.symm hyx, Ne.symm hy0, and_false, decide_false, Bool.false_eq_true, if_false] at hc
      omega
    · rw [hentries _ hyd]
      exact honce
  · intro i hi
    have hi' := (halloc i).mp hi
    have hi0 : i ≠ 0 := (h.bound i hi').1.ne'
    have hlinks := h.links i hi'
    have hk := hcount i hi0
    by_cases hix : i = x
    · subst hix
      rw [hzero]
      have hz : (0 : Int16).toInt = 0 := rfl
      rw [if_pos rfl, if_neg (Ne.symm hxd), h.naming_empty_self hlx hroot hempty] at hk
      rw [hz]
      omega
    · by_cases hid : i = d
      · subst hid
        rw [if_neg hxd, if_pos rfl] at hk
        omega
      · rw [if_neg (Ne.symm hix), if_neg (Ne.symm hid)] at hk
        rw [hinode i hid hix]
        omega
  · intro y hy
    obtain ⟨hy', hyx⟩ := (hlinked y).mp hy
    refine (h.reach y hy').keep (P := fun y => y ≠ x) ?_ hyx
    intro z e' hz he' hreal' hinum hne
    have hzx : z ≠ x := by
      rintro rfl
      exact hinum (hempty e' he' hreal')
    refine ⟨hzx, (hdir z).mpr hz, e', ?_, hreal', rfl⟩
    by_cases hzd : z = d
    · subst hzd
      rw [hself]
      rcases hswap.mem he' with hkeep | hgone
      · exact hkeep
      · simp only [List.mem_singleton] at hgone
        rw [hgone] at hne
        exact absurd hex hne
    · rw [hentries z hzd]
      exact he'

theorem addDir (h : t.Tree D) (hDx : D x = 0) (hd : t.Linked d)
    (hfree : ¬ t.Alloc x) (hbx : 0 < x ∧ x < t.ninodes) {es' zs : List Dirent} {major minor : Int16}
    (hswap : Swap (t.inode d).entries es' zs [e]) (hzs : ∀ z ∈ zs, z.inum = 0) (hreal : e.Real)
    (hex : e.inum = x) (heg : e.gen = t'.gen x) (hwrap : (t.inode d).nlink.toInt < 32767)
    (hinode : ∀ y, y ≠ d → y ≠ x → t'.inode y = t.inode y) (hsize : t'.ninodes = t.ninodes)
    (hgen : ∀ y, y ≠ x → t'.gen y = t.gen y) (hnd : t'.inode d = { t.inode d with
      entries := es', nlink := (t.inode d).nlink + 1 })
    (hnx : t'.inode x = ⟨.dir, major, minor, 1,
      [⟨x, dot, t'.gen x⟩, ⟨d, dotdot, t.gen d⟩]⟩) : t'.Tree D := by
  have hxd : x ≠ d := by
    rintro rfl
    exact hfree hd.alloc
  have hbd := (h.bound d hd.alloc).2
  have hx0 : x ≠ 0 := hbx.1.ne'
  have hnamed : t.naming x = 0 := h.naming_eq_zero hx0 hfree
  have hne : ∀ y, t.Alloc y → y ≠ x := by
    rintro y hy rfl
    exact hfree hy
  have hdnlink : (t'.inode d).nlink.toInt = (t.inode d).nlink.toInt + 1 := by
    rw [hnd]
    exact toInt_add_one hwrap
  have hdlinks := h.links d hd.alloc
  have hdne : (t'.inode d).nlink ≠ 0 := by
    rw [nlink_ne_zero_iff, hdnlink]
    omega
  have htype : ∀ y, y ≠ x → (t'.inode y).type = (t.inode y).type := by
    intro y hyx
    by_cases hyd : y = d
    · rw [hyd, hnd]
    · rw [hinode y hyd hyx]
  have hself : (t'.inode d).entries = es' := by rw [hnd]
  have hentries : ∀ y, y ≠ d → y ≠ x → (t'.inode y).entries = (t.inode y).entries := by
    intro y hyd hyx
    rw [hinode y hyd hyx]
  have hxdir : t'.IsDir x := by
    unfold IsDir
    rw [hnx]
  have hdir : ∀ y, y ≠ x → (t'.IsDir y ↔ t.IsDir y) := by
    intro y hyx
    unfold IsDir
    rw [htype y hyx]
  have halloc : ∀ y, y ≠ x → (t'.Alloc y ↔ t.Alloc y) := by
    intro y hyx
    unfold Alloc
    rw [htype y hyx]
  have hxlinked : t'.Linked x := by
    refine ⟨hxdir, ?_⟩
    rw [hnx]
    change (1 : Int16) ≠ 0
    decide
  have hlinked : ∀ y, y ≠ x → (t'.Linked y ↔ t.Linked y) := by
    intro y hyx
    by_cases hyd : y = d
    · subst hyd
      exact ⟨fun _ => hd, fun _ => ⟨(hdir y hyx).mpr hd.1, hdne⟩⟩
    · unfold Linked IsDir
      rw [hinode y hyd hyx]
  have hupEntry : ∀ y, y ≠ x → t'.upEntry y = t.upEntry y := by
    intro y hyx
    unfold upEntry
    by_cases hyd : y = d
    · subst hyd
      rw [hself, hswap.second]
    · rw [hentries y hyd hyx]
  have hup : ∀ y, y ≠ x → t'.up y = t.up y := by
    intro y hyx
    rw [up, up, hupEntry y hyx]
  have hxup : t'.upEntry x = ⟨d, dotdot, t.gen d⟩ := by
    unfold upEntry
    rw [hnx]
    rfl
  have hdx : t'.Linked d := (hlinked d (Ne.symm hxd)).mpr hd
  -- nothing named `x`
  have hnot : ∀ y, t.IsDir y → ∀ e ∈ (t.inode y).entries, e.Real → e.inum ≠ 0 → e.inum ≠ x := by
    intro y hy e' he' hreal' hinum
    exact hne _ (h.names y hy e' he' hreal' hinum).2.1
  have hcount : ∀ k, k ≠ 0 → t'.naming k = t.naming k +
      (if x = k then 1 else 0) + (if d = k then 1 else 0) := by
    intro k hk
    have hsum := naming_two hbd hbx.2 hxd hsize hinode rfl rfl k
    have holdd := Inode.naming_dir hd.1 k
    have hnewd := Inode.naming_dir hdx.1 k
    have hfreex : (t.inode x).type ≠ .dir := fun hx => hfree (IsDir.alloc hx)
    have holdx := Inode.naming_of_ne hfreex k
    have hnewx := Inode.naming_dir hxdir k
    have hswapk := hswap.countP (Dirent.counts true k)
    have hone : [e].countP (Dirent.counts true k) = if x = k then 1 else 0 := by
      simp [Dirent.counts, hex, hreal.1]
    have hnone : zs.countP (Dirent.counts true k) = 0 := by
      refine List.countP_eq_zero.mpr ?_
      intro z hz hcounts
      simp only [Dirent.counts, decide_eq_true_eq] at hcounts
      rw [hzs z hz] at hcounts
      exact hk hcounts.1.symm
    have hdots : dotdot ≠ dot := by decide
    have hdl : (t.inode d).nlink ≠ 0 := hd.2
    have hxl : (t'.inode x).nlink ≠ 0 := hxlinked.2
    have hxes : (t'.inode x).entries.countP (Dirent.counts true k) = if d = k then 1 else 0 := by
      rw [hnx]
      simp [Dirent.counts, hdots]
    simp only [hself, hdne, hdl, hxl, ne_eq, not_false_eq_true, decide_true] at holdd hnewd hnewx
    omega
  refine ⟨by rw [hsize]; exact h.size, ?_, ?_, ?_, ?_, ?_, ?_, ?_, ?_⟩
  · intro i hi
    rw [hsize]
    by_cases hix : i = x
    · rw [hix]
      exact hbx
    · exact h.bound i ((halloc i hix).mp hi)
  · have hrx := hne _ h.root.1.alloc
    rw [hlinked _ hrx, hup _ hrx]
    exact h.root
  · intro y hy
    by_cases hyx : y = x
    · subst hyx
      rw [hnx]
      exact ⟨_, [], rfl, rfl, by simp⟩
    · have hdots := h.dots y ((hdir y hyx).mp hy)
      rw [hgen y hyx]
      by_cases hyd : y = d
      · subst hyd
        rw [hself]
        exact hswap.dots hdots (by simp [hreal])
      · rw [hentries y hyd hyx]
        exact hdots
  · intro y hy e' he' hreal' hinum
    by_cases hyx : y = x
    · subst hyx
      rw [hnx] at he'
      simp only [List.mem_cons, List.not_mem_nil, or_false] at he'
      rcases he' with rfl | rfl
      · exact absurd rfl hreal'.1
      · exact absurd rfl hreal'.2
    · have hy' := (hdir y hyx).mp hy
      by_cases hnew : y = d ∧ e' = e
      · obtain ⟨rfl, rfl⟩ := hnew
        rw [hex]
        refine ⟨hdx, hxdir.alloc, heg, fun _ => ⟨?_, ?_⟩⟩
        · exact (hne _ h.root.1.alloc).symm
        · rw [up, hxup]
      · have hold : e' ∈ (t.inode y).entries := by
          by_cases hyd : y = d
          · subst hyd
            rw [hself] at he'
            rcases hswap.mem_of_mem he' with hmem | hmem
            · exact hmem
            · simp only [List.mem_singleton] at hmem
              exact absurd ⟨rfl, hmem⟩ hnew
          · rwa [hentries y hyd hyx] at he'
        have hex' := hnot y hy' e' hold hreal' hinum
        obtain ⟨hl, ha, hg, hsub⟩ := h.names y hy' e' hold hreal' hinum
        rw [hlinked y hyx, halloc _ hex', hgen _ hex', hdir _ hex', hup _ hex']
        exact ⟨hl, ha, hg, hsub⟩
  · intro y hy
    by_cases hyx : y = x
    · subst hyx
      rw [up, hxup]
      exact ⟨hdx, (hgen d (Ne.symm hxd)).symm⟩
    · have hy' := (hlinked y hyx).mp hy
      obtain ⟨hl, hg⟩ := h.parent y hy'
      have hux := hne _ hl.alloc
      rw [hup y hyx, hupEntry y hyx, hlinked _ hux, hgen _ hux]
      exact ⟨hl, hg⟩
  · intro y hy hyr
    by_cases hyx : y = x
    · subst hyx
      have hupd : t'.up y = d := by rw [up, hxup]
      rw [hupd, hself]
      have hc := hswap.countP fun e => decide (e.Real ∧ e.inum = y)
      have hold : (t.inode d).entries.countP (fun e => decide (e.Real ∧ e.inum = y)) = 0 := by
        refine List.countP_eq_zero.mpr ?_
        intro e' he' hy'
        simp only [decide_eq_true_eq] at hy'
        exact hnot d hd.1 e' he' hy'.1 (by rw [hy'.2]; exact hx0) hy'.2
      have hz : zs.countP (fun e => decide (e.Real ∧ e.inum = y)) = 0 := by
        refine List.countP_eq_zero.mpr ?_
        intro z hz hy'
        simp only [decide_eq_true_eq] at hy'
        rw [hzs z hz] at hy'
        exact hx0 hy'.2.symm
      simp only [List.countP_singleton, hreal, hex, and_self, decide_true, if_true] at hc
      omega
    · have hy' := (hlinked y hyx).mp hy
      have honce := h.once y hy' hyr
      have hux := hne _ (h.parent y hy').1.alloc
      rw [hup y hyx]
      by_cases hyd : t.up y = d
      · rw [hyd] at honce ⊢
        rw [hself]
        have hy0 : y ≠ 0 := (h.bound y hy'.alloc).1.ne'
        have hc := hswap.countP fun e => decide (e.Real ∧ e.inum = y)
        have hz : zs.countP (fun e => decide (e.Real ∧ e.inum = y)) = 0 := by
          refine List.countP_eq_zero.mpr ?_
          intro z hz hzy
          simp only [decide_eq_true_eq] at hzy
          rw [hzs z hz] at hzy
          exact hy0 hzy.2.symm
        simp only [List.countP_singleton, hex, Ne.symm hyx, and_false,
          decide_false, Bool.false_eq_true, if_false] at hc
        omega
      · rw [hentries _ hyd hux]
        exact honce
  · intro i hi
    by_cases hix : i = x
    · subst hix
      have hk := hcount i hx0
      rw [if_pos rfl, if_neg (Ne.symm hxd), hnamed] at hk
      have hone : (t'.inode i).nlink.toInt = 1 := by
        rw [hnx]
        rfl
      rw [hone, hk, hDx]
      rfl
    · have hi' := (halloc i hix).mp hi
      have hi0 : i ≠ 0 := (h.bound i hi').1.ne'
      have hlinks := h.links i hi'
      have hk := hcount i hi0
      by_cases hid : i = d
      · subst hid
        rw [if_neg hxd, if_pos rfl] at hk
        omega
      · rw [if_neg (Ne.symm hix), if_neg (Ne.symm hid)] at hk
        rw [hinode i hid hix]
        omega
  · have hreach : ∀ y, t.Linked y → t'.Reach y := by
      intro y hy
      refine (h.reach y hy).keep (P := fun _ => True) ?_ trivial
      intro z e' hz he' hreal' hinum _
      have hzx := hne z hz.alloc
      refine ⟨trivial, (hdir z hzx).mpr hz, e', ?_, hreal', rfl⟩
      by_cases hzd : z = d
      · subst hzd
        rw [hself]
        rcases hswap.mem he' with hkeep | hgone
        · exact hkeep
        · exact absurd (hzs e' hgone) hinum
      · rw [hentries z hzd hzx]
        exact he'
    intro y hy
    by_cases hyx : y = x
    · subst hyx
      refine .entry (hreach d hd) hdx.1 (e := e) ?_ hreal hex hx0
      rw [hself]
      exact hswap.mem_new (by simp)
    · exact hreach y ((hlinked y hyx).mp hy)

end Tree

end FsDisk

end Xv6
