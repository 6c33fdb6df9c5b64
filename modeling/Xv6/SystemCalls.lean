import Xv6.NewInode

/-!
# System calls keep the directory tree

A call that starts with a directory tree and exact references ends with them,
unless a link count wraps around on the way, or it writes an entry in a
directory that has lost its link.  If every directory has a link when the call
starts (`T`), this is so when it ends, unless it removes a directory that is in
use; then all entries are written in directories with links.
-/

namespace Xv6

open Fs Hoare

variable {T : Prop} {s : Fs} {L D : ℕ → ℕ}

def CallErr (T : Prop) (e : FsStop) (t : Fs) : Prop :=
  t.wrapped = false → e ≠ .unlinkNlink ∧ (e = .noType → ¬ T)

theorem wrapped_holds {α : Type} {x : FsM α} {Q : α → Fs → Prop} (hgrowing : Growing x)
    (hw : s.wrapped = true) : Holds x s (fun a t => t.Calm T → Q a t) (CallErr T) := by
  refine Hoare.mono (hgrowing s) (fun _ t hg ht => ?_) (fun _ t hg ht => ?_)
  · have := hg.wrapped hw
    rw [ht.wrapped] at this
    contradiction
  · have := hg.wrapped hw
    rw [ht] at this
    contradiction

theorem FsDisk.IsDir.of_inode {t : Fs} {d : ℕ} (h : s.disk.IsDir d)
    (heq : t.inode d = s.inode d) : t.disk.IsDir d := by
  change (t.inode d).type = .dir
  rw [heq]
  exact h

/-! ## The functions of `fs.c` -/

variable {i c d ip dp off : ℕ} {name : Name} {major minor : Int16} {t : Fs} {p : Slot}

theorem iput_ok (h : s.Ok T (L + one i) D) : Holds (iput i) s
    (fun _ t => s.Same t ∧ t.Ok T L D ∧ Keeps L s t) (CallErr T) := by
  refine Hoare.mono (iput_spec (L := L) (D := D) i) ?_ (fun _ _ h => h.elim)
  rintro _ t ⟨hsame, hinv⟩
  obtain ⟨hend, hkeeps⟩ := hinv h.inv
  exact ⟨hsame, h.of_keeps hend hkeeps, hkeeps⟩

theorem iput_pure {α : Type} {a : α} {Q : α → Fs → Prop} (h : s.Ok T (L + one i) D)
    (hQ : ∀ t, t.Ok T L D → Q a t) : Holds (do iput i; pure a) s Q (CallErr T) := by
  refine Hoare.bind (iput_ok h) ?_
  rintro _ t ⟨_, hend, _⟩
  exact Hoare.pure (hQ t hend)

theorem ilock_ok (h : s.Ok T L D) (ha : T → s.disk.Alloc i) : Holds (ilock i) s
      (fun _ t => s.Same t ∧ t.disk = s.disk ∧ t.valid i = true ∧
        t.Ok T L D ∧ t.disk.Alloc i) (CallErr T) := by
  refine Hoare.mono (ilock_spec (L := L) i) ?_ ?_
  · rintro _ t ⟨hsame, hdisk, hvalid, hmem⟩
    obtain ⟨hend, hai⟩ := hmem h.inv.mem
    exact ⟨hsame, hdisk, hvalid, h.of_keeps (M := L)
      (h.inv.of_disk hdisk hend) (Keeps.of_disk hdisk), hai⟩
  · rintro e t ⟨_, hne, hfree⟩ _
    exact ⟨hne, fun he hT => hfree he (ha hT)⟩

theorem nameiparent_ok (path : Path) (h : s.Ok T L D) (hc : 0 < s.held c) :
    Holds (nameiparent c path) s (fun r t => s.Same t ∧ Keeps L s t ∧ match r with
        | none => t.Ok T L D
        | some (j, _) => t.Ok T (L + one j) D ∧ t.disk.IsDir j)
      (CallErr T) := by
  refine Hoare.mono (namex_spec (L := L) (D := D) c path true) ?_ ?_
  · rintro r t ⟨hsame, hinv⟩
    have hend := hinv h.inv hc
    cases r with
    | none => exact ⟨hsame, hend.2, h.of_keeps hend.1 hend.2⟩
    | some res =>
      obtain ⟨hend, hkeeps, hdir, _⟩ := hend
      exact ⟨hsame, hkeeps, h.of_keeps hend hkeeps, hdir rfl⟩
  · rintro e t ⟨_, hne, htype⟩ _
    exact ⟨hne, fun he hT => htype he h.inv hc (h.tidy hT)⟩

theorem namei_ok (path : Path) (h : s.Ok T L D) (hc : 0 < s.held c) : Holds (namei c path) s
      (fun r t => s.Same t ∧ match r with
        | none => t.Ok T L D
        | some j => t.Ok T (L + one j) D ∧ (T → t.disk.Alloc j))
      (CallErr T) := by
  refine Hoare.mono (namei_spec (L := L) (D := D) c path) ?_ ?_
  · rintro r t ⟨hsame, hinv⟩
    have hend := hinv h.inv hc
    cases r with
    | none => exact ⟨hsame, h.of_keeps hend.1 hend.2⟩
    | some j =>
      obtain ⟨hend, hkeeps, halloc⟩ := hend
      exact ⟨hsame, h.of_keeps hend hkeeps, fun hT => halloc (h.tidy hT)⟩
  · rintro e t ⟨_, hne, htype⟩ _
    exact ⟨hne, fun he hT => htype he h.inv hc (h.tidy hT)⟩

theorem dirlookup_ok (name : Name) (h : s.Ok T L D) : Holds (dirlookup d name) s
      (fun r t => s.Same t ∧ t.disk = s.disk ∧ s.disk.IsDir d ∧ match r with
        | none => t = s ∧ lookupEntry name (s.inode d).entries 0 = none
        | some (i, off) =>
          lookupEntry name (s.inode d).entries 0 = some (i, off) ∧
            t.Ok T (L + one i) D ∧ (T → t.disk.Alloc i))
      (CallErr T) := by
  refine Hoare.mono (dirlookup_spec (L := L) d name) ?_ ?_
  · rintro r t ⟨hsame, hdisk, hdir, hfound⟩
    refine ⟨hsame, hdisk, hdir, ?_⟩
    cases r with
    | none => exact hfound
    | some found =>
      obtain ⟨i, off⟩ := found
      obtain ⟨hlookup, hmem⟩ := hfound
      refine ⟨hlookup, h.of_keeps (M := L)
        (h.inv.of_disk hdisk (hmem h.inv.mem)) (Keeps.of_disk hdisk), fun hT => ?_⟩
      rw [hdisk]
      exact h.inv.tree.lookup_alloc ⟨hdir, h.tidy hT d hdir⟩ hlookup
  · rintro e t ⟨_, hne, htype⟩ _
    exact ⟨hne, fun he => absurd he htype⟩

theorem dirlink_of_none (i : ℕ) (room : ℕ → Bool) (hd : s.disk.IsDir d)
    (hnone : lookupEntry name (s.inode d).entries 0 = none) : Holds (dirlink d name i room) s
    (fun r t => t = if r = true then s.withEntry d name i else s) (fun _ _ => False) := by
  have hlookup : dirlookup d name s = .ok none s := by
    change (if (s.inode d).type ≠ .dir then throw .notDir else _ : FsM _) s = _
    have hd' : (s.inode d).type = .dir := hd
    rw [if_neg (not_not.mpr hd'), hnone]
    rfl
  refine Hoare.bind_ok hlookup (Hoare.get_bind ?_)
  dsimp only
  split
  · exact Hoare.pure rfl
  · exact Hoare.modify_bind (Hoare.pure rfl)

theorem dirlink_ok (name : Name) (i : ℕ) (room : ℕ → Bool) (h : s.Ok T L D) :
    Holds (dirlink d name i room) s (fun r t =>
        if r = true then s.disk.IsDir d ∧ lookupEntry name (s.inode d).entries 0 = none ∧
          t = s.withEntry d name i
        else s.Same t ∧ t.Ok T L D ∧ Keeps L s t)
      (CallErr T) := by
  by_cases hnone : s.disk.IsDir d ∧ lookupEntry name (s.inode d).entries 0 = none
  · refine Hoare.mono (dirlink_of_none i room hnone.1 hnone.2) ?_ (fun _ _ hf => hf.elim)
    rintro r t rfl
    cases r with
    | false => exact ⟨Same.refl s, h, Keeps.of_disk rfl⟩
    | true => exact ⟨hnone.1, hnone.2, rfl⟩
  · refine Hoare.bind (dirlookup_ok name h) ?_
    rintro r t ⟨hsame, hdisk, hdir, hfound⟩
    cases r with
    | none => exact absurd ⟨hdir, hfound.2⟩ hnone
    | some found =>
      obtain ⟨_, hok, _⟩ := hfound
      refine Hoare.bind (iput_ok hok) ?_
      rintro _ t' ⟨hsame', hok', hkeeps⟩
      exact Hoare.pure ⟨hsame.trans hsame', hok', (Keeps.of_disk hdisk).trans hsame hkeeps⟩

/-! ## `sys_link` -/

theorem linkBad_ok (h : s.Ok T (L + one i) (D + one i)) (ha : s.disk.Alloc i)
    (hnot : ¬ s.disk.IsDir i) : Holds (linkBad i) s (fun _ t => t.Ok T L D) (CallErr T) := by
  refine Hoare.bind (ilock_ok h (fun _ => ha)) ?_
  rintro _ t1 ⟨_, hdisk, hvalid, hok, ha1⟩
  have href : 0 < t1.ref i := by
    rw [hok.inv.mem.refs, Pi.add_apply, one_self]
    omega
  have hdown := hok.linkDown ha1 (by rw [hdisk]; exact hnot) href hvalid
  exact Hoare.modify_bind (iput_pure hdown (fun _ hend => hend))

theorem linkNew_ok (new : Path) (room : ℕ → Bool) (h : s.Ok T (L + one ip) (D + one ip))
    (hc : 0 < s.held c) (ha : s.disk.Alloc ip) (hnot : ¬ s.disk.IsDir ip) :
    Holds (linkNew c ip new room) s (fun _ t => t.Calm T → t.Ok T L D) (CallErr T) := by
  -- `ip` stays what it is as long as the call has its reference
  have hkept : ∀ {t : Fs}, Keeps (L + one ip) s t → t.disk.Alloc ip ∧ ¬ t.disk.IsDir ip := by
    intro t hk
    refine ⟨hk.alloc_used ?_ ha, fun hd => hnot (hk.isDir hd).1⟩
    rw [Pi.add_apply, one_self]
    omega
  refine Hoare.bind (nameiparent_ok new h hc) ?_
  rintro r t1 ⟨hsame1, hk1, hfound⟩
  obtain ⟨ha1, hnot1⟩ := hkept hk1
  cases r with
  | none =>
    exact Hoare.mono (linkBad_ok hfound ha1 hnot1) (fun _ _ h _ => h) (fun _ _ h => h)
  | some found =>
    obtain ⟨dp, name⟩ := found
    obtain ⟨hok1, hdir1⟩ := hfound
    refine Hoare.bind (ilock_ok hok1 (fun _ => hdir1.alloc)) ?_
    rintro _ t2 ⟨hsame2, hdisk2, _, hok2, _⟩
    refine Hoare.bind (dirlink_ok name ip room hok2) ?_
    rintro b t3 hlink
    cases b with
    | true =>
      obtain ⟨hdir, hnone, rfl⟩ := hlink
      refine Hoare.seq (iput_spec (L := L + one ip) (D := D) dp) (by simp) ?_
      rintro _ t4 ⟨hsame4, hinv4⟩
      refine Hoare.seq (iput_spec (L := L) (D := D) ip) (by simp) ?_
      rintro _ t5 ⟨hsame5, hinv5⟩
      refine Hoare.pure (fun hcalm => ?_)
      have hcalm3 := hcalm.of_grows (hsame4.trans hsame5).grows
      have hok3 : (t2.withEntry dp name ip).Ok T (L + one ip + one dp) D :=
        hok2.withEntry (hok2.linked hdir hcalm3.writeAt) hnone
          (by rw [hdisk2]; exact ha1) (by rw [hdisk2]; exact hnot1)
      obtain ⟨hend4, hk4⟩ := hinv4 hok3.inv
      obtain ⟨hend5, hk5⟩ := hinv5 hend4
      exact (hok3.of_keeps hend4 hk4).of_keeps hend5 hk5
    | false =>
      obtain ⟨hsame3, hok3, hk3⟩ := hlink
      refine Hoare.bind (iput_ok hok3) ?_
      rintro _ t4 ⟨hsame4, hok4, hk4⟩
      have hsame := (hsame1.trans hsame2).trans hsame3
      have hk : Keeps (L + one ip) s t4 :=
        ((hk1.trans hsame1 (Keeps.of_disk hdisk2)).trans
          (hsame1.trans hsame2) hk3.weaken).trans hsame hk4
      obtain ⟨ha4, hnot4⟩ := hkept hk
      exact Hoare.mono (linkBad_ok hok4 ha4 hnot4) (fun _ _ h _ => h) (fun _ _ h => h)

theorem sysLink_ok (old new : Path) (room : ℕ → Bool) (h : s.Ok T L D) (hc : 0 < s.held c) :
    Holds (sysLink c old new room) s (fun _ t => t.Calm T → t.Ok T L D) (CallErr T) := by
  unfold sysLink
  split
  · exact Hoare.pure (fun _ => h)
  · refine Hoare.bind (namei_ok old h hc) ?_
    rintro r t1 ⟨hsame1, hfound⟩
    cases r with
    | none => exact Hoare.pure (fun _ => hfound)
    | some ip =>
      obtain ⟨hok1, ha1⟩ := hfound
      refine Hoare.bind (ilock_ok hok1 ha1) ?_
      rintro _ t2 ⟨hsame2, _, _, hok2, ha2⟩
      refine Hoare.get_bind ?_
      split
      · exact iput_pure hok2 (fun _ hend _ => hend)
      · rename_i hnot
        have hnot : ¬ t2.disk.IsDir ip := hnot
        refine Hoare.modify_bind ?_
        by_cases hmax : (t2.inode ip).nlink = 32767
        · refine wrapped_holds (linkNew_growing c ip new room) ?_
          simp [linkUp, hmax]
        · have hup := hok2.linkUp ha2 hnot hmax
          refine linkNew_ok new room hup ?_ ?_ ?_
          · change 0 < t2.held c
            rw [(hsame1.trans hsame2).held]
            exact hc
          · simpa [linkUp, setDisk, FsDisk.setNlink, FsDisk.setInode, FsDisk.Alloc] using ha2
          · simpa [linkUp, setDisk, FsDisk.setNlink, FsDisk.setInode, FsDisk.IsDir] using hnot

/-! ## `sys_unlink` -/

section Unlink

variable (hd : s.disk.IsDir dp) (hlookup : lookupEntry name (s.inode dp).entries 0 = some (ip, off))
  (hdot : name ≠ dot) (hdotdot : name ≠ dotdot)
include hd hlookup hdot hdotdot

theorem one_le_nlink (h : s.Ok T L D) : ¬ (s.inode ip).nlink < 1 := by
  have htree := h.inv.tree
  obtain ⟨e, he, hreal, hinum, hi, _⟩ := htree.swap_at hd hlookup hdot hdotdot Dirent.zero
  obtain ⟨_, ha, _⟩ := htree.names dp hd e he hreal (by rw [hinum]; exact hi)
  rw [hinum] at ha
  have hpos := FsDisk.Tree.naming_pos_of_real hd he hreal hinum
  have hle := FsDisk.naming_le (htree.bound dp hd.alloc).2 ip
  have hlinks := htree.links ip ha
  have hone : (1 : Int16).toInt = 1 := rfl
  rw [Int16.lt_iff_toInt_lt, hone]
  unfold Fs.inode
  omega

variable (h : s.Ok T (L + one dp + one ip) D) (hne : ip ≠ dp) (hvalid : s.valid ip = true)
include h hne hvalid

theorem unlinkFile_ok (ha : s.disk.Alloc ip) (hnot : ¬ s.disk.IsDir ip) :
    ((((s.writeAt dp off Dirent.zero).putInode dp).linkDown ip).putInode ip).Ok T L D := by
  have hok := h.withoutEntry hd hlookup hdot hdotdot hnot
  have htype := writeAt_type dp off Dirent.zero s ip
  have ha1 : (s.writeAt dp off Dirent.zero).disk.Alloc ip := by
    change ((s.writeAt dp off Dirent.zero).inode ip).type ≠ .free
    rw [htype]
    exact ha
  have hnot1 : ¬ (s.writeAt dp off Dirent.zero).disk.IsDir ip := by
    change ¬ ((s.writeAt dp off Dirent.zero).inode ip).type = .dir
    rw [htype]
    exact hnot
  rw [add_right_comm] at hok
  obtain ⟨hinv2, hk⟩ := hok.inv.putInode
  have hok2 := hok.of_keeps hinv2 hk
  have href : 0 < ((s.writeAt dp off Dirent.zero).putInode dp).ref ip := by
    rw [hinv2.mem.refs, Pi.add_apply, one_self]
    omega
  have hok3 := hok2.linkDown (hk.alloc_used (by rw [Pi.add_apply, one_self]; omega) ha1)
    (fun hd => hnot1 (hk.isDir hd).1) href (by rw [putInode_valid hne]; exact hvalid)
  obtain ⟨hinv4, hk4⟩ := hok3.inv.putInode
  exact hok3.of_keeps hinv4 hk4

theorem unlinkDir_ok (hD : D ip = 0) (hx : s.disk.IsDir ip)
    (hempty : isdirempty (s.inode ip).entries = true)
    (hlast : T → ¬ 1 < s.ref ip) :
    ((((((s.writeAt dp off Dirent.zero).linkDown dp).markOrphan ip).putInode
      dp).linkDown ip).putInode ip).Ok T L D := by
  have href : 0 < s.ref ip := by
    rw [h.inv.mem.refs, Pi.add_apply, one_self]
    omega
  obtain ⟨hinv, hnd, hnx⟩ := h.inv.removed hD hd hlookup hdot hdotdot hne hx hempty href hvalid
  have hparent : ((((s.writeAt dp off Dirent.zero).linkDown dp).markOrphan
      ip).inode dp).nlink = ((s.removed dp ip off).inode dp).nlink := by
    simp [removed, markOrphan, linkDown, Fs.writeAt, setDisk, inode,
      FsDisk.setNlink, FsDisk.setEntries, FsDisk.setInode, Ne.symm hne]
  -- the parent keeps a link, so that `iput` only drops the reference
  rw [putInode_of_nlink (i := dp) (by rw [hparent]; exact hnd)]
  change (((s.removed dp ip off).setRef dp (s.ref dp - 1)).putInode ip).Ok T L D
  rw [add_right_comm] at hinv
  have hinv1 : ((s.removed dp ip off).setRef dp (s.ref dp - 1)).Inv (L + one ip) D :=
    ⟨hinv.tree, hinv.mem.dropRef (fun hkeep => hnd hkeep.2.2)⟩
  refine Ok.putLast hinv1 (fun hT => ?_) hvalid hnx (fun hT d hdi hdir => ?_)
  · have := hlast hT
    change Function.update s.ref dp (s.ref dp - 1) ip = 1
    rw [Function.update_of_ne hne]
    omega
  · change ((s.removed dp ip off).inode d).type = .dir at hdir
    change ((s.removed dp ip off).inode d).nlink ≠ 0
    by_cases hdd : d = dp
    · rw [hdd]
      exact hnd
    · rw [removed_of_ne hdd hdi] at hdir ⊢
      exact h.tidy hT d hdir

theorem unlinkEntry_ok (hD : D ip = 0) (ha : s.disk.Alloc ip) :
    Holds (unlinkEntry dp ip off) s (fun _ t => t.Calm T → t.Ok T L D) (CallErr T) := by
  refine Hoare.get_bind ?_
  rw [if_neg (one_le_nlink hd hlookup hdot hdotdot h)]
  split
  · refine Hoare.bind (iput_ok h) ?_
    rintro _ t1 ⟨_, hok1, _⟩
    exact iput_pure hok1 (fun _ hend _ => hend)
  · rename_i hnonempty
    by_cases hx : (s.inode ip).type = .dir
    · have hempty : isdirempty (s.inode ip).entries = true := by
        by_contra hfalse
        exact hnonempty ⟨hx, by simpa using hfalse⟩
      unfold uncountParent
      rw [if_pos hx]
      change Fs.Calm T _ → _
      intro hcalm
      refine unlinkDir_ok hd hlookup hdot hdotdot h hne hvalid hD hx hempty ?_
      intro hT hmany
      have ho := (hcalm.of_grows (putInode_same ip _).grows).orphaned hT
      change ((((s.writeAt dp off Dirent.zero).linkDown dp).markOrphan
        ip).putInode dp).orphaned = false at ho
      rw [(putInode_same dp _).orphaned] at ho
      simp only [markOrphan, Bool.or_eq_false_iff, decide_eq_false_iff_not] at ho
      exact ho.2 hmany
    · unfold uncountParent
      rw [if_neg hx]
      exact fun _ => unlinkFile_ok hd hlookup hdot hdotdot h hne hvalid ha hx

end Unlink

theorem sysUnlink_ok (path : Path) (h : s.Ok T L 0) (hc : 0 < s.held c) : Holds (sysUnlink c path) s
      (fun _ t => t.Calm T → t.Ok T L 0) (CallErr T) := by
  unfold sysUnlink
  split
  · exact Hoare.pure (fun _ => h)
  · refine Hoare.bind (nameiparent_ok path h hc) ?_
    rintro r t1 ⟨_, _, hfound⟩
    cases r with
    | none => exact Hoare.pure (fun _ => hfound)
    | some found =>
      obtain ⟨dp, name⟩ := found
      obtain ⟨hok1, hdir1⟩ := hfound
      refine Hoare.bind (ilock_ok hok1 (fun _ => hdir1.alloc)) ?_
      rintro _ t2 ⟨_, _, _, hok2, _⟩
      split
      · exact iput_pure hok2 (fun _ hend _ => hend)
      · rename_i hname
        push Not at hname
        refine Hoare.bind (dirlookup_ok name hok2) ?_
        rintro r t3 ⟨_, hdisk3, hdir, hfound⟩
        cases r with
        | none =>
          obtain ⟨rfl, _⟩ := hfound
          exact iput_pure hok2 (fun _ hend _ => hend)
        | some found =>
          obtain ⟨ip, off⟩ := found
          obtain ⟨hlookup, hok3, ha3⟩ := hfound
          dsimp only
          split
          · exact Hoare.throw (fun _ => ⟨by decide, by simp⟩)
          · rename_i hne
            refine Hoare.bind (ilock_ok hok3 ha3) ?_
            rintro _ t4 ⟨_, hdisk4, hvalid, hok4, ha4⟩
            have hdisk : t4.disk = t2.disk := hdisk4.trans hdisk3
            refine unlinkEntry_ok (by rw [hdisk]; exact hdir) ?_ hname.1
              hname.2 hok4 hne hvalid rfl ha4
            unfold Fs.inode
            rw [hdisk]
            exact hlookup

/-! ## `create` -/

/-- What `create` and `namei` leave: a locked inode, if there is one. -/
def Entered (T : Prop) (L : ℕ → ℕ) (r : Option ℕ) (u : Fs) : Prop :=
  u.Calm T → match r with
    | none => u.Ok T L 0
    | some i => u.Ok T (L + one i) 0 ∧ u.disk.Alloc i

theorem iget_new (href : s.ref i = 0) : Holds (iget i) s
    (fun _ t => t = (s.setRef i 1).setValid i false) (CallErr T) := by
  apply Hoare.get_bind
  rw [if_neg (by omega)]
  split
  · exact Hoare.set rfl
  · exact Hoare.throw (fun _ => ⟨by decide, by simp⟩)

theorem ilock_new (href : s.ref i = 1) (hvalid : s.valid i = false)
    (ha : s.disk.Alloc i) : ilock i s = .ok () (s.setValid i true) := by
  have htype : (s.inode i).type ≠ .free := ha
  change (if s.ref i < 1 then throw .ilock else if s.valid i = true then pure ()
    else if (s.inode i).type = .free then throw .noType
    else set (s.setValid i true) : FsM Unit) s = _
  rw [if_neg (by omega), hvalid, if_neg (by simp), if_neg htype]
  rfl

theorem ialloc_unused (type : InodeType) (hunused : ∀ k, ¬ s.disk.Alloc k → s.ref k = 0) :
    Holds (ialloc type) s (fun r t =>
        match r with
        | none => t = s
        | some i => ¬ s.disk.Alloc i ∧ s.ref i = 0 ∧ (0 < i ∧ i < s.disk.ninodes) ∧
            t = ((s.setDisk (s.disk.alloc i type)).setRef i 1).setValid i
              false)
      (CallErr T) := by
  apply Hoare.get_bind
  split
  · exact Hoare.pure rfl
  · rename_i i hfind
    have hmem := List.mem_of_find?_eq_some hfind
    have hi := List.find?_some hfind
    simp only [List.mem_range] at hmem
    simp only [decide_eq_true_eq] at hi
    have hfree : ¬ s.disk.Alloc i := fun ha => ha hi.2
    have href : (s.setDisk (s.disk.alloc i type)).ref i = 0 := hunused i hfree
    apply Hoare.modify_bind
    apply Hoare.bind (iget_new href)
    rintro _ t ht
    exact Hoare.pure ⟨hfree, hunused i hfree, ⟨hi.1, hmem⟩, ht⟩

theorem Fs.Ok.unused (h : s.Ok T L D) (hL : ∀ k, ¬ s.disk.Alloc k → L k = 0)
    (k : ℕ) (hfree : ¬ s.disk.Alloc k) : s.ref k = 0 := by
  have hheld : s.held k = 0 := by
    by_contra hpos
    exact hfree (h.inv.mem.held k (Nat.pos_of_ne_zero hpos))
  rw [h.inv.mem.refs, hheld, hL k hfree]

theorem made_eq {type : InodeType}
    (ht : t = (((s.setDisk (s.disk.alloc i type)).setRef i 1).setValid i false).setValid i true) :
    t.setDisk (t.disk.setInode i { t.inode i with major := major, minor := minor, nlink := 1 }) =
        s.made i type major minor := by
  subst ht
  simp [made, setDisk, Fs.setValid, setRef, inode, FsDisk.alloc, FsDisk.setInode]

section Create

variable {type : InodeType} (hd : s.disk.IsDir dp)
  (hnone : lookupEntry name (s.inode dp).entries 0 = none)
include hd hnone

theorem createLinks_dir (room : ℕ → Bool) (hne : dp ≠ ip) :
    Holds (createLinks dp ip name .dir room) (s.made ip .dir major minor) (fun r t =>
        if r = true then
          t = (s.madeDots dp ip major minor).withEntry dp name ip
        else Making ip s t)
      (CallErr T) := by
  have hself : (s.made ip .dir major minor).inode ip = ⟨.dir, major, minor, 1, []⟩ := made_self
  have hfirst : ((s.made ip .dir major minor).withEntry ip dot ip).inode ip =
      ⟨.dir, major, minor, 1, [⟨ip % 2 ^ 16, dot, (s.made ip .dir major minor).disk.gen ip⟩]⟩ := by
    rw [withEntry_self, hself]
    rfl
  have hparent : (s.madeDots dp ip major minor).inode dp = s.inode dp :=
    Making.madeDots.inode dp hne
  have hdot : dot ≠ dotdot := by decide
  have hdir : (s.made ip .dir major minor).disk.IsDir ip := by
    change ((s.made ip .dir major minor).inode ip).type = .dir
    rw [hself]
  have hdir1 : ((s.made ip .dir major minor).withEntry ip dot ip).disk.IsDir ip := by
    change (((s.made ip .dir major minor).withEntry ip dot ip).inode ip).type = .dir
    rw [hfirst]
  unfold createLinks
  rw [if_pos rfl]
  apply Hoare.seq (dirlink_of_none ip room hdir (by rw [hself]; rfl)) (fun _ _ hf => hf.elim)
  intro b t1 ht1
  cases b with
  | false =>
    rw [ht1]
    exact Hoare.pure Making.made
  | true =>
    rw [ht1]
    apply Hoare.seq (dirlink_of_none dp room hdir1
      (by rw [hfirst]; simp [lookupEntry, Ne.symm hdot]))
      (fun _ _ hf => hf.elim)
    intro b t2 ht2
    cases b with
    | false =>
      rw [ht2]
      exact Hoare.pure (Making.made.withEntry dot ip)
    | true =>
      rw [ht2]
      apply Hoare.mono (dirlink_of_none ip room (hd.of_inode hparent)
        (by rw [hparent]; exact hnone)) _ (fun _ _ hf => hf.elim)
      intro b t ht
      cases b with
      | false =>
        rw [ht]
        exact Making.madeDots
      | true => exact ht

theorem createLinks_file (room : ℕ → Bool) (hne : dp ≠ ip) (hnot : type ≠ .dir) :
    Holds (createLinks dp ip name type room) (s.made ip type major minor) (fun r t =>
        if r = true then
          t = (s.made ip type major minor).withEntry dp name ip
        else Making ip s t)
      (CallErr T) := by
  have hparent : (s.made ip type major minor).inode dp = s.inode dp := made_of_ne hne
  unfold createLinks
  rw [if_neg hnot]
  apply Hoare.mono (dirlink_of_none ip room (hd.of_inode hparent)
    (by rw [hparent]; exact hnone)) _ (fun _ _ hf => hf.elim)
  intro b t ht
  cases b with
  | false =>
    rw [ht]
    exact Making.made
  | true => exact ht

theorem createLinks_made (room : ℕ → Bool) (hne : dp ≠ ip) :
    Holds (createLinks dp ip name type room) (s.made ip type major minor) (fun r t =>
        if r = true then t = if type = .dir then
            (s.madeDots dp ip major minor).withEntry dp name ip
          else (s.made ip type major minor).withEntry dp name ip
        else Making ip s t)
      (CallErr T) := by
  by_cases hdir : type = .dir
  · rw [if_pos hdir, hdir]
    exact createLinks_dir hd hnone room hne
  · rw [if_neg hdir]
    exact createLinks_file hd hnone room hne hdir

omit hd hnone in
theorem createInode_made {room : ℕ → Bool} (htype : type ≠ .free)
    (ht : t = ((s.setDisk (s.disk.alloc ip type)).setRef ip 1).setValid ip false)
    {Q : Option ℕ → Fs → Prop} {E : FsStop → Fs → Prop} (hrest : Holds (do
      if ← createLinks dp ip name type room then do
        countParent dp type
        iput dp
        pure (some ip)
      else do
        modify fun s => s.setDisk (s.disk.setNlink ip 0)
        iput ip
        iput dp
        pure none) (s.made ip type major minor) Q E) :
    Holds (createInode dp ip name type major minor room) t Q E := by
  have href : t.ref ip = 1 := by
    rw [ht]
    simp [Fs.setValid, setRef]
  have hvalid : t.valid ip = false := by
    rw [ht]
    simp [Fs.setValid]
  have halloc : t.disk.Alloc ip := by
    rw [ht]
    simpa [Fs.setValid, setRef, setDisk, FsDisk.alloc, FsDisk.setInode, FsDisk.Alloc] using htype
  refine Hoare.bind_ok (ilock_new href hvalid halloc) ?_
  apply Hoare.modify_bind
  rw [made_eq (by rw [ht])]
  exact hrest

variable (h : s.Ok T (L + one dp) 0) (hfree : ¬ s.disk.Alloc ip) (hzero : s.ref ip = 0)
  (hip : 0 < ip ∧ ip < s.disk.ninodes) (htype : type ≠ .free)
include h hfree hzero hip htype

theorem createCount_ok (ht : t = if type = .dir then
      (s.madeDots dp ip major minor).withEntry dp name ip
      else (s.made ip type major minor).withEntry dp name ip) :
    Holds (countParent dp type) t
      (fun _ u => u.Calm T → u.Ok T (L + one dp + one ip) 0 ∧ u.disk.Alloc ip)
      (CallErr T) := by
  have hne : dp ≠ ip := by
    rintro rfl
    exact hfree hd.alloc
  unfold countParent
  by_cases hdir : type = .dir
  · rw [if_pos hdir]
    rw [if_pos hdir] at ht
    have hparent : (s.madeDots dp ip major minor).inode dp = s.inode dp :=
      Making.madeDots.inode dp hne
    have hnlink : (t.inode dp).nlink = (s.inode dp).nlink := by
      rw [ht, withEntry_self, hparent]
    apply Hoare.modify
    intro hcalm
    have hmax : (s.inode dp).nlink ≠ 32767 := by
      have hw := hcalm.wrapped
      simp only [linkUp, Bool.or_eq_false_iff, decide_eq_false_iff_not] at hw
      rw [← hnlink]
      exact hw.2
    have hpos : ¬ T → 0 < (s.inode dp).nlink := by
      have hcalm' := hcalm.of_grows (linkUp_grows dp t)
      rw [ht] at hcalm'
      rw [← hparent]
      exact hcalm'.writeAt
    have hu : t.linkUp dp = s.madeDir dp ip name major minor := by
      rw [ht]
      rfl
    have hok : (s.madeDir dp ip name major minor).Ok T (L + one dp + one ip)
        0 := h.madeDir (h.linked hd hpos) hnone hfree hzero hip rfl hmax
    have hsize := h.inv.tree.size
    have hbound := h.inv.tree.bound dp hd.alloc
    have hself : (s.madeDir dp ip name major minor).inode ip = _ :=
      madeDir_self ⟨hip.1, by omega⟩ (by omega) hne
    rw [hu]
    constructor
    · exact hok
    · change ((s.madeDir dp ip name major minor).inode ip).type ≠ .free
      rw [hself]
      simp
  · rw [if_neg hdir]
    rw [if_neg hdir] at ht
    have hparent : (s.made ip type major minor).inode dp = s.inode dp := made_of_ne hne
    have hok : (s.made ip type major minor).Ok T (L + one dp + one ip)
        (0 + one ip) := h.made hfree hzero hip rfl htype hdir
    have hself : (s.made ip type major minor).disk.inode ip =
        ⟨type, major, minor, 1, []⟩ := made_self
    have halloc : (s.made ip type major minor).disk.Alloc ip := by
      unfold FsDisk.Alloc
      rw [hself]
      exact htype
    have hnot : ¬ (s.made ip type major minor).disk.IsDir ip := by
      unfold FsDisk.IsDir
      rw [hself]
      exact hdir
    apply Hoare.pure
    intro hcalm
    rw [ht] at hcalm ⊢
    constructor
    · exact hok.withEntry (hok.linked (hd.of_inode hparent) hcalm.writeAt)
        (by rw [hparent]; exact hnone) halloc hnot
    · change (((s.made ip type major minor).withEntry dp name ip).inode ip).type ≠ .free
      rw [withEntry_of_ne (Ne.symm hne)]
      exact halloc

theorem createInode_ok (major minor : Int16) (room : ℕ → Bool)
    (ht : t = ((s.setDisk (s.disk.alloc ip type)).setRef ip 1).setValid ip false) :
    Holds (createInode dp ip name type major minor room) t (Entered T L) (CallErr T) := by
  have hne : dp ≠ ip := by
    rintro rfl
    exact hfree hd.alloc
  refine createInode_made htype ht ?_
  apply Hoare.bind (createLinks_made hd hnone room hne)
  intro b t2 ht2
  cases b with
  | true =>
    apply Hoare.bind (createCount_ok hd hnone h hfree hzero hip htype ht2)
    intro _ t3 hok
    apply Hoare.seq (iput_spec (L := L + one ip) (D := 0) dp) (by simp)
    rintro _ t4 ⟨hsame, hinv⟩
    apply Hoare.pure
    intro hcalm
    obtain ⟨hok3, ha3⟩ := hok (hcalm.of_grows hsame.grows)
    have hinv3 := hok3.inv
    rw [add_right_comm] at hinv3
    obtain ⟨hend, hkeeps⟩ := hinv hinv3
    refine ⟨hok3.of_keeps hend hkeeps, hkeeps.alloc_used ?_ ha3⟩
    rw [Pi.add_apply, one_self]
    omega
  | false =>
    apply Hoare.modify_bind
    apply Hoare.modify_bind
    exact iput_pure (h.unmade (ht2.unmake hzero) hfree hzero) (fun _ hend _ => hend)

end Create

theorem createNew_ok {type : InodeType}
    (major minor : Int16) (room : ℕ → Bool) (h : s.Ok T (0 + one dp) 0) (hd : s.disk.IsDir dp)
    (hnone : lookupEntry name (s.inode dp).entries 0 = none) (htype : type ≠ .free) :
    Holds (createNew dp name type major minor room) s (Entered T 0) (CallErr T) := by
  have hL : ∀ k, ¬ s.disk.Alloc k → (0 + one dp) k = 0 := by
    intro k hk
    rw [Pi.add_apply, one_of_ne]
    · rfl
    · rintro rfl
      exact hk hd.alloc
  apply Hoare.bind (ialloc_unused type (h.unused hL))
  intro r t ht
  cases r with
  | none =>
    rw [ht]
    exact iput_pure h (fun _ hend _ => hend)
  | some ip =>
    obtain ⟨hfree, hzero, hip, ht⟩ := ht
    exact createInode_ok hd hnone h hfree hzero hip htype major minor room ht

theorem create_ok (path : Path) {type : InodeType} (major minor : Int16)
    (room : ℕ → Bool) (h : s.Ok T 0 0) (hc : 0 < s.held c) (htype : type ≠ .free) :
    Holds (create c path type major minor room) s (Entered T 0) (CallErr T) := by
  apply Hoare.bind (nameiparent_ok path h hc)
  rintro r t1 ⟨_, _, hfound⟩
  cases r with
  | none => exact Hoare.pure (fun _ => hfound)
  | some found =>
    obtain ⟨dp, name⟩ := found
    obtain ⟨hok1, hdir1⟩ := hfound
    apply Hoare.bind (ilock_ok hok1 (fun _ => hdir1.alloc))
    rintro _ t2 ⟨_, _, _, hok2, _⟩
    apply Hoare.bind (dirlookup_ok name hok2)
    rintro r t3 ⟨_, _, hdir, hfound⟩
    cases r with
    | none =>
      obtain ⟨rfl, hnone⟩ := hfound
      exact createNew_ok major minor room hok2 hdir hnone htype
    | some found =>
      obtain ⟨ip, off⟩ := found
      obtain ⟨_, hok3, ha3⟩ := hfound
      rw [add_right_comm] at hok3
      apply Hoare.bind (iput_ok hok3)
      rintro _ t4 ⟨_, hok4, hk4⟩
      have ha4 : T → t4.disk.Alloc ip := by
        intro hT
        apply hk4.alloc_used _ (ha3 hT)
        rw [Pi.add_apply, one_self]
        omega
      apply Hoare.bind (ilock_ok hok4 ha4)
      rintro _ t5 ⟨_, _, _, hok5, ha5⟩
      apply Hoare.get_bind
      split
      · exact Hoare.pure (fun _ => ⟨hok5, ha5⟩)
      · exact iput_pure hok5 (fun _ hend _ => hend)

/-! ## The other calls -/

theorem openExisting_ok (path : Path) (omode : ℕ) (h : s.Ok T 0 0) (hc : 0 < s.held c) :
    Holds (openExisting c path omode) s (Entered T 0) (CallErr T) := by
  apply Hoare.bind (namei_ok path h hc)
  rintro r t1 ⟨_, hfound⟩
  cases r with
  | none => exact Hoare.pure (fun _ => hfound)
  | some ip =>
    obtain ⟨hok1, ha1⟩ := hfound
    apply Hoare.bind (ilock_ok hok1 ha1)
    rintro _ t2 ⟨_, _, _, hok2, ha2⟩
    apply Hoare.get_bind
    split
    · exact iput_pure hok2 (fun _ hend _ => hend)
    · exact Hoare.pure (fun _ => ⟨hok2, ha2⟩)

theorem iput_calm {α : Type} {a : α} (h : s.Calm T → s.Ok T (L + one i) D) :
    Holds (do iput i; pure a) s (fun _ t => t.Calm T → t.Ok T L D) (CallErr T) := by
  apply Hoare.seq (iput_spec (L := L) (D := D) i) (fun _ _ hf => hf.elim)
  rintro _ t ⟨hsame, hinv⟩
  refine Hoare.pure fun hcalm => ?_
  have hok := h (hcalm.of_grows hsame.grows)
  obtain ⟨hend, hkeeps⟩ := hinv hok.inv
  exact hok.of_keeps hend hkeeps

theorem sysOpen_ok (path : Path)
    (omode : ℕ) (fd : Option ℕ) (room : ℕ → Bool) (h : s.Ok T 0 0) (hc : 0 < s.held c) :
    Holds (sysOpen c path omode fd room) s (fun _ t => t.Calm T → t.Ok T 0 0) (CallErr T) := by
  unfold sysOpen
  split
  · exact Hoare.pure (fun _ => h)
  · have hopen : Holds (if omode &&& 0x200 ≠ 0 then create c path .file 0 0 room
        else openExisting c path omode) s
        (Entered T 0) (CallErr T) := by
      split
      · exact create_ok path 0 0 room h hc (by decide)
      · exact openExisting_ok path omode h hc
    apply Hoare.bind hopen
    intro r t hok
    cases r with
    | none => exact Hoare.pure hok
    | some ip =>
      apply Hoare.get_bind
      split
      · exact iput_calm (fun hcalm => (hok hcalm).1)
      · cases fd with
        | none =>
          exact iput_calm (fun hcalm => (hok hcalm).1)
        | some n =>
          apply Hoare.modify_bind
          apply Hoare.pure
          intro hcalm
          obtain ⟨hok, ha⟩ := hok ⟨hcalm.wrapped, hcalm.orphaned, hcalm.strayed⟩
          exact hok.of_mem rfl (hok.inv.mem.openFile ha)

theorem sysMkdir_ok (path : Path) (room : ℕ → Bool) (h : s.Ok T 0 0) (hc : 0 < s.held c) :
    Holds (sysMkdir c path room) s (fun _ t => t.Calm T → t.Ok T 0 0) (CallErr T) := by
  unfold sysMkdir
  split
  · exact Hoare.pure (fun _ => h)
  · apply Hoare.bind (create_ok path 0 0 room h hc (by decide))
    intro r t hok
    cases r with
    | none => exact Hoare.pure hok
    | some ip =>
      exact iput_calm (fun hcalm => (hok hcalm).1)

theorem sysMknod_ok
    (path : Path) (major minor : Int16) (room : ℕ → Bool) (h : s.Ok T 0 0) (hc : 0 < s.held c) :
    Holds (sysMknod c path major minor room) s (fun _ t => t.Calm T → t.Ok T 0 0) (CallErr T) := by
  unfold sysMknod
  split
  · exact Hoare.pure (fun _ => h)
  · apply Hoare.bind (create_ok path major minor room h hc (by decide))
    intro r t hok
    cases r with
    | none => exact Hoare.pure hok
    | some ip =>
      exact iput_calm (fun hcalm => (hok hcalm).1)

theorem sysChdir_ok (path : Path) (h : s.Ok T 0 0) (hp : s.cwd p = some c) (hc : 0 < s.held c) :
    Holds (sysChdir p c path) s (fun _ t => t.Calm T → t.Ok T 0 0) (CallErr T) := by
  unfold sysChdir
  split
  · exact Hoare.pure (fun _ => h)
  · apply Hoare.bind (namei_ok path h hc)
    rintro r t1 ⟨hsame1, hfound⟩
    cases r with
    | none => exact Hoare.pure (fun _ => hfound)
    | some ip =>
      obtain ⟨hok1, ha1⟩ := hfound
      apply Hoare.bind (ilock_ok hok1 ha1)
      rintro _ t2 ⟨hsame2, _, _, hok2, ha2⟩
      apply Hoare.get_bind
      split
      · exact iput_pure hok2 (fun _ hend _ => hend)
      · have hcwd : t2.cwd p = some c := by
          rw [hsame2.cwd, hsame1.cwd]
          exact hp
        have hok := hok2.of_mem (t := t2.setCwd p (some ip)) rfl (hok2.inv.mem.setCwd hcwd ha2)
        obtain ⟨hinv, hkeeps⟩ := hok.inv.putInode
        apply Hoare.modify_bind
        apply Hoare.modify_bind
        apply Hoare.pure
        intro _
        change ((t2.putInode c).setCwd p (some ip)).Ok T 0 0
        rw [← putInode_setCwd]
        exact hok.of_keeps hinv hkeeps

theorem closeFile_ok (h : s.Ok T 0 0) (hi : i ∈ s.files) :
    Holds (closeFile i) s (fun _ t => t.Calm T → t.Ok T 0 0) (CallErr T) := by
  have hok : Ok T { s with files := s.files.erase i } (0 + one i) 0 :=
    h.of_mem rfl (h.inv.mem.closeFile hi)
  apply Hoare.modify_bind
  exact iput_pure hok (fun _ hend _ => hend)

theorem exitCwd_ok (h : s.Ok T 0 0) (hp : s.cwd p = some c) : Holds (exitCwd p c) s
      (fun _ t => t.Calm T → t.Ok T 0 0) (CallErr T) := by
  have hok := h.of_mem (t := s.setCwd p none) rfl (h.inv.mem.dropCwd hp)
  obtain ⟨hinv, hkeeps⟩ := hok.inv.putInode
  apply Hoare.modify_bind
  apply Hoare.modify_bind
  apply Hoare.pure
  intro _
  change ((s.putInode c).setCwd p none).Ok T 0 0
  rw [← putInode_setCwd]
  exact hok.of_keeps hinv hkeeps

theorem forkCwd_ok {np : Slot} (h : s.Ok T 0 0) (hc : 0 < s.held c) (hnp : s.cwd np = none) :
    Holds (forkCwd np c) s (fun _ t => t.Calm T → t.Ok T 0 0) (CallErr T) := by
  have href : 0 < s.ref c := by
    rw [h.inv.mem.refs]
    omega
  have hadd : (s.setRef c (s.ref c + 1)).Ok T (0 + one c) 0 :=
    h.of_keeps (M := 0) ⟨h.inv.tree, h.inv.mem.addRef href⟩ (Keeps.of_disk rfl)
  apply Hoare.modify_bind
  apply Hoare.modify_bind
  apply Hoare.pure
  intro _
  exact hadd.of_mem rfl (hadd.inv.mem.newCwd hnp (h.inv.mem.held c hc))

/-! ## Steps and runs -/

theorem held_pos (hp : s.cwd p = some c) : 0 < s.held c := by
  have hle := Finset.single_le_sum (s := Finset.univ)
    (f := fun q => if s.cwd q = some c then 1 else 0) (fun _ _ => Nat.zero_le _) (Finset.mem_univ p)
  simp only [hp, if_true] at hle
  unfold held
  omega

theorem call_ok {call : FsCall} {x : FsM ℤ} (h : s.Ok T 0 0)
    (hp : s.cwd p = some c) (hcall : s.call p c call = some x) :
    Holds x s (fun _ t => t.Calm T → t.Ok T 0 0) (CallErr T) := by
  have hc := held_pos hp
  cases call with
  | «open» path omode fd room =>
    cases hcall
    exact sysOpen_ok path omode fd room h hc
  | mkdir path room =>
    cases hcall
    exact sysMkdir_ok path room h hc
  | mknod path major minor room =>
    cases hcall
    exact sysMknod_ok path major minor room h hc
  | link old new room =>
    cases hcall
    exact sysLink_ok old new room h hc
  | unlink path =>
    cases hcall
    exact sysUnlink_ok path h hc
  | chdir path =>
    cases hcall
    exact sysChdir_ok path h hp hc
  | close i =>
    simp only [Fs.call, ite_eq_some] at hcall
    obtain ⟨hi, rfl⟩ := hcall
    exact closeFile_ok h hi
  | exit =>
    simp only [Fs.call, Option.ite_none_left_eq_some, Option.some.injEq] at hcall
    obtain ⟨_, rfl⟩ := hcall
    exact exitCwd_ok h hp
  | fork np =>
    simp only [Fs.call, ite_eq_some] at hcall
    obtain ⟨hnp, rfl⟩ := hcall
    exact forkCwd_ok h hc hnp

/-- What holds between calls, and how a run can stop. -/
structure Good (T : Prop) (s : Fs) : Prop where
  ok : s.stopped = none → s.Ok T 0 0
  stop : ∀ e, s.stopped = some e → e ≠ .unlinkNlink ∧ (e = .noType → ¬ T)

theorem step_good {l : Slot × FsCall} (h : s.Calm T → Good T s)
    (hstep : Fs.step l s = some t) (hcalm : t.Calm T) : Good T t := by
  obtain ⟨p, call⟩ := l
  unfold Fs.step at hstep
  split at hstep
  · contradiction
  · rename_i hrunning
    simp only [ne_eq, not_not] at hrunning
    split at hstep
    · contradiction
    · rename_i c hp
      split at hstep
      · contradiction
      · rename_i x hx
        split at hstep
        · rename_i r u hu
          simp only [Option.some.injEq] at hstep
          subst hstep
          have hgrow : s.Grows u := Hoare.of_ok (Q := fun _ t => s.Grows t) (call_growing hx s) hu
          have hok := (h (hcalm.of_grows hgrow)).ok hrunning
          constructor
          · intro _
            exact Hoare.of_ok (call_ok hok hp hx) hu hcalm
          · intro e he
            rw [hgrow.stopped, hrunning] at he
            contradiction
        · rename_i e u hu
          simp only [Option.some.injEq] at hstep
          subst hstep
          have hcalm' : u.Calm T := ⟨hcalm.wrapped, hcalm.orphaned, hcalm.strayed⟩
          have hgrow : s.Grows u :=
            Hoare.of_error (E := fun _ t => s.Grows t) (call_growing hx s) hu
          have hok := (h (hcalm'.of_grows hgrow)).ok hrunning
          constructor
          · intro hnone
            simp at hnone
          · intro e' he'
            simp only [Option.some.injEq] at he'
            subst he'
            exact Hoare.of_error (call_ok hok hp hx) hu hcalm.wrapped

/-- An image with a directory tree, in which everything that is allocated has
a link. -/
structure FsDisk.WellFormed (img : FsDisk) : Prop where
  tree : img.Tree 0
  linked : ∀ i, img.Alloc i → (img.inode i).nlink ≠ 0

def rootImage (ninodes : ℕ) : FsDisk where
  ninodes := ninodes
  inode := Function.update (fun _ => ⟨.free, 0, 0, 0, []⟩) rootIno
    ⟨.dir, 0, 0, 1, [⟨rootIno, dot, 0⟩, ⟨rootIno, dotdot, 0⟩]⟩
  gen := fun _ => 0

theorem rootImage_wellFormed {n : ℕ} (hroot : rootIno < n)
    (hsize : n ≤ 2 ^ 16) : (rootImage n).WellFormed := by
  have hself : (rootImage n).inode rootIno =
      ⟨.dir, 0, 0, 1, [⟨rootIno, dot, 0⟩, ⟨rootIno, dotdot, 0⟩]⟩ := by
    simp [rootImage]
  have halloc : ∀ i, (rootImage n).Alloc i → i = rootIno := by
    intro i hi
    by_contra hne
    simp [FsDisk.Alloc, rootImage, hne] at hi
  have hdir : (rootImage n).IsDir rootIno := by
    unfold FsDisk.IsDir
    rw [hself]
  have hone : (1 : Int16) ≠ 0 := by decide
  have hlinked : (rootImage n).Linked rootIno := by
    refine ⟨hdir, ?_⟩
    rw [hself]
    exact hone
  have hup : (rootImage n).upEntry rootIno = ⟨rootIno, dotdot, 0⟩ := by
    unfold FsDisk.upEntry
    rw [hself]
    rfl
  have hmem : rootIno ∈ Finset.range (rootImage n).ninodes := Finset.mem_range.mpr hroot
  have hnaming : (rootImage n).naming rootIno = 1 := by
    unfold FsDisk.naming
    rw [Finset.sum_eq_single_of_mem rootIno hmem]
    · rw [Inode.naming_dir hdir, hself]
      decide
    · intro d _ hd
      apply Inode.naming_of_ne
      simp [rootImage, hd]
  constructor
  · refine ⟨hsize, ?_, ⟨hlinked, by rw [FsDisk.up, hup]⟩, ?_, ?_, ?_, ?_, ?_, ?_⟩
    · intro i hi
      rw [halloc i hi]
      exact ⟨by decide, hroot⟩
    · intro d hd
      rw [halloc d hd.alloc, hself]
      exact ⟨_, [], rfl, rfl, by simp⟩
    · intro d hd e he hreal
      rw [halloc d hd.alloc, hself] at he
      simp only [List.mem_cons, List.not_mem_nil, or_false] at he
      rcases he with rfl | rfl
      · exact absurd rfl hreal.1
      · exact absurd rfl hreal.2
    · intro d hd
      rw [halloc d hd.alloc, FsDisk.up, hup]
      exact ⟨hlinked, rfl⟩
    · intro d hd hne
      exact absurd (halloc d hd.alloc) hne
    · intro i hi
      rw [halloc i hi, hself, hnaming]
      rfl
    · intro d hd
      rw [halloc d hd.alloc]
      exact .root
  · intro i hi
    rw [halloc i hi, hself]
    exact hone

theorem fsinit_ok {img : FsDisk} (h : img.WellFormed) : (fsinit img).Ok T 0 0 := by
  have hheld : ∀ i, (fsinit img).held i = if i = rootIno then 1 else 0 := by
    intro i
    have hsum : ∑ p, (if (fsinit img).cwd p = some i then 1 else 0) =
        if i = rootIno then 1 else 0 := by
      rw [Finset.sum_eq_single_of_mem initproc (Finset.mem_univ _)]
      · simp [fsinit, eq_comm]
      · intro p _ hp
        simp [fsinit, hp]
    unfold held
    rw [hsum]
    simp [fsinit]
  have href : ∀ i, (fsinit img).ref i = if i = rootIno then 1 else 0 := by
    intro i
    by_cases hi : i = rootIno <;> simp [fsinit, hi]
  refine ⟨⟨h.tree, ?_, ?_, ?_, ?_, ?_⟩, ?_⟩
  · intro i
    rw [href, hheld]
    rfl
  · intro i hi
    rw [hheld] at hi
    split at hi
    · rename_i hroot
      rw [hroot]
      exact h.tree.root.1.alloc
    · omega
  · intro i ha hz
    exact absurd hz (h.linked i ha)
  · intro i _ hv
    exact absurd hv (by simp [fsinit])
  · intro i _ _ ha
    exact h.linked i ha
  · intro _ d hd
    exact h.linked d hd.alloc

theorem run_good {img : FsDisk} (h : img.WellFormed) {ls : List (Slot × FsCall)}
    (hrun : Machine.run Fs.step ls (fsinit img) = some t) (hcalm : t.Calm T) : Good T t := by
  refine Machine.run_invariant (I := fun s => s.Calm T → Good T s) ?_ ?_ hrun hcalm
  · intro l s s' hs hstep
    exact step_good hs hstep
  · intro _
    exact ⟨fun _ => fsinit_ok h, by simp [fsinit]⟩

end Xv6
