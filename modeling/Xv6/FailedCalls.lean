import Xv6.PathLookup
import Xv6.LinkCounts

/-!
# Calls that fail

`sys_link`, `sys_unlink`, `sys_mkdir` and `sys_mknod` undo what they have done
when they return -1.  This depends on link counts: an inode that has a name but
no link, which is what 65536 links lead to, is freed by the very call that
fails.
-/

namespace Xv6

open Fs Hoare
open FsDisk Hoare

/-- What can be seen of the file system is the same. -/
structure Fs.Unchanged (s t : Fs) : Prop where
  alloc : ∀ i, t.disk.Alloc i ↔ s.disk.Alloc i
  inode : ∀ i, s.disk.Alloc i → t.inode i = s.inode i
  ref : t.ref = s.ref
  files : t.files = s.files

/-- Names lead to inodes with links or in use, and nobody uses a free inode. -/
structure Fs.Sound (s : Fs) : Prop where
  linked : s.Linked
  unused : ∀ i, ¬s.disk.Alloc i → s.ref i = 0

section

variable {s t b : Fs} {L : ℕ → ℕ} {c ip dp : ℕ}

theorem Fs.Inv.sound {D : ℕ → ℕ} (h : s.Inv 0 D) : s.Sound := by
  refine ⟨h.linked, fun i hfree => ?_⟩
  rw [h.mem.refs i, Pi.zero_apply, add_zero]
  by_contra hpos
  exact hfree (h.mem.held i (Nat.pos_of_ne_zero hpos))

theorem Fs.Taken.unchanged (h : s.Taken 0 t) : s.Unchanged t := by
  refine ⟨fun i => ?_, fun i _ => h.inode i, ?_, h.files⟩
  · rw [h.disk]
  · rw [h.ref, add_zero]

variable {i k : ℕ}

theorem FsDisk.resolve_notAlloc {d : FsDisk} (h : ¬d.Alloc i) (name : Name)
    (rest : List Name) : d.resolve i (name :: rest) = none := by
  refine resolve_notDir fun hdir => h fun hfree => ?_
  rw [hdir] at hfree
  contradiction

theorem Fs.Unchanged.resolve (h : s.Unchanged t) (i : ℕ)
    (names : List Name) : t.disk.resolve i names = s.disk.resolve i names := by
  induction names generalizing i with
  | nil => rfl
  | cons name rest ih =>
    by_cases halloc : s.disk.Alloc i
    · have hinode : t.disk.inode i = s.disk.inode i := h.inode i halloc
      rw [FsDisk.resolve, FsDisk.resolve, hinode]
      simp only [ih]
    · rw [FsDisk.resolve_notAlloc halloc, FsDisk.resolve_notAlloc (mt (h.alloc i).mp halloc)]

theorem namei_taken (hs : s.Linked) (hc : 0 < s.ref c) (path : Path) : Holds (namei c path) s
      (fun r u => match r with
        | none => s.Taken 0 u
        | some i => s.Taken (one i) u ∧
            s.disk.resolve (startInode c path) (pathElems path) = some i)
      (fun _ _ => True) := by
  unfold namei
  refine Hoare.seq (namex_resolve hs hc path false) (fun _ _ _ => True.intro) ?_
  rintro r u ⟨hr, hu⟩
  cases r with
  | none => exact Hoare.pure hu
  | some found =>
    obtain ⟨i, hi, rfl⟩ := Option.map_eq_some_iff.mp hr.symm
    exact Hoare.pure ⟨hu, hi⟩

theorem nameiparent_taken (hs : s.Linked) (hc : 0 < s.ref c) (path : Path) :
    Holds (nameiparent c path) s (fun r u => match r with
        | none => s.Taken 0 u
        | some (d, name) => s.Taken (one d) u ∧
            s.disk.resolveParent (startInode c path) (pathElems path) = some (d, name))
      (fun _ _ => True) := by
  refine Hoare.mono (namex_resolve hs hc path true) ?_ (fun _ _ _ => True.intro)
  rintro r u ⟨hr, hu⟩
  cases r with
  | none => exact hu
  | some found => exact ⟨hu, hr.symm⟩

/-! ## `sys_link` -/

theorem dirlink_failed (hb : b.Linked)
    (h : b.Taken L t) (hdir : b.disk.IsDir dp) (name : Name) (i : ℕ) (room : ℕ → Bool) :
    Holds (dirlink dp name i room) t (fun r u => r = false → b.Taken L u) (fun _ _ => True) := by
  refine Hoare.seq (dirlookup_taken hb h hdir name) (fun _ _ _ => True.intro) ?_
  rintro r t1 hr
  cases r with
  | some found =>
    refine Hoare.seq (iput_taken hr.2) (fun _ _ h => h.elim) ?_
    exact fun _ u hu => Hoare.pure fun _ => hu
  | none =>
    refine get_bind ?_
    dsimp only
    split
    · exact Hoare.pure fun _ => hr.2
    · exact modify_bind (Hoare.pure fun h => Bool.noConfusion h)

theorem Fs.linkUp_inode (s : Fs) (hk : k ≠ i) : (s.linkUp i).inode k = s.inode k := by
  simp [linkUp, setDisk, Fs.inode, setNlink, setInode, hk]

theorem Fs.linkUp_self (i : ℕ) (s : Fs) : (s.linkUp i).inode i =
      { s.inode i with nlink := (s.inode i).nlink + 1 } := by
  simp [linkUp, setDisk, Fs.inode, setNlink, setInode]

theorem Fs.linkDown_of_linkUp {u : Fs} (hu : u.disk = (s.linkUp i).disk) :
    (u.linkDown i).disk = s.disk := by
  have hinode : u.inode i = (s.linkUp i).inode i := by rw [Fs.inode, hu]; rfl
  change u.disk.setNlink i ((u.inode i).nlink - 1) = s.disk
  rw [hinode, linkUp_self, hu]
  simp [linkUp, setDisk, Fs.inode, setNlink, setInode]

theorem Fs.linkUp_type (i k : ℕ) (s : Fs) : ((s.linkUp i).inode k).type = (s.inode k).type ∧
      ((s.linkUp i).inode k).entries = (s.inode k).entries := by
  by_cases hk : k = i
  · rw [hk, linkUp_self]
    exact ⟨rfl, rfl⟩
  · rw [linkUp_inode s hk]
    exact ⟨rfl, rfl⟩

theorem Fs.Linked.linkUp (hs : s.Linked) (h : s.Taken (one ip) t) : (t.linkUp ip).Linked := by
  have hstays : ∀ k, s.Stays k → ((t.linkUp ip).inode k).nlink ≠ 0 ∨ 0 < (t.linkUp ip).ref k := by
    intro k hk
    have href : (t.linkUp ip).ref k = s.ref k + one ip k := congrFun h.ref k
    by_cases hki : k = ip
    · subst hki
      right
      rw [href, one_self]
      omega
    · rw [linkUp_inode t hki, h.inode, href, one_of_ne hki]
      exact hk
  refine ⟨hstays rootIno hs.root, ?_⟩
  intro d hd name i off hentry halloc
  have htype : ∀ k, ((t.linkUp ip).inode k).type = (s.inode k).type := by
    intro k
    rw [(linkUp_type ip k t).1, h.inode]
  rw [(linkUp_type ip d t).2, h.inode] at hentry
  refine hstays i (hs.entry d ?_ name i off hentry ?_)
  · exact (htype d).symm.trans hd
  · exact fun hfree => halloc ((htype i).trans hfree)

theorem ilock_frame (i : ℕ) : Holds (ilock i) t
    (fun _ u => u.disk = t.disk ∧ u.ref = t.ref ∧ u.files = t.files) (fun _ _ => True) := by
  unfold ilock
  refine get_bind ?_
  split
  · exact Hoare.throw True.intro
  split
  · exact Hoare.pure ⟨rfl, rfl, rfl⟩
  split
  · exact Hoare.throw True.intro
  · exact Hoare.set ⟨rfl, rfl, rfl⟩

theorem linkBad_back (h : s.Taken (one ip) t) (hused : s.ref ip = 0 → s.disk.Alloc ip) {u : Fs}
    (hu : (t.linkUp ip).Taken 0 u) :
    Holds (linkBad ip) u (fun _ v => s.Taken 0 v) (fun _ _ => True) := by
  refine Hoare.bind (ilock_frame ip) ?_
  rintro _ u1 ⟨hdisk, href, hfiles⟩
  refine modify_bind ?_
  have hback : s.Taken (0 + one ip) (u1.linkDown ip) := by
    rw [zero_add]
    refine ⟨?_, ?_, ?_, ?_, h.stays⟩
    · exact (linkDown_of_linkUp (hdisk.trans hu.disk)).trans h.disk
    · exact href.trans (hu.ref.trans ((add_zero _).trans h.ref))
    · exact hfiles.trans (hu.files.trans h.files)
    · intro k hk hzero _
      obtain rfl : k = ip := by
        by_contra hne
        rw [one_of_ne hne] at hk
        omega
      exact hused hzero
  refine Hoare.seq (iput_taken hback) (fun _ _ h => h.elim) ?_
  exact fun _ v hv => Hoare.pure hv

theorem iput_back (h : s.Taken (one i) t) :
    Holds (iput i) t (fun _ u => s.Taken 0 u) (fun _ _ => True) :=
  Hoare.mono (iput_taken (L := 0) (by rwa [zero_add])) (fun _ _ h => h)
    (fun _ _ h => h.elim)

theorem linkNew_failed (hs : s.Linked) (hc : 0 < s.ref c) (h : s.Taken (one ip) t)
    (hused : s.ref ip = 0 → s.disk.Alloc ip) (new : Path) (room : ℕ → Bool) : Holds
    (linkNew c ip new room) (t.linkUp ip) (fun r u => r = -1 → s.Taken 0 u) (fun _ _ => True) := by
  have hs' := hs.linkUp h
  have hc' : 0 < (t.linkUp ip).ref c := by
    have href : (t.linkUp ip).ref c = s.ref c + one ip c := congrFun h.ref c
    omega
  refine Hoare.bind (nameiparent_taken hs' hc' new) ?_
  rintro r t1 h1
  cases r with
  | none =>
    exact Hoare.mono (linkBad_back h hused h1) (fun _ _ h _ => h) (fun _ _ h => h)
  | some found =>
    obtain ⟨dp, name⟩ := found
    obtain ⟨h1, hparent⟩ := h1
    obtain ⟨hdir, -⟩ := resolve_of_parent hparent
    refine Hoare.seq (ilock_taken h1 (by simp)) (fun _ _ _ => True.intro) ?_
    rintro _ t2 ⟨h2, -⟩
    refine Hoare.bind (dirlink_failed hs' h2 hdir name ip room) ?_
    rintro b t3 h3
    cases b with
    | true =>
      refine Hoare.bind (trivial _ _) fun _ t4 _ => ?_
      refine Hoare.bind (trivial _ _) fun _ t5 _ => ?_
      exact Hoare.pure fun h => absurd h (by decide)
    | false =>
      refine Hoare.bind (iput_back (h3 rfl)) ?_
      rintro _ t4 h4
      exact Hoare.mono (linkBad_back h hused h4) (fun _ _ h _ => h) (fun _ _ h => h)

theorem sysLink_failed (hs : s.Linked) (hc : 0 < s.ref c) (old new : Path) (room : ℕ → Bool) :
    Holds (sysLink c old new room) s (fun r t => r = -1 → s.Unchanged t) (fun _ _ => True) := by
  unfold sysLink
  split
  · exact Hoare.pure fun _ => (Taken.refl s).unchanged
  refine Hoare.bind (namei_taken hs hc old) ?_
  rintro r t1 h1
  cases r with
  | none => exact Hoare.pure fun _ => h1.unchanged
  | some ip =>
    refine Hoare.seq (ilock_taken h1.1 (by simp)) (fun _ _ _ => True.intro) ?_
    rintro _ t2 ⟨h2, hused⟩
    refine get_bind ?_
    split
    · refine Hoare.bind (iput_back h2) ?_
      exact fun _ u hu => Hoare.pure fun _ => hu.unchanged
    · refine modify_bind ?_
      exact Hoare.mono (linkNew_failed hs hc h2 hused new room)
        (fun _ _ h hr => (h hr).unchanged) (fun _ _ h => h)

/-! ## `sys_unlink` -/

theorem unlinkEntry_failed (h : s.Taken (one dp + one ip) t) (off : ℕ) :
    Holds (unlinkEntry dp ip off) t (fun r u => r = -1 → s.Taken 0 u) (fun _ _ => True) := by
  unfold unlinkEntry
  refine get_bind ?_
  split
  · exact Hoare.throw True.intro
  split
  · refine Hoare.seq (iput_taken h) (fun _ _ h => h.elim) ?_
    rintro _ u hu
    refine Hoare.bind (iput_back hu) ?_
    exact fun _ v hv => Hoare.pure fun _ => hv
  · refine modify_bind ?_
    refine Hoare.bind (trivial _ _) fun _ _ _ => ?_
    refine Hoare.bind (trivial _ _) fun _ _ _ => ?_
    refine Hoare.bind (trivial _ _) fun _ _ _ => ?_
    refine Hoare.bind (trivial _ _) fun _ _ _ => ?_
    exact Hoare.pure fun h => absurd h (by decide)

theorem sysUnlink_failed (hs : s.Linked) (hc : 0 < s.ref c) (path : Path) :
    Holds (sysUnlink c path) s (fun r t => r = -1 → s.Unchanged t) (fun _ _ => True) := by
  unfold sysUnlink
  split
  · exact Hoare.pure fun _ => (Taken.refl s).unchanged
  refine Hoare.bind (nameiparent_taken hs hc path) ?_
  rintro r t1 h1
  cases r with
  | none => exact Hoare.pure fun _ => h1.unchanged
  | some found =>
    obtain ⟨dp, name⟩ := found
    obtain ⟨h1, hparent⟩ := h1
    obtain ⟨hdir, -⟩ := resolve_of_parent hparent
    refine Hoare.seq (ilock_taken h1 (by simp)) (fun _ _ _ => True.intro) ?_
    rintro _ t2 ⟨h2, -⟩
    split
    · refine Hoare.bind (iput_back h2) ?_
      exact fun _ u hu => Hoare.pure fun _ => hu.unchanged
    refine Hoare.seq (dirlookup_taken hs h2 hdir name) (fun _ _ _ => True.intro) ?_
    rintro r t3 h3
    cases r with
    | none =>
      refine Hoare.bind (iput_back h3.2) ?_
      exact fun _ u hu => Hoare.pure fun _ => hu.unchanged
    | some entry =>
      obtain ⟨ip, off⟩ := entry
      dsimp only
      split
      · exact Hoare.throw True.intro
      · refine Hoare.seq (ilock_taken h3.2 (by simp)) (fun _ _ _ => True.intro) ?_
        rintro _ t4 ⟨h4, -⟩
        exact Hoare.mono (unlinkEntry_failed h4 off)
          (fun _ _ h hr => (h hr).unchanged) (fun _ _ h => h)

/-! ## `create` -/

theorem pos_one (h : 0 < one i k) : k = i := by
  by_contra hne
  rw [one_of_ne hne] at h
  omega

theorem Fs.Taken.unmade {u : Fs} (h : s.Taken (one dp) t) (hdp : s.disk.Alloc dp)
    (hi : ¬s.disk.Alloc i) (hu : Unmade i t u) : s.Unchanged (u.putInode dp) := by
  have hinode : ∀ k, k ≠ i → u.disk.inode k = s.disk.inode k := by
    intro k hk
    exact (hu.inode k hk).trans (h.inode k)
  have hne : dp ≠ i := by
    rintro rfl
    exact hi hdp
  have hdp' : u.disk.Alloc dp := by
    unfold Alloc
    rw [hinode dp hne]
    exact hdp
  -- the state before the call, with inode `i` as it is now
  have hback : (s.setDisk u.disk).Taken (0 + one dp) u := by
    rw [zero_add]
    refine ⟨rfl, hu.ref.trans h.ref, hu.files.trans h.files, ?_, ?_⟩
    · intro k hk _ _
      exact pos_one hk ▸ hdp'
    · intro k hk _
      obtain rfl := pos_one hk
      have hstays := h.stays k (by simp) hdp
      unfold Stays Fs.inode at hstays ⊢
      rw [← hinode k hne] at hstays
      exact hstays
  have hput := hback.put
  have hdisk : (u.putInode dp).disk = u.disk := hput.disk
  refine ⟨fun k => ?_, fun k hk => ?_, ?_, hput.files⟩
  · rw [hdisk]
    by_cases hki : k = i
    · rw [hki]
      exact iff_of_false hu.free hi
    · unfold Alloc
      rw [hinode k hki]
  · have hki : k ≠ i := by
      rintro rfl
      exact hi hk
    rw [Fs.inode, hdisk]
    exact hinode k hki
  · rw [hput.ref]
    exact add_zero _

theorem Fs.putInode_of_ne (hk : k ≠ i) : (s.putInode i).inode k = s.inode k := by
  unfold putInode
  split
  · simp [setRef, setValid, setDisk, Fs.inode, FsDisk.free, setInode, hk]
  · rfl

theorem createNew_failed (hs : s.Sound) (h : s.Taken (one dp) t)
    (hdir : s.disk.IsDir dp) {name : Name} (hnone : lookupEntry name (s.inode dp).entries 0 = none)
    {type : InodeType} (htype : type ≠ .free) (major minor : Int16) (room : ℕ → Bool) :
    Holds (createNew dp name type major minor room) t (fun r u => match r with
        | none => s.Unchanged u
        | some i => type ≠ .dir → (u.inode i).type = type)
      (fun _ _ => True) := by
  have hunused : ∀ k, ¬t.disk.Alloc k → t.ref k = 0 := by
    intro k hk
    rw [h.disk] at hk
    have hkd : k ≠ dp := by
      rintro rfl
      exact hk hdir.alloc
    rw [h.ref, Pi.add_apply, hs.unused k hk, one_of_ne hkd]
  have hdir' : t.disk.IsDir dp := by
    rw [h.disk]
    exact hdir
  rw [← h.inode] at hnone
  refine Hoare.seq (ialloc_unused (T := False) type hunused) (fun _ _ _ => True.intro) ?_
  rintro r t1 h1
  cases r with
  | none =>
    rw [h1]
    refine Hoare.bind (iput_back h) ?_
    exact fun _ u hu => Hoare.pure hu.unchanged
  | some ip =>
    obtain ⟨hfree, hzero, -, h1⟩ := h1
    have hne : dp ≠ ip := by
      rintro rfl
      exact hfree hdir'.alloc
    refine createInode_made htype h1 ?_
    refine Hoare.seq (createLinks_made (T := False) hdir' hnone room hne)
      (fun _ _ _ => True.intro) ?_
    rintro b t2 h2
    cases b with
    | true =>
      by_cases hnew : type = .dir
      · refine Hoare.bind (trivial _ _) fun _ _ _ => ?_
        refine Hoare.bind (trivial _ _) fun _ _ _ => ?_
        exact Hoare.pure fun h => absurd hnew h
      · rw [if_pos rfl, if_neg hnew] at h2
        rw [countParent, if_neg hnew]
        change Holds (do iput dp; pure (some ip)) t2 _ _
        refine modify_bind (Hoare.pure fun _ => ?_)
        rw [putInode_of_ne hne.symm, h2, withEntry_of_ne hne.symm, made_self]
    | false =>
      refine modify_bind (modify_bind ?_)
      refine modify_bind (Hoare.pure ?_)
      rw [h.disk] at hfree
      exact h.unmade hdir.alloc hfree (h2.unmake hzero)

theorem create_failed (hs : s.Sound) (hc : 0 < s.ref c) (path : Path)
    {type : InodeType} (htype : type ≠ .free) (major minor : Int16) (room : ℕ → Bool) :
    Holds (create c path type major minor room) s (fun r t => match r with
        | none => s.Unchanged t
        | some i => s.Taken (one i) t ∨ s.disk.resolve (startInode c path) (pathElems path) = none ∧
              (type ≠ .dir → (t.inode i).type = type))
      (fun _ _ => True) := by
  refine Hoare.bind (nameiparent_taken hs.linked hc path) ?_
  rintro r t1 h1
  cases r with
  | none => exact Hoare.pure h1.unchanged
  | some found =>
    obtain ⟨dp, name⟩ := found
    obtain ⟨h1, hparent⟩ := h1
    obtain ⟨hdir, hpath⟩ := resolve_of_parent hparent
    refine Hoare.seq (ilock_taken h1 (by simp)) (fun _ _ _ => True.intro) ?_
    rintro _ t2 ⟨h2, -⟩
    refine Hoare.seq (dirlookup_taken hs.linked h2 hdir name) (fun _ _ _ => True.intro) ?_
    rintro r t3 h3
    cases r with
    | none =>
      obtain ⟨hnone, h3⟩ := h3
      change _ = (lookupEntry name (s.inode dp).entries 0).map _ at hpath
      rw [hnone] at hpath
      refine Hoare.mono (createNew_failed hs h3 hdir hnone htype major
        minor room) ?_ (fun _ _ h => h)
      rintro r u hu
      cases r with
      | none => exact hu
      | some i => exact Or.inr ⟨hpath, hu⟩
    | some entry =>
      obtain ⟨ip, off⟩ := entry
      obtain ⟨-, h3⟩ := h3
      rw [add_comm] at h3
      refine Hoare.seq (iput_taken h3) (fun _ _ h => h.elim) ?_
      rintro _ t4 h4
      refine Hoare.seq (ilock_taken h4 (by simp)) (fun _ _ _ => True.intro) ?_
      rintro _ t5 ⟨h5, -⟩
      refine get_bind ?_
      split
      · exact Hoare.pure (Or.inl h5)
      · refine Hoare.bind (iput_back h5) ?_
        exact fun _ u hu => Hoare.pure hu.unchanged

theorem createCall_failed (hs : s.Sound) (hc : 0 < s.ref c) (path : Path)
    {type : InodeType} (htype : type ≠ .free) (major minor : Int16) (room : ℕ → Bool) : Holds (do
      match ← create c path type major minor room with
      | none => pure (-1)
      | some ip => do
        iput ip
        pure 0 : FsM ℤ) s (fun r t => r = -1 → s.Unchanged t)
      (fun _ _ => True) := by
  refine Hoare.bind (create_failed hs hc path htype major minor room) ?_
  rintro r t ht
  cases r with
  | none => exact Hoare.pure fun _ => ht
  | some ip =>
    refine Hoare.bind (trivial _ _) fun _ _ _ => ?_
    exact Hoare.pure fun h => absurd h (by decide)

end

theorem fileImage_sound : (fsinit fileImage).Sound := by
  refine ⟨fileImage_linked, fun i hi => ?_⟩
  have hne : i ≠ rootIno := by
    rintro rfl
    exact hi InodeType.noConfusion
  simp [fsinit, hne]

/-- File 2 has the name "f" in the root directory, and all others in four
directories. -/
def wrapImage : FsDisk where
  ninodes := 8
  inode
    | 1 => ⟨.dir, 0, 0, 5, [⟨1, dot, 0⟩, ⟨1, dotdot, 0⟩, ⟨2, [102], 0⟩,
        ⟨3, [97], 0⟩, ⟨4, [98], 0⟩, ⟨5, [99], 0⟩, ⟨6, [100], 0⟩]⟩
    | 2 => ⟨.file, 0, 0, 0, []⟩
    | 3 => ⟨.dir, 0, 0, 1, linkEntries 3 16384⟩
    | 4 => ⟨.dir, 0, 0, 1, linkEntries 4 16384⟩
    | 5 => ⟨.dir, 0, 0, 1, linkEntries 5 16384⟩
    | 6 => ⟨.dir, 0, 0, 1, linkEntries 6 16383⟩
    | _ => ⟨.free, 0, 0, 0, []⟩
  gen := fun _ => 0

theorem wrapImage_naming : wrapImage.naming 2 = 65536 := by
  have hdir (d n : ℕ) : Inode.naming ⟨.dir, 0, 0, 1, linkEntries d n⟩ 2 = n := by
    rw [naming_linkEntries]
    rfl
  -- over any `f`, or the kernel would count the names one by one
  have hsum (f : ℕ → ℕ) (h0 : f 0 = 0) (h1 : f 1 = 1) (h2 : f 2 = 0)
      (h3 : f 3 = 16384) (h4 : f 4 = 16384) (h5 : f 5 = 16384) (h6 : f 6 = 16383) (h7 : f 7 = 0) :
      ∑ d ∈ Finset.range 8, f d = 65536 := by
    simp only [Finset.sum_range_succ, Finset.sum_range_zero, h0, h1, h2, h3, h4, h5, h6, h7]
  exact hsum (fun d => (wrapImage.inode d).naming 2) (by decide)
    (by decide) (by decide) (hdir 3 16384) (hdir 4 16384) (hdir 5 16384) (hdir 6 16383) (by decide)

end Xv6
