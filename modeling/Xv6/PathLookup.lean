import Xv6.FileSystemRefs

/-!
# Path resolution

`namex` of `fs.c` against what it is for: the components of the path are looked
up one after another, and the only reference that is left is one to the inode
that is returned.
-/

namespace Xv6

open Hoare

/-! ## The components of a path -/

/-- The longest parts of a path without a slash that are not empty. -/
def components (path : Path) : List (List UInt8) := (path.splitOn slash).filter (· ≠ [])

theorem components_slash (path : Path) : components (slash :: path) = components path := by
  unfold components
  rw [List.splitOn_eq_splitOnP, List.splitOnP_cons_eq_if_modifyHead,
    if_pos (by simp), List.filter_cons_of_neg (by simp), List.splitOn_eq_splitOnP]

theorem components_dropWhile (path : Path) :
    components (path.dropWhile (· = slash)) = components path := by
  induction path with
  | nil => rfl
  | cons c path ih =>
    by_cases hc : c = slash
    · rw [List.dropWhile_cons_of_pos (by simpa using hc), ih, hc, components_slash]
    · rw [List.dropWhile_cons_of_neg (by simpa using hc)]

theorem components_takeWhile {c : UInt8} (hc : c ≠ slash) (path : Path) : components (c :: path) =
    (c :: path).takeWhile (· ≠ slash) :: components ((c :: path).dropWhile (· ≠ slash)) := by
  have hword : (c :: path).takeWhile (· ≠ slash) ≠ [] := by
    rw [List.takeWhile_cons_of_pos (by simpa using hc)]
    exact List.cons_ne_nil _ _
  have hfree : ∀ x ∈ (c :: path).takeWhile (· ≠ slash), (x == slash) = false := by
    intro x hx
    simpa using List.mem_takeWhile_imp hx
  have hsplit := List.takeWhile_append_dropWhile (p := (decide <| · ≠ slash)) (l := c :: path)
  generalize (c :: path).takeWhile (· ≠ slash) = word at *
  generalize hrest : (c :: path).dropWhile (· ≠ slash) = rest at *
  rw [← hsplit]
  unfold components
  rw [List.splitOn_eq_splitOnP, List.splitOn_eq_splitOnP]
  cases rest with
  | nil =>
    rw [List.append_nil, List.splitOnP_eq_singleton hfree]
    simp [hword]
  | cons d rest =>
    have hd : d = slash := by
      have := List.head?_dropWhile_not (fun x => decide (x ≠ slash)) (c :: path)
      rw [hrest] at this
      simpa using this
    rw [List.splitOnP_append_cons_of_forall_mem hfree d (by simp [hd]),
      List.splitOnP_cons_eq_if_modifyHead, if_pos (by simp [hd]),
      List.filter_cons_of_pos (by simpa using hword), List.filter_cons_of_neg (by simp)]

theorem pathElems_eq_components (path : Path) :
    pathElems path = (components path).map (·.take dirsiz) := by
  rw [pathElems]
  split
  · rename_i hnone
    unfold skipelem at hnone
    split at hnone
    · rename_i hempty
      rw [← components_dropWhile, hempty]
      rfl
    · contradiction
  · rename_i name rest hsome
    rw [pathElems_eq_components rest, ← components_dropWhile path]
    unfold skipelem at hsome
    split at hsome
    · contradiction
    · rename_i c word hpath
      have hc : c ≠ slash := by
        have := List.head?_dropWhile_not (fun x => decide (x = slash)) path
        rw [hpath] at this
        simpa using this
      simp only [Option.some.injEq, Prod.mk.injEq] at hsome
      rw [hpath, components_takeWhile hc, List.map_cons, ← hsome.1, ← hsome.2, components_dropWhile]
termination_by path.length
decreasing_by
  rename_i h
  exact skipelem_length h

/-! ## Looking components up -/

namespace FsDisk

/-- The inode that a list of names leads to from inode `i`. -/
def resolve (t : FsDisk) : ℕ → List Name → Option ℕ
  | i, [] => some i
  | i, name :: rest =>
    if (t.inode i).type = .dir then
      (lookupEntry name (t.inode i).entries 0).bind fun e =>
        t.resolve e.1 rest
    else none

def resolveParent (t : FsDisk) (i : ℕ) (names : List Name) : Option (ℕ × Name) :=
  match names.getLast? with
  | none => none
  | some name =>
    (t.resolve i names.dropLast).bind fun d =>
      if (t.inode d).type = .dir then some (d, name) else none

variable {t : FsDisk} {i : ℕ} {name : Name} {rest : List Name}

theorem resolve_cons (hdir : (t.inode i).type = .dir) {j off : ℕ}
    (hentry : lookupEntry name (t.inode i).entries 0 = some (j, off)) :
    t.resolve i (name :: rest) = t.resolve j rest := by
  rw [resolve, if_pos hdir, hentry]
  rfl

theorem resolve_notDir (hdir : (t.inode i).type ≠ .dir) : t.resolve i (name :: rest) = none := by
  rw [resolve, if_neg hdir]

theorem resolve_append (names names' : List Name) : t.resolve i (names ++ names') =
      (t.resolve i names).bind fun j => t.resolve j names' := by
  induction names generalizing i with
  | nil => rfl
  | cons name rest ih =>
    rw [List.cons_append, resolve, resolve]
    split
    · rw [Option.bind_assoc]
      exact congrArg _ (funext fun e => ih)
    · rfl

theorem resolve_of_parent {names : List Name} {d : ℕ}
    (h : t.resolveParent i names = some (d, name)) :
    t.IsDir d ∧ t.resolve i names = (lookupEntry name (t.inode d).entries 0).map Prod.fst := by
  unfold resolveParent at h
  split at h
  · contradiction
  · rename_i last hlast
    rw [Option.bind_eq_some_iff] at h
    obtain ⟨d', hd', hdir⟩ := h
    simp only [ite_eq_some, Prod.mk.injEq] at hdir
    obtain ⟨hdir, rfl, rfl⟩ := hdir
    refine ⟨hdir, ?_⟩
    rw [← List.dropLast_append_getLast? last hlast, resolve_append, hd',
      Option.bind_some, resolve, if_pos hdir]
    cases lookupEntry last (t.inode d').entries 0 <;> rfl

theorem resolveParent_nil : t.resolveParent i [] = none := rfl

theorem resolveParent_notDir (hdir : (t.inode i).type ≠ .dir) :
    t.resolveParent i (name :: rest) = none := by
  cases rest with
  | nil => simp [resolveParent, resolve, hdir]
  | cons next rest =>
    unfold resolveParent
    rw [List.getLast?_cons_cons, List.dropLast_cons_cons, resolve_notDir hdir]
    split <;> rfl

theorem resolveParent_single (hdir : (t.inode i).type = .dir) :
    t.resolveParent i [name] = some (i, name) := by
  simp [resolveParent, resolve, hdir]

theorem resolveParent_cons (hrest : rest ≠ []) :
    t.resolveParent i (name :: rest) = if (t.inode i).type = .dir then
        (lookupEntry name (t.inode i).entries 0).bind fun e =>
          t.resolveParent e.1 rest
      else none := by
  obtain ⟨init, last, rfl⟩ := (List.eq_nil_or_concat' rest).resolve_left hrest
  have hlast : (name :: (init ++ [last])).getLast? = some last := by
    rw [← List.cons_append, List.getLast?_concat]
  have hinit : (name :: (init ++ [last])).dropLast = name :: init := by
    rw [← List.cons_append, List.dropLast_concat]
  unfold resolveParent
  rw [hlast, hinit, List.getLast?_concat, List.dropLast_concat]
  dsimp only
  rw [resolve]
  split
  · rw [Option.bind_assoc]
  · rfl

end FsDisk

/-! ## `namex` -/

open Hoare

/-- An allocated inode that a name leads to has a link or is in use. -/
structure Fs.Linked (s : Fs) : Prop where
  root : (s.inode rootIno).nlink ≠ 0 ∨ 0 < s.ref rootIno
  entry : ∀ d, s.disk.IsDir d → ∀ name i off,
    lookupEntry name (s.inode d).entries 0 = some (i, off) →
      s.disk.Alloc i → (s.inode i).nlink ≠ 0 ∨ 0 < s.ref i

theorem Fs.Inv.linked {s : Fs} {L D : ℕ → ℕ} (h : s.Inv L D) : s.Linked where
  root := Or.inl h.tree.root.1.2
  entry := by
    intro d _ name i off _ halloc
    by_cases hzero : (s.inode i).nlink = 0
    · exact Or.inr (h.mem.live i halloc hzero)
    · exact Or.inl hzero

/-- How `namex` can fail to return: there are less than two free entries in
`itable`, or it comes to an inode that is not allocated. -/
def Fs.NamexStops (s : Fs) (start : ℕ) (names : List Name) (e : FsStop) : Prop :=
  e = .igetNoInodes ∧ ninode < s.inUse + 2 ∨
    e = .noType ∧ ∃ pre j, pre <+: names ∧ s.disk.resolve start pre = some j ∧ ¬s.disk.Alloc j

/-- Inode `i` is not freed with a reference that has been taken since `s`. -/
def Fs.Stays (s : Fs) (i : ℕ) : Prop := (s.inode i).nlink ≠ 0 ∨ 0 < s.ref i

/-- Since `s`, the references `L` have been taken and nothing else has
happened. -/
structure Fs.Taken (s : Fs) (L : ℕ → ℕ) (t : Fs) : Prop where
  disk : t.disk = s.disk
  ref : t.ref = s.ref + L
  files : t.files = s.files
  fresh : ∀ i, 0 < L i → s.ref i = 0 → t.valid i = true → s.disk.Alloc i
  stays : ∀ i, 0 < L i → s.disk.Alloc i → s.Stays i

section

variable {s t : Fs} {L : ℕ → ℕ} {i : ℕ}

theorem Fs.ref_setRef_add (s : Fs) (i : ℕ) :
    Function.update s.ref i (s.ref i + 1) = s.ref + one i := by
  funext k
  by_cases hk : k = i
  · subst hk
    simp
  · simp [hk, one_of_ne hk]

theorem Fs.Taken.refl (s : Fs) : s.Taken 0 s :=
  ⟨rfl, rfl, rfl, fun _ h => absurd h (lt_irrefl 0), fun _ h => absurd h (lt_irrefl 0)⟩

theorem Fs.Taken.inode (h : s.Taken L t) (i : ℕ) : t.inode i = s.inode i := by
  rw [Fs.inode, h.disk]
  rfl

theorem Fs.Taken.inUse_le (h : s.Taken (one i) t) : t.inUse ≤ s.inUse + 1 := by
  unfold inUse
  rw [h.disk, h.ref]
  refine Counting.countP_le_succ (a := i) List.nodup_range ?_
  intro k _ hk hpos
  simpa [one_of_ne hk] using hpos

theorem Fs.Taken.add {u : Fs} (h : s.Taken L t) (hstays : s.disk.Alloc i → s.Stays i)
    (hdisk : u.disk = t.disk) (href : u.ref = t.ref + one i) (hfiles : u.files = t.files)
    (hvalid : ∀ k, u.valid k = true → t.valid k = true ∧ (k = i → 0 < t.ref i)) :
    s.Taken (L + one i) u := by
  refine ⟨hdisk.trans h.disk, ?_, hfiles.trans h.files, ?_, ?_⟩
  · rw [href, h.ref, add_assoc]
  · intro k hk hzero hv
    obtain ⟨hv, hpos⟩ := hvalid k hv
    refine h.fresh k ?_ hzero hv
    by_cases hki : k = i
    · have := hpos hki
      rw [← hki, h.ref, Pi.add_apply, hzero] at this
      omega
    · simpa [one_of_ne hki] using hk
  · intro k hk
    by_cases hki : k = i
    · exact hki ▸ hstays
    · exact h.stays k (by simpa [one_of_ne hki] using hk)

theorem iget_taken {j : ℕ} (h : s.Taken L t) (hstays : s.disk.Alloc j → s.Stays j) : Holds (iget j)
    t (fun _ u => s.Taken (L + one j) u) (fun e _ => e = .igetNoInodes ∧ ninode ≤ t.inUse) := by
  unfold iget
  refine get_bind ?_
  split
  · rename_i hpos
    exact Hoare.set (h.add hstays rfl (t.ref_setRef_add j) rfl fun k hk => ⟨hk, fun _ => hpos⟩)
  rename_i hzero
  split
  · have hone : t.ref j + 1 = 1 := by omega
    refine Hoare.set (h.add hstays rfl ?_ rfl fun k hk => ?_)
    · rw [← t.ref_setRef_add j, hone]
      rfl
    · have hkj : k ≠ j := by
        rintro rfl
        simp [Fs.setValid] at hk
      simp only [Fs.setValid, Function.update_of_ne hkj] at hk
      exact ⟨hk, fun h => absurd h hkj⟩
  · rename_i hfull
    exact Hoare.throw ⟨rfl, not_lt.mp hfull⟩

theorem ilock_taken (h : s.Taken L t) (hi : 0 < L i) : Holds (ilock i) t (fun _ u => s.Taken L u ∧
    (s.ref i = 0 → s.disk.Alloc i)) (fun e _ => e = .noType ∧ ¬s.disk.Alloc i) := by
  have hpos : ¬t.ref i < 1 := by
    rw [h.ref, Pi.add_apply]
    omega
  unfold ilock
  refine get_bind ?_
  rw [if_neg hpos]
  split
  · rename_i hvalid
    exact Hoare.pure ⟨h, fun hzero => h.fresh i hi hzero hvalid⟩
  have hiff : (t.inode i).type = .free ↔ ¬s.disk.Alloc i := by
    rw [h.inode]
    exact not_not.symm
  split
  · rename_i hfree
    exact Hoare.throw ⟨rfl, hiff.mp hfree⟩
  · rename_i halloc
    have halloc : s.disk.Alloc i := not_not.mp (mt hiff.mpr halloc)
    refine Hoare.set ⟨⟨h.disk, h.ref, h.files, ?_, h.stays⟩, fun _ => halloc⟩
    intro k hk hzero hv
    by_cases hki : k = i
    · exact hki ▸ halloc
    · simp only [Fs.setValid, Function.update_of_ne hki] at hv
      exact h.fresh k hk hzero hv

theorem Fs.Taken.put (h : s.Taken (L + one i) t) : s.Taken L (t.putInode i) := by
  have hi : t.ref i = s.ref i + L i + 1 := by simp [h.ref, add_assoc]
  have hpos : 0 < (L + one i) i := by simp
  have hkeep : ¬(t.ref i = 1 ∧ t.valid i = true ∧ (t.inode i).nlink = 0) := by
    rintro ⟨hone, hvalid, hzero⟩
    have hunused : s.ref i = 0 := by omega
    rcases h.stays i hpos (h.fresh i hpos hunused hvalid) with hne | hused
    · exact hne (h.inode i ▸ hzero)
    · omega
  have hmono : ∀ k, 0 < L k → 0 < (L + one i) k := by
    intro k hk
    rw [Pi.add_apply]
    omega
  unfold putInode
  rw [if_neg hkeep]
  refine ⟨h.disk, ?_, h.files, fun k hk => h.fresh k (hmono k hk),
    fun k hk => h.stays k (hmono k hk)⟩
  funext k
  change Function.update t.ref i (t.ref i - 1) k = _
  by_cases hk : k = i
  · subst hk
    rw [Function.update_self, hi]
    rfl
  · rw [Function.update_of_ne hk, h.ref]
    simp [one_of_ne hk]

theorem iput_taken (h : s.Taken (L + one i) t) : Holds (iput i) t
    (fun _ u => s.Taken L u) (fun _ _ => False) :=
  Hoare.modify h.put

theorem dirlookup_taken (hs : s.Linked) (h : s.Taken L t) (hdir : s.disk.IsDir i) (name : Name) :
    Holds (dirlookup i name) t (fun r u => match r with
        | none => lookupEntry name (s.inode i).entries 0 = none ∧ s.Taken L u
        | some (j, off) => lookupEntry name (s.inode i).entries 0 =
            some (j, off) ∧ s.Taken (L + one j) u)
      (fun e _ => e = .igetNoInodes ∧ ninode ≤ t.inUse) := by
  have hdir' : (s.inode i).type = .dir := hdir
  unfold dirlookup
  refine get_bind ?_
  rw [h.inode, if_neg (not_not.mpr hdir')]
  split
  · rename_i hnone
    exact Hoare.pure ⟨hnone, h⟩
  · rename_i j off hsome
    refine Hoare.seq (iget_taken h (hs.entry i hdir name j off hsome)) ?_ ?_
    · exact fun _ _ hfull => hfull
    · exact fun _ u hu => Hoare.pure ⟨hsome, hu⟩

/-- What `namex` returns. -/
def FsDisk.namex (d : FsDisk) (parent : Bool) (i : ℕ) (names : List Name) : Option (ℕ × Name) :=
  if parent = true then d.resolveParent i names
  else (d.resolve i names).map (·, [])

theorem FsDisk.namex_cons {d : FsDisk} {parent : Bool} {name : Name}
    {rest : List Name} (hdir : (d.inode i).type = .dir) (hlast : ¬(parent = true ∧ rest = [])) :
    d.namex parent i (name :: rest) = (lookupEntry name (d.inode i).entries 0).bind fun e =>
        d.namex parent e.1 rest := by
  unfold FsDisk.namex
  by_cases hparent : parent = true
  · simp only [if_pos hparent]
    rw [FsDisk.resolveParent_cons fun h => hlast ⟨hparent, h⟩, if_pos hdir]
  · simp only [if_neg hparent]
    rw [FsDisk.resolve, if_pos hdir, Option.map_bind]
    rfl

def resultRef : Option (ℕ × Name) → ℕ → ℕ
  | none => 0
  | some (i, _) => one i

theorem Fs.NamexStops.cons {j off : ℕ} {name : Name} {rest : List Name}
    {e : FsStop} (hdir : (s.inode i).type = .dir)
    (hentry : lookupEntry name (s.inode i).entries 0 = some (j, off))
    (h : s.NamexStops j rest e) : s.NamexStops i (name :: rest) e := by
  refine h.imp_right ?_
  rintro ⟨he, pre, k, hpre, hk, hfree⟩
  refine ⟨he, name :: pre, k, List.cons_prefix_cons.mpr ⟨rfl, hpre⟩, ?_, hfree⟩
  rw [FsDisk.resolve_cons hdir hentry, hk]

theorem one_apply (j i : ℕ) : one j i = if some j = some i then 1 else 0 := by
  by_cases hij : i = j
  · subst hij
    simp
  · rw [one_of_ne hij, if_neg fun h => hij (Option.some.inj h).symm]

theorem namexLoop_resolve (hs : s.Linked)
    (parent : Bool) (names : List Name) (h : s.Taken (one i) t) : Holds (namexLoop parent names i) t
    (fun r u => r = s.disk.namex parent i names ∧ s.Taken (resultRef r) u)
    (fun e _ => s.NamexStops i names e) := by
  induction names generalizing i t with
  | nil =>
    unfold namexLoop
    split
    · rename_i hparent
      refine Hoare.seq (iput_taken (L := 0) (by rwa [zero_add])) (fun _ _ h => h.elim) ?_
      rintro _ u hu
      refine Hoare.pure ⟨?_, hu⟩
      rw [FsDisk.namex, if_pos hparent, FsDisk.resolveParent_nil]
    · rename_i hparent
      refine Hoare.pure ⟨?_, h⟩
      rw [FsDisk.namex, if_neg hparent]
      rfl
  | cons name rest ih =>
    rw [namexLoop]
    refine Hoare.seq (ilock_taken h (by simp)) ?_ ?_
    · rintro e u ⟨he, hfree⟩
      exact Or.inr ⟨he, [], i, List.nil_prefix, rfl, hfree⟩
    rintro _ t1 ⟨h1, -⟩
    refine get_bind ?_
    rw [h1.inode]
    split
    · rename_i hdir
      refine Hoare.seq (iput_taken (L := 0) (by rwa [zero_add])) (fun _ _ h => h.elim) ?_
      rintro _ u hu
      refine Hoare.pure ⟨?_, hu⟩
      unfold FsDisk.namex
      rw [FsDisk.resolveParent_notDir hdir, FsDisk.resolve_notDir hdir, Option.map_none, ite_self]
    rename_i hdir
    rw [not_not] at hdir
    split
    · rename_i hlast
      obtain ⟨hparent, rfl⟩ := hlast
      refine Hoare.pure ⟨?_, h1⟩
      rw [FsDisk.namex, if_pos hparent, FsDisk.resolveParent_single hdir]
    rename_i hlast
    refine Hoare.seq (dirlookup_taken hs h1 hdir name) ?_ ?_
    · rintro e u ⟨he, hfull⟩
      have := h1.inUse_le
      exact Or.inl ⟨he, by omega⟩
    rintro r t2 hr
    cases r with
    | none =>
      obtain ⟨hnone, h2⟩ := hr
      refine Hoare.seq (iput_taken (L := 0) (by rwa [zero_add])) (fun _ _ h => h.elim) ?_
      rintro _ u hu
      refine Hoare.pure ⟨?_, hu⟩
      rw [FsDisk.namex_cons hdir hlast]
      change _ = (lookupEntry name (s.inode i).entries 0).bind _
      rw [hnone]
      rfl
    | some found =>
      obtain ⟨j, off⟩ := found
      obtain ⟨hsome, h2⟩ := hr
      rw [add_comm] at h2
      refine Hoare.seq (iput_taken h2) (fun _ _ h => h.elim) ?_
      rintro _ u hu
      refine Hoare.mono (ih hu) ?_ ?_
      · rintro r v ⟨hr, hv⟩
        refine ⟨hr.trans ?_, hv⟩
        rw [FsDisk.namex_cons hdir hlast]
        change _ = (lookupEntry name (s.inode i).entries 0).bind _
        rw [hsome]
        rfl
      · exact fun e v he => he.cons hdir hsome

/-- The inode that `namex` starts at. -/
def startInode (c : ℕ) (path : Path) : ℕ := if path.head? = some slash then rootIno else c

theorem namex_resolve (hs : s.Linked) {c : ℕ} (hc : 0 < s.ref c) (path : Path) (parent : Bool) :
    Holds (namex c path parent) s
    (fun r u => r = s.disk.namex parent (startInode c path) (pathElems path) ∧
    s.Taken (resultRef r) u) (fun e _ => s.NamexStops (startInode c path) (pathElems path) e) := by
  unfold namex startInode
  split
  · refine Hoare.seq (iget_taken (Fs.Taken.refl s) fun _ => hs.root) ?_ ?_
    · rintro e u ⟨he, hfull⟩
      exact Or.inl ⟨he, by omega⟩
    · rintro _ u hu
      rw [zero_add] at hu
      exact namexLoop_resolve hs parent _ hu
  · refine Hoare.bind (R := fun _ u => s.Taken (one c) u) (Hoare.modify ?_) ?_
    · rw [← zero_add (one c)]
      exact (Fs.Taken.refl s).add (fun _ => Or.inr hc) rfl
        (s.ref_setRef_add c) rfl fun k hk => ⟨hk, fun _ => hc⟩
    · exact fun _ u hu => namexLoop_resolve hs parent _ hu

/-- Paths are resolved as their components say, and the only new reference is
one to the inode that is returned. -/
theorem path_resolution (hs : s.Linked) {c : ℕ} (hc : 0 < s.ref c) (path : Path) :
    pathElems path = (components path).map (·.take dirsiz) ∧
    Holds (namei c path) s
      (fun r u => r = s.disk.resolve (startInode c path) (pathElems path) ∧ u.disk = s.disk ∧
        ∀ i, u.ref i = s.ref i + if r = some i then 1 else 0)
      (fun e _ => s.NamexStops (startInode c path) (pathElems path) e) ∧
    Holds (nameiparent c path) s
      (fun r u =>
        r = s.disk.resolveParent (startInode c path) (pathElems path) ∧
        u.disk = s.disk ∧
        ∀ i, u.ref i = s.ref i + if r.map Prod.fst = some i then 1 else 0)
      (fun e _ => s.NamexStops (startInode c path) (pathElems path) e) := by
  have hrefs {j : ℕ} {u : Fs} (h : s.Taken (one j) u) (i : ℕ) :
      u.ref i = s.ref i + if some j = some i then 1 else 0 := by
    rw [h.ref, Pi.add_apply, one_apply]
  refine ⟨pathElems_eq_components path, ?_, ?_⟩
  · unfold namei
    refine Hoare.bind (namex_resolve hs hc path false) ?_
    rintro r u ⟨hr, hu⟩
    have hname : r = (s.disk.resolve (startInode c path) (pathElems path)).map (·, []) := hr
    cases hres : s.disk.resolve (startInode c path) (pathElems path) with
    | none =>
      rw [hres] at hname
      subst hname
      exact Hoare.pure ⟨rfl, hu.disk, fun i => congrFun hu.ref i⟩
    | some j =>
      rw [hres] at hname
      subst hname
      exact Hoare.pure ⟨rfl, hu.disk, hrefs hu⟩
  · refine Hoare.mono (namex_resolve hs hc path true) ?_ (fun _ _ he => he)
    rintro r u ⟨hr, hu⟩
    refine ⟨hr, ?_⟩
    cases r with
    | none => exact ⟨hu.disk, fun i => congrFun hu.ref i⟩
    | some found => exact ⟨hu.disk, hrefs hu⟩

end

def fileImage : FsDisk where
  ninodes := 4
  inode
    | 1 => ⟨.dir, 0, 0, 1, [⟨1, dot, 0⟩, ⟨1, dotdot, 0⟩, ⟨2, [102], 0⟩]⟩
    | 2 => ⟨.file, 0, 0, 1, []⟩
    | _ => ⟨.free, 0, 0, 0, []⟩
  gen := fun _ => 0

theorem fileImage_entry {d i off : ℕ} {name : Name}
    (h : lookupEntry name (fileImage.inode d).entries 0 = some (i, off)) : i = 1 ∨ i = 2 := by
  obtain ⟨pre, e, post, hes, -, rfl, -, -⟩ := lookupEntry_eq_some h
  have hmem : e ∈ (fileImage.inode d).entries := hes ▸ List.mem_append_right pre List.mem_cons_self
  match d with
  | 1 =>
    have hall : ∀ e ∈ (fileImage.inode 1).entries, e.inum = 1 ∨ e.inum = 2 := by
      decide
    exact hall e hmem
  | 0 | 2 | d + 3 => exact absurd hmem List.not_mem_nil

theorem fileImage_linked : (fsinit fileImage).Linked := by
  refine ⟨Or.inl (by decide), fun d _ name i off hentry _ => Or.inl ?_⟩
  rcases fileImage_entry hentry with rfl | rfl <;> decide

/-- The path "/../f". -/
theorem path_resolution_file : ∃ u, namei rootIno [47, 46, 46, 47, 102] (fsinit fileImage) =
      .ok (some 2) u ∧ u.disk = fileImage ∧ u.ref 2 = 1 := by
  have hreturns : (namei rootIno [47, 46, 46, 47, 102]).run'
      (fsinit fileImage) = some (some 2) := by decide +kernel
  have hspec := (path_resolution fileImage_linked (c := rootIno) (by decide)
    [47, 46, 46, 47, 102]).2.1
  obtain ⟨u, hrun⟩ := exists_of_run' hreturns
  obtain ⟨-, hdisk, href⟩ := of_ok hspec hrun
  exact ⟨u, hrun, hdisk, href 2⟩

/-- `nameiparent` of "f/x" is 0, although "f" is an inode. -/
theorem nameiparent_not_dir : (namei rootIno [102]).run' (fsinit fileImage) = some (some 2) ∧
      (nameiparent rootIno [102, 47, 120]).run' (fsinit fileImage) = some none := by
  decide +kernel

end Xv6
