import Xv6.FileSystemRefs

/-!
# History variables are never reset

So what is said of a run as long as no history variable is set can be shown
call by call.
-/

namespace Xv6

open Fs Hoare

structure Fs.Grows (s t : Fs) : Prop where
  wrapped : s.wrapped = true → t.wrapped = true
  strayed : s.strayed = true → t.strayed = true
  orphaned : s.orphaned = true → t.orphaned = true
  stopped : t.stopped = s.stopped

namespace Fs.Grows

theorem refl (s : Fs) : s.Grows s := ⟨id, id, id, rfl⟩

theorem trans (s t u : Fs) (h : s.Grows t) (h' : t.Grows u) : s.Grows u :=
  ⟨h'.wrapped ∘ h.wrapped, h'.strayed ∘ h.strayed, h'.orphaned ∘ h.orphaned,
    h'.stopped.trans h.stopped⟩

end Fs.Grows

theorem Fs.Same.grows {s t : Fs} (h : s.Same t) : s.Grows t := by
  refine ⟨?_, ?_, ?_, h.stopped⟩
  · rw [h.wrapped]
    exact id
  · rw [h.strayed]
    exact id
  · rw [h.orphaned]
    exact id

abbrev Growing {α : Type} (x : FsM α) : Prop := Always Grows x

namespace Growing

theorem pure {α : Type} (a : α) : Growing (Pure.pure a : FsM α) := Always.pure Grows.refl a

theorem throw {α : Type} (e : FsStop) : Growing (MonadExcept.throw e : FsM α) :=
  Always.throw Grows.refl e

theorem bind {α β : Type} {x : FsM α} {f : α → FsM β} (hx : Growing x)
    (hf : ∀ a, Growing (f a)) : Growing (x >>= f) :=
  Always.bind Grows.trans hx hf

theorem get_bind {α : Type} {f : Fs → FsM α} (hf : ∀ a, Growing (f a)) : Growing (get >>= f) :=
  Always.get_bind hf

theorem of_eq {f : Fs → Fs}
    (h : ∀ s, ((f s).wrapped, (f s).strayed, (f s).orphaned, (f s).stopped) =
      (s.wrapped, s.strayed, s.orphaned, s.stopped)) :
    Growing (modify f) := by
  apply Always.modify
  intro s
  have hs := h s
  simp only [Prod.mk.injEq] at hs
  obtain ⟨hw, hst, ho, hstop⟩ := hs
  refine ⟨?_, ?_, ?_, hstop⟩
  · rw [hw]
    exact id
  · rw [hst]
    exact id
  · rw [ho]
    exact id

end Growing

theorem iget_growing (i : ℕ) : Growing (iget i) := fun _ =>
  Hoare.mono (iget_spec (L := 0) i) (fun _ _ h => h.1.grows)
    (fun _ _ h => h.1.grows)

theorem ilock_growing (i : ℕ) : Growing (ilock i) := fun _ =>
  Hoare.mono (ilock_spec (L := 0) i) (fun _ _ h => h.1.grows)
    (fun _ _ h => h.1.grows)

theorem iput_growing (i : ℕ) : Growing (iput i) :=
  Always.modify (fun s => (s.putInode_same i).grows)

theorem dirlookup_growing (d : ℕ) (name : Name) : Growing (dirlookup d name) :=
  fun _ =>
  Hoare.mono (dirlookup_spec (L := 0) d name)
    (fun _ _ h => h.1.grows) (fun _ _ h => h.1.grows)

theorem nameiparent_growing (c : ℕ) (path : Path) : Growing (nameiparent c path) :=
  fun _ =>
  Hoare.mono (namex_spec (L := 0) (D := 0) c path true)
    (fun _ _ h => h.1.grows) (fun _ _ h => h.1.grows)

theorem namei_growing (c : ℕ) (path : Path) : Growing (namei c path) :=
  fun _ => Hoare.mono (namei_spec (L := 0) (D := 0) c path)
    (fun _ _ h => h.1.grows) (fun _ _ h => h.1.grows)

theorem iput_pure_growing {α : Type} (i : ℕ) (a : α) : Growing (do iput i; pure a) :=
  (iput_growing i).bind (fun _ => .pure a)

theorem writeAt_grows (d off : ℕ) (e : Dirent) (s : Fs) : s.Grows (s.writeAt d off e) :=
  ⟨id, fun h => by simp [writeAt, h], id, rfl⟩

theorem linkUp_grows (i : ℕ) (s : Fs) : s.Grows (s.linkUp i) :=
  ⟨fun h => by simp [linkUp, h], id, id, rfl⟩

theorem incNlink_growing (i : ℕ) : Growing (incNlink i) := Always.modify (linkUp_grows i)

theorem decNlink_growing (i : ℕ) : Growing (decNlink i) := .of_eq fun _ => rfl

theorem dirlink_growing (d : ℕ) (name : Name) (i : ℕ) (room : ℕ → Bool) :
    Growing (dirlink d name i room) := by
  refine (dirlookup_growing d name).bind ?_
  rintro (_ | ⟨ip, off⟩)
  · refine .get_bind (fun s => ?_)
    dsimp only
    split
    · exact .pure _
    · exact .bind (Always.modify (writeAt_grows d _ _)) (fun _ => .pure _)
  · exact iput_pure_growing ip false

theorem linkBad_growing (i : ℕ) : Growing (linkBad i) :=
  (ilock_growing i).bind fun _ => (decNlink_growing i).bind fun _ =>
    iput_pure_growing i _

theorem linkNew_growing (c ip : ℕ) (new : Path) (room : ℕ → Bool) :
    Growing (linkNew c ip new room) := by
  refine (nameiparent_growing c new).bind ?_
  rintro (_ | ⟨dp, name⟩)
  · exact linkBad_growing ip
  · refine (ilock_growing dp).bind fun _ =>
      (dirlink_growing dp name ip room).bind fun b => ?_
    split
    · exact (iput_growing dp).bind fun _ => iput_pure_growing ip _
    · exact (iput_growing dp).bind fun _ => linkBad_growing ip

theorem sysLink_growing (c : ℕ) (old new : Path) (room : ℕ → Bool) :
    Growing (sysLink c old new room) := by
  unfold sysLink
  split
  · exact .pure _
  · refine (namei_growing c old).bind ?_
    rintro (_ | ip)
    · exact .pure _
    · refine (ilock_growing ip).bind fun _ => .get_bind fun s => ?_
      split
      · exact iput_pure_growing ip _
      · exact (incNlink_growing ip).bind fun _ => linkNew_growing c ip new room

theorem uncountParent_growing (dp ip : ℕ) (type : InodeType) :
    Growing (uncountParent dp ip type) := by
  unfold uncountParent
  split
  · refine (decNlink_growing dp).bind fun _ => ?_
    exact Always.modify fun s =>
      ⟨id, id, fun h => by simp [markOrphan, h], rfl⟩
  · exact .pure _

theorem unlinkEntry_growing (dp ip off : ℕ) : Growing (unlinkEntry dp ip off) := by
  refine .get_bind fun s => ?_
  split
  · exact .throw _
  · split
    · exact (iput_growing ip).bind fun _ => iput_pure_growing dp _
    · refine .bind (Always.modify (writeAt_grows dp off _)) fun _ => ?_
      exact (uncountParent_growing dp ip _).bind fun _ =>
        (iput_growing dp).bind fun _ =>
          (decNlink_growing ip).bind fun _ => iput_pure_growing ip _

theorem sysUnlink_growing (c : ℕ) (path : Path) : Growing (sysUnlink c path) := by
  unfold sysUnlink
  split
  · exact .pure _
  · refine (nameiparent_growing c path).bind ?_
    rintro (_ | ⟨dp, name⟩)
    · exact .pure _
    · refine (ilock_growing dp).bind fun _ => ?_
      split
      · exact iput_pure_growing dp _
      · refine (dirlookup_growing dp name).bind ?_
        rintro (_ | ⟨ip, off⟩)
        · exact iput_pure_growing dp _
        · dsimp only
          split
          · exact .throw _
          · exact (ilock_growing ip).bind fun _ => unlinkEntry_growing dp ip off

theorem createLinks_growing (dp ip : ℕ) (name : Name) (type : InodeType)
    (room : ℕ → Bool) : Growing (createLinks dp ip name type room) := by
  unfold createLinks
  split
  · refine (dirlink_growing ip dot ip room).bind fun b => ?_
    split
    · refine (dirlink_growing ip dotdot dp room).bind fun b' => ?_
      split
      · exact dirlink_growing dp name ip room
      · exact .pure _
    · exact .pure _
  · exact dirlink_growing dp name ip room

theorem countParent_growing (dp : ℕ) (type : InodeType) : Growing (countParent dp type) := by
  unfold countParent
  split
  · exact incNlink_growing dp
  · exact .pure _

theorem createInode_growing (dp ip : ℕ) (name : Name) (type : InodeType) (major minor : Int16)
    (room : ℕ → Bool) : Growing (createInode dp ip name type major minor room) := by
  refine (ilock_growing ip).bind fun _ => ?_
  refine .bind (.of_eq fun _ => rfl) fun _ => ?_
  refine (createLinks_growing dp ip name type room).bind fun b => ?_
  split
  · exact (countParent_growing dp type).bind fun _ => iput_pure_growing dp _
  · refine .bind (.of_eq fun _ => rfl) fun _ => ?_
    exact (iput_growing ip).bind fun _ => iput_pure_growing dp _

theorem createNew_growing (dp : ℕ) (name : Name) (type : InodeType) (major minor : Int16)
    (room : ℕ → Bool) : Growing (createNew dp name type major minor room) := by
  refine .bind ?_ ?_
  · refine .get_bind fun s => ?_
    split
    · exact .pure _
    · refine .bind (.of_eq fun _ => rfl) fun _ => ?_
      exact (iget_growing _).bind fun _ => .pure _
  · rintro (_ | ip)
    · exact iput_pure_growing dp _
    · exact createInode_growing dp ip name type major minor room

theorem create_growing (c : ℕ) (path : Path) (type : InodeType)
    (major minor : Int16) (room : ℕ → Bool) : Growing (create c path type major minor room) := by
  refine (nameiparent_growing c path).bind ?_
  rintro (_ | ⟨dp, name⟩)
  · exact .pure _
  · refine (ilock_growing dp).bind fun _ => (dirlookup_growing dp name).bind ?_
    rintro (_ | ⟨ip, off⟩)
    · exact createNew_growing dp name type major minor room
    · refine (iput_growing dp).bind fun _ => (ilock_growing ip).bind fun _ =>
        .get_bind fun s => ?_
      split
      · exact .pure _
      · exact iput_pure_growing ip _

theorem openExisting_growing (c : ℕ) (path : Path) (omode : ℕ) :
    Growing (openExisting c path omode) := by
  refine (namei_growing c path).bind ?_
  rintro (_ | ip)
  · exact .pure _
  · refine (ilock_growing ip).bind fun _ => .get_bind fun s => ?_
    split
    · exact iput_pure_growing ip _
    · exact .pure _

theorem sysOpen_growing (c : ℕ) (path : Path) (omode : ℕ) (fd : Option ℕ)
    (room : ℕ → Bool) : Growing (sysOpen c path omode fd room) := by
  unfold sysOpen
  split
  · exact .pure _
  · refine .bind ?_ ?_
    · split
      · exact create_growing c path .file 0 0 room
      · exact openExisting_growing c path omode
    · rintro (_ | ip)
      · exact .pure _
      · refine .get_bind fun s => ?_
        split
        · exact iput_pure_growing ip _
        · split
          · exact iput_pure_growing ip _
          · exact .bind (.of_eq fun _ => rfl) fun _ => .pure _

theorem sysMkdir_growing (c : ℕ) (path : Path) (room : ℕ → Bool) :
    Growing (sysMkdir c path room) := by
  unfold sysMkdir
  split
  · exact .pure _
  · refine (create_growing c path .dir 0 0 room).bind ?_
    rintro (_ | ip)
    · exact .pure _
    · exact iput_pure_growing ip _

theorem sysMknod_growing (c : ℕ) (path : Path) (major minor : Int16)
    (room : ℕ → Bool) : Growing (sysMknod c path major minor room) := by
  unfold sysMknod
  split
  · exact .pure _
  · refine (create_growing c path .device major minor room).bind ?_
    rintro (_ | ip)
    · exact .pure _
    · exact iput_pure_growing ip _

theorem sysChdir_growing (p : Slot) (c : ℕ) (path : Path) : Growing (sysChdir p c path) := by
  unfold sysChdir
  split
  · exact .pure _
  · refine (namei_growing c path).bind ?_
    rintro (_ | ip)
    · exact .pure _
    · refine (ilock_growing ip).bind fun _ => .get_bind fun s => ?_
      split
      · exact iput_pure_growing ip _
      · refine (iput_growing c).bind fun _ => ?_
        exact .bind (.of_eq fun _ => rfl) fun _ => .pure _

theorem call_growing {s : Fs} {p : Slot} {c : ℕ} {l : FsCall} {x : FsM ℤ}
    (hcall : s.call p c l = some x) : Growing x := by
  cases l with
  | «open» path omode fd room =>
    simp only [call, Option.some.injEq] at hcall
    exact hcall ▸ sysOpen_growing c path omode fd room
  | mkdir path room =>
    simp only [call, Option.some.injEq] at hcall
    exact hcall ▸ sysMkdir_growing c path room
  | mknod path major minor room =>
    simp only [call, Option.some.injEq] at hcall
    exact hcall ▸ sysMknod_growing c path major minor room
  | link old new room =>
    simp only [call, Option.some.injEq] at hcall
    exact hcall ▸ sysLink_growing c old new room
  | unlink path =>
    simp only [call, Option.some.injEq] at hcall
    exact hcall ▸ sysUnlink_growing c path
  | chdir path =>
    simp only [call, Option.some.injEq] at hcall
    exact hcall ▸ sysChdir_growing p c path
  | close i =>
    simp only [call, ite_eq_some] at hcall
    rw [← hcall.2]
    exact .bind (.of_eq fun _ => rfl) fun _ => iput_pure_growing i _
  | exit =>
    simp only [call, Option.ite_none_left_eq_some, Option.some.injEq] at hcall
    rw [← hcall.2]
    refine (iput_growing c).bind fun _ => ?_
    exact .bind (.of_eq fun _ => rfl) fun _ => .pure _
  | fork np =>
    simp only [call, ite_eq_some] at hcall
    rw [← hcall.2]
    refine .bind (.of_eq fun _ => rfl) fun _ => ?_
    exact .bind (.of_eq fun _ => rfl) fun _ => .pure _

end Xv6
