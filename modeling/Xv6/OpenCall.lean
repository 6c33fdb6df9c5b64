import Xv6.FailedCalls
import Xv6.FileTable

/-!
# `sys_open` with the file table and the descriptors

`sys_open` finds or makes the inode, and then takes an entry of `ftable` and a
descriptor.  If one of these is missing it gives the inode back, but a file that
it has made stays.
-/

namespace Xv6

open Function (update update_self)
open Hoare

open Fs Hoare

/-- The panic of `fileclose`, or one of the file system. -/
inductive OpenStop
  | fs (e : FsStop)
  | fileclose
  deriving DecidableEq

/-- The file system, the file table and the descriptors of the caller.  An
entry of the table whose type is `FD_NONE` has no `obj`. -/
structure OpenState where
  fs : Fs
  ref : FileIx → ℕ
  obj : FileIx → Option FileObj
  ofile : Fd → Option FileIx

abbrev OpenM := EStateM OpenStop OpenState

def onFs {α : Type} (x : FsM α) : OpenM α := fun s =>
  match x s.fs with
  | .ok a t => .ok a { s with fs := t }
  | .error e t => .error (.fs e) { s with fs := t }

def filealloc : OpenM (Option FileIx) := do
  let s ← get
  match (List.finRange nfile).find? fun f => s.ref f = 0 with
  | none => pure none
  | some f => do
    set { s with ref := update s.ref f 1 }
    pure (some f)

def fdalloc (f : FileIx) : OpenM (Option Fd) := do
  let s ← get
  match (List.finRange nofile).find? fun fd => s.ofile fd = none with
  | none => pure none
  | some fd => do
    set { s with ofile := update s.ofile fd (some f) }
    pure (some fd)

/-- `pipeclose` changes nothing of this state. -/
def fileclose (f : FileIx) : OpenM Unit := do
  let s ← get
  if s.ref f < 1 then throw .fileclose
  else if s.ref f - 1 > 0 then
    set { s with ref := update s.ref f (s.ref f - 1) }
  else do
    set { s with
      ref := update s.ref f 0
      obj := update s.obj f none }
    match s.obj f with
    | some (.inode ip) => onFs (iput ip)
    | some (.device ip _) => onFs (iput ip)
    | some (.pipe _ _) => pure ()
    | none => pure ()

def fileObj (ip : ℕ) (n : Inode) : FileObj :=
  if n.type = .device then .device ip n.major.toInt.toNat else .inode ip

/-- `sys_open` from `filealloc` on. -/
def openFile (ip : ℕ) : OpenM ℤ := do
  match ← filealloc with
  | none => do
    onFs (iput ip)
    pure (-1)
  | some f =>
    match ← fdalloc f with
    | none => do
      fileclose f
      onFs (iput ip)
      pure (-1)
    | some fd => do
      modify fun s => { s with
        obj := update s.obj f
          (some (fileObj ip (s.fs.inode ip)))
        fs := { s.fs with files := ip :: s.fs.files } }
      pure fd.val

/-- `O_TRUNC` is left out, as are the contents of files. -/
def sysOpenFile (c : ℕ) (path : Path) (omode : ℕ) (room : ℕ → Bool) : OpenM ℤ := do
  if maxPath ≤ path.length then pure (-1)
  else
    match ← onFs (if omode &&& 0x200 ≠ 0 then create c path .file 0 0 room
        else openExisting c path omode) with
    | none => pure (-1)
    | some ip => do
      let s ← get
      if (s.fs.inode ip).type = .device ∧
          ((s.fs.inode ip).major < 0 ∨ ndev ≤ (s.fs.inode ip).major) then do
        onFs (iput ip)
        pure (-1)
      else openFile ip

/-! ## What the parts do -/

section

variable {s t : OpenState} {b : Fs} {c ip : ℕ}

def OpenState.SameFiles (s t : OpenState) : Prop :=
  t.ref = s.ref ∧ t.obj = s.obj ∧ t.ofile = s.ofile

theorem OpenState.SameFiles.trans {u : OpenState} (h : s.SameFiles t)
    (h' : t.SameFiles u) : s.SameFiles u :=
  ⟨h'.1.trans h.1, h'.2.1.trans h.2.1, h'.2.2.trans h.2.2⟩

theorem onFs_holds
    {α : Type} {x : FsM α} {Q : α → Fs → Prop} {E : FsStop → Fs → Prop} (h : Holds x s.fs Q E) :
    Holds (onFs x) s (fun a t => Q a t.fs ∧ s.SameFiles t) (fun _ _ => True) := by
  unfold Holds at h
  unfold Holds onFs
  cases hx : x s.fs with
  | ok a t =>
    rw [hx] at h
    exact ⟨h, rfl, rfl, rfl⟩
  | error e t => exact True.intro

theorem filealloc_holds : Holds filealloc s (fun r t => match r with
      | none => t = s ∧ ∀ f, s.ref f ≠ 0
      | some f => s.ref f = 0 ∧ t = { s with ref := update s.ref f 1 })
    (fun _ _ => True) := by
  refine get_bind ?_
  split
  · rename_i hnone
    refine Hoare.pure ⟨rfl, fun f => ?_⟩
    simpa using List.find?_eq_none.mp hnone f (List.mem_finRange f)
  · rename_i f hsome
    have hzero : s.ref f = 0 := by simpa using List.find?_some hsome
    exact Hoare.bind (R := fun _ t => t = _) (Hoare.set rfl) fun _ t ht => Hoare.pure ⟨hzero, ht⟩

theorem fdalloc_holds (f : FileIx) : Holds (fdalloc f) s (fun r t => match r with
      | none => t = s ∧ ∀ fd, s.ofile fd ≠ none
      | some _ => True)
    (fun _ _ => True) := by
  refine get_bind ?_
  split
  · rename_i hnone
    refine Hoare.pure ⟨rfl, fun fd => ?_⟩
    simpa using List.find?_eq_none.mp hnone fd (List.mem_finRange fd)
  · exact Hoare.bind (trivial _ _) fun _ t _ => Hoare.pure True.intro

theorem fileclose_new {f : FileIx} (hzero : s.ref f = 0) (hobj : s.obj f = none) : Holds
    (fileclose f) { s with ref := update s.ref f 1 } (fun _ t => t = s) (fun _ _ => True) := by
  have hone : update s.ref f 1 f = 1 := update_self ..
  unfold fileclose
  refine get_bind ?_
  dsimp only
  rw [if_neg (by omega), if_neg (by omega), hobj]
  refine Hoare.bind (R := fun _ t => t = s) (Hoare.set ?_) fun _ t ht => Hoare.pure ht
  rw [Function.update_idem, ← hzero, Function.update_eq_self, ← hobj, Function.update_eq_self]

theorem openFile_failed (h : b.Taken (one ip) s.fs) (hobj : ∀ f, s.ref f = 0 → s.obj f = none) :
    Holds (openFile ip) s (fun r t => r = -1 → b.Taken 0 t.fs ∧ s.SameFiles t) (fun _ _ => True) :=
    by
  have hput : Holds (do onFs (iput ip); pure (-1) : OpenM ℤ) s
    (fun r t => r = -1 → b.Taken 0 t.fs ∧ s.SameFiles t) (fun _ _ => True) :=
    Hoare.bind (onFs_holds (iput_back h)) fun _ t ht => Hoare.pure fun _ => ht
  refine Hoare.bind filealloc_holds ?_
  rintro r t1 h1
  cases r with
  | none => exact h1.1 ▸ hput
  | some f =>
    obtain ⟨hzero, rfl⟩ := h1
    refine Hoare.bind (fdalloc_holds f) ?_
    rintro r t2 h2
    cases r with
    | none =>
      obtain ⟨rfl, -⟩ := h2
      refine Hoare.bind (fileclose_new hzero (hobj f hzero)) ?_
      exact fun _ t ht => ht ▸ hput
    | some fd =>
      refine Hoare.bind (trivial _ _) fun _ t _ => ?_
      exact Hoare.pure fun h => absurd h (by omega)

theorem openFile_succeeds (hentry : ∃ f, s.ref f = 0) (hfd : ∃ fd, s.ofile fd = none) :
    Holds (openFile ip) s (fun r _ => r ≠ -1) (fun _ _ => True) := by
  refine Hoare.bind filealloc_holds ?_
  rintro r t1 h1
  cases r with
  | none =>
    obtain ⟨f, hf⟩ := hentry
    exact absurd hf (h1.2 f)
  | some f =>
    obtain ⟨-, rfl⟩ := h1
    refine Hoare.bind (fdalloc_holds f) ?_
    rintro r t2 h2
    cases r with
    | none =>
      obtain ⟨fd, hfd⟩ := hfd
      exact absurd hfd (h2.2 fd)
    | some fd =>
      refine Hoare.bind (trivial _ _) fun _ t _ => ?_
      exact Hoare.pure (by omega)

theorem openExisting_taken {s : Fs} (hs : s.Linked) (hc : 0 < s.ref c) (path : Path) (omode : ℕ) :
    Holds (openExisting c path omode) s (fun r t => match r with
        | none => s.Taken 0 t
        | some i => s.Taken (one i) t ∧
            s.disk.resolve (startInode c path) (pathElems path) = some i)
      (fun _ _ => True) := by
  refine Hoare.bind (namei_taken hs hc path) ?_
  rintro r t1 h1
  cases r with
  | none => exact Hoare.pure h1
  | some ip =>
    refine Hoare.seq (ilock_taken h1.1 (by simp)) (fun _ _ _ => True.intro) ?_
    rintro _ t2 ⟨h2, -⟩
    refine get_bind ?_
    split
    · refine Hoare.bind (iput_back h2) ?_
      exact fun _ u hu => Hoare.pure hu
    · exact Hoare.pure ⟨h2, h1.2⟩

/-! ## `sys_open` -/

theorem openInode_holds {s : Fs} (hs : s.Sound) (hc : 0 < s.ref c) (path : Path)
    (omode : ℕ) (room : ℕ → Bool) : Holds (if omode &&& 0x200 ≠ 0 then create c path .file 0 0 room
        else openExisting c path omode) s
      (fun r t => match r with
        | none => s.Unchanged t
        | some i => s.Taken (one i) t ∨ omode &&& 0x200 ≠ 0 ∧
              s.disk.resolve (startInode c path) (pathElems path) = none ∧ (t.inode i).type = .file)
      (fun _ _ => True) := by
  split
  · rename_i hcreate
    refine Hoare.mono (create_failed hs hc path (by decide) 0 0 room) ?_ (fun _ _ h => h)
    rintro r t ht
    cases r with
    | none => exact ht
    | some i =>
      exact ht.imp_right fun ⟨hpath, htype⟩ =>
        ⟨hcreate, hpath, htype (by decide)⟩
  · refine Hoare.mono (openExisting_taken hs.linked hc path omode) ?_ (fun _ _ h => h)
    rintro r t ht
    cases r with
    | none => exact ht.unchanged
    | some i => exact Or.inl ht.1

end

/-- A process with `n` open descriptors. -/
def openState (disk : FsDisk) (n : ℕ) : OpenState where
  fs := fsinit disk
  ref := fun f => if f = 0 then n else 0
  obj := fun f => if f = 0 ∧ 0 < n then some (.inode 1) else none
  ofile := fun fd => if fd.val < n then some 0 else none

end Xv6
