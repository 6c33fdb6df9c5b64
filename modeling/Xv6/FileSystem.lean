import Xv6.Directory
import Xv6.Dinode
import Xv6.ProcSystem

/-!
# The name space of the file system

These are the system calls that change directories and link counts, as
functions on the inodes, the in-memory references to them, the open files and
the current directories.  A call is run as a whole.  The contents of files that
are not directories are not modelled, nor are the blocks that hold directories:
whether `balloc` finds a block when a directory grows is a parameter of a call.
Descriptors are left out as well; an open file is closed when its last
descriptor is.
-/

namespace Xv6

open Function (update)

def rootIno : ℕ := 1

def maxPath : ℕ := 128

def ndev : Int16 := 10

/-- `BSIZE / sizeof(struct dirent)`. -/
def entriesPerBlock : ℕ := bsize / 16

/-- `MAXFILE * BSIZE / sizeof(struct dirent)`. -/
def maxEntries : ℕ := (ndirect + bsize / 4) * entriesPerBlock

inductive InodeType
  | free
  | dir
  | file
  | device
  deriving DecidableEq

structure Inode where
  type : InodeType
  major : Int16
  minor : Int16
  nlink : Int16
  entries : List Dirent
  deriving DecidableEq

/-- The inodes.  The history variable `gen` counts how often an inode number
has been allocated. -/
structure FsDisk where
  ninodes : ℕ
  inode : ℕ → Inode
  gen : ℕ → ℕ

namespace FsDisk

def setInode (i : ℕ) (n : Inode) (t : FsDisk) : FsDisk := { t with inode := update t.inode i n }

def setNlink (i : ℕ) (nlink : Int16) (t : FsDisk) : FsDisk :=
  t.setInode i { t.inode i with nlink := nlink }

def setEntries (d : ℕ) (es : List Dirent) (t : FsDisk) : FsDisk :=
  t.setInode d { t.inode d with entries := es }

def alloc (i : ℕ) (type : InodeType) (t : FsDisk) : FsDisk :=
  { t.setInode i ⟨type, 0, 0, 0, []⟩ with
    gen := update t.gen i (t.gen i + 1) }

/-- `itrunc(ip); ip->type = 0`. -/
def free (i : ℕ) (t : FsDisk) : FsDisk :=
  t.setInode i { t.inode i with type := .free, entries := [] }

end FsDisk

/-- How a call can end without returning: a panic, or waiting for a lock that
it holds itself. -/
inductive FsStop
  | ilock
  | noType
  | igetNoInodes
  | notDir
  | unlinkNlink
  | deadlock
  deriving DecidableEq

/-- The history variables say that a link count has wrapped around, that an
entry has been written in a directory without links, and that a directory has
been removed while it was in use. -/
structure Fs where
  disk : FsDisk
  ref : ℕ → ℕ
  valid : ℕ → Bool
  cwd : Slot → Option ℕ
  files : List ℕ
  stopped : Option FsStop
  wrapped : Bool
  strayed : Bool
  orphaned : Bool

/-- After `userinit` has set the `cwd` of the first process. -/
def fsinit (disk : FsDisk) : Fs where
  disk := disk
  ref := update (fun _ => 0) rootIno 1
  valid := fun _ => false
  cwd := update (fun _ => none) initproc (some rootIno)
  files := []
  stopped := none
  wrapped := false
  strayed := false
  orphaned := false

abbrev FsM := EStateM FsStop Fs

namespace Fs

def inode (s : Fs) (i : ℕ) : Inode := s.disk.inode i

/-- The number of entries of `itable` in use. -/
def inUse (s : Fs) : ℕ := (List.range s.disk.ninodes).countP fun i => 0 < s.ref i

def setRef (i n : ℕ) (s : Fs) : Fs := { s with ref := update s.ref i n }

def setValid (i : ℕ) (valid : Bool) (s : Fs) : Fs := { s with valid := update s.valid i valid }

def setDisk (disk : FsDisk) (s : Fs) : Fs := { s with disk := disk }

/-- A reference is dropped; with the last one an inode without links is
freed. -/
def putInode (i : ℕ) (s : Fs) : Fs := if s.ref i = 1 ∧ s.valid i = true ∧ (s.inode i).nlink = 0 then
    ((s.setDisk (s.disk.free i)).setValid i false).setRef i (s.ref i - 1)
  else s.setRef i (s.ref i - 1)

/-- Entry `off` of a directory is written. -/
def writeAt (d off : ℕ) (e : Dirent) (s : Fs) : Fs :=
  { s.setDisk (s.disk.setEntries d (writeEntry (s.inode d).entries off e)) with
    strayed := s.strayed || decide ¬ 0 < (s.inode d).nlink }

def linkUp (i : ℕ) (s : Fs) : Fs :=
  { s.setDisk (s.disk.setNlink i ((s.inode i).nlink + 1)) with
    wrapped := s.wrapped || decide ((s.inode i).nlink = 32767) }

def linkDown (i : ℕ) (s : Fs) : Fs := s.setDisk (s.disk.setNlink i ((s.inode i).nlink - 1))

/-- A directory is removed to which there may be other references. -/
def markOrphan (i : ℕ) (s : Fs) : Fs := { s with orphaned := s.orphaned || decide (1 < s.ref i) }

end Fs

/-! ## `fs.c` -/

def iget (i : ℕ) : FsM Unit := do
  let s ← get
  if 0 < s.ref i then set (s.setRef i (s.ref i + 1))
  else if s.inUse < ninode then set ((s.setRef i 1).setValid i false)
  else throw .igetNoInodes

def idup (i : ℕ) : FsM Unit := modify fun s => s.setRef i (s.ref i + 1)

def ilock (i : ℕ) : FsM Unit := do
  let s ← get
  if s.ref i < 1 then throw .ilock
  else if s.valid i = true then pure ()
  else if (s.inode i).type = .free then throw .noType
  else set (s.setValid i true)

/-- Also `iunlockput`. -/
def iput (i : ℕ) : FsM Unit := modify (Fs.putInode i)

def dirlookup (d : ℕ) (name : Name) : FsM (Option (ℕ × ℕ)) := do
  let s ← get
  if (s.inode d).type ≠ .dir then throw .notDir
  else
    match lookupEntry name (s.inode d).entries 0 with
    | none => pure none
    | some (i, off) => do
      iget i
      pure (some (i, off))

/-- `writei` of one entry. -/
def writeDir (d off : ℕ) (e : Dirent) : FsM Unit := modify (Fs.writeAt d off e)

/-- `room d` says whether `balloc` finds a block for directory `d`. -/
def dirlink (d : ℕ) (name : Name) (i : ℕ) (room : ℕ → Bool) : FsM Bool := do
  match ← dirlookup d name with
  | some (ip, _) => do
    iput ip
    pure false
  | none => do
    let s ← get
    let off := emptyEntry (s.inode d).entries
    if off = (s.inode d).entries.length ∧
        (maxEntries ≤ off ∨ off % entriesPerBlock = 0 ∧ room d = false) then
      pure false
    else do
      writeDir d off ⟨i % 2 ^ 16, name, s.disk.gen i⟩
      pure true

def ialloc (type : InodeType) : FsM (Option ℕ) := do
  let s ← get
  match (List.range s.disk.ninodes).find? fun i =>
      1 ≤ i ∧ (s.inode i).type = .free with
  | none => pure none
  | some i => do
    modify fun s => s.setDisk (s.disk.alloc i type)
    iget i
    pure (some i)

/-- The loop of `namex`; `skipelem` gives the elements one after another. -/
def namexLoop (parent : Bool) : List Name → ℕ → FsM (Option (ℕ × Name))
  | [], i =>
    if parent = true then do
      iput i
      pure none
    else pure (some (i, []))
  | name :: rest, i => do
    ilock i
    let s ← get
    if (s.inode i).type ≠ .dir then do
      iput i
      pure none
    else if parent = true ∧ rest = [] then pure (some (i, name))
    else
      match ← dirlookup i name with
      | none => do
        iput i
        pure none
      | some (next, _) => do
        iput i
        namexLoop parent rest next

/-- `c` is the `cwd` of the process. -/
def namex (c : ℕ) (path : Path) (parent : Bool) : FsM (Option (ℕ × Name)) :=
  if path.head? = some slash then do
    iget rootIno
    namexLoop parent (pathElems path) rootIno
  else do
    idup c
    namexLoop parent (pathElems path) c

def namei (c : ℕ) (path : Path) : FsM (Option ℕ) := do
  match ← namex c path false with
  | none => pure none
  | some (i, _) => pure (some i)

def nameiparent (c : ℕ) (path : Path) : FsM (Option (ℕ × Name)) := namex c path true

/-! ## `sysfile.c` -/

/-- `ip->nlink++; iupdate(ip)`. -/
def incNlink (i : ℕ) : FsM Unit := modify (Fs.linkUp i)

/-- `ip->nlink--; iupdate(ip)`. -/
def decNlink (i : ℕ) : FsM Unit := modify (Fs.linkDown i)

/-- The label `bad` of `sys_link`. -/
def linkBad (i : ℕ) : FsM ℤ := do
  ilock i
  decNlink i
  iput i
  pure (-1)

/-- `sys_link` when it has counted the new link to `ip`. -/
def linkNew (c ip : ℕ) (new : Path) (room : ℕ → Bool) : FsM ℤ := do
  match ← nameiparent c new with
  | none => linkBad ip
  | some (dp, name) => do
    ilock dp
    if ← dirlink dp name ip room then do
      iput dp
      iput ip
      pure 0
    else do
      iput dp
      linkBad ip

def sysLink (c : ℕ) (old new : Path) (room : ℕ → Bool) : FsM ℤ := do
  if maxPath ≤ old.length ∨ maxPath ≤ new.length then pure (-1)
  else
    match ← namei c old with
    | none => pure (-1)
    | some ip => do
      ilock ip
      let s ← get
      if (s.inode ip).type = .dir then do
        iput ip
        pure (-1)
      else do
        incNlink ip
        linkNew c ip new room

/-- `dp->nlink--` if a directory `ip` is removed. -/
def uncountParent (dp ip : ℕ) (type : InodeType) : FsM Unit := if type = .dir then do
    decNlink dp
    modify (Fs.markOrphan ip)
  else pure ()

/-- `sys_unlink` when it has found the entry `off` of `dp` and locked the inode
`ip` that it names. -/
def unlinkEntry (dp ip off : ℕ) : FsM ℤ := do
  let s ← get
  if (s.inode ip).nlink < 1 then throw .unlinkNlink
  else if (s.inode ip).type = .dir ∧ isdirempty (s.inode ip).entries = false
  then do
    iput ip
    iput dp
    pure (-1)
  else do
    writeDir dp off Dirent.zero
    uncountParent dp ip (s.inode ip).type
    iput dp
    decNlink ip
    iput ip
    pure 0

def sysUnlink (c : ℕ) (path : Path) : FsM ℤ := do
  if maxPath ≤ path.length then pure (-1)
  else
    match ← nameiparent c path with
    | none => pure (-1)
    | some (dp, name) => do
      ilock dp
      if name = dot ∨ name = dotdot then do
        iput dp
        pure (-1)
      else
        match ← dirlookup dp name with
        | none => do
          iput dp
          pure (-1)
        | some (ip, off) =>
          if ip = dp then throw .deadlock
          else do
            ilock ip
            unlinkEntry dp ip off

/-- The calls of `dirlink` in `create`. -/
def createLinks (dp ip : ℕ) (name : Name) (type : InodeType) (room : ℕ → Bool) : FsM Bool := do
  if type = .dir then
    if ← dirlink ip dot ip room then
      if ← dirlink ip dotdot dp room then dirlink dp name ip room
      else pure false
    else pure false
  else dirlink dp name ip room

/-- `dp->nlink++` for the ".." of a new directory. -/
def countParent (dp : ℕ) (type : InodeType) : FsM Unit :=
  if type = .dir then incNlink dp else pure ()

/-- `create` when `ip` has been allocated. -/
def createInode (dp ip : ℕ) (name : Name) (type : InodeType)
    (major minor : Int16) (room : ℕ → Bool) : FsM (Option ℕ) := do
  ilock ip
  modify fun s => s.setDisk (s.disk.setInode ip
    { s.inode ip with major := major, minor := minor, nlink := 1 })
  if ← createLinks dp ip name type room then do
    countParent dp type
    iput dp
    pure (some ip)
  else do
    modify fun s => s.setDisk (s.disk.setNlink ip 0)
    iput ip
    iput dp
    pure none

/-- `create` when the name is not in `dp`. -/
def createNew (dp : ℕ) (name : Name) (type : InodeType) (major minor : Int16)
    (room : ℕ → Bool) : FsM (Option ℕ) := do
  match ← ialloc type with
  | none => do
    iput dp
    pure none
  | some ip => createInode dp ip name type major minor room

def create (c : ℕ) (path : Path) (type : InodeType) (major minor : Int16)
    (room : ℕ → Bool) : FsM (Option ℕ) := do
  match ← nameiparent c path with
  | none => pure none
  | some (dp, name) => do
    ilock dp
    match ← dirlookup dp name with
    | some (ip, _) => do
      iput dp
      ilock ip
      let s ← get
      if type = .file ∧ ((s.inode ip).type = .file ∨ (s.inode ip).type = .device) then
        pure (some ip)
      else do
        iput ip
        pure none
    | none => createNew dp name type major minor room

/-- `sys_open` without `O_CREATE`, up to the check of the device number. -/
def openExisting (c : ℕ) (path : Path) (omode : ℕ) : FsM (Option ℕ) := do
  match ← namei c path with
  | none => pure none
  | some ip => do
    ilock ip
    let s ← get
    if (s.inode ip).type = .dir ∧ omode ≠ 0 then do
      iput ip
      pure none
    else pure (some ip)

/-- `fd` is the descriptor, if `filealloc` and `fdalloc` succeed. -/
def sysOpen (c : ℕ) (path : Path) (omode : ℕ) (fd : Option ℕ) (room : ℕ → Bool) : FsM ℤ := do
  if maxPath ≤ path.length then pure (-1)
  else
    match ← (if omode &&& 0x200 ≠ 0 then create c path .file 0 0 room
        else openExisting c path omode) with
    | none => pure (-1)
    | some ip => do
      let s ← get
      if (s.inode ip).type = .device ∧ ((s.inode ip).major < 0 ∨ ndev ≤ (s.inode ip).major) then do
        iput ip
        pure (-1)
      else
        match fd with
        | none => do
          iput ip
          pure (-1)
        | some n => do
          modify fun s => { s with files := ip :: s.files }
          pure n

def sysMkdir (c : ℕ) (path : Path) (room : ℕ → Bool) : FsM ℤ := do
  if maxPath ≤ path.length then pure (-1)
  else
    match ← create c path .dir 0 0 room with
    | none => pure (-1)
    | some ip => do
      iput ip
      pure 0

def sysMknod (c : ℕ) (path : Path) (major minor : Int16) (room : ℕ → Bool) : FsM ℤ := do
  if maxPath ≤ path.length then pure (-1)
  else
    match ← create c path .device major minor room with
    | none => pure (-1)
    | some ip => do
      iput ip
      pure 0

def sysChdir (p : Slot) (c : ℕ) (path : Path) : FsM ℤ := do
  if maxPath ≤ path.length then pure (-1)
  else
    match ← namei c path with
    | none => pure (-1)
    | some ip => do
      ilock ip
      let s ← get
      if (s.inode ip).type ≠ .dir then do
        iput ip
        pure (-1)
      else do
        iput c
        modify fun s => { s with cwd := update s.cwd p (some ip) }
        pure 0

/-- The last `fileclose` of an open file. -/
def closeFile (i : ℕ) : FsM ℤ := do
  modify fun s => { s with files := s.files.erase i }
  iput i
  pure 0

/-- `exit` when the files are closed. -/
def exitCwd (p : Slot) (c : ℕ) : FsM ℤ := do
  iput c
  modify fun s => { s with cwd := update s.cwd p none }
  pure 0

/-- The copy of the `cwd` in `fork`. -/
def forkCwd (np : Slot) (c : ℕ) : FsM ℤ := do
  idup c
  modify fun s => { s with cwd := update s.cwd np (some c) }
  pure 0

inductive FsCall
  | open (path : Path) (omode : ℕ) (fd : Option ℕ) (room : ℕ → Bool)
  | mkdir (path : Path) (room : ℕ → Bool)
  | mknod (path : Path) (major minor : Int16) (room : ℕ → Bool)
  | link (old new : Path) (room : ℕ → Bool)
  | unlink (path : Path)
  | chdir (path : Path)
  | close (i : ℕ)
  | exit
  | fork (np : Slot)

namespace Fs

/-- A call by process `p`, whose `cwd` is `c`. -/
def call (p : Slot) (c : ℕ) (s : Fs) : FsCall → Option (FsM ℤ)
  | .open path omode fd room => some (sysOpen c path omode fd room)
  | .mkdir path room => some (sysMkdir c path room)
  | .mknod path major minor room => some (sysMknod c path major minor room)
  | .link old new room => some (sysLink c old new room)
  | .unlink path => some (sysUnlink c path)
  | .chdir path => some (sysChdir p c path)
  | .close i => if i ∈ s.files then some (closeFile i) else none
  | .exit => if p = initproc then none else some (exitCwd p c)
  | .fork np => if s.cwd np = none then some (forkCwd np c) else none

/-- A process makes a call.  After a panic nothing happens. -/
def step (l : Slot × FsCall) (s : Fs) : Option Fs := if s.stopped ≠ none then none else
  match s.cwd l.1 with
  | none => none
  | some c =>
    match s.call l.1 c l.2 with
    | none => none
    | some x =>
      match x s with
      | .ok _ t => some t
      | .error e t => some { t with stopped := some e }

end Fs

end Xv6
