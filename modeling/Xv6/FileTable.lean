import Xv6.ProcSystem

/-!
# The file table

This is the state machine of the calls that make and drop references to
entries of `ftable`: `open`, `dup`, `pipe`, `close`, `fork` and `exit`.  The
descriptors of a process are changed by the process alone, the counts under
`ftable.lock`; one step is one such change.  The part of `open` that finds the
inode, and the allocation of a slot in `fork`, come before anything here
happens and are not modelled, nor are `readable` and `off`.

The history variables number the files that have been opened: `openNo f` is the
number of the file in entry `f`, and `closed` lists the numbers of those whose
`pipeclose` or `iput` has been called.
-/

namespace Xv6

open Function (update)

instance : NeZero nofile := ⟨by decide⟩

instance : NeZero nfile := ⟨by decide⟩

abbrev Fd := Fin nofile

/-- An index into `ftable.file`. -/
abbrev FileIx := Fin nfile

/-- The contents of a `struct file` whose type is not `FD_NONE`, as far as
`fileclose` uses them. -/
inductive FileObj
  | pipe (pi : ℕ) (writable : Bool)
  | inode (ip : ℕ)
  | device (ip major : ℕ)
  deriving DecidableEq

/-- Where a process is.  `closing fs` has the references `fs` to drop,
`closeObj` has emptied an entry and is about to call `pipeclose` or `iput`;
`dupCount` has filled a descriptor and not counted it, and `exitClear` has
dropped the reference of a descriptor that it has not cleared. -/
inductive FilePc
  | user (ret : Option ℤ)
  | dupCount (f : FileIx) (fd : Fd)
  | closing (fs : List FileIx) (ret : ℤ)
  | closeObj (n : ℕ) (obj : FileObj) (fs : List FileIx) (ret : ℤ)
  | openFd (f : FileIx) (obj : FileObj)
  | openInit (f : FileIx) (fd : Fd) (obj : FileObj)
  | pipeFirst (f0 : FileIx)
  | pipeBoth (f0 f1 : FileIx)
  | pipeInit (f0 f1 : FileIx)
  | pipeFd (f0 f1 : FileIx) (fd0 : Fd)
  | pipeCopy (f0 f1 : FileIx) (fd0 fd1 : Fd)
  | forkFile (np : Slot) (i : ℕ)
  | forkSet (np : Slot) (fd : Fd) (f : FileIx)
  | exitFile (i : ℕ)
  | exitObj (fd : Fd) (n : ℕ) (obj : FileObj)
  | exitClear (fd : Fd)
  | exited
  deriving DecidableEq

/-- A slot of the process table, as `fork`, `exit` and `wait` use it. -/
inductive FileProc
  | unused
  | embryo
  | live
  | dead
  deriving DecidableEq

structure FileTable where
  ref : FileIx → ℕ
  obj : FileIx → Option FileObj
  ofile : Slot → Fd → Option FileIx
  status : Slot → FileProc
  pc : Slot → FilePc
  panicked : Bool
  openNo : FileIx → ℕ
  opens : ℕ
  closed : List ℕ

/-- After `fileinit` and `userinit`. -/
def fileinit : FileTable where
  ref := fun _ => 0
  obj := fun _ => none
  ofile := fun _ _ => none
  status := update (fun _ => .unused) initproc .live
  pc := fun _ => .user none
  panicked := false
  openNo := fun _ => 0
  opens := 0
  closed := []

namespace FileTable

def goto (p : Slot) (k : FilePc) (s : FileTable) : FileTable := { s with pc := update s.pc p k }

def setOfile (p : Slot) (fd : Fd) (f : Option FileIx) (s : FileTable) : FileTable :=
  { s with
    ofile := update s.ofile p (update (s.ofile p) fd f) }

/-! ## `file.c` -/

/-- The loop of `filealloc`: the first entry with `ref == 0`. -/
def filealloc (s : FileTable) : Option FileIx := (List.finRange nfile).find? fun f => s.ref f = 0

def setRef (f : FileIx) (n : ℕ) (s : FileTable) : FileTable := { s with ref := update s.ref f n }

def filedup (f : FileIx) (s : FileTable) : FileTable :=
  if s.ref f < 1 then { s with panicked := true }
  else s.setRef f (s.ref f + 1)

/-- The last reference is gone: `f->ref = 0; f->type = FD_NONE`. -/
def clearFile (f : FileIx) (s : FileTable) : FileTable :=
  { s with
    ref := update s.ref f 0
    obj := update s.obj f none }

/-- `fileclose` under `ftable.lock`. -/
def fileclose (f : FileIx) (s : FileTable) : FileTable :=
  if s.ref f < 1 then { s with panicked := true }
  else if s.ref f - 1 > 0 then s.setRef f (s.ref f - 1)
  else s.clearFile f

/-- The copy `ff` that `fileclose` has to close, if the reference was the
last one and the type is not `FD_NONE`. -/
def lastClose (f : FileIx) (s : FileTable) : Option (ℕ × FileObj) :=
  if s.ref f = 1 then (s.obj f).map fun obj => (s.openNo f, obj) else none

/-- `pipeclose(ff.pipe, ff.writable)`, or `iput(ff.ip)`. -/
def closeObj (n : ℕ) (s : FileTable) : FileTable := { s with closed := s.closed ++ [n] }

def initFile (f : FileIx) (obj : FileObj) (s : FileTable) : FileTable :=
  { s with
    obj := update s.obj f (some obj)
    openNo := update s.openNo f s.opens
    opens := s.opens + 1 }

/-! ## `sysfile.c` and `proc.c` -/

def argfd (p : Slot) (fd : ℤ) (s : FileTable) : Option (Fd × FileIx) :=
  if h : fd.toNat < nofile ∧ 0 ≤ fd then
    (s.ofile p ⟨fd.toNat, h.1⟩).map fun f => (⟨fd.toNat, h.1⟩, f)
  else none

/-- The loop of `fdalloc`: the first free descriptor. -/
def fdalloc (p : Slot) (s : FileTable) : Option Fd :=
  (List.finRange nofile).find? fun fd => s.ofile p fd = none

/-- `argfd` and `fdalloc` in `sys_dup`. -/
def sysDup (p : Slot) (fd : ℤ) (s : FileTable) : FileTable :=
  match s.argfd p fd with
  | none => s.goto p (.user (some (-1)))
  | some (_, f) =>
    match s.fdalloc p with
    | none => s.goto p (.user (some (-1)))
    | some new => (s.setOfile p new (some f)).goto p (.dupCount f new)

/-- `argfd` and the clearing of the descriptor in `sys_close`. -/
def sysClose (p : Slot) (fd : ℤ) (s : FileTable) : FileTable :=
  match s.argfd p fd with
  | none => s.goto p (.user (some (-1)))
  | some (old, f) => (s.setOfile p old none).goto p (.closing [f] 0)

/-- `filealloc` in `sys_open`, which is to open `obj`. -/
def sysOpen (p : Slot) (obj : FileObj) (s : FileTable) : FileTable :=
  match s.filealloc with
  | none => s.goto p (.user (some (-1)))
  | some f => (s.setRef f 1).goto p (.openFd f obj)

/-- The first `filealloc` of `pipealloc` in `sys_pipe`. -/
def sysPipe (p : Slot) (s : FileTable) : FileTable :=
  match s.filealloc with
  | none => s.goto p (.user (some (-1)))
  | some f0 => (s.setRef f0 1).goto p (.pipeFirst f0)

/-- `fileclose` in a call that has further references `fs` to drop. -/
def closeNext (p : Slot) (f : FileIx) (fs : List FileIx) (ret : ℤ) (s : FileTable) : FileTable :=
  (s.fileclose f).goto p <|
    match s.lastClose f with
    | none => .closing fs ret
    | some (n, obj) => .closeObj n obj fs ret

/-- `fileclose` in `exit`. -/
def exitClose (p : Slot) (fd : Fd) (f : FileIx) (s : FileTable) : FileTable :=
  (s.fileclose f).goto p <|
    match s.lastClose f with
    | none => .exitClear fd
    | some (n, obj) => .exitObj fd n obj

/-- One descriptor in the loop of `fork`, or its end; `pid`s are not
modelled. -/
def forkFile (p np : Slot) (i : ℕ) (s : FileTable) : FileTable := if hi : i < nofile then
    match s.ofile p ⟨i, hi⟩ with
    | none => s.goto p (.forkFile np (i + 1))
    | some f => (s.filedup f).goto p (.forkSet np ⟨i, hi⟩ f)
  else
    ({ s with status := update s.status np .live }.goto np (.user (some 0))).goto p (.user none)

/-- One descriptor in the loop of `exit`, or its end. -/
def exitFile (p : Slot) (i : ℕ) (s : FileTable) : FileTable := if hi : i < nofile then
    match s.ofile p ⟨i, hi⟩ with
    | none => s.goto p (.exitFile (i + 1))
    | some f => s.exitClose p ⟨i, hi⟩ f
  else
    { s with status := update s.status p .dead }.goto p .exited

/-- The next step of a call.  `ok` says whether `kalloc` and `copyout`
succeed, and `pi` is the page that `kalloc` returns. -/
def next (p : Slot) (ok : Bool) (pi : ℕ) (s : FileTable) : Option FileTable :=
  match s.pc p with
  | .user _ | .exited => none
  | .dupCount f fd =>
    some ((s.filedup f).goto p (.user (some fd.val)))
  | .closing [] ret => some (s.goto p (.user (some ret)))
  | .closing (f :: fs) ret => some (s.closeNext p f fs ret)
  | .closeObj n _ fs ret => some ((s.closeObj n).goto p (.closing fs ret))
  | .openFd f obj =>
    match s.fdalloc p with
    | none => some (s.goto p (.closing [f] (-1)))
    | some fd =>
      some ((s.setOfile p fd (some f)).goto p (.openInit f fd obj))
  | .openInit f fd obj =>
    some ((s.initFile f obj).goto p (.user (some fd.val)))
  | .pipeFirst f0 =>
    match s.filealloc with
    | none => some (s.goto p (.closing [f0] (-1)))
    | some f1 => some ((s.setRef f1 1).goto p (.pipeBoth f0 f1))
  | .pipeBoth f0 f1 =>
    if ok = true then
      some (((s.initFile f0 (.pipe pi false)).initFile f1 (.pipe pi true)).goto p (.pipeInit f0 f1))
    else some (s.goto p (.closing [f0, f1] (-1)))
  | .pipeInit f0 f1 =>
    match s.fdalloc p with
    | none => some (s.goto p (.closing [f0, f1] (-1)))
    | some fd0 =>
      some ((s.setOfile p fd0 (some f0)).goto p (.pipeFd f0 f1 fd0))
  | .pipeFd f0 f1 fd0 =>
    match s.fdalloc p with
    | none =>
      some ((s.setOfile p fd0 none).goto p (.closing [f0, f1] (-1)))
    | some fd1 =>
      some ((s.setOfile p fd1 (some f1)).goto p (.pipeCopy f0 f1 fd0 fd1))
  | .pipeCopy f0 f1 fd0 fd1 =>
    if ok = true then some (s.goto p (.user (some 0)))
    else
      some (((s.setOfile p fd0 none).setOfile p fd1 none).goto p (.closing [f0, f1] (-1)))
  | .forkFile np i => some (s.forkFile p np i)
  | .forkSet np fd f =>
    some ((s.setOfile np fd (some f)).goto p (.forkFile np (fd + 1)))
  | .exitFile i => some (s.exitFile p i)
  | .exitObj fd n _ => some ((s.closeObj n).goto p (.exitClear fd))
  | .exitClear fd =>
    some ((s.setOfile p fd none).goto p (.exitFile (fd + 1)))

end FileTable

inductive FileLabel
  | dup (p : Slot) (fd : ℤ)
  | close (p : Slot) (fd : ℤ)
  | open (p : Slot) (obj : FileObj)
  | pipe (p : Slot)
  | fork (p np : Slot)
  | exit (p : Slot)
  | next (p : Slot) (ok : Bool) (pi : ℕ)
  | reap (p : Slot)

namespace FileTable

def call (p : Slot) (f : FileTable → FileTable) (s : FileTable) : Option FileTable :=
  match s.status p, s.pc p with
  | .live, .user _ => some (f s)
  | _, _ => none

/-- One step of the processes.  After a panic nothing happens. -/
def step (l : FileLabel) (s : FileTable) : Option FileTable := if s.panicked = true then none else
  match l with
  | .dup p fd => s.call p (sysDup p fd)
  | .close p fd => s.call p (sysClose p fd)
  | .open p obj => s.call p (sysOpen p obj)
  | .pipe p => s.call p (sysPipe p)
  | .fork p np =>
    if s.status np = .unused then
      s.call p fun s =>
        { s with status := update s.status np .embryo }.goto p
          (.forkFile np 0)
    else none
  | .exit p =>
    if p = initproc then none else s.call p (goto p (.exitFile 0))
  | .next p ok pi =>
    if s.status p = .live then s.next p ok pi else none
  | .reap p =>
    if s.status p = .dead then
      some { s with status := update s.status p .unused }
    else none

end FileTable

end Xv6
