import Xv6.Dinode
import Xv6.FileTable

/-!
# The inode table

This is the state machine of `iget`, `idup`, `ilock`, `iupdate`, `iunlock`,
`ialloc` and `iput`.  A section under `itable.lock` is one step, and so is one
between `bread` and `brelse` of an inode block; the inode blocks are what the
buffer cache shows.  A sleep-lock is held from the step that acquires it to the
one that releases it.

`refs` lists the references that there are, each with its owner.  Callers pass
an entry that they have a reference to, and do not give away a reference that
a process has, or waits for, the sleep-lock through.  They call `iupdate` after
a modification and before `iunlock`, and only `iput` changes `type`.
-/

namespace Xv6

instance : NeZero ninode := ⟨by decide⟩

/-- An index into `itable.inode`. -/
abbrev InodeIx := Fin ninode

/-- Who has a reference: a call in progress, a process as its `cwd`, or an
open file. -/
inductive InodeOwner
  | call (p : Slot)
  | cwd (p : Slot)
  | file (f : FileIx)
  deriving DecidableEq

/-- Whether `p` may use the references of an owner; a file is shared. -/
def InodeOwner.usable (p : Slot) : InodeOwner → Bool
  | .call q | .cwd q => q = p
  | .file _ => true

/-- Where `iput` is when it frees an inode. -/
inductive FreeStep
  | trunc
  | truncUpdate
  | clearType
  | update
  | invalidate
  | release
  | drop
  deriving DecidableEq

/-- Where a process is. -/
inductive InodePc
  | idle
  | acquiring (o : InodeOwner) (i : InodeIx)
  | reading (o : InodeOwner) (i : InodeIx)
  | freeing (k : FreeStep) (i : InodeIx)
  | searching (dev : ℕ) (type : Int16) (inum : ℕ)
  | getting (dev inum : ℕ)
  deriving DecidableEq

/-- `stale i` is a history variable: the holder of the sleep-lock has changed
its copy and not written it, or is freeing the inode.  `blocked` says that the
`acquiresleep` in `iput` has found the lock held. -/
structure InodeTable where
  dev : InodeIx → ℕ
  inum : InodeIx → ℕ
  ref : InodeIx → ℕ
  lock : InodeIx → Option (Slot × InodeOwner)
  valid : InodeIx → Bool
  copy : InodeIx → Dinode
  disk : ℕ → ℕ × Fin ipb → Dinode
  pc : Slot → InodePc
  panicked : Bool
  refs : List (InodeOwner × InodeIx)
  stale : InodeIx → Bool
  blocked : Bool

/-- After `iinit`. -/
def iinit (disk : ℕ → ℕ × Fin ipb → Dinode) : InodeTable where
  dev := fun _ => 0
  inum := fun _ => 0
  ref := fun _ => 0
  lock := fun _ => none
  valid := fun _ => false
  copy := fun _ => Dinode.fresh 0
  disk := disk
  pc := fun _ => .idle
  panicked := false
  refs := []
  stale := fun _ => false
  blocked := false

namespace InodeTable

/-- The pointer `dip` into the block. -/
def dinode (sb : InodeArea) (dev inum : ℕ) (s : InodeTable) : Dinode := s.disk dev (sb.iblock inum)

def setDinode (sb : InodeArea) (dev inum : ℕ) (d : Dinode) (s : InodeTable) : InodeTable :=
  { s with
    disk := Function.update s.disk dev
      (Function.update (s.disk dev) (sb.iblock inum) d) }

def goto (p : Slot) (k : InodePc) (s : InodeTable) : InodeTable :=
  { s with pc := Function.update s.pc p k }

def panic (s : InodeTable) : InodeTable := { s with panicked := true }

def setLock (i : InodeIx) (holder : Option (Slot × InodeOwner)) (s : InodeTable) : InodeTable :=
  { s with lock := Function.update s.lock i holder }

def setCopy (i : InodeIx) (d : Dinode) (s : InodeTable) : InodeTable :=
  { s with copy := Function.update s.copy i d }

def setValid (i : InodeIx) (valid : Bool) (s : InodeTable) : InodeTable :=
  { s with valid := Function.update s.valid i valid }

def setStale (i : InodeIx) (stale : Bool) (s : InodeTable) : InodeTable :=
  { s with stale := Function.update s.stale i stale }

/-! ## `fs.c` -/

/-- The loop of `iget`: an entry for the inode, or else the first empty one. -/
def igetScan (dev inum : ℕ) (s : InodeTable) :
    List InodeIx → Option InodeIx → InodeIx ⊕ Option InodeIx
  | [], empty => .inr empty
  | i :: is, empty =>
    if s.ref i > 0 ∧ s.dev i = dev ∧ s.inum i = inum then .inl i
    else
      igetScan dev inum s is
        (if empty = none ∧ s.ref i = 0 then some i else empty)

/-- `ip->ref++` for a new reference of `o`. -/
def addRef (o : InodeOwner) (i : InodeIx) (s : InodeTable) : InodeTable :=
  { s with
    ref := Function.update s.ref i (s.ref i + 1)
    refs := (o, i) :: s.refs }

def recycle (o : InodeOwner) (i : InodeIx) (dev inum : ℕ) (s : InodeTable) : InodeTable :=
  { s with
    dev := Function.update s.dev i dev
    inum := Function.update s.inum i inum
    ref := Function.update s.ref i 1
    valid := Function.update s.valid i false
    refs := (o, i) :: s.refs }

def iget (p : Slot) (dev inum : ℕ) (s : InodeTable) : InodeTable :=
  match s.igetScan dev inum (List.finRange ninode) none with
  | .inl i => s.addRef (.call p) i
  | .inr (some i) => s.recycle (.call p) i dev inum
  | .inr none => s.panic

/-- One round of the loop of `ialloc`. -/
def iallocRound (sb : InodeArea) (p : Slot) (dev : ℕ) (type : Int16)
    (inum : ℕ) (s : InodeTable) : InodeTable :=
  if inum < sb.ninodes then
    if (s.dinode sb dev inum).type = 0 then
      (s.setDinode sb dev inum (Dinode.fresh type)).goto p (.getting dev inum)
    else s.goto p (.searching dev type (inum + 1))
  else s.goto p .idle

def iupdate (sb : InodeArea) (i : InodeIx) (s : InodeTable) : InodeTable :=
  s.setDinode sb (s.dev i) (s.inum i) (s.copy i)

/-- `ilock` when it has the sleep-lock. -/
def ilockRead (sb : InodeArea) (p : Slot) (i : InodeIx) (s : InodeTable) : InodeTable :=
  if s.valid i = true then s.goto p .idle
  else if (s.dinode sb (s.dev i) (s.inum i)).type = 0 then
    ((s.setCopy i (s.dinode sb (s.dev i) (s.inum i))).setValid i true).panic
  else
    ((s.setCopy i (s.dinode sb (s.dev i) (s.inum i))).setValid i true).goto p
      .idle

def iunlock (p : Slot) (i : InodeIx) (s : InodeTable) : InodeTable :=
  if (s.lock i).map Prod.fst ≠ some p ∨ s.ref i < 1 then s.panic
  else s.setLock i none

/-- `ip->ref--`, which ends a reference of `o`. -/
def dropRef (o : InodeOwner) (i : InodeIx) (s : InodeTable) : InodeTable :=
  { s with
    ref := Function.update s.ref i (s.ref i - 1)
    refs := s.refs.erase (o, i) }

def giveRef (o o' : InodeOwner) (i : InodeIx) (s : InodeTable) : InodeTable :=
  { s with refs := (o', i) :: s.refs.erase (o, i) }

/-- `iput` up to the release of `itable.lock`. -/
def iput (p : Slot) (o : InodeOwner) (i : InodeIx) (s : InodeTable) : InodeTable :=
  if s.ref i = 1 ∧ s.valid i = true ∧ (s.copy i).nlink = 0 then
    if s.lock i = none then
      ((s.giveRef o (.call p) i).setLock i (some (p, .call p))).goto p
        (.freeing .trunc i)
    else { s with blocked := true }
  else s.dropRef o i

/-- The rest of `iput` when it frees the inode. -/
def iputFree (sb : InodeArea) (p : Slot) (i : InodeIx) (s : InodeTable) : FreeStep → InodeTable
  | .trunc =>
    ((s.setCopy i { s.copy i with size := 0, addrs := fun _ => 0 }).setStale
      i true).goto p (.freeing .truncUpdate i)
  | .truncUpdate =>
    ((s.iupdate sb i).setStale i false).goto p (.freeing .clearType i)
  | .clearType =>
    ((s.setCopy i { s.copy i with type := 0 }).setStale i true).goto p
      (.freeing .update i)
  | .update => (s.iupdate sb i).goto p (.freeing .invalidate i)
  | .invalidate =>
    ((s.setValid i false).setStale i false).goto p (.freeing .release i)
  | .release => (s.setLock i none).goto p (.freeing .drop i)
  | .drop => (s.dropRef (.call p) i).goto p .idle

def next (sb : InodeArea) (p : Slot) (s : InodeTable) : Option InodeTable :=
  match s.pc p with
  | .idle => none
  | .acquiring o i =>
    if s.lock i = none then
      some ((s.setLock i (some (p, o))).goto p (.reading o i))
    else none
  | .reading _ i => some (s.ilockRead sb p i)
  | .freeing k i => some (s.iputFree sb p i k)
  | .searching dev type inum => some (s.iallocRound sb p dev type inum)
  | .getting dev inum => some ((s.iget p dev inum).goto p .idle)

end InodeTable

/-- The reference that `p` uses in a call. -/
def InodePc.uses (p : Slot) : InodePc → Option (InodeOwner × InodeIx)
  | .acquiring o i | .reading o i => some (o, i)
  | .freeing _ i => some (.call p, i)
  | _ => none

namespace InodeTable

/-- Some process has the sleep-lock through the reference, or uses it in a
call. -/
def InUse (s : InodeTable) (o : InodeOwner) (i : InodeIx) : Prop :=
  ∃ q, (s.pc q).uses q = some (o, i) ∨ s.lock i = some (q, o)

instance (s : InodeTable) (o : InodeOwner) (i : InodeIx) : Decidable (s.InUse o i) :=
  inferInstanceAs (Decidable (∃ _, _))

/-- `p` has a reference that it may use. -/
def Has (s : InodeTable) (p : Slot) (o : InodeOwner) (i : InodeIx) : Prop :=
  (o, i) ∈ s.refs ∧ o.usable p = true

instance (s : InodeTable) (p : Slot) (o : InodeOwner) (i : InodeIx) : Decidable (s.Has p o i) :=
  inferInstanceAs (Decidable (_ ∧ _))

/-- `p` has a reference that it may give away. -/
def MayDrop (s : InodeTable) (p : Slot) (o : InodeOwner) (i : InodeIx) : Prop :=
  s.Has p o i ∧ (s.InUse o i → 2 ≤ s.refs.count (o, i))

instance (s : InodeTable) (p : Slot) (o : InodeOwner) (i : InodeIx) : Decidable (s.MayDrop p o i) :=
  inferInstanceAs (Decidable (_ ∧ _))

end InodeTable

inductive InodeLabel
  | iget (p : Slot) (dev inum : ℕ)
  | idup (p : Slot) (o : InodeOwner) (i : InodeIx) (o' : InodeOwner)
  | give (p : Slot) (o : InodeOwner) (i : InodeIx) (o' : InodeOwner)
  | ilock (p : Slot) (o : InodeOwner) (i : InodeIx)
  | modify (p : Slot) (i : InodeIx) (d : Dinode)
  | iupdate (p : Slot) (i : InodeIx)
  | iunlock (p : Slot) (i : InodeIx)
  | ialloc (p : Slot) (dev : ℕ) (type : Int16)
  | iput (p : Slot) (o : InodeOwner) (i : InodeIx)
  | next (p : Slot)

namespace InodeTable

/-- A process that is in none of these functions calls one. -/
def call (sb : InodeArea) (s : InodeTable) : InodeLabel → Option InodeTable
  | .iget p dev inum => some (s.iget p dev inum)
  | .idup p o i o' => if s.Has p o i then some (s.addRef o' i) else none
  | .give p o i o' =>
    if s.MayDrop p o i then some (s.giveRef o o' i) else none
  | .ilock p o i =>
    if s.Has p o i then
      if s.ref i < 1 then some s.panic else some (s.goto p (.acquiring o i))
    else none
  | .modify p i d =>
    if (s.lock i).map Prod.fst = some p ∧ d.type = (s.copy i).type then
      some ((s.setCopy i d).setStale i true)
    else none
  | .iupdate p i =>
    if (s.lock i).map Prod.fst = some p then
      some ((s.iupdate sb i).setStale i false)
    else none
  | .iunlock p i =>
    if (s.lock i).map Prod.fst = some p ∧ s.stale i = true then none
    else some (s.iunlock p i)
  | .ialloc p dev type => some (s.goto p (.searching dev type 1))
  | .iput p o i => if s.MayDrop p o i then some (s.iput p o i) else none
  | .next _ => none

end InodeTable

def InodeLabel.proc : InodeLabel → Slot
  | .iget p _ _ | .idup p _ _ _ | .give p _ _ _ | .ilock p _ _
  | .modify p _ _ | .iupdate p _ | .iunlock p _ | .ialloc p _ _ | .iput p _ _
  | .next p => p

def InodeTable.step (sb : InodeArea) (l : InodeLabel) (s : InodeTable) : Option InodeTable :=
  if s.panicked = true ∨ s.blocked = true then none else
  match s.pc l.proc with
  | .idle => s.call sb l
  | _ =>
    match l with
    | .next p => s.next sb p
    | _ => none

end Xv6
