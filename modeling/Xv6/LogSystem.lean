import Xv6.BufferCache
import Xv6.Lib.Machine

/-!
# The log and the buffer cache as one machine

This is the state machine of `log.c` on top of `bio.c`.  Any number of
processes run file system operations: each calls `begin_op`, reads blocks with
`bread`, changes them, passes them to `log_write`, releases them with `brelse`
and calls `end_op`; the last `end_op` runs `commit`.  The machine may lose
power between any two steps.  It then keeps nothing but the disk, and the
first process runs `recover_from_log` before anybody else may use the file
system.

A step is one critical section under a spin-lock, one acquisition of a buffer's
sleep-lock, one transfer of a block between memory and disk, or one change of
a locked buffer.  The code that `log.c` itself runs, `commit` and
`recover_from_log` with the functions they call, is followed statement by
statement: `LogPc` has one constructor for each.

The second half of `LogState` holds history variables.  No step looks at them;
they record what has happened, so that it can be stated.
-/

namespace Xv6

open Function (update)

/-- The part of the superblock that the log needs. -/
structure LogGeometry where
  logstart : ℕ
  nlog : ℕ

/-- Blocks from `logstart` on, the header block first, are the log. -/
def LogGeometry.inLog (g : LogGeometry) (b : ℕ) : Prop := g.logstart ≤ b ∧ b < g.logstart + g.nlog

instance (g : LogGeometry) (b : ℕ) : Decidable (g.inLog b) := by
  unfold LogGeometry.inLog
  infer_instance

/-- `struct log`; `lh` lists `block[0]` to `block[n-1]`. -/
structure Log where
  outstanding : ℕ
  committing : Bool
  lh : List ℕ

inductive Panic
  | noBuffers
  | bwrite
  | brelse
  | committing
  | tooBig
  | outsideTrans
  deriving DecidableEq

/-- The three calls of `write_head`: the commit point, the erasure at the end
of `commit`, and the erasure at the end of `recover_from_log`. -/
inductive HeadUse
  | commit
  | erase
  | recover
  deriving DecidableEq

/-- The statement of `commit` or `recover_from_log`, or of a function that
they call, that is to be executed next, with the local variables that are
still in use.  The flag of the `install_trans` statements is its argument
`recovering`. -/
inductive LogPc
  | commit
  | writeLogTest (tail : ℕ)
  | writeLogTo (tail : ℕ)
  | writeLogFrom (tail dst : ℕ)
  | writeLogCopy (tail dst src : ℕ)
  | writeLogWrite (tail dst src : ℕ)
  | writeLogRelFrom (tail dst src : ℕ)
  | writeLogRelTo (tail dst : ℕ)
  | headRead (use : HeadUse)
  | headFill (use : HeadUse) (buf : ℕ)
  | headWrite (use : HeadUse) (buf : ℕ)
  | headRel (use : HeadUse) (buf : ℕ)
  | installTest (recovering : Bool) (tail : ℕ)
  | installLog (recovering : Bool) (tail : ℕ)
  | installDst (recovering : Bool) (tail lbuf : ℕ)
  | installCopy (recovering : Bool) (tail lbuf dbuf : ℕ)
  | installWrite (recovering : Bool) (tail lbuf dbuf : ℕ)
  | installUnpin (tail lbuf dbuf : ℕ)
  | installRelLog (recovering : Bool) (tail lbuf dbuf : ℕ)
  | installRelDst (recovering : Bool) (tail dbuf : ℕ)
  | clear (recovering : Bool)
  | recoverRead
  | recoverHead (buf : ℕ)
  | recoverRel (buf : ℕ)
  | done (recovering : Bool)
  deriving DecidableEq

/-- Where a process is with respect to the log: outside any operation, asleep
in `begin_op`, woken there, inside an operation, or running the log's own
code. -/
inductive Mode
  | outside
  | asleep
  | ready
  | inside
  | logging (pc : LogPc)
  deriving DecidableEq

/-- The call of `bio.c` that a process is in.  `want` waits for the sleep-lock
of the buffer that `bget` chose for block `blockno`, `check` holds it and is
about to test `valid`, and `drop` has released it inside `brelse`. -/
inductive Call
  | none
  | want (i blockno : ℕ)
  | check (i blockno : ℕ)
  | drop (i : ℕ)
  deriving DecidableEq

/-- An operation that has begun since the last commit, and the distinct blocks
that it has logged. -/
structure Op where
  pid : ℕ
  live : Bool
  blocks : List ℕ

structure LogState where
  disk : ℕ → Block
  bcache : Bcache
  log : Log
  mode : ℕ → Mode
  call : ℕ → Call
  booted : Bool
  panic : Option Panic
  -- references to buffers: one pair (process, buffer) for each
  refs : List (ℕ × ℕ)
  -- buffers changed since they were last logged or written
  dirty : List ℕ
  -- blocks that log_write has pinned and install_trans has not unpinned
  pins : List ℕ
  -- what the most recent change of each block has made of it
  latest : ℕ → Block
  -- operations since the last commit
  ops : List Op
  -- home blocks that the running commit has written
  installed : List ℕ
  -- the transactions whose commit has started, except those that a crash has
  -- undone, and how many commit records have reached the disk
  started : List (List (ℕ × Block))
  committed : ℕ

/-! ## Buffers -/

def LogState.buf (s : LogState) (i : ℕ) : Buf := s.bcache.buf i

def LogState.setBuf (s : LogState) (i : ℕ) (b : Buf) : LogState :=
  { s with bcache := s.bcache.set i b }

/-- `bget` up to the release of `bcache.lock`. -/
def LogState.bget (s : LogState) (p blockno : ℕ) : LogState :=
  match Xv6.bget rootDev blockno s.bcache with
  | none => { s with panic := some .noBuffers }
  | some (i, c) =>
    { s with
      bcache := c
      call := update s.call p (.want i blockno)
      refs := (p, i) :: s.refs }

/-- The end of `acquiresleep(&b->lock)` in `bget`. -/
def LogState.acquiresleep (s : LogState) (p i blockno : ℕ) : LogState :=
  { s.setBuf i { s.buf i with lock := some p } with
    call := update s.call p (.check i blockno) }

/-- `bread` after `bget`: read the block unless the buffer is valid. -/
def LogState.fill (s : LogState) (p i : ℕ) : LogState :=
  { s.setBuf i
      (if (s.buf i).valid = true then s.buf i
       else { s.buf i with data := s.disk (s.buf i).blockno, valid := true })
    with call := update s.call p .none }

def LogState.store (s : LogState) (i : ℕ) (data : Block) : LogState :=
  { s.setBuf i { s.buf i with data := data } with
    dirty := i :: s.dirty
    latest := update s.latest (s.buf i).blockno data }

def LogState.bwrite (s : LogState) (p i : ℕ) : LogState := if (s.buf i).lock = some p then
    { s with
      disk := update s.disk (s.buf i).blockno (s.buf i).data
      dirty := s.dirty.filter (· ≠ i) }
  else
    { s with panic := some .bwrite }

/-- `brelse` up to `releasesleep(&b->lock)`. -/
def LogState.releasesleep (s : LogState) (p i : ℕ) : LogState := if (s.buf i).lock = some p then
    { s.setBuf i { s.buf i with lock := none } with
      call := update s.call p (.drop i) }
  else
    { s with panic := some .brelse }

/-- The critical section of `brelse`. -/
def LogState.drop (s : LogState) (p i : ℕ) : LogState :=
  { s with
    bcache := brelse i s.bcache
    call := update s.call p .none
    refs := s.refs.erase (p, i) }

def LogState.bunpin (s : LogState) (i : ℕ) : LogState :=
  { s with
    bcache := Xv6.bunpin i s.bcache
    pins := s.pins.erase (s.buf i).blockno }

/-! ## The header block -/

/-- `hb->block[k + i] = block[i]` for each `i`; `hb->block` starts at
word 1. -/
def headBlocks (hb : Block) (k : ℕ) : List ℕ → Block
  | [] => hb
  | b :: bs => headBlocks (hb.setWord (k + 1) b) (k + 1) bs

/-- What `write_head` does to the header buffer. -/
def encodeHead (hb : Block) (lh : List ℕ) : Block := headBlocks (hb.setWord 0 lh.length) 0 lh

/-- What `read_head` finds in the header buffer. -/
def decodeHead (hb : Block) : List ℕ := (List.range (hb.word 0)).map fun i => hb.word (i + 1)

/-! ## Operations -/

/-- `wakeup(&log)`. -/
def wakeupLog (mode : ℕ → Mode) : ℕ → Mode := fun p =>
  match mode p with
  | .asleep => .ready
  | m => m

/-- One test of the loop of `begin_op`. -/
def LogState.beginOp (s : LogState) (p : ℕ) : LogState := if s.log.committing = true then
    { s with mode := update s.mode p .asleep }
  else if s.log.lh.length + (s.log.outstanding + 1) * maxOpBlocks >
      logSize then
    { s with mode := update s.mode p .asleep }
  else
    { s with
      log := { s.log with outstanding := s.log.outstanding + 1 }
      mode := update s.mode p .inside
      ops := s.ops ++ [{ pid := p, live := true, blocks := [] }] }

def Op.log (p b : ℕ) (o : Op) : Op :=
  if o.pid = p ∧ o.live = true then { o with blocks := o.blocks.insert b }
  else o

def Op.close (p : ℕ) (o : Op) : Op :=
  if o.pid = p ∧ o.live = true then { o with live := false } else o

/-- `log_write` of the buffer `i`. -/
def LogState.logWrite (g : LogGeometry) (s : LogState) (p i : ℕ) : LogState :=
  if s.log.lh.length ≥ logSize ∨ s.log.lh.length + 1 ≥ g.nlog then
    { s with panic := some .tooBig }
  else if s.log.outstanding < 1 then
    { s with panic := some .outsideTrans }
  else if (s.buf i).blockno ∈ s.log.lh then
    -- log absorption
    { s with
      dirty := s.dirty.filter (· ≠ i)
      ops := s.ops.map (Op.log p (s.buf i).blockno) }
  else
    { s with
      bcache := bpin i s.bcache
      log := { s.log with lh := s.log.lh ++ [(s.buf i).blockno] }
      pins := s.pins ++ [(s.buf i).blockno]
      dirty := s.dirty.filter (· ≠ i)
      ops := s.ops.map (Op.log p (s.buf i).blockno) }

/-- The first critical section of `end_op`. -/
def LogState.endOp (s : LogState) (p : ℕ) : LogState :=
  let log := { s.log with outstanding := s.log.outstanding - 1 }
  if s.log.committing = true then
    { s with log := log, panic := some .committing }
  else if log.outstanding = 0 then
    { s with
      log := { log with committing := true }
      mode := update s.mode p (.logging .commit)
      ops := s.ops.map (Op.close p)
      installed := [] }
  else
    { s with
      log := log
      mode := update (wakeupLog s.mode) p .outside
      ops := s.ops.map (Op.close p) }

/-- The second critical section of `end_op`, after `commit`, or the return of
`recover_from_log`. -/
def LogState.finish (s : LogState) (p : ℕ) (recovering : Bool) : LogState :=
  if recovering = true then
    { s with
      mode := update s.mode p .outside
      booted := true
      started := s.started.take s.committed }
  else
    { s with
      log := { s.log with committing := false }
      mode := update (wakeupLog s.mode) p .outside
      ops := [] }

/-! ## The code of `commit` and `recover_from_log` -/

def LogPc.afterBread (i : ℕ) : LogPc → LogPc
  | .writeLogTo tail => .writeLogFrom tail i
  | .writeLogFrom tail dst => .writeLogCopy tail dst i
  | .headRead use => .headFill use i
  | .installLog r tail => .installDst r tail i
  | .installDst r tail lbuf => .installCopy r tail lbuf i
  | .recoverRead => .recoverHead i
  | pc => pc

def LogPc.afterBrelse : LogPc → LogPc
  | .writeLogRelFrom tail dst _ => .writeLogRelTo tail dst
  | .writeLogRelTo tail _ => .writeLogTest (tail + 1)
  | .headRel .commit _ => .installTest false 0
  | .headRel .erase _ => .done false
  | .headRel .recover _ => .done true
  | .installRelLog r tail _ dbuf => .installRelDst r tail dbuf
  | .installRelDst r tail _ => .installTest r (tail + 1)
  | .recoverRel _ => .installTest true 0
  | pc => pc

def Mode.afterBread (i : ℕ) : Mode → Mode
  | .logging pc => .logging (pc.afterBread i)
  | m => m

def Mode.afterBrelse : Mode → Mode
  | .logging pc => .logging pc.afterBrelse
  | m => m

def LogState.goto (s : LogState) (p : ℕ) (pc : LogPc) : LogState :=
  { s with mode := update s.mode p (.logging pc) }

def LogState.exec (g : LogGeometry) (s : LogState) (p : ℕ) : LogPc → LogState
  | .commit =>
    if 0 < s.log.lh.length then
      { s with
        started := s.started ++ [s.log.lh.map fun b => (b, s.latest b)]
      }.goto p (.writeLogTest 0)
    else
      s.goto p (.done false)
  | .writeLogTest tail =>
    if tail < s.log.lh.length then s.goto p (.writeLogTo tail)
    else s.goto p (.headRead .commit)
  | .writeLogTo tail => s.bget p (g.logstart + tail + 1)
  | .writeLogFrom tail _ => s.bget p (s.log.lh.getD tail 0)
  | .writeLogCopy tail dst src =>
    (s.store dst (s.buf src).data).goto p (.writeLogWrite tail dst src)
  | .writeLogWrite tail dst src =>
    (s.bwrite p dst).goto p (.writeLogRelFrom tail dst src)
  | .writeLogRelFrom _ _ src => s.releasesleep p src
  | .writeLogRelTo _ dst => s.releasesleep p dst
  | .headRead _ => s.bget p g.logstart
  | .headFill use buf =>
    (s.store buf (encodeHead (s.buf buf).data s.log.lh)).goto p
      (.headWrite use buf)
  | .headWrite .commit buf =>
    { s.bwrite p buf with
      committed := if (s.buf buf).lock = some p then s.committed + 1 else s.committed
    }.goto p (.headRel .commit buf)
  | .headWrite use buf => (s.bwrite p buf).goto p (.headRel use buf)
  | .headRel _ buf => s.releasesleep p buf
  | .installTest r tail =>
    if tail < s.log.lh.length then s.goto p (.installLog r tail)
    else s.goto p (.clear r)
  | .installLog _ tail => s.bget p (g.logstart + tail + 1)
  | .installDst _ tail _ => s.bget p (s.log.lh.getD tail 0)
  | .installCopy true tail lbuf dbuf =>
    (s.store dbuf (s.buf lbuf).data).goto p
      (.installWrite true tail lbuf dbuf)
  | .installCopy false tail lbuf dbuf =>
    -- the buffer already holds what the log block holds: not a change
    (s.setBuf dbuf { s.buf dbuf with data := (s.buf lbuf).data }).goto p
      (.installWrite false tail lbuf dbuf)
  | .installWrite true tail lbuf dbuf =>
    (s.bwrite p dbuf).goto p (.installRelLog true tail lbuf dbuf)
  | .installWrite false tail lbuf dbuf =>
    { s.bwrite p dbuf with
      installed := if (s.buf dbuf).lock = some p then
          s.installed ++ [(s.buf dbuf).blockno]
        else s.installed
    }.goto p (.installUnpin tail lbuf dbuf)
  | .installUnpin tail lbuf dbuf =>
    (s.bunpin dbuf).goto p (.installRelLog false tail lbuf dbuf)
  | .installRelLog _ _ lbuf _ => s.releasesleep p lbuf
  | .installRelDst _ _ dbuf => s.releasesleep p dbuf
  | .clear r =>
    { s with log := { s.log with lh := [] } }.goto p
      (.headRead (if r = true then .recover else .erase))
  | .recoverRead => s.bget p g.logstart
  | .recoverHead buf =>
    { s with log := { s.log with lh := decodeHead (s.buf buf).data } }.goto p
      (.recoverRel buf)
  | .recoverRel buf => s.releasesleep p buf
  | .done _ => s

/-! ## The machine -/

/-- The machine right after power-on: nothing is cached, and process 0 is at
the start of `recover_from_log`. -/
def LogState.boot (disk : ℕ → Block)
    (started : List (List (ℕ × Block))) (committed : ℕ) : LogState where
  disk := disk
  bcache := binit
  log := { outstanding := 0, committing := false, lh := [] }
  mode := update (fun _ => .outside) 0 (.logging .recoverRead)
  call := fun _ => .none
  booted := false
  panic := none
  refs := []
  dirty := []
  pins := []
  latest := disk
  ops := []
  installed := []
  started := started
  committed := committed

def LogState.crash (s : LogState) : LogState := .boot s.disk s.started s.committed

inductive LogLabel
  | crash
  | beginOp (p : ℕ)
  | endOp (p : ℕ)
  | finish (p : ℕ)
  | bread (p blockno : ℕ)
  | acquire (p : ℕ)
  | fill (p : ℕ)
  | modify (p i : ℕ) (data : Block)
  | logWrite (p i : ℕ)
  | bwrite (p i : ℕ)
  | brelse (p i : ℕ)
  | drop (p : ℕ)
  | exec (p : ℕ)

/-- The process runs code of its own, and may call into the file system. -/
def LogState.free (s : LogState) (p : ℕ) : Bool :=
  s.booted && match s.mode p, s.call p with
    | .outside, .none => true
    | .inside, .none => true
    | _, _ => false

/-- One step.  Processes log and change only buffers that they have locked and
only blocks outside the log, and call `log_write` only inside an operation. -/
def logStep (g : LogGeometry) (l : LogLabel) (s : LogState) : Option LogState :=
  match l, s.panic with
  | .crash, _ => some s.crash
  | _, some _ => none
  | .beginOp p, none =>
    match s.booted, s.mode p, s.call p with
    | true, .outside, .none => some (s.beginOp p)
    | true, .ready, .none => some (s.beginOp p)
    | _, _, _ => none
  | .endOp p, none =>
    match s.mode p, s.call p with
    | .inside, .none => some (s.endOp p)
    | _, _ => none
  | .finish p, none =>
    match s.mode p with
    | .logging (.done recovering) => some (s.finish p recovering)
    | _ => none
  | .bread p blockno, none =>
    if s.free p = true ∧ blockno < 2 ^ 32 then some (s.bget p blockno)
    else none
  | .acquire p, none =>
    match s.call p with
    | .want i blockno =>
      if (s.buf i).lock = none then some (s.acquiresleep p i blockno)
      else none
    | _ => none
  | .fill p, none =>
    match s.call p with
    | .check i _ =>
      some { s.fill p i with
        mode := update s.mode p ((s.mode p).afterBread i) }
    | _ => none
  | .modify p i data, none =>
    if s.free p = true ∧ (s.buf i).lock = some p ∧ ¬g.inLog (s.buf i).blockno then
      some (s.store i data)
    else none
  | .logWrite p i, none =>
    match s.mode p with
    | .inside =>
      if s.free p = true ∧ (s.buf i).lock = some p ∧ ¬g.inLog (s.buf i).blockno then
        some (s.logWrite g p i)
      else none
    | _ => none
  | .bwrite p i, none =>
    if s.free p = true ∧ ¬g.inLog (s.buf i).blockno then
      some (s.bwrite p i)
    else none
  | .brelse p i, none =>
    if s.free p = true then some (s.releasesleep p i) else none
  | .drop p, none =>
    match s.call p with
    | .drop i =>
      some { s.drop p i with
        mode := update s.mode p (s.mode p).afterBrelse }
    | _ => none
  | .exec p, none =>
    match s.mode p, s.call p with
    | .logging (.done _), _ => none
    | .logging pc, .none => some (s.exec g p pc)
    | _, _ => none

/-! ## Pieces of runs -/

def zeroDisk : ℕ → Block := fun _ _ => 0

def recoverLabels : List LogLabel :=
  [.exec 0, .acquire 0, .fill 0, .exec 0, .exec 0, .drop 0, .exec 0, .exec 0,
    .exec 0, .acquire 0, .fill 0, .exec 0, .exec 0, .exec 0, .drop 0,
    .finish 0]

/-- Process `p` reads block `b` into buffer `i`, changes it, logs it and
releases it. -/
def updateLabels (p b i : ℕ) (data : Block) : List LogLabel :=
  [.bread p b, .acquire p, .fill p, .modify p i data, .logWrite p i, .brelse p i, .drop p]

/-- Processes 1, 2 and 3 each log ten blocks, and the log is full. -/
def fillLogLabels : List LogLabel := [.beginOp 1, .beginOp 2, .beginOp 3] ++
    (List.range 30).flatMap fun k =>
      updateLabels (k / 10 + 1) (40 + k) ((k + 1) % 30) fun _ => 7

/-- `bread` and `brelse` inside the log's own code. -/
def breadLabels (p : ℕ) : List LogLabel := [.exec p, .acquire p, .fill p]

def brelseLabels (p : ℕ) : List LogLabel := [.exec p, .drop p]

def writeHeadLabels (p : ℕ) : List LogLabel := breadLabels p ++ [.exec p, .exec p] ++ brelseLabels p

/-- One round of the loop of `write_log`. -/
def writeLogLabels (p : ℕ) : List LogLabel :=
  [.exec p] ++ breadLabels p ++ breadLabels p ++ [.exec p, .exec p] ++
    brelseLabels p ++ brelseLabels p

/-- One round of the loop of `install_trans`. -/
def installLabels (p : ℕ) : List LogLabel :=
  [.exec p] ++ breadLabels p ++ breadLabels p ++
    [.exec p, .exec p, .exec p] ++ brelseLabels p ++ brelseLabels p

/-- `commit` of one block, up to its return. -/
def commitLabels (p : ℕ) : List LogLabel :=
  [.exec p] ++ writeLogLabels p ++ [.exec p] ++ writeHeadLabels p ++
    installLabels p ++ [.exec p, .exec p] ++ writeHeadLabels p

/-! ## What a step can do -/

theorem LogState.free_mode {s : LogState} {p : ℕ} (hfree : s.free p = true) :
    s.booted = true ∧ s.call p = .none ∧ (s.mode p = .outside ∨ s.mode p = .inside) := by
  unfold LogState.free at hfree
  rw [Bool.and_eq_true] at hfree
  refine ⟨hfree.1, ?_⟩
  have hmatch := hfree.2
  split at hmatch
  · rename_i hmode hcall
    exact ⟨hcall, Or.inl hmode⟩
  · rename_i hmode hcall
    exact ⟨hcall, Or.inr hmode⟩
  · contradiction

/-- The steps, each with the conditions under which it is taken. -/
inductive LogMove (g : LogGeometry) (s : LogState) : LogLabel → LogState → Prop
  | crash : LogMove g s .crash s.crash
  | beginOp (p : ℕ) (hbooted : s.booted = true) (hcall : s.call p = .none)
      (hmode : s.mode p = .outside ∨ s.mode p = .ready) :
      LogMove g s (.beginOp p) (s.beginOp p)
  | endOp (p : ℕ) (hmode : s.mode p = .inside) (hcall : s.call p = .none) :
      LogMove g s (.endOp p) (s.endOp p)
  | finish (p : ℕ) (r : Bool) (hmode : s.mode p = .logging (.done r)) :
      LogMove g s (.finish p) (s.finish p r)
  | bread (p b : ℕ) (hfree : s.free p = true) (hb : b < 2 ^ 32) :
      LogMove g s (.bread p b) (s.bget p b)
  | acquire (p i b : ℕ) (hcall : s.call p = .want i b)
      (hlock : (s.buf i).lock = none) :
      LogMove g s (.acquire p) (s.acquiresleep p i b)
  | fill (p i b : ℕ) (hcall : s.call p = .check i b) : LogMove g s (.fill p)
        { s.fill p i with
          mode := update s.mode p ((s.mode p).afterBread i) }
  | modify (p i : ℕ) (data : Block) (hfree : s.free p = true)
      (hlock : (s.buf i).lock = some p)
      (hhome : ¬g.inLog (s.buf i).blockno) :
      LogMove g s (.modify p i data) (s.store i data)
  | logWrite (p i : ℕ) (hmode : s.mode p = .inside)
      (hfree : s.free p = true) (hlock : (s.buf i).lock = some p)
      (hhome : ¬g.inLog (s.buf i).blockno) :
      LogMove g s (.logWrite p i) (s.logWrite g p i)
  | bwrite (p i : ℕ) (hfree : s.free p = true)
      (hhome : ¬g.inLog (s.buf i).blockno) :
      LogMove g s (.bwrite p i) (s.bwrite p i)
  | brelse (p i : ℕ) (hfree : s.free p = true) : LogMove g s (.brelse p i) (s.releasesleep p i)
  | drop (p i : ℕ) (hcall : s.call p = .drop i) : LogMove g s (.drop p)
        { s.drop p i with
          mode := update s.mode p (s.mode p).afterBrelse }
  | exec (p : ℕ) (pc : LogPc) (hmode : s.mode p = .logging pc)
      (hcall : s.call p = .none) (hdone : ∀ r, pc ≠ .done r) :
      LogMove g s (.exec p) (s.exec g p pc)

theorem logStep_move {g : LogGeometry} {l : LogLabel} {s s' : LogState}
    (hstep : logStep g l s = some s') : LogMove g s l s' ∧ (l = .crash ∨ s.panic = none) := by
  cases hpanic : s.panic with
  | some e =>
    cases l with
    | crash =>
      simp only [logStep, Option.some.injEq] at hstep
      exact hstep ▸ ⟨.crash, Or.inl rfl⟩
    | _ => simp [logStep, hpanic] at hstep
  | none =>
    refine ⟨?_, Or.inr rfl⟩
    cases l with
    | crash =>
      simp only [logStep, Option.some.injEq] at hstep
      exact hstep ▸ .crash
    | beginOp p =>
      simp only [logStep, hpanic] at hstep
      split at hstep <;>
        simp only [Option.some.injEq, reduceCtorEq] at hstep
      · rename_i hbooted hmode hcall
        exact hstep ▸ .beginOp p hbooted hcall (Or.inl hmode)
      · rename_i hbooted hmode hcall
        exact hstep ▸ .beginOp p hbooted hcall (Or.inr hmode)
    | endOp p =>
      simp only [logStep, hpanic] at hstep
      split at hstep <;> cases hstep
      rename_i hmode hcall
      exact .endOp p hmode hcall
    | finish p =>
      simp only [logStep, hpanic] at hstep
      split at hstep <;> cases hstep
      rename_i r hmode
      exact .finish p r hmode
    | bread p b =>
      simp only [logStep, hpanic, ite_eq_some] at hstep
      exact hstep.2 ▸ .bread p b hstep.1.1 hstep.1.2
    | acquire p =>
      simp only [logStep, hpanic] at hstep
      split at hstep
      · rename_i i b hcall
        simp only [ite_eq_some] at hstep
        exact hstep.2 ▸ .acquire p i b hcall hstep.1
      · contradiction
    | fill p =>
      simp only [logStep, hpanic] at hstep
      split at hstep <;> cases hstep
      rename_i i b hcall
      exact .fill p i b hcall
    | modify p i data =>
      simp only [logStep, hpanic, ite_eq_some] at hstep
      obtain ⟨⟨hfree, hlock, hhome⟩, rfl⟩ := hstep
      exact .modify p i data hfree hlock hhome
    | logWrite p i =>
      simp only [logStep, hpanic] at hstep
      split at hstep
      · rename_i hmode
        simp only [ite_eq_some] at hstep
        obtain ⟨⟨hfree, hlock, hhome⟩, rfl⟩ := hstep
        exact .logWrite p i hmode hfree hlock hhome
      · contradiction
    | bwrite p i =>
      simp only [logStep, hpanic, ite_eq_some] at hstep
      exact hstep.2 ▸ .bwrite p i hstep.1.1 hstep.1.2
    | brelse p i =>
      simp only [logStep, hpanic, ite_eq_some] at hstep
      exact hstep.2 ▸ .brelse p i hstep.1
    | drop p =>
      simp only [logStep, hpanic] at hstep
      split at hstep <;> cases hstep
      rename_i i hcall
      exact .drop p i hcall
    | exec p =>
      simp only [logStep, hpanic] at hstep
      split at hstep <;>
        simp only [Option.some.injEq, reduceCtorEq] at hstep
      rename_i pc hdone hmode hcall
      refine hstep ▸ .exec p pc hmode hcall ?_
      intro r hr
      exact hdone r hr

end Xv6
