import Xv6.Lib.Machine
import Xv6.Param

/-!
# Processes and CPUs

This is the state machine of `proc.c`: the process table, the scheduler loop
of every CPU, and the calls `fork`, `exit`, `wait`, `getprocinfo`, `kill`,
`sleep`, `wakeup` and `yield`.  A CPU is either in `scheduler` or runs the
kernel thread of one process.  One step is one critical section of one lock,
or what lies between two of them, so the loops over the table go slot by slot.
The fields of `struct proc` are functions of the slot.

`p->lock` is kept with the CPU that holds it, since `swtch` hands it from one
thread to another on that CPU; `wait_lock` is never held across `swtch` and is
kept with the process.  The history variables `serial`, `allocs` and `reaped`
number the allocations of `allocproc` and list those that `wait` or
`getprocinfo` has reaped.
-/

namespace Xv6

open Function (update)

abbrev Slot := Fin nproc

/-- The process that `userinit` allocates, in the first slot. -/
def initproc : Slot := 0

inductive ProcState
  | unused
  | used
  | sleeping
  | runnable
  | running
  | zombie
  deriving DecidableEq

/-- `SCHED_ROUND_ROBIN`, `SCHED_FCFS` and `SCHED_PRIORITY`. -/
inductive SchedMode
  | roundRobin
  | fcfs
  | priority
  deriving DecidableEq

/-- Channels are addresses: of a `struct proc`, or of something else. -/
inductive Chan
  | proc (p : Slot)
  | other (n : ℕ)
  deriving DecidableEq

/-- The kernel thread of a process with respect to `swtch`.  A thread that is
`locked`, `leaving` or `resumed` has its own `p->lock`: it is about to change
its state, has changed it and is in `sched`, or has just come back from
`swtch`.  In a `saved` thread `p->context` is set. -/
inductive Thread
  | fresh
  | running
  | locked
  | leaving
  | saved
  | resumed
  deriving DecidableEq

/-- Where a CPU is in `scheduler`: at slot `i` of `choose_next_process`, about
to lock the choice, about to `swtch` to it, away in its thread, or back. -/
inductive CpuPc
  | choose (i : ℕ) (chosen : Option Slot)
  | dispatch (p : Slot)
  | switchTo (p : Slot)
  | run (p : Slot)
  | after (p : Slot)
  | wfi
  deriving DecidableEq

inductive WaitCall
  | wait
  | getprocinfo
  deriving DecidableEq

/-- Where a process is.  `user` is user code and all kernel code that is not
modelled here, with the result of the last call. -/
inductive ProcPc
  | user (ret : Option Int32)
  | sleepOn (n : ℕ)
  | forkScan (i : ℕ)
  | forkAlloc (np : Slot)
  | forkCopy (np : Slot)
  | forkParent (np : Slot) (pid : Int32)
  | forkRunnable (np : Slot) (pid : Int32)
  | exitReparent (status : Int32) (i : ℕ)
  | exitWakeInit (status : Int32) (i j : ℕ)
  | exitWakeParent (status : Int32) (chan : Option Chan) (j : ℕ)
  | exitLock (status : Int32)
  | exitUnlock
  | exited
  | waitStart (w : WaitCall) (addr : UInt64)
  | waitScan (w : WaitCall) (addr : UInt64) (havekids : Bool) (i : ℕ)
  | waitSleep (w : WaitCall) (addr : UInt64)
  | killScan (pid : Int32) (i : ℕ)
  deriving DecidableEq

/-- The thread has called `sleep`. -/
def ProcPc.inSleep : ProcPc → Bool
  | .sleepOn _ | .waitSleep .. => true
  | _ => false

/-- Where a thread goes on when `sched` returns.  The caller of `wait` has to
get `wait_lock` back. -/
def ProcPc.afterSleep : ProcPc → ProcPc
  | .sleepOn _ => .user none
  | .waitSleep w addr => .waitStart w addr
  | k => k

structure ProcTimes where
  creationTime : UInt32
  runTime : UInt32
  waitingTime : UInt32
  turnaroundTime : UInt32
  finishTime : UInt32
  deriving DecidableEq

/-- What `wait` and `getprocinfo` copy out. -/
inductive WaitData
  | status (xstate : Int32)
  | schedStat (pid : Int32) (times : ProcTimes)
  deriving DecidableEq

structure ProcSystem where
  state : Slot → ProcState
  chan : Slot → Option Chan
  killed : Slot → Bool
  xstate : Slot → Int32
  pid : Slot → Int32
  parent : Slot → Option Slot
  times : Slot → ProcTimes
  lock : Slot → Option ℕ
  thread : Slot → Thread
  pc : Slot → ProcPc
  report : Slot → Option WaitData
  cpu : ℕ → CpuPc
  cpuProc : ℕ → Option Slot
  waitLock : Option Slot
  nextpid : Int32
  ticks : UInt32
  serial : Slot → ℕ
  allocs : ℕ
  reaped : List ℕ

def ProcTimes.zero : ProcTimes := ⟨0, 0, 0, 0, 0⟩

/-- `finish_time`, `turnaround_time` and `waiting_time` as `exit` sets
them. -/
def ProcTimes.finish (t : ProcTimes) (ticks : UInt32) : ProcTimes :=
  { t with
    finishTime := ticks
    turnaroundTime := ticks - t.creationTime
    waitingTime := ticks - t.creationTime - t.runTime }

/-- The state after `userinit`, with all CPUs at the head of `scheduler`. -/
def userinit : ProcSystem where
  state := update (fun _ => .unused) initproc .runnable
  chan := fun _ => none
  killed := fun _ => false
  xstate := fun _ => 0
  pid := update (fun _ => 0) initproc 1
  parent := fun _ => none
  times := fun _ => .zero
  lock := fun _ => none
  thread := update (fun _ => .fresh) initproc .saved
  pc := fun _ => .user none
  report := fun _ => none
  cpu := fun _ => .choose 0 none
  cpuProc := fun _ => none
  waitLock := none
  nextpid := 2
  ticks := 0
  serial := update (fun _ => 0) initproc 1
  allocs := 1
  reaped := []

namespace ProcSystem

/-- The thread of `p` goes on at `k`. -/
def goto (p : Slot) (k : ProcPc) (s : ProcSystem) : ProcSystem := { s with pc := update s.pc p k }

theorem goto_goto {s : ProcSystem} {p : Slot} {k : ProcPc} (k' : ProcPc) :
    (s.goto p k).goto p k' = s.goto p k' := by
  simp [goto]

/-! ## The scheduler -/

/-- `chosen == 0 || q->creation_time < chosen->creation_time`, or `>`. -/
def better (mode : SchedMode) (s : ProcSystem) (q : Slot) : Option Slot → Bool
  | none => true
  | some chosen =>
    match mode with
    | .priority =>
      (s.times chosen).creationTime < (s.times q).creationTime
    | _ => (s.times q).creationTime < (s.times chosen).creationTime

/-- One slot in the loop of `choose_next_process`, or its end.  Round robin
returns the first runnable slot; only the priority loop locks the slots it
looks at. -/
def chooseNextProcess (mode : SchedMode) (s : ProcSystem)
    (i : ℕ) (chosen : Option Slot) : Option CpuPc :=
  if hi : i < nproc then
    let q : Slot := ⟨i, hi⟩
    match mode with
    | .roundRobin =>
      some (if s.state q = .runnable then .dispatch q
        else .choose (i + 1) none)
    | .fcfs =>
      some (.choose (i + 1)
        (if s.state q = .runnable ∧ s.better .fcfs q chosen = true then some q else chosen))
    | .priority =>
      if s.lock q = none then
        some (.choose (i + 1)
          (if s.state q = .runnable ∧ s.better .priority q chosen = true then some q else chosen))
      else none
  else
    match chosen with
    | some p => some (.dispatch p)
    | none => some .wfi

/-- One step of the loop of `scheduler`. -/
def scheduler (mode : SchedMode) (c : ℕ) (s : ProcSystem) : Option ProcSystem :=
  match s.cpu c with
  | .choose i chosen =>
    match s.chooseNextProcess mode i chosen with
    | none => none
    | some k => some { s with cpu := update s.cpu c k }
  | .dispatch p =>
    if s.lock p = none then
      if s.state p = .runnable then
        some { s with
          state := update s.state p .running
          lock := update s.lock p (some c)
          cpuProc := update s.cpuProc c (some p)
          cpu := update s.cpu c (.switchTo p) }
      else
        some { s with cpu := update s.cpu c .wfi }
    else none
  | .switchTo p =>
    some { s with
      thread := update s.thread p .resumed
      cpu := update s.cpu c (.run p) }
  | .after p =>
    some { s with
      cpuProc := update s.cpuProc c none
      lock := update s.lock p none
      cpu := update s.cpu c (.choose 0 none) }
  | .wfi => some { s with cpu := update s.cpu c (.choose 0 none) }
  | .run _ => none

/-- `swtch` in `sched`: the context is saved and the CPU is back in
`scheduler`. -/
def sched (c : ℕ) (p : Slot) (s : ProcSystem) : ProcSystem :=
  { s with
    thread := update s.thread p .saved
    cpu := update s.cpu c (.after p) }

/-- `yield` up to `sched`. -/
def yield (c : ℕ) (p : Slot) (s : ProcSystem) : ProcSystem :=
  { s with
    state := update s.state p .runnable
    lock := update s.lock p (some c)
    thread := update s.thread p .leaving }

/-- `sleep` from the release of its lock up to `sched`. -/
def sleep (p : Slot) (chan : Chan) (s : ProcSystem) : ProcSystem :=
  { s with
    chan := update s.chan p (some chan)
    state := update s.state p .sleeping
    thread := update s.thread p .leaving }

/-- What a thread does after `sched` returns, or in `forkret`.  Out of `sleep`
it clears `p->chan`. -/
def resume (p : Slot) (s : ProcSystem) : ProcSystem :=
  { s with
    chan := if (s.pc p).inSleep = true then update s.chan p none
      else s.chan
    lock := update s.lock p none
    thread := update s.thread p .running }.goto p
      (s.pc p).afterSleep

/-- One slot in the loop of `wakeup`. -/
def wakeupSlot (chan : Option Chan) (q : Slot) (s : ProcSystem) : Option ProcSystem :=
  if s.lock q = none then
    if s.state q = .sleeping ∧ s.chan q = chan then
      some { s with state := update s.state q .runnable }
    else some s
  else none

/-- One slot in the loop of `wakeup`, called by process `p`. -/
def wakeup (p : Slot) (chan : Option Chan) (q : Slot) (s : ProcSystem) : Option ProcSystem :=
  if q = p then some s else s.wakeupSlot chan q

/-! ## Allocation -/

/-- The loop of `allocproc` up to `p->state = USED`. -/
def allocproc (c : ℕ) (p : Slot) (i : ℕ) (s : ProcSystem) : Option ProcSystem :=
  if hi : i < nproc then
    let np : Slot := ⟨i, hi⟩
    if s.lock np = none then
      if s.state np = .unused then
        some ({ s with
          pid := update s.pid np s.nextpid
          nextpid := s.nextpid + 1
          serial := update s.serial np (s.allocs + 1)
          allocs := s.allocs + 1
          state := update s.state np .used
          lock := update s.lock np (some c) }.goto p (.forkAlloc np))
      else some (s.goto p (.forkScan (i + 1)))
    else none
  else some (s.goto p (.user (some (-1))))

def freeproc (q : Slot) (s : ProcSystem) : ProcSystem :=
  { s with
    pid := update s.pid q 0
    parent := update s.parent q none
    chan := update s.chan q none
    killed := update s.killed q false
    xstate := update s.xstate q 0
    state := update s.state q .unused
    times := update s.times q .zero }

/-- The rest of `allocproc`, when its allocations succeed: the new thread will
start in `forkret`. -/
def allocprocContext (np : Slot) (s : ProcSystem) : ProcSystem :=
  { s with
    thread := update s.thread np .saved
    times := update s.times np
      { ProcTimes.zero with creationTime := s.ticks } }

/-! ## `fork` -/

/-- An allocation failed: `freeproc(np); release(&np->lock); return -1`. -/
def forkFail (p np : Slot) (s : ProcSystem) : ProcSystem :=
  { s.freeproc np with lock := update s.lock np none }.goto p
    (.user (some (-1)))

/-- The child is a copy that returns 0 from `fork`. -/
def forkCopied (p np : Slot) (s : ProcSystem) : ProcSystem :=
  ({ s with lock := update s.lock np none }.goto np
    (.user (some 0))).goto p (.forkParent np (s.pid np))

def forkParent (p np : Slot) (pid : Int32) (s : ProcSystem) : ProcSystem :=
  { s with parent := update s.parent np (some p) }.goto p
    (.forkRunnable np pid)

def forkRunnable (p np : Slot) (pid : Int32) (s : ProcSystem) : ProcSystem :=
  { s with state := update s.state np .runnable }.goto p
    (.user (some pid))

/-! ## `exit` -/

/-- One slot in the loop of `reparent`, or its end. -/
def reparent (p : Slot) (status : Int32) (i : ℕ) (s : ProcSystem) : ProcSystem :=
  if hi : i < nproc then
    if s.parent ⟨i, hi⟩ = some p then
      { s with
        parent := update s.parent ⟨i, hi⟩ (some initproc) }.goto p
          (.exitWakeInit status i 0)
    else s.goto p (.exitReparent status (i + 1))
  else s.goto p (.exitWakeParent status ((s.parent p).map .proc) 0)

/-- `wakeup(initproc)` in `reparent`. -/
def exitWakeInit (p : Slot) (status : Int32) (i j : ℕ) (s : ProcSystem) : Option ProcSystem :=
  if hj : j < nproc then
    match s.wakeup p (some (.proc initproc)) ⟨j, hj⟩ with
    | none => none
    | some s => some (s.goto p (.exitWakeInit status i (j + 1)))
  else some (s.goto p (.exitReparent status (i + 1)))

/-- `wakeup(p->parent)` in `exit`. -/
def exitWakeParent (p : Slot) (status : Int32) (chan : Option Chan) (j : ℕ)
    (s : ProcSystem) : Option ProcSystem :=
  if hj : j < nproc then
    match s.wakeup p chan ⟨j, hj⟩ with
    | none => none
    | some s => some (s.goto p (.exitWakeParent status chan (j + 1)))
  else some (s.goto p (.exitLock status))

/-- `acquire(&p->lock)` in `exit`, up to the release of `wait_lock`. -/
def exitZombie (c : ℕ) (p : Slot) (status : Int32) (s : ProcSystem) : ProcSystem :=
  { s with
    lock := update s.lock p (some c)
    xstate := update s.xstate p status
    state := update s.state p .zombie
    times := update s.times p
      ((s.times p).finish s.ticks)
    thread := update s.thread p .locked }.goto p .exitUnlock

/-- `release(&wait_lock)` in `exit`, up to `sched`. -/
def exitUnlock (p : Slot) (s : ProcSystem) : ProcSystem :=
  { s with
    waitLock := none
    thread := update s.thread p .leaving }.goto p .exited

/-! ## `wait` and `getprocinfo` -/

/-- What is copied out for the child `q`.  `getprocinfo` fills
`creation_time` from `ticks`. -/
def waitData (w : WaitCall) (q : Slot) (s : ProcSystem) : WaitData :=
  match w with
  | .wait => .status (s.xstate q)
  | .getprocinfo =>
    .schedStat (s.pid q) { s.times q with creationTime := s.ticks }

/-- `release(&wait_lock); return ret`. -/
def waitReturn (p : Slot) (ret : Int32) (s : ProcSystem) : ProcSystem :=
  { s with waitLock := none }.goto p (.user (some ret))

def waitReap (p q : Slot) (w : WaitCall) (addr : UInt64) (s : ProcSystem) : ProcSystem :=
  { (s.freeproc q).waitReturn p (s.pid q) with
    report := if addr = 0 then s.report
      else update s.report p (some (s.waitData w q))
    reaped := s.reaped ++ [s.serial q] }

/-- One slot in the loop over the children, or its end, which tests `killed`
under `p->lock`. -/
def waitScan (p : Slot) (w : WaitCall) (addr : UInt64) (copyout : Bool)
    (havekids : Bool) (i : ℕ) (s : ProcSystem) : Option ProcSystem :=
  if hi : i < nproc then
    let q : Slot := ⟨i, hi⟩
    if s.parent q = some p then
      if s.lock q = none then
        if s.state q = .zombie then
          if addr ≠ 0 ∧ copyout = false then some (s.waitReturn p (-1))
          else some (s.waitReap p q w addr)
        else some (s.goto p (.waitScan w addr true (i + 1)))
      else none
    else some (s.goto p (.waitScan w addr havekids (i + 1)))
  else if havekids = false then some (s.waitReturn p (-1))
  else if s.lock p = none then
    if s.killed p = true then some (s.waitReturn p (-1))
    else some (s.goto p (.waitSleep w addr))
  else none

/-- `sleep(p, &wait_lock)` up to the release of `wait_lock`. -/
def waitSleep (c : ℕ) (p : Slot) (s : ProcSystem) : ProcSystem :=
  { s with
    lock := update s.lock p (some c)
    waitLock := none
    thread := update s.thread p .locked }

/-! ## `kill` -/

/-- One slot in the loop of `kill`, or its end. -/
def kill (p : Slot) (pid : Int32) (i : ℕ) (s : ProcSystem) : Option ProcSystem :=
  if hi : i < nproc then
    let q : Slot := ⟨i, hi⟩
    if s.lock q = none then
      if s.pid q = pid then
        some ({ s with
          killed := update s.killed q true
          state := if s.state q = ProcState.sleeping then
              update s.state q .runnable
            else s.state }.goto p (.user (some 0)))
      else some (s.goto p (.killScan pid (i + 1)))
    else none
  else some (s.goto p (.user (some (-1))))

end ProcSystem

/-! ## The system -/

/-- What the thread of a process does next.  Calls, `sleep` on a channel that
is not a process, and the marking by `setkilled` start at `user`; `next` goes
on with the call, where `ok` says whether allocations and `copyout` succeed. -/
inductive ProcAction
  | next (ok : Bool)
  | fork
  | exit (status : Int32)
  | wait (w : WaitCall) (addr : UInt64)
  | kill (pid : Int32)
  | sleep (n : ℕ)
  | setkilled
  | yield

inductive ProcLabel
  | scheduler (c : ℕ)
  | act (c : ℕ) (a : ProcAction)
  | wakeup (c n : ℕ) (q : Slot)
  | tick
  | updateTime (q : Slot)

/-- No spinlock is held here, so that the thread can be interrupted. -/
def ProcPc.preemptible : ProcPc → Bool
  | .user _ | .forkScan _ | .forkParent .. | .forkRunnable .. |
      .waitStart .. | .killScan .. => true
  | _ => false

namespace ProcSystem

/-- What a thread that has just taken its own lock does: `sleep` or `exit`. -/
def actLocked (p : Slot) (s : ProcSystem) : Option ProcSystem :=
  match s.pc p with
  | .sleepOn n => some (s.sleep p (.other n))
  | .waitSleep _ _ => some (s.sleep p (.proc p))
  | .exitUnlock => some (s.exitUnlock p)
  | _ => none

def actNext (c : ℕ) (p : Slot) (ok : Bool) (s : ProcSystem) : Option ProcSystem :=
  match s.pc p with
  | .user _ | .sleepOn _ | .exitUnlock | .exited => none
  | .forkScan i => s.allocproc c p i
  | .forkAlloc np =>
    if ok = true then some ((s.allocprocContext np).goto p (.forkCopy np))
    else some (s.forkFail p np)
  | .forkCopy np =>
    if ok = true then some (s.forkCopied p np) else some (s.forkFail p np)
  | .forkParent np pid =>
    if s.waitLock = none then some (s.forkParent p np pid) else none
  | .forkRunnable np pid =>
    if s.lock np = none then some (s.forkRunnable p np pid) else none
  | .exitReparent status i => some (s.reparent p status i)
  | .exitWakeInit status i j => s.exitWakeInit p status i j
  | .exitWakeParent status chan j => s.exitWakeParent p status chan j
  | .exitLock status =>
    if s.lock p = none then some (s.exitZombie c p status) else none
  | .waitStart w addr =>
    if s.waitLock = none then
      some ({ s with waitLock := some p }.goto p (.waitScan w addr false 0))
    else none
  | .waitScan w addr havekids i => s.waitScan p w addr ok havekids i
  | .waitSleep _ _ =>
    if s.lock p = none then some (s.waitSleep c p) else none
  | .killScan pid i => s.kill p pid i

/-- A call from `user`.  `exit` panics in `initproc`; closing the files of a
process, which it does first, is not modelled. -/
def actCall (c : ℕ) (p : Slot) (a : ProcAction) (s : ProcSystem) : Option ProcSystem :=
  match a with
  | .fork => some (s.goto p (.forkScan 0))
  | .exit status =>
    if p = initproc then none
    else if s.waitLock = none then
      some ({ s with waitLock := some p }.goto p (.exitReparent status 0))
    else none
  | .wait w addr => some (s.goto p (.waitStart w addr))
  | .kill pid => some (s.goto p (.killScan pid 0))
  | .sleep n =>
    if s.lock p = none then
      some ({ s with
        lock := update s.lock p (some c)
        thread := update s.thread p .locked }.goto p (.sleepOn n))
    else none
  | .setkilled =>
    if s.lock p = none then
      some { s with killed := update s.killed p true }
    else none
  | .next _ | .yield => none

def actRunning (c : ℕ) (p : Slot) (a : ProcAction) (s : ProcSystem) : Option ProcSystem :=
  match a with
  | .next ok => s.actNext c p ok
  | .yield =>
    if (s.pc p).preemptible = true ∧ s.lock p = none then
      some (s.yield c p)
    else none
  | a =>
    match s.pc p with
    | .user _ => s.actCall c p a
    | _ => none

/-- A step of the thread that CPU `c` runs. -/
def act (c : ℕ) (a : ProcAction) (s : ProcSystem) : Option ProcSystem :=
  match s.cpu c with
  | .run p =>
    match s.thread p with
    | .resumed => some (s.resume p)
    | .leaving => some (s.sched c p)
    | .locked => s.actLocked p
    | .running => s.actRunning c p a
    | .saved | .fresh => none
  | _ => none

/-- One slot in the loop of `update_time`. -/
def updateTime (q : Slot) (s : ProcSystem) : Option ProcSystem := if s.lock q = none then
    if s.state q = .running then
      some { s with
        times := update s.times q
          { s.times q with runTime := (s.times q).runTime + 1 } }
    else some s
  else none

/-- One step of the system.  `wakeup c n q` is the visit to slot `q` of a
`wakeup` that CPU `c` makes on a channel that is not a process, from kernel
code or from an interrupt handler; `tick` and `updateTime` belong to
`clockintr`. -/
def step (mode : SchedMode) (l : ProcLabel) (s : ProcSystem) : Option ProcSystem :=
  match l with
  | .scheduler c => s.scheduler mode c
  | .act c a => s.act c a
  | .wakeup c n q =>
    if s.cpuProc c = some q then some s
    else s.wakeupSlot (some (.other n)) q
  | .tick => some { s with ticks := s.ticks + 1 }
  | .updateTime q => s.updateTime q

end ProcSystem

end Xv6
