import Xv6.Exec
import Xv6.Lib.Machine

/-!
# The memory of all processes

This is the state machine of the system calls that take and give back pages:
`fork`, `exec`, `sbrk`, `exit` with `wait`, and pipes.  A system call is one
step; which calls of `kalloc` fail is chosen from outside at any time.  Between
system calls a process, or `copyout` on its behalf, writes to its memory.
-/

namespace Xv6

/-! ## Processes -/

namespace ProcMem

/-- `sz + n` for a 64-bit size and an `int`. -/
def addInt (sz : ℕ) (n : Int32) : ℕ := ((sz + n.toInt) % 2 ^ 64).toNat

/-- Whether `growproc` returns 0. -/
def growproc (n : Int32) (p : ProcMem) (m : PhysMem) : Except VmPanic (Bool × ProcMem × PhysMem) :=
  if 0 < n.toInt then do
    let (sz, m) ← uvmalloc p.pagetable p.sz (addInt p.sz n) pteW m
    if sz = 0 then .ok (false, p, m) else .ok (true, { p with sz := sz }, m)
  else if n.toInt < 0 then do
    let (sz, m) ← uvmdealloc p.pagetable p.sz (addInt p.sz n) m
    .ok (true, { p with sz := sz }, m)
  else .ok (true, p, m)

/-- `freeproc` of what the process has got so far. -/
def freeproc (trapframe pagetable : Option ℕ) (sz : ℕ) (m : PhysMem) : Except VmPanic PhysMem := do
  let m ← match trapframe with
    | some pa => kfree pa m
    | none => .ok m
  match pagetable with
  | some pt => procFreepagetable pt sz m
  | none => .ok m

/-- The trapframe and the page table that `allocproc` makes. -/
def allocproc (trampoline : ℕ) (m : PhysMem) : Except VmPanic (Option (ℕ × ℕ) × PhysMem) :=
  match kalloc m with
  | (none, m) => do
    let m ← freeproc none none 0 m
    .ok (none, m)
  | (some trapframe, m) => do
    let (pagetable, m) ← procPagetable trampoline trapframe m
    match pagetable with
    | none =>
      let m ← freeproc (some trapframe) none 0 m
      .ok (none, m)
    | some pt => .ok (some (trapframe, pt), m)

/-- `sizeof(struct trapframe)`, in words. -/
def trapframeWords : ℕ := 36

/-- `*(np->trapframe) = *(p->trapframe); np->trapframe->a0 = 0`. -/
def copyTrapframe (old new : ℕ) (m : PhysMem) : PhysMem :=
  (m.setPage new fun i =>
    if i.val < trapframeWords then m.words old i
    else m.words new i).setWord new trapframeA0 0

/-- The child of `fork`, unless it returns -1 after a slot was found. -/
def forkProc (trampoline : ℕ) (p : ProcMem) (m : PhysMem) :
    Except VmPanic (Option ProcMem × PhysMem) := do
  let (np, m) ← allocproc trampoline m
  match np with
  | none => .ok (none, m)
  | some (trapframe, pt) =>
    let (copied, m) ← uvmcopy p.pagetable pt p.sz m
    if copied = false then
      let m ← freeproc (some trapframe) (some pt) 0 m
      .ok (none, m)
    else
      .ok (some { p with pagetable := pt, trapframe := trapframe },
        copyTrapframe p.trapframe trapframe m)

end ProcMem

/-! ## The system -/

structure PipePage where
  page : ℕ
  readopen : Bool
  writeopen : Bool

/-- `procs` has the processes whose slot is in use; `boot` the pages that the
kernel has taken for itself before the first process. -/
structure MemSystem where
  mem : PhysMem
  trampoline : ℕ
  procs : Fin nproc → Option ProcMem
  zombie : Fin nproc → Bool
  pipes : List PipePage
  boot : List ℕ
  panicked : Option VmPanic

namespace MemSystem

def setProc (p : Fin nproc) (pm : Option ProcMem) (m : PhysMem) (s : MemSystem) : MemSystem :=
  { s with mem := m, procs := Function.update s.procs p pm }

/-- The slot that `allocproc` finds. -/
def freeSlot (s : MemSystem) : Option (Fin nproc) :=
  (List.finRange nproc).find? fun p => (s.procs p).isNone

/-- `fork`; the result is the slot of the child, unless it returns -1. -/
def fork (p : Fin nproc) (s : MemSystem) :
    Option (Except VmPanic (Option (Fin nproc) × MemSystem)) :=
  match s.procs p, s.zombie p with
  | some pm, false =>
    match s.freeSlot with
    | none => some (.ok (none, s))
    | some np =>
      some (do
        let (child, m) ← ProcMem.forkProc s.trampoline pm s.mem
        match child with
        | none => .ok (none, { s with mem := m })
        | some child =>
          .ok (some np,
            { s.setProc np (some child) m with
              zombie := Function.update s.zombie np false }))
  | _, _ => none

def exec (p : Fin nproc) (path : Option (List UInt8))
    (ip : Option ExecInode) (args : List UserArg) (s : MemSystem) :
    Option (Except VmPanic (Option ℕ × MemSystem)) :=
  match s.procs p, s.zombie p with
  | some pm, false =>
    some (do
      let (argc, pm, m) ← sysExec s.trampoline path ip args pm s.mem
      .ok (argc, s.setProc p (some pm) m))
  | _, _ => none

def sbrk (p : Fin nproc) (n : Int32) (s : MemSystem) : Option (Except VmPanic (Bool × MemSystem)) :=
  match s.procs p, s.zombie p with
  | some pm, false =>
    some (do
      let (done, pm, m) ← ProcMem.growproc n pm s.mem
      .ok (done, s.setProc p (some pm) m))
  | _, _ => none

/-- `exit`, as far as memory is concerned. -/
def exit (p : Fin nproc) (s : MemSystem) : Option MemSystem :=
  match s.procs p, s.zombie p with
  | some _, false =>
    some { s with zombie := Function.update s.zombie p true }
  | _, _ => none

/-- `wait` reaps `p`. -/
def wait (p : Fin nproc) (s : MemSystem) : Option (Except VmPanic MemSystem) :=
  match s.procs p, s.zombie p with
  | some pm, true =>
    some (do
      let m ← ProcMem.freeproc (some pm.trapframe) (some pm.pagetable)
        pm.sz s.mem
      .ok (s.setProc p none m))
  | _, _ => none

/-- `pipealloc`; `files` says whether `filealloc` finds two files. -/
def pipealloc (files : Bool) (s : MemSystem) : MemSystem := if files = false then s
  else
    match kalloc s.mem with
    | (none, m) => { s with mem := m }
    | (some pa, m) =>
      { s with mem := m, pipes := s.pipes ++ [⟨pa, true, true⟩] }

/-- `pipeclose` of the pipe at place `k`. -/
def pipeclose (k : ℕ) (writable : Bool) (s : MemSystem) : Option (Except VmPanic MemSystem) :=
  match s.pipes[k]? with
  | none => none
  | some pi =>
    let pi := if writable = true then { pi with writeopen := false }
      else { pi with readopen := false }
    if pi.readopen = false ∧ pi.writeopen = false then
      some (do
        let m ← kfree pi.page s.mem
        .ok { s with mem := m, pipes := s.pipes.eraseIdx k })
    else some (.ok { s with pipes := s.pipes.set k pi })

/-- A write to the memory of `p`, by the process itself or by `copyout`. -/
def write (p : Fin nproc) (dstva : ℕ) (bytes : List UInt8) (s : MemSystem) :
    Option (Except VmPanic MemSystem) :=
  match s.procs p, s.zombie p with
  | some pm, false =>
    some (do
      let (_, m) ← copyout pm.pagetable dstva (fun k => bytes.getD k 0)
        bytes.length s.mem
      .ok { s with mem := m })
  | _, _ => none

/-- The state after a system call, which may have panicked. -/
def settle (r : Except VmPanic MemSystem) (s : MemSystem) : MemSystem :=
  match r with
  | .ok s' => s'
  | .error e => { s with panicked := some e }

end MemSystem

inductive MemLabel
  | fork (p : Fin nproc)
  | exec (p : Fin nproc) (path : Option (List UInt8))
      (ip : Option ExecInode) (args : List UserArg)
  | sbrk (p : Fin nproc) (n : Int32)
  | exit (p : Fin nproc)
  | wait (p : Fin nproc)
  | pipealloc (files : Bool)
  | pipeclose (k : ℕ) (writable : Bool)
  | write (p : Fin nproc) (dstva : ℕ) (bytes : List UInt8)
  | fails (fails : List Bool)

namespace MemSystem

/-- The calls that the label stands for, without their results. -/
def call (l : MemLabel) (s : MemSystem) : Option (Except VmPanic MemSystem) :=
  match l with
  | .fork p => (s.fork p).map fun r => r.map Prod.snd
  | .exec p path ip args => (s.exec p path ip args).map fun r =>
    r.map Prod.snd
  | .sbrk p n => (s.sbrk p n).map fun r => r.map Prod.snd
  | .exit p => (s.exit p).map .ok
  | .wait p => s.wait p
  | .pipealloc files => some (.ok (s.pipealloc files))
  | .pipeclose k writable => s.pipeclose k writable
  | .write p dstva bytes => s.write p dstva bytes
  | .fails fails => some (.ok { s with mem := { s.mem with fails := fails } })

def step (l : MemLabel) (s : MemSystem) : Option MemSystem :=
  if s.panicked = none then (s.call l).map fun r => settle r s else none

end MemSystem

/-! ## The beginning -/

/-- The loop of `freerange`, with the number of pages that are left. -/
def freerange : ℕ → ℕ → PhysMem → Except VmPanic PhysMem
  | 0, _, m => .ok m
  | n + 1, pa, m => do
    let m ← kfree pa m
    freerange n (pa + pgsize) m

/-- `kinit`, for a kernel of so many bytes. -/
def kinit (kernelSize : ℕ) : Except VmPanic PhysMem := let kend := kernbase + kernelSize
  freerange ((phystop - pgroundup kend) / pgsize) (pgroundup kend)
    { words := fun _ _ => 0, freelist := [], fails := [], kend := kend }

def bootPages : ℕ → PhysMem → Option (List ℕ × PhysMem)
  | 0, m => some ([], m)
  | n + 1, m =>
    match kalloc m with
    | (none, _) => none
    | (some pa, m) => (bootPages n m).map fun (pages, m) => (pa :: pages, m)

def initcode : List UInt8 :=
  [0x17, 0x05, 0x00, 0x00, 0x13, 0x05, 0x45, 0x02, 0x97, 0x05, 0x00, 0x00, 0x93, 0x85, 0x35, 0x02,
   0x93, 0x08, 0x70, 0x00, 0x73, 0x00, 0x00, 0x00,
   0x93, 0x08, 0x20, 0x00, 0x73, 0x00, 0x00, 0x00,
   0xef, 0xf0, 0x9f, 0xff, 0x2f, 0x69, 0x6e, 0x69,
   0x74, 0x00, 0x00, 0x24, 0x00, 0x00, 0x00, 0x00,
   0x00, 0x00, 0x00, 0x00]

namespace ProcMem

/-- `uvmfirst`, when there is a page and it can be mapped. -/
def uvmfirst (pt : ℕ) (m : PhysMem) : Option PhysMem :=
  match kalloc m with
  | (none, _) => none
  | (some mem, m) =>
    match mappages pt 0 pgsize mem (pteW ||| pteR ||| pteX ||| pteU)
        (m.setPage mem fun _ => 0) with
    | .ok (true, m) =>
      some (m.store mem (fun k => initcode.getD k 0) initcode.length)
    | _ => none

/-- `userinit`: the first process, unless memory runs out before. -/
def userinit (trampoline : ℕ) (m : PhysMem) : Option (ProcMem × PhysMem) :=
  match allocproc trampoline m with
  | .ok (some (trapframe, pt), m) =>
    match uvmfirst pt m with
    | none => none
    | some m =>
      some (⟨pt, pgsize, trapframe, "initcode".toList.map fun c => UInt8.ofNat c.toNat,
          fun _ => none⟩,
        (m.setWord trapframe trapframeEpc 0).setWord trapframe
          trapframeSp pgsize)
  | _ => none

end ProcMem

def memBoot (kernelSize nboot : ℕ) (trampoline : UInt64) :
    Option MemSystem :=
  match kinit kernelSize with
  | .error _ => none
  | .ok m =>
    match bootPages nboot m with
    | none => none
    | some (boot, m) =>
      match ProcMem.userinit trampoline.toNat m with
      | none => none
      | some (pm, m) =>
        some
          { mem := m
            trampoline := trampoline.toNat
            procs := Function.update (fun _ => none) 0 (some pm)
            zombie := fun _ => false
            pipes := []
            boot := boot
            panicked := none }

end Xv6
