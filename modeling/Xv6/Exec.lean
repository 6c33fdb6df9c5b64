import Xv6.Lib.Bytes
import Xv6.Param
import Xv6.ProcMemory

/-!
# Loading a program

This is `exec.c` with `sys_exec`, as far as memory is concerned.  The file is
given by what `readi` returns for it, which may be short at any call, and the
argument strings by what `fetchaddr` and `fetchstr` find in user memory.
-/

namespace Xv6

def maxarg : ℕ := 32
def userstack : ℕ := 1
def elfMagic : ℕ := 0x464C457F
def elfProgLoad : ℕ := 1

/-- An inode, seen through `readi`. -/
structure ExecInode where
  readi : ℕ → ℕ → List UInt8
  length_le : ∀ off n, (readi off n).length ≤ n

/-- A field of `k` bytes of a structure that has been read. -/
def field (b : List UInt8) (off k : ℕ) : ℕ := Bytes.readLE (fun i : Fin b.length => b[i]) off k

structure Elfhdr where
  magic : ℕ
  entry : ℕ
  phoff : ℕ
  phnum : ℕ

def sizeofElfhdr : ℕ := 64

def Elfhdr.ofBytes (b : List UInt8) : Elfhdr :=
  ⟨field b 0 4, field b 24 8, field b 32 8, field b 56 2⟩

structure Proghdr where
  type : ℕ
  flags : ℕ
  off : ℕ
  vaddr : ℕ
  filesz : ℕ
  memsz : ℕ

def sizeofProghdr : ℕ := 56

def Proghdr.ofBytes (b : List UInt8) : Proghdr :=
  ⟨field b 0 4, field b 4 4, field b 8 8, field b 16 8, field b 32 8, field b 40 8⟩

def flags2perm (flags : ℕ) : ℕ :=
  (if flags &&& 1 ≠ 0 then pteX else 0) ||| if flags &&& 2 ≠ 0 then pteW else 0

/-- The loop of `loadseg`, with a bound on the rounds that are left; the result
says whether `loadseg` returns 0. -/
def loadsegLoop (pt va : ℕ) (ip : ExecInode) (offset sz : ℕ) :
    ℕ → ℕ → PhysMem → Except VmPanic (Bool × PhysMem)
  | 0, _, _ => .error .loadseg
  | rounds + 1, i, m =>
    if i < sz then
      let pa := walkaddr pt ((va + i) % 2 ^ 64) m
      if pa = 0 then .error .loadseg
      else
        let n := if sz - i < pgsize then sz - i else pgsize
        let b := ip.readi ((offset + i) % 2 ^ 32) n
        let m := m.store pa (fun k => b.getD k 0) b.length
        if b.length ≠ n then .ok (false, m)
        else
          loadsegLoop pt va ip offset sz rounds ((i + pgsize) % 2 ^ 32) m
    else .ok (true, m)

/-- `offset` and `sz` are converted to `uint`. -/
def loadseg (pt va : ℕ) (ip : ExecInode) (offset sz : ℕ) (m : PhysMem) :
    Except VmPanic (Bool × PhysMem) :=
  loadsegLoop pt va ip (offset % 2 ^ 32) (sz % 2 ^ 32)
    (sz % 2 ^ 32 / pgsize + 2) 0 m

/-- The loop over the program headers, with the number that are left; the
result has the size so far, and whether all went well. -/
def loadLoop (pt : ℕ) (ip : ExecInode) :
    ℕ → ℕ → ℕ → PhysMem → Except VmPanic (Bool × ℕ × PhysMem)
  | 0, _, sz, m => .ok (true, sz, m)
  | n + 1, off, sz, m =>
    let b := ip.readi off sizeofProghdr
    if b.length ≠ sizeofProghdr then .ok (false, sz, m)
    else
      let ph := Proghdr.ofBytes b
      if ph.type ≠ elfProgLoad then
        loadLoop pt ip n ((off + sizeofProghdr) % 2 ^ 32) sz m
      else if ph.memsz < ph.filesz then .ok (false, sz, m)
      else if (ph.vaddr + ph.memsz) % 2 ^ 64 < ph.vaddr then
        .ok (false, sz, m)
      else if ph.vaddr % pgsize ≠ 0 then .ok (false, sz, m)
      else do
        let (sz1, m) ← uvmalloc pt sz ((ph.vaddr + ph.memsz) % 2 ^ 64)
          (flags2perm ph.flags) m
        if sz1 = 0 then .ok (false, sz, m)
        else
          let (loaded, m) ← loadseg pt ph.vaddr ip ph.off ph.filesz m
          if loaded = true then
            loadLoop pt ip n ((off + sizeofProghdr) % 2 ^ 32) sz1 m
          else .ok (false, sz1, m)

/-- `sp -= n; sp -= sp % 16`. -/
def pushSp (sp n : ℕ) : ℕ := let sp := (sp + 2 ^ 64 - n % 2 ^ 64) % 2 ^ 64
  sp - sp % 16

/-- The loop that pushes the argument strings; `ustack` holds their
addresses. -/
def pushArgs (pt stackbase : ℕ) : List (List UInt8) → ℕ → List ℕ → PhysMem →
      Except VmPanic (Option (ℕ × List ℕ) × PhysMem)
  | [], sp, ustack, m => .ok (some (sp, ustack), m)
  | s :: argv, sp, ustack, m =>
    if ustack.length ≥ maxarg then .ok (none, m)
    else
      let sp := pushSp sp (s.length + 1)
      if sp < stackbase then .ok (none, m)
      else do
        let (copied, m) ← copyout pt sp (fun k => s.getD k 0)
          (s.length + 1) m
        if copied = true then
          pushArgs pt stackbase argv sp (ustack ++ [sp]) m
        else .ok (none, m)

/-- The bytes of the array `ustack`, with the null pointer at its end. -/
def ustackByte (ustack : List ℕ) (k : ℕ) : UInt8 :=
  UInt8.ofNat (ustack.getD (k / 8) 0 / 256 ^ (k % 8))

/-- The stack with the arguments on it: the result has the stack pointer, if
all went well. -/
def pushStack (pt sz : ℕ) (argv : List (List UInt8)) (m : PhysMem) :
    Except VmPanic (Option ℕ × PhysMem) := do
  let stackbase := sz - userstack * pgsize
  let (pushed, m) ← pushArgs pt stackbase argv sz [] m
  match pushed with
  | none => .ok (none, m)
  | some (sp, ustack) =>
    let sp := pushSp sp ((ustack.length + 1) * 8)
    if sp < stackbase then .ok (none, m)
    else
      let (copied, m) ← copyout pt sp (ustackByte ustack)
        ((ustack.length + 1) * 8) m
      .ok (if copied = true then some sp else none, m)

/-- The fields of `struct proc` that a process keeps to itself. -/
structure ProcMem where
  pagetable : ℕ
  sz : ℕ
  trapframe : ℕ
  name : List UInt8
  ofile : Fin nofile → Option ℕ

/-- Fields of `struct trapframe`, as indices of words. -/
def trapframeEpc : Fin 512 := 3
def trapframeSp : Fin 512 := 6
def trapframeA0 : Fin 512 := 14
def trapframeA1 : Fin 512 := 15

/-- The new page table with the program and its stack, if all went well: the
page table, its size and the stack pointer.  A page table that is not used is
freed again. -/
def execImage (trampoline trapframe : ℕ) (ip : ExecInode) (elf : Elfhdr)
    (argv : List (List UInt8)) (m : PhysMem) :
    Except VmPanic (Option (ℕ × ℕ × ℕ) × PhysMem) := do
  let (pagetable, m) ← procPagetable trampoline trapframe m
  match pagetable with
  | none => .ok (none, m)
  | some pt =>
    let (loaded, sz, m) ← loadLoop pt ip elf.phnum (elf.phoff % 2 ^ 32) 0 m
    if loaded = false then
      let m ← procFreepagetable pt sz m
      .ok (none, m)
    else
      let sz := pgroundup sz
      let (sz1, m) ← uvmalloc pt sz
        ((sz + (userstack + 1) * pgsize) % 2 ^ 64) pteW m
      if sz1 = 0 then
        let m ← procFreepagetable pt sz m
        .ok (none, m)
      else
        let m ← uvmclear pt (sz1 - (userstack + 1) * pgsize) m
        let (sp, m) ← pushStack pt sz1 argv m
        match sp with
        | none =>
          let m ← procFreepagetable pt sz1 m
          .ok (none, m)
        | some sp => .ok (some (pt, sz1, sp), m)

def pathLast (path : List UInt8) : List UInt8 :=
  path.foldl (fun last c => if c = 47 then [] else last ++ [c]) []

/-- `exec`, with what `namei` finds; the result is `argc`, unless it returns
-1. -/
def exec (trampoline : ℕ) (path : List UInt8) (ip : Option ExecInode)
    (argv : List (List UInt8)) (p : ProcMem) (m : PhysMem) :
    Except VmPanic (Option ℕ × ProcMem × PhysMem) :=
  match ip with
  | none => .ok (none, p, m)
  | some ip =>
    let b := ip.readi 0 sizeofElfhdr
    let elf := Elfhdr.ofBytes b
    if b.length ≠ sizeofElfhdr then .ok (none, p, m)
    else if elf.magic ≠ elfMagic then .ok (none, p, m)
    else do
      let (image, m) ← execImage trampoline p.trapframe ip elf argv m
      match image with
      | none => .ok (none, p, m)
      | some (pt, sz, sp) =>
        let m := ((m.setWord p.trapframe trapframeA1 sp).setWord
          p.trapframe trapframeEpc elf.entry).setWord
          p.trapframe trapframeSp sp
        let m ← procFreepagetable p.pagetable p.sz m
        .ok (some argv.length,
          { p with
            pagetable := pt
            sz := sz
            name := (pathLast path).take 15 }, m)

/-! ## `sys_exec` -/

/-- What is found at one place of the user's `argv`: `fetchaddr` fails, or
there is a pointer and `fetchstr` fails, after it has written some bytes, or
gets a string. -/
inductive UserArg
  | badAddr
  | badStr (s : List UInt8)
  | str (s : List UInt8) (hs : s.length < pgsize)

/-- `fetchstr` into the page `pa`. -/
def fetchstr (pa : ℕ) (s : List UInt8) (m : PhysMem) : PhysMem :=
  m.store pa (fun k => s.getD k 0) (min (s.length + 1) pgsize)

/-- The loop of `sys_exec` over the user's `argv`: the pages with the strings,
and the strings if all went well. -/
def fetchArgs : List UserArg → List ℕ → List (List UInt8) → PhysMem →
    List ℕ × Option (List (List UInt8)) × PhysMem
  | [], pages, argv, m =>
    (pages, if pages.length ≥ maxarg then none else some argv, m)
  | arg :: args, pages, argv, m =>
    if pages.length ≥ maxarg then (pages, none, m)
    else
      match arg with
      | .badAddr => (pages, none, m)
      | .badStr s =>
        match kalloc m with
        | (none, m) => (pages, none, m)
        | (some pa, m) => (pages ++ [pa], none, fetchstr pa s m)
      | .str s _ =>
        match kalloc m with
        | (none, m) => (pages, none, m)
        | (some pa, m) =>
          fetchArgs args (pages ++ [pa]) (argv ++ [s])
            (fetchstr pa s m)

def kfreeAll : List ℕ → PhysMem → Except VmPanic PhysMem
  | [], m => .ok m
  | pa :: pages, m => do
    let m ← kfree pa m
    kfreeAll pages m

/-- `sys_exec`, with what `argstr` finds. -/
def sysExec (trampoline : ℕ) (path : Option (List UInt8))
    (ip : Option ExecInode) (args : List UserArg) (p : ProcMem)
    (m : PhysMem) : Except VmPanic (Option ℕ × ProcMem × PhysMem) :=
  match path with
  | none => .ok (none, p, m)
  | some path =>
    match fetchArgs args [] [] m with
    | (pages, none, m) => do
      let m ← kfreeAll pages m
      .ok (none, p, m)
    | (pages, some argv, m) => do
      let (argc, p, m) ← exec trampoline path ip argv p m
      let m ← kfreeAll pages m
      .ok (argc, p, m)

end Xv6
