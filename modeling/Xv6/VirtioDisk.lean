import Xv6.Lib.Counting
import Xv6.Lib.Machine
import Xv6.Lib.Ring
import Xv6.Param

/-!
# The virtio disk

This is the state machine of `virtio_disk.c` and of the device.  Any process
calls `virtio_disk_rw` on a buffer whose sleep-lock it has, `virtio_disk_intr`
runs at any time, and the device takes the chains that it finds in the avail
ring and completes them in any order.  A step of the driver lies between two
points at which it gives `vdisk_lock` up or the device sees what it has done.
A process that sleeps has given up the lock; `wakeup` and `kill` make it wait
for the lock again.
-/

namespace Xv6

open Function (update)

/-- `NUM`, the number of descriptors. -/
def num : ℕ := 8

instance : NeZero num := ⟨by decide⟩

abbrev DescNo := Fin num

instance : LawfulBEq DescNo := inferInstance

def vringDescFNext : UInt16 := 1
def vringDescFWrite : UInt16 := 2

/-- What `addr` of a descriptor points to: `disk.ops[i]`, the data of a buffer,
or `disk.info[i].status`. -/
inductive DescAddr
  | null
  | op (i : DescNo)
  | data (b : ℕ)
  | status (i : DescNo)
  deriving DecidableEq

structure VirtqDesc where
  addr : DescAddr
  len : UInt32
  flags : UInt16
  next : UInt16
  deriving DecidableEq

/-- A ring of chain heads with the index of the next entry. -/
structure Virtq where
  idx : UInt16
  ring : Fin num → DescNo

structure VirtioBlkReq where
  type : UInt32
  reserved : UInt32
  sector : UInt64
  deriving DecidableEq

structure DiskInfo where
  b : Option ℕ
  status : UInt8
  deriving DecidableEq

/-- The arguments of `virtio_disk_rw`, with the block number of the buffer. -/
structure DiskReq where
  b : ℕ
  blockno : UInt32
  write : Bool
  deriving DecidableEq

/-- Where a process is in `virtio_disk_rw`.  `enter` and `awake` wait for
`vdisk_lock`. -/
inductive DiskPc
  | idle
  | enter (r : DiskReq)
  | alloc (r : DiskReq)
  | asleepFree (r : DiskReq)
  | format (r : DiskReq) (idx : List DescNo)
  | publish (r : DiskReq) (idx : List DescNo)
  | wait (r : DiskReq) (idx : List DescNo)
  | asleepBuf (r : DiskReq) (idx : List DescNo)
  | awake (r : DiskReq) (idx : List DescNo)
  | finish (r : DiskReq) (idx : List DescNo)
  deriving DecidableEq

inductive DiskHolder
  | rw (p : Fin nproc)
  | intr
  deriving DecidableEq

/-- `usedIdx` is `disk.used_idx`; `disk b` is `b->disk` and `bufLock b` the
holder of `b->lock`.  The device has read the avail ring up to `lastAvail` and
works on the chains in `taken`. -/
structure VirtioDisk where
  desc : DescNo → VirtqDesc
  avail : Virtq
  used : Virtq
  free : DescNo → Bool
  usedIdx : UInt16
  info : DescNo → DiskInfo
  ops : DescNo → VirtioBlkReq
  vdiskLock : Option DiskHolder
  disk : ℕ → Bool
  bufLock : ℕ → Option (Fin nproc)
  pc : Fin nproc → DiskPc
  lastAvail : UInt16
  taken : List DescNo
  panicked : Option String

def VirtqDesc.zero : VirtqDesc := ⟨.null, 0, 0, 0⟩

/-- The place of an index in a ring: `ring[idx % NUM]`. -/
def Virtq.slot (idx : UInt16) : Fin num := Fin.ofNat num idx.toNat

/-- The state after `virtio_disk_init`. -/
def virtioDiskInit : VirtioDisk where
  desc := fun _ => .zero
  avail := ⟨0, fun _ => 0⟩
  used := ⟨0, fun _ => 0⟩
  free := fun _ => true
  usedIdx := 0
  info := fun _ => ⟨none, 0⟩
  ops := fun _ => ⟨0, 0, 0⟩
  vdiskLock := none
  disk := fun _ => false
  bufLock := fun _ => none
  pc := fun _ => .idle
  lastAvail := 0
  taken := []
  panicked := none

/-- `wakeup(&disk.free[0])`. -/
def wakeupFree (pc : Fin nproc → DiskPc) : Fin nproc → DiskPc := fun p =>
  match pc p with
  | .asleepFree r => .enter r
  | k => k

/-- `wakeup(b)`. -/
def wakeupBuf (b : ℕ) (pc : Fin nproc → DiskPc) : Fin nproc → DiskPc := fun p =>
    match pc p with
    | .asleepBuf r idx => if r.b = b then .awake r idx else .asleepBuf r idx
    | k => k

namespace VirtioDisk

/-! ## Descriptors -/

def allocDesc (s : VirtioDisk) : Option (DescNo × VirtioDisk) :=
  match (List.finRange num).find? (fun i => s.free i) with
  | some i => some (i, { s with free := update s.free i false })
  | none => none

/-- The effect of `free_desc`, after its checks. -/
def freed (i : DescNo) (s : VirtioDisk) : VirtioDisk :=
  { s with
    desc := update s.desc i .zero
    free := update s.free i true
    pc := wakeupFree s.pc }

def freeDesc (i : ℕ) (s : VirtioDisk) : Except String VirtioDisk := if hi : i < num then
    if s.free ⟨i, hi⟩ = true then .error "free_desc 2"
    else .ok (s.freed ⟨i, hi⟩)
  else .error "free_desc 1"

/-- Each turn frees a descriptor that was not free, so that `fuel = NUM + 1`
turns are enough. -/
def freeChain : ℕ → ℕ → VirtioDisk → Except String VirtioDisk
  | 0, _, _ => .error "free_chain"
  | fuel + 1, i, s =>
    match s.freeDesc i with
    | .error e => .error e
    | .ok s' =>
      if hi : i < num then
        if (s.desc ⟨i, hi⟩).flags &&& vringDescFNext ≠ 0 then
          freeChain fuel (s.desc ⟨i, hi⟩).next.toNat s'
        else .ok s'
      else .ok s'

/-- The inner loop of `alloc3_desc`, which gives back what it has got. -/
def freeDescs : List DescNo → VirtioDisk → Except String VirtioDisk
  | [], s => .ok s
  | i :: idx, s =>
    match s.freeDesc i with
    | .error e => .error e
    | .ok s' => freeDescs idx s'

/-- The loop of `alloc3_desc`, with `n` descriptors to go. -/
def allocDescs : ℕ → List DescNo → VirtioDisk → Except String (Option (List DescNo) × VirtioDisk)
  | 0, idx, s => .ok (some idx, s)
  | n + 1, idx, s =>
    match s.allocDesc with
    | some (i, s') => allocDescs n (idx ++ [i]) s'
    | none =>
      match s.freeDescs idx with
      | .error e => .error e
      | .ok s' => .ok (none, s')

def alloc3Desc (s : VirtioDisk) : Except String (Option (List DescNo) × VirtioDisk) :=
  s.allocDescs 3 []

/-! ## `virtio_disk_rw` -/

def goto (p : Fin nproc) (k : DiskPc) (s : VirtioDisk) : VirtioDisk :=
  { s with pc := update s.pc p k }

def panic (e : String) (s : VirtioDisk) : VirtioDisk := { s with panicked := some e }

/-- One turn of the first loop: `alloc3_desc`, and `sleep` when it fails. -/
def rwAlloc (p : Fin nproc) (r : DiskReq) (s : VirtioDisk) : VirtioDisk :=
  match s.alloc3Desc with
  | .error e => s.panic e
  | .ok (some idx, s) => s.goto p (.format r idx)
  | .ok (none, s) => { s with vdiskLock := none }.goto p (.asleepFree r)

def opDesc (i j : DescNo) : VirtqDesc := ⟨.op i, 16, vringDescFNext, UInt16.ofNat j⟩

def dataDesc (r : DiskReq) (k : DescNo) : VirtqDesc :=
  ⟨.data r.b, 1024, (if r.write = true then 0 else vringDescFWrite) ||| vringDescFNext,
    UInt16.ofNat k⟩

def statusDesc (i : DescNo) : VirtqDesc := ⟨.status i, 1, vringDescFWrite, 0⟩

/-- The three descriptors and the slot of the avail ring are filled. -/
def rwFormat (p : Fin nproc) (r : DiskReq) (i j k : DescNo) (s : VirtioDisk) : VirtioDisk :=
  { s with
    ops := update s.ops i
      ⟨if r.write = true then 1 else 0, 0, (r.blockno * 2).toUInt64⟩
    desc := update (update (update s.desc i (opDesc i j)) j (dataDesc r k)) k (statusDesc i)
    info := update s.info i ⟨some r.b, 0xff⟩
    disk := update s.disk r.b true
    avail :=
      { s.avail with
        ring := update s.avail.ring (Virtq.slot s.avail.idx) i }
    }.goto p (.publish r [i, j, k])

/-- `disk.avail->idx += 1`, and the device is told. -/
def rwPublish (p : Fin nproc) (r : DiskReq) (idx : List DescNo) (s : VirtioDisk) : VirtioDisk :=
  { s with
    avail := { s.avail with idx := s.avail.idx + 1 } }.goto p (.wait r idx)

def rwWait (p : Fin nproc) (r : DiskReq) (idx : List DescNo) (s : VirtioDisk) : VirtioDisk :=
  if s.disk r.b = true then
    { s with vdiskLock := none }.goto p (.asleepBuf r idx)
  else s.goto p (.finish r idx)

def rwFinish (p : Fin nproc) (r : DiskReq) (i : DescNo) (s : VirtioDisk) : VirtioDisk :=
  match freeChain (num + 1) i
      { s with
        info := update s.info i { s.info i with b := none } } with
  | .error e => s.panic e
  | .ok s =>
    { s with
      vdiskLock := none
      bufLock := update s.bufLock r.b none }.goto p .idle

/-- The next step of `virtio_disk_rw` in process `p`. -/
def virtioDiskRw (p : Fin nproc) (s : VirtioDisk) : Option VirtioDisk :=
  match s.pc p with
  | .idle | .asleepFree _ | .asleepBuf .. => none
  | .enter r =>
    if s.vdiskLock = none then
      some ({ s with vdiskLock := some (.rw p) }.goto p (.alloc r))
    else none
  | .alloc r => some (s.rwAlloc p r)
  | .format r idx =>
    match idx with
    | [i, j, k] => some (s.rwFormat p r i j k)
    | _ => none
  | .publish r idx => some (s.rwPublish p r idx)
  | .wait r idx => some (s.rwWait p r idx)
  | .awake r idx =>
    if s.vdiskLock = none then
      some ({ s with vdiskLock := some (.rw p) }.goto p (.wait r idx))
    else none
  | .finish r idx =>
    match idx with
    | i :: _ => some (s.rwFinish p r i)
    | [] => none

/-! ## `virtio_disk_intr` -/

/-- One turn of the loop, or its end.  A null `b` makes the kernel fault. -/
def intrLoop (s : VirtioDisk) : Option VirtioDisk :=
  if s.usedIdx = s.used.idx then some { s with vdiskLock := none }
  else
    let id := s.used.ring (Virtq.slot s.usedIdx)
    if (s.info id).status ≠ 0 then
      some (s.panic "virtio_disk_intr status")
    else
      match (s.info id).b with
      | none => some (s.panic "kerneltrap")
      | some b =>
        some { s with
          disk := update s.disk b false
          pc := wakeupBuf b s.pc
          usedIdx := s.usedIdx + 1 }

def virtioDiskIntr (s : VirtioDisk) : Option VirtioDisk :=
  match s.vdiskLock with
  | none => some { s with vdiskLock := some .intr }
  | some .intr => s.intrLoop
  | some (.rw _) => none

/-! ## The device -/

def consume (s : VirtioDisk) : Option VirtioDisk := if s.lastAvail = s.avail.idx then none
  else
    some { s with
      taken := s.taken ++ [s.avail.ring (Virtq.slot s.lastAvail)]
      lastAvail := s.lastAvail + 1 }

/-- The descriptor after `i` in its chain. -/
def nextDesc (i : DescNo) (s : VirtioDisk) : DescNo := Fin.ofNat num (s.desc i).next.toNat

/-- The device writes 0 where the third descriptor of the chain points to. -/
def writeStatus (h : DescNo) (s : VirtioDisk) : DescNo → DiskInfo :=
  match (s.desc (s.nextDesc (s.nextDesc h))).addr with
  | .status i => update s.info i { s.info i with status := 0 }
  | _ => s.info

/-- The device completes the chain with head `h`. -/
def complete (h : DescNo) (s : VirtioDisk) : Option VirtioDisk :=
  if h ∈ s.taken then
    some { s with
      taken := s.taken.erase h
      info := s.writeStatus h
      used :=
        { idx := s.used.idx + 1
          ring := update s.used.ring (Virtq.slot s.used.idx) h } }
  else none

end VirtioDisk

inductive VirtioLabel
  | call (p : Fin nproc) (r : DiskReq)
  | rw (p : Fin nproc)
  | intr
  | consume
  | complete (h : DescNo)
  | kill (p : Fin nproc)

namespace VirtioDisk

/-- A process that has got `b->lock` calls `virtio_disk_rw`. -/
def call (p : Fin nproc) (r : DiskReq) (s : VirtioDisk) : Option VirtioDisk :=
  if s.pc p = .idle ∧ s.bufLock r.b = none then
    some ({ s with
      bufLock := update s.bufLock r.b (some p) }.goto p (.enter r))
  else none

/-- `kill` makes a sleeping process runnable. -/
def kill (p : Fin nproc) (s : VirtioDisk) : Option VirtioDisk :=
  match s.pc p with
  | .asleepFree r => some (s.goto p (.enter r))
  | .asleepBuf r idx => some (s.goto p (.awake r idx))
  | _ => none

def step (l : VirtioLabel) (s : VirtioDisk) : Option VirtioDisk := if s.panicked = none then
    match l with
    | .call p r => s.call p r
    | .rw p => s.virtioDiskRw p
    | .intr => s.virtioDiskIntr
    | .consume => s.consume
    | .complete h => s.complete h
    | .kill p => s.kill p
  else none

end VirtioDisk

end Xv6
