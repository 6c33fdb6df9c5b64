import Xv6.VirtioQueue

/-!
# The invariant of the virtio disk

It has three parts: who has the locks, whose the descriptors are, and what the
device and the interrupt handler find in the rings.
-/

namespace Xv6

open Function (update update_of_ne update_self)

/-- How far a request has got: its chain is written, the device can see it,
or its buffer is done. -/
inductive DiskStage
  | raw
  | formatted
  | submitted
  | finished
  deriving DecidableEq

namespace DiskPc

def stage : DiskPc → DiskStage
  | idle | enter _ | alloc _ | asleepFree _ | format .. => .raw
  | publish .. => .formatted
  | wait .. | asleepBuf .. | awake .. => .submitted
  | finish .. => .finished

def req : DiskPc → Option DiskReq
  | idle => none
  | enter r | alloc r | asleepFree r => some r
  | format r _ | publish r _ | wait r _ | asleepBuf r _ | awake r _
  | finish r _ => some r

def idx : DiskPc → List DescNo
  | idle | enter _ | alloc _ | asleepFree _ => []
  | format _ idx | publish _ idx | wait _ idx | asleepBuf _ idx
  | awake _ idx | finish _ idx => idx

/-- Whether the process has `vdisk_lock`. -/
def locked : DiskPc → Bool
  | alloc _ | format .. | publish .. | wait .. | finish .. => true
  | _ => false

def waitsFree : DiskPc → Bool
  | asleepFree _ => true
  | _ => false

theorem locked_of_formatted {k : DiskPc} (hk : k.stage = .formatted) : k.locked = true := by
  cases k <;> first | rfl | cases hk

/-- The same request at the same stage. -/
structure Same (k k' : DiskPc) : Prop where
  stage : k.stage = k'.stage
  req : k.req = k'.req
  idx : k.idx = k'.idx

theorem Same.refl (k : DiskPc) : k.Same k := ⟨rfl, rfl, rfl⟩

/-- The request has no chain in the rings, and gets none. -/
def Keeps (k k' : DiskPc) : Prop :=
  k.Same k' ∨ k.stage = .raw ∧ (k'.stage = .raw ∨ k'.stage = .finished)

end DiskPc

theorem wakeupFree_same (pc : Fin nproc → DiskPc) (p : Fin nproc) :
    (wakeupFree pc p).Same (pc p) := by
  unfold wakeupFree
  cases pc p <;> exact ⟨rfl, rfl, rfl⟩

theorem locked_wakeupFree (pc : Fin nproc → DiskPc) (p : Fin nproc) :
    (wakeupFree pc p).locked = (pc p).locked := by
  unfold wakeupFree
  cases pc p <;> rfl

theorem waitsFree_wakeupFree (pc : Fin nproc → DiskPc) (p : Fin nproc) :
    (wakeupFree pc p).waitsFree = false := by
  unfold wakeupFree
  cases pc p <;> rfl

theorem wakeupBuf_cases (b : ℕ) (pc : Fin nproc → DiskPc) (p : Fin nproc) : wakeupBuf
    b pc p = pc p ∨ ∃ r idx, pc p = .asleepBuf r idx ∧ wakeupBuf b pc p = .awake r idx := by
  unfold wakeupBuf
  cases pc p with
  | asleepBuf r idx =>
    dsimp only
    split
    · exact Or.inr ⟨r, idx, rfl, rfl⟩
    · exact Or.inl rfl
  | _ => exact Or.inl rfl

theorem wakeupBuf_same (b : ℕ) (pc : Fin nproc → DiskPc) (p : Fin nproc) :
    (wakeupBuf b pc p).Same (pc p) := by
  rcases wakeupBuf_cases b pc p with hp | ⟨r, idx, hp, hp'⟩
  · rw [hp]
    exact .refl _
  · rw [hp, hp']
    exact ⟨rfl, rfl, rfl⟩

theorem locked_wakeupBuf (b : ℕ) (pc : Fin nproc → DiskPc)
    (p : Fin nproc) : (wakeupBuf b pc p).locked = (pc p).locked := by
  rcases wakeupBuf_cases b pc p with hp | ⟨r, idx, hp, hp'⟩
  · rw [hp]
  · rw [hp, hp']
    rfl

theorem waitsFree_wakeupBuf (b : ℕ) (pc : Fin nproc → DiskPc)
    (p : Fin nproc) : (wakeupBuf b pc p).waitsFree = (pc p).waitsFree := by
  rcases wakeupBuf_cases b pc p with hp | ⟨r, idx, hp, hp'⟩
  · rw [hp]
  · rw [hp, hp']
    rfl

namespace VirtioDisk

/-! ## The invariant -/

/-- A process between `acquire` and `release` has `vdisk_lock`, and each
request has its buffer to itself. -/
structure Locks (s : VirtioDisk) : Prop where
  held : ∀ p, (s.pc p).locked = true ↔ s.vdiskLock = some (.rw p)
  owner : ∀ p r, (s.pc p).req = some r → s.bufLock r.b = some p

/-- The descriptors of the requests. -/
structure Descs (s : VirtioDisk) : Prop where
  busy : ∀ p, ∀ d ∈ (s.pc p).idx, s.free d = false
  nodup : ∀ p, (s.pc p).idx.Nodup
  length : ∀ p, (s.pc p).idx ≠ [] → (s.pc p).idx.length = 3
  disjoint : ∀ p q, p ≠ q → (s.pc p).idx.Disjoint (s.pc q).idx
  count : s.nfree + ∑ p, (s.pc p).idx.length = num
  asleep : ∀ p, (s.pc p).waitsFree = true → s.nfree < 3

/-- The request of `p` is `r`, in the chain of `i`, `j` and `k`. -/
structure Request (s : VirtioDisk) (p : Fin nproc) (r : DiskReq)
    (i j k : DescNo) : Prop where
  req : (s.pc p).req = some r
  idx : (s.pc p).idx = [i, j, k]
  chain : s.Chain r i j k
  info : (s.info i).b = some r.b

/-- The head `i` is that of a request which waits for the device. -/
def Pending (s : VirtioDisk) (i : DescNo) : Prop :=
  ∃ p r j k, (s.pc p).stage = .submitted ∧ s.Request p r i j k ∧ s.disk r.b = true

/-- What is in the rings. -/
structure Queues (s : VirtioDisk) : Prop where
  requests : ∀ p, (s.pc p).stage ≠ .raw → ∃ r i j k, s.Request p r i j k
  slot : ∀ p i, (s.pc p).stage = .formatted → (s.pc p).idx.head? = some i →
      s.avail.ring (Virtq.slot s.avail.idx) = i ∧ ∀ r, (s.pc p).req = some r → s.disk r.b = true
  nodup : s.flight.Nodup
  pending : ∀ i ∈ s.flight, s.Pending i
  status : ∀ i ∈ s.usedHeads, (s.info i).status = 0

structure Proto (s : VirtioDisk) : Prop where
  panicked : s.panicked = none
  locks : s.Locks
  descs : s.Descs
  queues : s.Queues

/-! ## What the parts depend on -/

variable {s t : VirtioDisk} {p : Fin nproc}

theorem Locks.step (h : s.Locks) (hlock : t.vdiskLock = s.vdiskLock ∨ s.vdiskLock = none ∧
    t.vdiskLock = some (.rw p) ∨ s.vdiskLock = some (.rw p) ∧ t.vdiskLock = none)
    (hself : (t.pc p).locked = true ↔ t.vdiskLock = some (.rw p))
    (hreq : ∀ r, (t.pc p).req = some r → t.bufLock r.b = some p)
    (hothers : ∀ q, q ≠ p → (t.pc q).locked = (s.pc q).locked ∧ (t.pc q).req = (s.pc q).req)
    (hbuf : ∀ q, q ≠ p → ∀ r, (s.pc q).req = some r → t.bufLock r.b = s.bufLock r.b) : t.Locks := by
  constructor
  · intro q
    by_cases hq : q = p
    · exact hq ▸ hself
    · rw [(hothers q hq).1, h.held q]
      rcases hlock with hlock | ⟨hs, ht⟩ | ⟨hs, ht⟩
      · rw [hlock]
      · simp [hs, ht, Ne.symm hq]
      · simp [hs, ht, Ne.symm hq]
  · intro q r hr
    by_cases hq : q = p
    · rw [hq] at hr ⊢
      exact hreq r hr
    · rw [(hothers q hq).2] at hr
      rw [hbuf q hq r hr, h.owner q r hr]

variable {k : DiskPc} {r : DiskReq}

theorem Locks.goto (h : s.Locks) {lock : Option DiskHolder} (hlock : lock = s.vdiskLock ∨
    s.vdiskLock = none ∧ lock = some (.rw p) ∨ s.vdiskLock = some (.rw p) ∧ lock = none)
    (hself : k.locked = true ↔ lock = some (.rw p)) (hreq : k.req = (s.pc p).req)
    (hpc : t.pc = update s.pc p k) (ht : t.vdiskLock = lock) (hbuf : t.bufLock = s.bufLock) :
    t.Locks := by
  apply h.step (p := p)
  · rwa [ht]
  · rwa [hpc, ht, update_self]
  · intro r hr
    rw [hpc, update_self, hreq] at hr
    rw [hbuf]
    exact h.owner p r hr
  · intro q hq
    rw [hpc, update_of_ne hq]
    exact ⟨rfl, rfl⟩
  · intro q _ r _
    rw [hbuf]

theorem Locks.intr (h : s.Locks) (hs : ∀ p, s.vdiskLock ≠ some (.rw p))
    (ht : ∀ p, t.vdiskLock ≠ some (.rw p)) (hpc : ∀ p, (t.pc p).locked = (s.pc p).locked ∧
    (t.pc p).req = (s.pc p).req) (hbuf : t.bufLock = s.bufLock) : t.Locks := by
  constructor
  · intro p
    rw [(hpc p).1, h.held p]
    simp [hs p, ht p]
  · intro p r hr
    rw [(hpc p).2] at hr
    rw [hbuf]
    exact h.owner p r hr

theorem Descs.of_idx (h : s.Descs) (hidx : ∀ p, (t.pc p).idx = (s.pc p).idx)
    (hfree : t.free = s.free) (hasleep : ∀ p, (t.pc p).waitsFree = true →
    (s.pc p).waitsFree = true ∨ s.nfree < 3) : t.Descs := by
  have hnfree : t.nfree = s.nfree := by
    rw [nfree, nfree, hfree]
  constructor
  · intro p
    rw [hidx, hfree]
    exact h.busy p
  · intro p
    rw [hidx]
    exact h.nodup p
  · intro p
    rw [hidx]
    exact h.length p
  · intro p q hpq
    rw [hidx, hidx]
    exact h.disjoint p q hpq
  · rw [hnfree, Finset.sum_congr rfl fun p _ => by rw [hidx p]]
    exact h.count
  · intro p hp
    rw [hnfree]
    rcases hasleep p hp with hp | hlt
    · exact h.asleep p hp
    · exact hlt

theorem Descs.goto (h : s.Descs) (hidx : k.idx = (s.pc p).idx) (hasleep : k.waitsFree = true →
    s.nfree < 3) (hpc : t.pc = update s.pc p k) (hfree : t.free = s.free) : t.Descs := by
  apply h.of_idx _ hfree
  · intro q hq
    by_cases hqp : q = p
    · rw [hpc, hqp, update_self] at hq
      exact Or.inr (hasleep hq)
    · rw [hpc, update_of_ne hqp] at hq
      exact Or.inl hq
  · intro q
    by_cases hqp : q = p
    · rw [hpc, hqp, update_self, hidx]
    · rw [hpc, update_of_ne hqp]

theorem Chain.of_desc {i j k : DescNo} (h : s.Chain r i j k)
    (hdesc : ∀ d ∈ [i, j, k], t.desc d = s.desc d) : t.Chain r i j k := by
  refine ⟨?_, ?_, ?_⟩
  · rw [hdesc i (by simp), h.op]
  · rw [hdesc j (by simp), h.data]
  · rw [hdesc k (by simp), h.status]

theorem Request.of_same {i j k : DescNo} (h : s.Request p r i j k)
    (hpc : (t.pc p).Same (s.pc p)) (hdesc : ∀ d ∈ (s.pc p).idx, t.desc d = s.desc d)
    (hinfo : ∀ d ∈ (s.pc p).idx, (t.info d).b = (s.info d).b) : t.Request p r i j k := by
  rw [h.idx] at hdesc hinfo
  refine ⟨hpc.req.trans h.req, hpc.idx.trans h.idx, h.chain.of_desc hdesc, ?_⟩
  rw [hinfo i (by simp), h.info]

theorem Request.head_mem {i j k : DescNo} (h : s.Request p r i j k) : i ∈ (s.pc p).idx := by
  simp [h.idx]

theorem Queues.frame
    (h : s.Queues) (hpc : ∀ p, (t.pc p).Keeps (s.pc p)) (hkeep : ∀ p, (t.pc p).stage ≠ .raw →
    ∀ d ∈ (s.pc p).idx, t.desc d = s.desc d ∧ t.info d = s.info d) (havail : t.avail = s.avail)
    (hlast : t.lastAvail = s.lastAvail) (htaken : t.taken = s.taken) (hused : t.used = s.used)
    (husedIdx : t.usedIdx = s.usedIdx) (hdisk : t.disk = s.disk) : t.Queues := by
  have hsame (p) (hp : (t.pc p).stage ≠ .raw) : (t.pc p).Same (s.pc p) := by
    rcases hpc p with hsame | ⟨hraw, _⟩
    · exact hsame
    · exact absurd hraw hp
  have hrequest {p r i j k} (hp : (t.pc p).stage ≠ .raw) (hreq : s.Request p r i j k) :
    t.Request p r i j k := hreq.of_same
    (hsame p hp) (fun d hd => (hkeep p hp d hd).1) (fun d hd => by rw [(hkeep p hp d hd).2])
  have hmoved {p} (hp : (s.pc p).stage = .submitted) : (t.pc p).stage = .submitted := by
    rcases hpc p with hsame | ⟨_, hraw | hfin⟩
    · exact hsame.stage.trans hp
    · simp [hraw] at hp
    · simp [hfin] at hp
  have hflight : t.flight = s.flight := by
    simp only [flight, availHeads, usedHeads, havail, hlast, htaken, hused, husedIdx]
  constructor
  · intro p hp
    obtain ⟨r, i, j, k, hreq⟩ := h.requests p ((hsame p hp).stage ▸ hp)
    exact ⟨r, i, j, k, hrequest hp hreq⟩
  · intro p i hp hi
    have hp' := hsame p (by simp [hp])
    rw [havail, hdisk, hp'.req]
    exact h.slot p i (hp'.stage ▸ hp) (hp'.idx ▸ hi)
  · rw [hflight]
    exact h.nodup
  · intro i hi
    rw [hflight] at hi
    obtain ⟨p, r, j, k, hp, hreq, htrue⟩ := h.pending i hi
    refine ⟨p, r, j, k, hmoved hp, hrequest ?_ hreq, hdisk ▸ htrue⟩
    simp [hmoved hp]
  · intro i hi
    have hi' : i ∈ s.usedHeads := by
      rwa [usedHeads, hused, husedIdx] at hi
    obtain ⟨p, r, j, k, hp, hreq, -⟩ := h.pending i (List.mem_append_right _ hi')
    rw [(hkeep p (by simp [hmoved hp]) i hreq.head_mem).2]
    exact h.status i hi'

theorem Queues.goto (h : s.Queues) (hk : k.Keeps (s.pc p)) (hpc : t.pc = update s.pc p k)
    (hdesc : t.desc = s.desc) (hinfo : t.info = s.info) (havail : t.avail = s.avail)
    (hlast : t.lastAvail = s.lastAvail) (htaken : t.taken = s.taken) (hused : t.used = s.used)
    (husedIdx : t.usedIdx = s.usedIdx) (hdisk : t.disk = s.disk) : t.Queues := by
  apply h.frame _ _ havail hlast htaken hused husedIdx hdisk
  · intro q
    by_cases hq : q = p
    · rwa [hpc, hq, update_self]
    · rw [hpc, update_of_ne hq]
      exact Or.inl (.refl _)
  · intro q _ d _
    rw [hdesc, hinfo]
    exact ⟨rfl, rfl⟩

end VirtioDisk

end Xv6
