import Xv6.VirtioDriver

/-!
# The virtio request protocol

The interrupt handler and the device keep the invariant as well, and so it
holds in every state of every run.
-/

namespace Xv6

namespace VirtioDisk

variable {s t : VirtioDisk} {p : Fin nproc}

/-! ## The interrupt handler -/

theorem Proto.setLock (h : s.Proto) {lock : Option DiskHolder}
    (hs : ∀ p, s.vdiskLock ≠ some (.rw p)) (hlock : ∀ p, lock ≠ some (.rw p)) :
    ({ s with vdiskLock := lock } : VirtioDisk).Proto where
  panicked := h.panicked
  locks := h.locks.intr hs hlock (fun _ => ⟨rfl, rfl⟩) rfl
  descs := h.descs.of_idx (fun _ => rfl) rfl (fun _ hp => Or.inl hp)
  queues := h.queues.frame (fun _ => Or.inl (.refl _))
    (fun _ _ _ _ => ⟨rfl, rfl⟩) rfl rfl rfl rfl rfl rfl

def intrDone (b : ℕ) (s : VirtioDisk) : VirtioDisk :=
  { s with
    disk := Function.update s.disk b false
    pc := wakeupBuf b s.pc
    usedIdx := s.usedIdx + 1 }

theorem Proto.intrDone (h : s.Proto)
    (hlock : s.vdiskLock = some .intr) (hne : s.usedIdx ≠ s.used.idx) {r : DiskReq} {j k : DescNo}
    (hreq : s.Request p r (s.used.ring (Virtq.slot s.usedIdx)) j k) : (s.intrDone r.b).Proto := by
  have hflight : s.flight = s.availHeads ++ s.taken ++
        (s.used.ring (Virtq.slot s.usedIdx) :: (s.intrDone r.b).usedHeads) := by
    rw [flight, usedHeads, window_succ_read _ _ _ hne]
    rfl
  have hflight' : s.flight.Perm
      (s.used.ring (Virtq.slot s.usedIdx) :: (s.intrDone r.b).flight) := by
    rw [hflight]
    exact List.perm_middle
  have hnodup := h.queues.nodup
  rw [hflight'.nodup_iff, List.nodup_cons] at hnodup
  have hrequest {q r' i' j' k'} (hreq' : s.Request q r' i' j' k') : (s.intrDone r.b).Request
    q r' i' j' k' := hreq'.of_same (wakeupBuf_same r.b s.pc q) (fun _ _ => rfl) (fun _ _ => rfl)
  refine ⟨h.panicked, ?_, ?_, ?_⟩
  · apply h.locks.intr
    · simp [hlock]
    · simp [VirtioDisk.intrDone, hlock]
    · exact fun q =>
        ⟨locked_wakeupBuf r.b s.pc q, (wakeupBuf_same r.b s.pc q).req⟩
    · rfl
  · refine h.descs.of_idx (fun q => (wakeupBuf_same r.b s.pc q).idx) rfl ?_
    intro q hq
    exact Or.inl ((waitsFree_wakeupBuf r.b s.pc q) ▸ hq)
  · constructor
    · intro q hq
      obtain ⟨r', i', j', k', hreq'⟩ := h.queues.requests q ((wakeupBuf_same r.b s.pc q).stage ▸ hq)
      exact ⟨r', i', j', k', hrequest hreq'⟩
    · -- the handler has the lock, and so no chain is half submitted
      intro q i hq
      have hq' := DiskPc.locked_of_formatted ((wakeupBuf_same r.b s.pc q).stage ▸ hq)
      have := h.held hq'
      rw [hlock] at this
      cases this
    · exact hnodup.2
    · intro i hi
      obtain ⟨q, r', j', k', hq, hreq', htrue⟩ := h.queues.pending i
        (hflight'.mem_iff.mpr (List.mem_cons_of_mem _ hi))
      refine ⟨q, r', j', k', ?_, hrequest hreq', ?_⟩
      · exact (wakeupBuf_same r.b s.pc q).stage.trans hq
      · -- another head is another request, with another buffer
        have hb : r'.b ≠ r.b := by
          intro heq
          have hqp : q = p := by
            have howner := h.locks.owner q r' hreq'.req
            rw [heq, h.locks.owner p r hreq.req] at howner
            exact (Option.some.inj howner).symm
          have hidx := hreq'.idx
          rw [hqp, hreq.idx] at hidx
          rw [← (List.cons.inj hidx).1] at hi
          exact hnodup.1 hi
        simpa [VirtioDisk.intrDone, hb] using htrue
    · intro i hi
      apply h.queues.status i
      rw [usedHeads, window_succ_read _ _ _ hne]
      exact List.mem_cons_of_mem _ hi

theorem Proto.intrLoop_eq (h : s.Proto) (hne : s.usedIdx ≠ s.used.idx) :
    ∃ p r j k, (s.pc p).stage = .submitted ∧ s.Request p r (s.used.ring (Virtq.slot s.usedIdx)) j
    k ∧ s.used.ring (Virtq.slot s.usedIdx) ∈ s.usedHeads ∧ s.intrLoop = some (s.intrDone r.b) := by
  have hused : s.used.ring (Virtq.slot s.usedIdx) ∈ s.usedHeads := by
    rw [usedHeads, window_succ_read _ _ _ hne]
    exact List.mem_cons_self
  obtain ⟨p, r, j, k, hp, hreq, -⟩ := h.queues.pending _ (List.mem_append_right _ hused)
  refine ⟨p, r, j, k, hp, hreq, hused, ?_⟩
  simp only [VirtioDisk.intrLoop, hne, h.queues.status _ hused, hreq.info]
  rfl

theorem Proto.virtioDiskIntr (h : s.Proto) (hstep : s.virtioDiskIntr = some t) : t.Proto := by
  unfold VirtioDisk.virtioDiskIntr at hstep
  cases hlock : s.vdiskLock with
  | none =>
    rw [hlock] at hstep
    cases hstep
    exact h.setLock (by simp [hlock]) (by simp)
  | some holder =>
    cases holder with
    | rw q => simp [hlock] at hstep
    | intr =>
      simp only [hlock] at hstep
      by_cases hne : s.usedIdx = s.used.idx
      · rw [VirtioDisk.intrLoop, if_pos hne] at hstep
        cases hstep
        exact h.setLock (by simp [hlock]) (by simp)
      · obtain ⟨p, r, j, k, -, hreq, -, heq⟩ := h.intrLoop_eq hne
        rw [heq] at hstep
        cases hstep
        exact h.intrDone hlock hne hreq

/-! ## The device -/

theorem Proto.consume (h : s.Proto) (hstep : s.consume = some t) : t.Proto := by
  simp only [VirtioDisk.consume, Option.ite_none_left_eq_some, Option.some.injEq] at hstep
  obtain ⟨hne, rfl⟩ := hstep
  generalize ht : ({ s with
    taken := s.taken ++ [s.avail.ring (Virtq.slot s.lastAvail)]
    lastAvail := s.lastAvail + 1 } : VirtioDisk) = t
  have hflight : t.flight.Perm s.flight := by
    have havail : s.availHeads = s.avail.ring (Virtq.slot s.lastAvail) :: t.availHeads := by
      rw [← ht]
      exact window_succ_read _ _ _ hne
    rw [flight, flight, havail, ← ht]
    apply List.Perm.append_right
    simp only [List.cons_append]
    rw [← List.append_assoc]
    exact List.perm_append_singleton _ _
  refine ⟨?_, ?_, ?_, ?_⟩
  · rw [← ht]
    exact h.panicked
  · rw [← ht]
    exact ⟨h.locks.held, h.locks.owner⟩
  · rw [← ht]
    exact h.descs.of_idx (fun _ => rfl) rfl (fun _ hp => Or.inl hp)
  · have hrequest {q r i j k} (hreq : s.Request q r i j k) : t.Request q r i j k := by
      rw [← ht]
      exact hreq.of_same (.refl _) (fun _ _ => rfl) (fun _ _ => rfl)
    constructor
    · intro q hq
      rw [← ht] at hq
      obtain ⟨r, i, j, k, hreq⟩ := h.queues.requests q hq
      exact ⟨r, i, j, k, hrequest hreq⟩
    · rw [← ht]
      exact h.queues.slot
    · rw [hflight.nodup_iff]
      exact h.queues.nodup
    · intro i hi
      obtain ⟨q, r, j, k, hq, hreq, htrue⟩ := h.queues.pending i (hflight.mem_iff.mp hi)
      refine ⟨q, r, j, k, ?_, hrequest hreq, ?_⟩ <;> rwa [← ht]
    · rw [← ht]
      exact h.queues.status

theorem nextDesc_eq {i j : DescNo} (hnext : (s.desc i).next = UInt16.ofNat j) :
    s.nextDesc i = j := by
  have hj : (UInt16.ofNat j).toNat = j := UInt16.toNat_ofNat_of_lt (j.isLt.trans (by decide))
  rw [nextDesc, hnext, hj]
  exact Fin.ofNat_val_eq_self j

theorem writeStatus_eq {r : DiskReq} {i j k : DescNo} (hchain : s.Chain r i j k) : s.writeStatus i =
      Function.update s.info i { s.info i with status := 0 } := by
  have hj : s.nextDesc i = j := nextDesc_eq (by rw [hchain.op]; rfl)
  have hk : s.nextDesc j = k := nextDesc_eq (by rw [hchain.data]; rfl)
  rw [writeStatus, hj, hk, hchain.status]
  rfl

theorem Proto.complete (h : s.Proto) {i : DescNo} (hstep : s.complete i = some t) : t.Proto := by
  simp only [VirtioDisk.complete, ite_eq_some] at hstep
  obtain ⟨hi, rfl⟩ := hstep
  have hiflight : i ∈ s.flight :=
    List.mem_append_left _ (List.mem_append_right _ hi)
  obtain ⟨p, r, j, k, -, hreq, -⟩ := h.queues.pending i hiflight
  rw [writeStatus_eq hreq.chain]
  generalize ht : ({ s with
    taken := s.taken.erase i
    info := Function.update s.info i { s.info i with status := 0 }
    used :=
      { idx := s.used.idx + 1
        ring := Function.update s.used.ring (Virtq.slot s.used.idx) i } }
    : VirtioDisk) = t
  have hroom : s.usedHeads.length < num := by
    have hnodup := h.queues.nodup
    rw [flight, List.append_assoc] at hnodup
    have hnodup := (List.nodup_append.mp hnodup).2.1
    have hne : i ∉ s.usedHeads := List.disjoint_of_nodup_append hnodup hi
    exact length_lt_num (List.nodup_append.mp hnodup).2.1 hne
  have hused : t.usedHeads = s.usedHeads ++ [i] := by
    rw [← ht]
    exact window_succ_write s.used.ring s.usedIdx s.used.idx i hroom
  have hflight : t.flight.Perm s.flight := by
    rw [flight, flight, hused, ← ht, List.append_assoc, List.append_assoc]
    apply List.Perm.append_left
    rw [← List.append_assoc]
    refine (List.perm_append_singleton i _).trans ?_
    rw [← List.cons_append]
    exact (List.perm_cons_erase hi).symm.append_right _
  have hinfo (d) : (t.info d).b = (s.info d).b := by
    rw [← ht]
    by_cases hd : d = i <;> simp [hd]
  refine ⟨?_, ?_, ?_, ?_⟩
  · rw [← ht]
    exact h.panicked
  · rw [← ht]
    exact ⟨h.locks.held, h.locks.owner⟩
  · rw [← ht]
    exact h.descs.of_idx (fun _ => rfl) rfl (fun _ hp => Or.inl hp)
  · have hrequest {q r i j k} (hreq : s.Request q r i j k) : t.Request q r i j k := by
      refine hreq.of_same ?_ (fun d _ => ?_) (fun d _ => hinfo d)
      · rw [← ht]
        exact .refl _
      · rw [← ht]
    constructor
    · intro q hq
      rw [← ht] at hq
      obtain ⟨r, i, j, k, hreq⟩ := h.queues.requests q hq
      exact ⟨r, i, j, k, hrequest hreq⟩
    · rw [← ht]
      exact h.queues.slot
    · rw [hflight.nodup_iff]
      exact h.queues.nodup
    · intro d hd
      obtain ⟨q, r, j, k, hq, hreq, htrue⟩ := h.queues.pending d (hflight.mem_iff.mp hd)
      refine ⟨q, r, j, k, ?_, hrequest hreq, ?_⟩ <;> rwa [← ht]
    · intro d hd
      rw [hused, List.mem_append, List.mem_singleton] at hd
      rw [← ht]
      by_cases hdi : d = i
      · simp [hdi]
      · simpa [hdi] using h.queues.status d (by simpa [hdi] using hd)

variable {l : VirtioLabel}

theorem Proto.step (h : s.Proto) (hstep : s.step l = some t) : t.Proto := by
  unfold VirtioDisk.step at hstep
  rw [if_pos h.panicked] at hstep
  cases l with
  | call p r => exact h.call hstep
  | rw p => exact h.virtioDiskRw hstep
  | intr => exact h.virtioDiskIntr hstep
  | consume => exact h.consume hstep
  | complete i => exact h.complete hstep
  | kill p => exact h.kill hstep

theorem proto_of_run {labels : List VirtioLabel}
    (hrun : Machine.run VirtioDisk.step labels virtioDiskInit = some s) : s.Proto :=
  Machine.run_invariant (I := Proto) (fun _ _ _ h hstep => h.step hstep)
    .virtioDiskInit hrun

/-! ## What a step can change -/

theorem Proto.step_cases (h : s.Proto) (hstep : s.step l = some t) :
    (t.avail.ring = s.avail.ring ∧ t.disk = s.disk) ∨ (∃ p r i j k, s.pc p = .format r [i, j, k] ∧
    t = s.rwFormat p r i j k) ∨ (s.usedIdx ≠ s.used.idx ∧ s.intrLoop = some t) := by
  unfold VirtioDisk.step at hstep
  rw [if_pos h.panicked] at hstep
  cases l with
  | call p r =>
    simp only [VirtioDisk.call, ite_eq_some] at hstep
    obtain ⟨-, rfl⟩ := hstep
    exact Or.inl ⟨rfl, rfl⟩
  | intr =>
    simp only [VirtioDisk.virtioDiskIntr] at hstep
    split at hstep
    · cases hstep
      exact Or.inl ⟨rfl, rfl⟩
    · by_cases hne : s.usedIdx = s.used.idx
      · rw [VirtioDisk.intrLoop, if_pos hne] at hstep
        cases hstep
        exact Or.inl ⟨rfl, rfl⟩
      · exact Or.inr (Or.inr ⟨hne, hstep⟩)
    · cases hstep
  | consume =>
    simp only [VirtioDisk.consume, Option.ite_none_left_eq_some, Option.some.injEq] at hstep
    obtain ⟨-, rfl⟩ := hstep
    exact Or.inl ⟨rfl, rfl⟩
  | complete i =>
    simp only [VirtioDisk.complete, ite_eq_some] at hstep
    obtain ⟨-, rfl⟩ := hstep
    exact Or.inl ⟨rfl, rfl⟩
  | kill p =>
    simp only [VirtioDisk.kill] at hstep
    split at hstep
    · cases hstep
      exact Or.inl ⟨rfl, rfl⟩
    · cases hstep
      exact Or.inl ⟨rfl, rfl⟩
    · cases hstep
  | rw p =>
    simp only [VirtioDisk.virtioDiskRw] at hstep
    cases hp : s.pc p with
    | idle | asleepFree r | asleepBuf r idx => simp [hp] at hstep
    | enter r | awake r idx =>
      simp only [hp, ite_eq_some] at hstep
      obtain ⟨-, rfl⟩ := hstep
      exact Or.inl ⟨rfl, rfl⟩
    | alloc r =>
      rw [hp] at hstep
      cases hstep
      obtain ⟨new, -, -, ⟨-, halloc⟩ | ⟨-, halloc⟩⟩ := s.alloc3Desc_cases
      · rw [VirtioDisk.rwAlloc, halloc]
        exact Or.inl ⟨rfl, rfl⟩
      · rw [VirtioDisk.rwAlloc, halloc]
        exact Or.inl ⟨rfl, rfl⟩
    | format r idx =>
      simp only [hp] at hstep
      split at hstep
      · rename_i i j k
        cases hstep
        exact Or.inr (Or.inl ⟨p, r, i, j, k, hp, rfl⟩)
      · cases hstep
    | publish r idx =>
      rw [hp] at hstep
      cases hstep
      exact Or.inl ⟨rfl, rfl⟩
    | wait r idx =>
      rw [hp] at hstep
      cases hstep
      unfold VirtioDisk.rwWait
      split <;> exact Or.inl ⟨rfl, rfl⟩
    | finish r idx =>
      simp only [hp] at hstep
      split at hstep
      · rename_i i idx'
        cases hstep
        obtain ⟨j, k, hchain, hidx⟩ := h.finish_chain hp
        rw [rwFinish_eq hchain (hidx ▸ h.descs.nodup p) (hidx ▸ h.descs.busy p)]
        exact Or.inl ⟨rfl, rfl⟩
      · cases hstep

theorem Proto.avail_ring_of_step (h : s.Proto) (hstep : s.step l = some t)
    {n : ℕ} (hn : n < Ring.count 65536 s.lastAvail.toNat s.avail.idx.toNat) :
    t.avail.ring (Fin.ofNat num ((s.lastAvail.toNat + n) % 65536)) =
      s.avail.ring (Fin.ofNat num ((s.lastAvail.toNat + n) % 65536)) := by
  rcases h.step_cases hstep with ⟨hring, -⟩ | ⟨p, r, i, j, k, hp, rfl⟩ | ⟨hne, hloop⟩
  · rw [hring]
  · have hroom := h.avail_room (p := p) (i := i)
      (by simp [hp, DiskPc.stage]) (by simp [hp, DiskPc.idx])
    rw [availHeads, Ring.length_window] at hroom
    exact Function.update_of_ne (Ring.ofNat_count_ne num_dvd (toNat_lt _) hn hroom) _ _
  · obtain ⟨p, r, j, k, -, -, -, heq⟩ := h.intrLoop_eq hne
    rw [heq] at hloop
    cases hloop
    rfl

theorem Proto.disk_of_step (h : s.Proto) (hstep : s.step l = some t) {b : ℕ}
    (hs : s.disk b = true) (ht : t.disk b = false) : ∃ p r i j k, (s.pc p).stage = .submitted ∧
    s.Request p r i j k ∧ r.b = b ∧ i ∈ s.usedHeads ∧ (s.info i).status = 0 := by
  rcases h.step_cases hstep with ⟨-, hdisk⟩ | ⟨p, r, i, j, k, hp, rfl⟩ | ⟨hne, hloop⟩
  · rw [hdisk, hs] at ht
    cases ht
  · by_cases hb : b = r.b
    · simp [VirtioDisk.rwFormat, VirtioDisk.goto, hb] at ht
    · simp [VirtioDisk.rwFormat, VirtioDisk.goto, hb, hs] at ht
  · obtain ⟨p, r, j, k, hp, hreq, hused, heq⟩ := h.intrLoop_eq hne
    rw [heq] at hloop
    cases hloop
    refine ⟨p, r, _, j, k, hp, hreq, ?_, hused, h.queues.status _ hused⟩
    by_contra hb
    simp [VirtioDisk.intrDone, Ne.symm hb, hs] at ht

/-! ## The protocol -/

/-- The requests whose descriptors are allocated and not yet freed. -/
def openRequests (s : VirtioDisk) : Finset (Fin nproc) :=
  Finset.univ.filter fun p => (s.pc p).idx ≠ []

theorem Descs.count_open (h : s.Descs) : s.nfree + 3 * s.openRequests.card = num := by
  have hsum : ∑ p, (s.pc p).idx.length = 3 * s.openRequests.card := by
    rw [openRequests, Finset.card_filter, Finset.mul_sum]
    apply Finset.sum_congr rfl
    intro p _
    by_cases hp : (s.pc p).idx = []
    · simp [hp]
    · simp [hp, h.length p hp]
  rw [← hsum]
  exact h.count

/-- In every state of every run: the descriptors of an open request are three
different ones that are not free, and no two requests share one; nothing has
panicked; and no process sleeps for descriptors when there are three.  A step
from there keeps the entries that the device has not taken, and clears
`b->disk` only when the chain of the request for `b` is in the used ring, with
the status that the device has written. -/
theorem virtio_request_protocol {labels : List VirtioLabel}
    (hrun : Machine.run VirtioDisk.step labels virtioDiskInit = some s) :
    (∀ p ∈ s.openRequests, (s.pc p).idx.length = 3 ∧
      (s.pc p).idx.Nodup ∧ ∀ d ∈ (s.pc p).idx, s.free d = false) ∧
    (∀ p q, p ≠ q → (s.pc p).idx.Disjoint (s.pc q).idx) ∧
    (s.vdiskLock = none → s.nfree + 3 * s.openRequests.card = num) ∧
    s.panicked = none ∧
    (s.vdiskLock = none → 3 ≤ s.nfree → ∀ p r, s.pc p ≠ .asleepFree r) ∧
    ∀ l t, s.step l = some t →
      (∀ n < Ring.count 65536 s.lastAvail.toNat s.avail.idx.toNat,
        t.avail.ring (Fin.ofNat num ((s.lastAvail.toNat + n) % 65536)) =
          s.avail.ring (Fin.ofNat num ((s.lastAvail.toNat + n) % 65536))) ∧
      (∀ b, s.disk b = true → t.disk b = false →
        ∃ p r i j k, (s.pc p).stage = .submitted ∧ s.Request p r i j k ∧
          r.b = b ∧ i ∈ s.usedHeads ∧ (s.info i).status = 0) := by
  have h := proto_of_run hrun
  refine ⟨?_, h.descs.disjoint, fun _ => h.descs.count_open, h.panicked, ?_, ?_⟩
  · intro p hp
    have hne : (s.pc p).idx ≠ [] := (Finset.mem_filter.mp hp).2
    exact ⟨h.descs.length p hne, h.descs.nodup p, h.descs.busy p⟩
  · intro _ hthree p r hp
    have := h.descs.asleep p (by rw [hp]; rfl)
    omega
  · intro l t hstep
    exact ⟨fun n hn => h.avail_ring_of_step hstep hn, fun b hs ht => h.disk_of_step hstep hs ht⟩

/-- Two processes submit a request each, and the device completes the second
one first. -/
def outOfOrder : List VirtioLabel :=
  .call 0 ⟨7, 20, false⟩ :: List.replicate 5 (.rw 0) ++
  .call 1 ⟨9, 21, true⟩ :: List.replicate 5 (.rw 1) ++
  [.consume, .consume, .complete 3, .intr, .intr, .intr, .rw 1, .rw 1]

theorem virtio_request_protocol_outOfOrder :
    ∃ s, Machine.run VirtioDisk.step outOfOrder virtioDiskInit = some s ∧
      s.pc 0 = .asleepBuf ⟨7, 20, false⟩ [0, 1, 2] ∧
      s.pc 1 = .finish ⟨9, 21, true⟩ [3, 4, 5] ∧
      (s.pc 0).idx.Disjoint (s.pc 1).idx ∧ s.panicked = none := by
  refine Machine.exists_run (P := fun s => decide (s.pc 0 = .asleepBuf ⟨7, 20, false⟩ [0, 1, 2] ∧
      s.pc 1 = .finish ⟨9, 21, true⟩ [3, 4, 5]))
    (by decide +kernel) ?_
  intro s hrun htest
  simp only [decide_eq_true_eq] at htest
  have h := virtio_request_protocol hrun
  exact ⟨htest.1, htest.2, h.2.1 0 1 (by decide), h.2.2.2.1⟩

end VirtioDisk

end Xv6
