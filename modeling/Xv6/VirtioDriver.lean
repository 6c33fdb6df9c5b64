import Xv6.VirtioInvariant

/-!
# The steps of `virtio_disk_rw`

Each of them keeps the invariant of the virtio disk.
-/

namespace Xv6

namespace VirtioDisk

variable {s t : VirtioDisk} {p : Fin nproc}

theorem Proto.goto (h : s.Proto) {k : DiskPc} {lock : Option DiskHolder}
    (hlock : lock = s.vdiskLock ∨ s.vdiskLock = none ∧ lock = some (.rw p) ∨
    s.vdiskLock = some (.rw p) ∧ lock = none) (hself : k.locked = true ↔ lock = some (.rw p))
    (hk : k.Same (s.pc p)) (hasleep : k.waitsFree = true → s.nfree < 3) :
    ({ s with vdiskLock := lock }.goto p k).Proto where
  panicked := h.panicked
  locks := h.locks.goto hlock hself hk.req rfl rfl rfl
  descs := h.descs.goto hk.idx hasleep rfl rfl
  queues := h.queues.goto (Or.inl hk) rfl rfl rfl rfl rfl rfl rfl rfl rfl

theorem Proto.held (h : s.Proto) (hp : (s.pc p).locked = true) : s.vdiskLock = some (.rw p) :=
  (h.locks.held p).mp hp

theorem Proto.virtioDiskInit : virtioDiskInit.Proto where
  panicked := rfl
  locks := by
    constructor
    · intro p
      simp [Xv6.virtioDiskInit, DiskPc.locked]
    · intro p r hr
      simp [Xv6.virtioDiskInit, DiskPc.req] at hr
  descs := by
    constructor <;>
      simp [Xv6.virtioDiskInit, DiskPc.idx, DiskPc.waitsFree, nfree]
  queues := by
    have hflight : Xv6.virtioDiskInit.flight = [] := by decide
    constructor
    · intro p hp
      exact absurd rfl hp
    · intro p i hp
      cases hp
    · rw [hflight]
      exact List.nodup_nil
    · rw [hflight]
      simp
    · intro i hi
      have : i ∈ Xv6.virtioDiskInit.flight := List.mem_append_right _ hi
      rw [hflight] at this
      cases this

variable {r : DiskReq} {new idx : List DescNo} {i : DescNo}

theorem Proto.call (h : s.Proto) (hcall : s.call p r = some t) : t.Proto := by
  simp only [VirtioDisk.call, ite_eq_some] at hcall
  obtain ⟨⟨hidle, hfree⟩, rfl⟩ := hcall
  refine ⟨h.panicked, ?_, h.descs.goto ?_ ?_ rfl rfl,
    h.queues.goto (p := p) ?_ rfl rfl rfl rfl rfl rfl rfl rfl rfl⟩
  · apply h.locks.step (p := p)
    · exact Or.inl rfl
    · have hp := h.locks.held p
      rw [hidle] at hp
      simpa [VirtioDisk.goto, DiskPc.locked] using hp
    · intro r' hr'
      obtain rfl : r = r' := by
        simpa [VirtioDisk.goto, DiskPc.req] using hr'
      simp [VirtioDisk.goto]
    · intro q hq
      simp [VirtioDisk.goto, hq]
    · intro q _ r' hr'
      have hne : r'.b ≠ r.b := by
        intro heq
        have := h.locks.owner q r' hr'
        rw [heq, hfree] at this
        cases this
      simp [VirtioDisk.goto, hne]
  · rw [hidle]
    rfl
  · intro hwaits
    cases hwaits
  · right
    rw [hidle]
    exact ⟨rfl, Or.inl rfl⟩

theorem Descs.take (h : s.Descs) {k : DiskPc} (hnodup : new.Nodup)
    (hfree : ∀ i ∈ new, s.free i = true) (hlen : new.length = 3) (hnil : (s.pc p).idx = [])
    (hk : k.idx = new) (hwaits : k.waitsFree = false) : ((s.took new).goto p k).Descs := by
  have hnew (q) : (s.pc q).idx.Disjoint new := by
    intro d hd hd'
    have := h.busy q d hd
    rw [hfree d hd'] at this
    cases this
  have hself : (((s.took new).goto p k).pc p).idx = new := by
    simp [VirtioDisk.goto, hk]
  have hidx (q) (hq : q ≠ p) : (((s.took new).goto p k).pc q) = s.pc q := by
    simp [VirtioDisk.goto, took, hq]
  have hcount : ((s.took new).goto p k).nfree + new.length = s.nfree := nfree_took hnodup hfree
  constructor
  · intro q d hd
    by_cases hq : q = p
    · rw [hq, hself] at hd
      simp [VirtioDisk.goto, took, hd]
    · rw [hidx q hq] at hd
      simp [VirtioDisk.goto, took, h.busy q d hd]
  · intro q
    by_cases hq : q = p
    · rwa [hq, hself]
    · rw [hidx q hq]
      exact h.nodup q
  · intro q
    by_cases hq : q = p
    · rw [hq, hself]
      exact fun _ => hlen
    · rw [hidx q hq]
      exact h.length q
  · intro q q' hqq'
    by_cases hq : q = p
    · rw [hq, hself, hidx q' (hq ▸ Ne.symm hqq')]
      exact (hnew q').symm
    · rw [hidx q hq]
      by_cases hq' : q' = p
      · rw [hq', hself]
        exact hnew q
      · rw [hidx q' hq']
        exact h.disjoint q q' hqq'
  · have hsum := Counting.sum_change (fun q => (s.pc q).idx.length)
      (fun q => (((s.took new).goto p k).pc q).idx.length) p (fun q hq => by rw [hidx q hq])
    have hall := h.count
    simp only [hself, hnil, List.length_nil] at hsum
    omega
  · intro q hq
    have hqp : q ≠ p := by
      rintro rfl
      simp [VirtioDisk.goto, hwaits] at hq
    rw [hidx q hqp] at hq
    have := h.asleep q hq
    omega

section

variable (h : s.Proto)
include h

theorem Proto.take (hp : s.pc p = .alloc r) (hnodup : new.Nodup)
    (hfree : ∀ i ∈ new, s.free i = true) (hlen : new.length = 3) :
    ((s.took new).goto p (.format r new)).Proto := by
  have hlocked : s.vdiskLock = some (.rw p) := h.held (by rw [hp]; rfl)
  refine ⟨h.panicked, h.locks.goto (p := p) (Or.inl rfl) ?_ ?_ rfl rfl rfl,
    h.descs.take hnodup hfree hlen ?_ rfl rfl,
    h.queues.goto (p := p) ?_ rfl rfl rfl rfl rfl rfl rfl rfl rfl⟩
  · simp [DiskPc.locked, hlocked]
  · rw [hp]
    rfl
  · rw [hp]
    rfl
  · right
    rw [hp]
    exact ⟨rfl, Or.inl rfl⟩

theorem Proto.giveBack (hp : s.pc p = .alloc r)
    (hfree : ∀ i ∈ new, s.free i = true) (hlt : s.nfree < 3) : ({ (s.took new).freedAll new with
      vdiskLock := none }.goto p (.asleepFree r)).Proto := by
  generalize ht : ({ (s.took new).freedAll new with
    vdiskLock := none }.goto p (.asleepFree r)) = t
  have hlocked : s.vdiskLock = some (.rw p) := h.held (by rw [hp]; rfl)
  have hothers (q) (hq : q ≠ p) : t.pc q = s.pc q ∨ t.pc q = wakeupFree s.pc q := by
    rw [← ht]
    simp only [VirtioDisk.goto, freedAll, took, Function.update_of_ne hq]
    split
    · exact Or.inl rfl
    · exact Or.inr rfl
  have hself : t.pc p = .asleepFree r := by
    simp [← ht, VirtioDisk.goto]
  have hsame (q) : (t.pc q).Same (s.pc q) := by
    by_cases hq : q = p
    · rw [hq, hself, hp]
      exact ⟨rfl, rfl, rfl⟩
    · rcases hothers q hq with hq | hq
      · rw [hq]
        exact .refl _
      · rw [hq]
        exact wakeupFree_same s.pc q
  refine ⟨?_, h.locks.step (p := p) ?_ ?_ ?_ ?_ ?_,
    h.descs.of_idx (fun q => (hsame q).idx) ?_ (fun _ _ => Or.inr hlt),
    h.queues.frame (fun q => Or.inl (hsame q)) ?_ ?_ ?_ ?_ ?_ ?_ ?_⟩
  · rw [← ht]
    exact h.panicked
  · rw [← ht]
    exact Or.inr (Or.inr ⟨hlocked, rfl⟩)
  · rw [hself, ← ht]
    simp [DiskPc.locked, VirtioDisk.goto]
  · intro r' hr'
    rw [← ht]
    exact h.locks.owner p r' ((hsame p).req ▸ hr')
  · intro q hq
    refine ⟨?_, (hsame q).req⟩
    rcases hothers q hq with hq | hq
    · rw [hq]
    · rw [hq, locked_wakeupFree]
  · intro q _ r' _
    rw [← ht]
    rfl
  · rw [← ht]
    exact free_freedAll_took hfree
  · intro q _ d hd
    have hnew : d ∉ new := by
      intro hmem
      have := h.descs.busy q d hd
      rw [hfree d hmem] at this
      cases this
    simp [← ht, VirtioDisk.goto, freedAll, took, hnew]
  all_goals
    rw [← ht]
    rfl

theorem Proto.rwAlloc (hp : s.pc p = .alloc r) : (s.rwAlloc p r).Proto := by
  obtain ⟨new, hnodup, hfree, ⟨hlen, halloc⟩ | ⟨hlt, halloc⟩⟩ := s.alloc3Desc_cases
  · rw [VirtioDisk.rwAlloc, halloc]
    exact h.take hp hnodup hfree hlen
  · rw [VirtioDisk.rwAlloc, halloc]
    exact h.giveBack hp hfree hlt

theorem Proto.not_mem_flight (hp : (s.pc p).stage ≠ .submitted)
    (hi : i ∈ (s.pc p).idx) : i ∉ s.flight := by
  intro hmem
  obtain ⟨q, r, j, k, hq, hreq, -⟩ := h.queues.pending i hmem
  have hne : p ≠ q := fun heq => hp (heq ▸ hq)
  exact h.descs.disjoint p q hne hi hreq.head_mem

theorem Proto.avail_room (hp : (s.pc p).stage ≠ .submitted)
    (hi : i ∈ (s.pc p).idx) : s.availHeads.length < num := by
  have := length_lt_num h.queues.nodup (h.not_mem_flight hp hi)
  simp only [flight, List.length_append] at this
  omega

theorem Proto.eq_of_locked {q : Fin nproc} (hp : (s.pc p).locked = true)
    (hq : (s.pc q).locked = true) : q = p := by
  have hlock := h.held hp
  rw [h.held hq] at hlock
  simpa using hlock

theorem Proto.queues_of_own (hp : (s.pc p).locked = true) (hfree : ∀ i ∈ (s.pc p).idx, i ∉ s.flight)
    (hothers : ∀ q, q ≠ p → t.pc q = s.pc q) (hkeep : ∀ d, d ∉ (s.pc p).idx →
    t.desc d = s.desc d ∧ t.info d = s.info d) (hdisk : ∀ b, s.disk b = true → t.disk b = true)
    (hself : (t.pc p).stage ≠ .raw → ∃ r i j k, t.Request p r i j k)
    (hslot : ∀ i, (t.pc p).stage = .formatted → (t.pc p).idx.head? = some i →
    t.avail.ring (Virtq.slot t.avail.idx) = i ∧ ∀ r, (t.pc p).req = some r → t.disk r.b = true)
    (hnodup : t.flight.Nodup) (hflight : ∀ i ∈ t.flight, i ∈ s.flight ∨ t.Pending i)
    (hused : t.usedHeads = s.usedHeads) : t.Queues := by
  have hother {q d} (hq : q ≠ p) (hd : d ∈ (s.pc q).idx) : d ∉ (s.pc p).idx :=
    fun hmem => h.descs.disjoint q p hq hd hmem
  have hrequest {q r i j k} (hq : q ≠ p) (hreq : s.Request q r i j k) : t.Request q r i j k := by
    apply hreq.of_same
    · rw [hothers q hq]
      exact .refl _
    · exact fun d hd => (hkeep d (hother hq hd)).1
    · intro d hd
      rw [(hkeep d (hother hq hd)).2]
  have hpending {i} (hi : i ∈ s.flight) : ∃ q r j k, q ≠ p ∧ (s.pc q).stage = .submitted ∧
        s.Request q r i j k ∧ s.disk r.b = true := by
    obtain ⟨q, r, j, k, hq, hreq, htrue⟩ := h.queues.pending i hi
    refine ⟨q, r, j, k, ?_, hq, hreq, htrue⟩
    rintro rfl
    exact hfree i hreq.head_mem hi
  constructor
  · intro q hq
    by_cases hqp : q = p
    · rw [hqp] at hq ⊢
      exact hself hq
    · rw [hothers q hqp] at hq
      obtain ⟨r, i, j, k, hreq⟩ := h.queues.requests q hq
      exact ⟨r, i, j, k, hrequest hqp hreq⟩
  · intro q i hq hi
    by_cases hqp : q = p
    · rw [hqp] at hq hi ⊢
      exact hslot i hq hi
    · -- only one process at a time has the lock
      rw [hothers q hqp] at hq
      exact absurd (h.eq_of_locked hp (DiskPc.locked_of_formatted hq)) hqp
  · exact hnodup
  · intro i hi
    rcases hflight i hi with hi | hi
    · obtain ⟨q, r, j, k, hqp, hq, hreq, htrue⟩ := hpending hi
      refine ⟨q, r, j, k, ?_, hrequest hqp hreq, hdisk r.b htrue⟩
      rwa [hothers q hqp]
    · exact hi
  · intro i hi
    rw [hused] at hi
    obtain ⟨q, r, j, k, hqp, -, hreq, -⟩ := hpending (List.mem_append_right _ hi)
    rw [(hkeep i (hother hqp hreq.head_mem)).2]
    exact h.queues.status i hi

theorem Proto.rwFormat {j k : DescNo} (hp : s.pc p = .format r [i, j, k]) :
    (s.rwFormat p r i j k).Proto := by
  have hlocked : s.vdiskLock = some (.rw p) := h.held (by rw [hp]; rfl)
  have hidx : (s.pc p).idx = [i, j, k] := by
    rw [hp]
    rfl
  have hfree (d) (hd : d ∈ (s.pc p).idx) : d ∉ s.flight :=
    h.not_mem_flight (p := p) (by simp [hp, DiskPc.stage]) hd
  have hnodup := h.descs.nodup p
  rw [hidx] at hnodup
  simp only [List.nodup_cons, List.mem_cons, List.not_mem_nil, or_false,
    not_or, not_false_eq_true, List.nodup_nil, and_true] at hnodup
  have hroom : s.availHeads.length < num :=
    h.avail_room (p := p) (i := i) (by simp [hp, DiskPc.stage]) (by simp [hidx])
  have havail : (s.rwFormat p r i j k).availHeads = s.availHeads :=
    window_update s.avail.ring s.lastAvail s.avail.idx i hroom
  have hflight : (s.rwFormat p r i j k).flight = s.flight := by
    rw [flight, flight, havail]
    rfl
  have hself : (s.rwFormat p r i j k).pc p = .publish r [i, j, k] := by
    simp [VirtioDisk.rwFormat, VirtioDisk.goto]
  have hdisk : (s.rwFormat p r i j k).disk r.b = true := by
    simp [VirtioDisk.rwFormat, VirtioDisk.goto]
  refine ⟨h.panicked, ?_, ?_, ?_⟩
  · refine h.locks.goto (p := p) (k := .publish r [i, j, k]) (Or.inl rfl) ?_ ?_ rfl rfl rfl
    · simp [DiskPc.locked, hlocked]
    · rw [hp]
      rfl
  · refine h.descs.goto (p := p) (k := .publish r [i, j, k]) ?_ ?_ rfl rfl
    · rw [hp]
      rfl
    · intro hwaits
      cases hwaits
  · refine h.queues_of_own (p := p) (by rw [hp]; rfl) hfree ?_ ?_ ?_ ?_ ?_ ?_ ?_ rfl
    · intro q hq
      simp [VirtioDisk.rwFormat, VirtioDisk.goto, hq]
    · intro d hd
      simp only [hidx, List.mem_cons, List.not_mem_nil, or_false, not_or] at hd
      simp [VirtioDisk.rwFormat, VirtioDisk.goto, hd]
    · intro b hb
      by_cases hbr : b = r.b
      · rw [hbr]
        exact hdisk
      · simpa [VirtioDisk.rwFormat, VirtioDisk.goto, hbr] using hb
    · intro _
      refine ⟨r, i, j, k, by rw [hself]; rfl, by rw [hself]; rfl, ⟨?_, ?_, ?_⟩, ?_⟩
      all_goals
        simp [VirtioDisk.rwFormat, VirtioDisk.goto, hnodup]
    · intro i' _ hi'
      rw [hself] at hi' ⊢
      obtain rfl : i = i' := by simpa [DiskPc.idx] using hi'
      refine ⟨by simp [VirtioDisk.rwFormat, VirtioDisk.goto], ?_⟩
      intro r' hr'
      obtain rfl : r = r' := by simpa [DiskPc.req] using hr'
      exact hdisk
    · rw [hflight]
      exact h.queues.nodup
    · intro i' hi'
      exact Or.inl (hflight ▸ hi')

theorem Proto.rwPublish (hp : s.pc p = .publish r idx) : (s.rwPublish p r idx).Proto := by
  have hlocked : s.vdiskLock = some (.rw p) := h.held (by rw [hp]; rfl)
  obtain ⟨r', i, j, k, hreq⟩ := h.queues.requests p (by simp [hp, DiskPc.stage])
  obtain rfl : r = r' := by simpa [hp, DiskPc.req] using hreq.req
  have hidx := hreq.idx
  have hfree (d) (hd : d ∈ (s.pc p).idx) : d ∉ s.flight :=
    h.not_mem_flight (p := p) (by simp [hp, DiskPc.stage]) hd
  obtain ⟨hslot, hdisk⟩ := h.queues.slot p i (by rw [hp]; rfl) (by rw [hidx]; rfl)
  have hi : i ∉ s.flight := hfree i hreq.head_mem
  have hroom : s.availHeads.length < num := h.avail_room (by simp [hp, DiskPc.stage]) hreq.head_mem
  have havail : (s.rwPublish p r idx).availHeads = s.availHeads ++ [i] := by
    have hpush := window_succ_write s.avail.ring s.lastAvail s.avail.idx i hroom
    rwa [← hslot, Function.update_eq_self, hslot] at hpush
  have hflight : (s.rwPublish p r idx).flight.Perm (i :: s.flight) := by
    rw [flight, flight, havail, List.append_assoc, List.append_assoc, List.append_assoc]
    exact List.perm_middle
  have hself : (s.rwPublish p r idx).pc p = .wait r idx := by
    simp [VirtioDisk.rwPublish, VirtioDisk.goto]
  have hrequest : (s.rwPublish p r idx).Request p r i j k := by
    refine ⟨by rw [hself]; rfl, ?_, hreq.chain.of_desc (fun _ _ => rfl), hreq.info⟩
    rw [hself, ← hidx, hp]
    rfl
  refine ⟨h.panicked, ?_, ?_, ?_⟩
  · refine h.locks.goto (p := p) (k := .wait r idx) (Or.inl rfl) ?_ ?_ rfl rfl rfl
    · simp [DiskPc.locked, hlocked]
    · rw [hp]
      rfl
  · refine h.descs.goto (p := p) (k := .wait r idx) ?_ ?_ rfl rfl
    · rw [hp]
      rfl
    · intro hwaits
      cases hwaits
  · refine h.queues_of_own (p := p) (by rw [hp]; rfl) hfree ?_ ?_ ?_ ?_ ?_ ?_ ?_ rfl
    · intro q hq
      simp [VirtioDisk.rwPublish, VirtioDisk.goto, hq]
    · exact fun d _ => ⟨rfl, rfl⟩
    · exact fun b hb => hb
    · exact fun _ => ⟨r, i, j, k, hrequest⟩
    · intro i' hstage
      rw [hself] at hstage
      cases hstage
    · rw [hflight.nodup_iff]
      exact List.nodup_cons.mpr ⟨hi, h.queues.nodup⟩
    · intro i' hi'
      rcases List.mem_cons.mp (hflight.mem_iff.mp hi') with rfl | hi'
      · right
        exact ⟨p, r, j, k, by rw [hself]; rfl, hrequest, hdisk r hreq.req⟩
      · exact Or.inl hi'

theorem Proto.rwWait (hp : s.pc p = .wait r idx) : (s.rwWait p r idx).Proto := by
  have hlocked : s.vdiskLock = some (.rw p) := h.held (by rw [hp]; rfl)
  unfold VirtioDisk.rwWait
  split
  · apply h.goto (Or.inr (Or.inr ⟨hlocked, rfl⟩))
    · simp [DiskPc.locked]
    · rw [hp]
      exact ⟨rfl, rfl, rfl⟩
    · intro hwaits
      cases hwaits
  · rename_i hdone
    -- the chain of `p` is not in the rings: its buffer would not be done
    have hfree (d) (hd : d ∈ (s.pc p).idx) : d ∉ s.flight := by
      intro hmem
      obtain ⟨q, r', j, k, -, hreq, htrue⟩ := h.queues.pending d hmem
      by_cases hq : p = q
      · have hr : r = r' := by
          simpa [← hq, hp, DiskPc.req] using hreq.req
        exact hdone (hr ▸ htrue)
      · exact h.descs.disjoint p q hq hd hreq.head_mem
    obtain ⟨r', i, j, k, hreq⟩ := h.queues.requests p (by simp [hp, DiskPc.stage])
    have hself : (s.goto p (.finish r idx)).pc p = .finish r idx := by
      simp [VirtioDisk.goto]
    refine ⟨h.panicked, ?_, ?_, ?_⟩
    · refine h.locks.goto (p := p) (k := .finish r idx) (Or.inl rfl) ?_ ?_ rfl rfl rfl
      · simp [DiskPc.locked, hlocked]
      · rw [hp]
        rfl
    · refine h.descs.goto (p := p) (k := .finish r idx) ?_ ?_ rfl rfl
      · rw [hp]
        rfl
      · intro hwaits
        cases hwaits
    · refine h.queues_of_own (p := p) (by rw [hp]; rfl) hfree
        ?_ ?_ ?_ ?_ ?_ h.queues.nodup (fun i hi => Or.inl hi) rfl
      · intro q hq
        simp [VirtioDisk.goto, hq]
      · exact fun d _ => ⟨rfl, rfl⟩
      · exact fun b hb => hb
      · intro _
        refine ⟨r', i, j, k, ?_, ?_, hreq.chain.of_desc (fun _ _ => rfl), hreq.info⟩
        · rw [hself, ← hreq.req, hp]
          rfl
        · rw [hself, ← hreq.idx, hp]
          rfl
      · intro i' hstage
        rw [hself] at hstage
        cases hstage

end

theorem Descs.release (h : s.Descs) (hfree : t.free = (s.freedAll (s.pc p).idx).free)
    (hself : (t.pc p).idx = []) (hothers : ∀ q, q ≠ p → (t.pc q).idx = (s.pc q).idx)
    (hwaits : ∀ q, (t.pc q).waitsFree = false) : t.Descs := by
  have hnfree : t.nfree = s.nfree + (s.pc p).idx.length := by
    rw [← nfree_freedAll (h.nodup p) (h.busy p), nfree, nfree, hfree]
  constructor
  · intro q d hd
    have hq : q ≠ p := by
      rintro rfl
      simp [hself] at hd
    rw [hothers q hq] at hd
    have hne : d ∉ (s.pc p).idx := fun hmem => h.disjoint q p hq hd hmem
    rw [hfree]
    simp [freedAll, hne, h.busy q d hd]
  · intro q
    by_cases hq : q = p
    · rw [hq, hself]
      exact List.nodup_nil
    · rw [hothers q hq]
      exact h.nodup q
  · intro q
    by_cases hq : q = p
    · rw [hq, hself]
      exact fun hne => absurd rfl hne
    · rw [hothers q hq]
      exact h.length q
  · intro q q' hqq'
    by_cases hq : q = p
    · rw [hq, hself]
      exact List.disjoint_nil_left _
    · rw [hothers q hq]
      by_cases hq' : q' = p
      · rw [hq', hself]
        exact List.disjoint_nil_right _
      · rw [hothers q' hq']
        exact h.disjoint q q' hqq'
  · have hsum := Counting.sum_change (fun q => (s.pc q).idx.length)
      (fun q => (t.pc q).idx.length) p (fun q hq => by rw [hothers q hq])
    have hall := h.count
    simp only [hself, List.length_nil] at hsum
    omega
  · intro q hq
    rw [hwaits q] at hq
    cases hq

theorem rwFinish_eq {j k : DescNo} (hchain : s.Chain r i j k) (hnodup : [i, j, k].Nodup)
    (hbusy : ∀ d ∈ [i, j, k], s.free d = false) : s.rwFinish p r i = { ({ s with
          info := Function.update s.info i { s.info i with b := none } }
        ).freedAll [i, j, k] with
        vdiskLock := none
        bufLock := Function.update s.bufLock r.b none }.goto p .idle := by
  have hchain' : ({ s with
      info := Function.update s.info i { s.info i with b := none } }
      : VirtioDisk).Chain r i j k :=
    hchain.of_desc fun _ _ => rfl
  rw [VirtioDisk.rwFinish, freeChain_eq hchain' hnodup hbusy]
  rfl

theorem Proto.finish_chain (h : s.Proto) (hp : s.pc p = .finish r (i :: idx)) :
    ∃ j k, s.Chain r i j k ∧ (s.pc p).idx = [i, j, k] := by
  obtain ⟨r', i', j, k, hreq⟩ := h.queues.requests p (by simp [hp, DiskPc.stage])
  obtain rfl : r = r' := by simpa [hp, DiskPc.req] using hreq.req
  have hidx := hreq.idx
  obtain rfl : i = i' := by
    rw [hp] at hidx
    exact (List.cons.inj hidx).1
  exact ⟨j, k, hreq.chain, hidx⟩

theorem Proto.rwFinish (h : s.Proto) (hp : s.pc p = .finish r (i :: idx)) :
    (s.rwFinish p r i).Proto := by
  have hlocked : s.vdiskLock = some (.rw p) := h.held (by rw [hp]; rfl)
  obtain ⟨j, k, hchain, hidx⟩ := h.finish_chain hp
  rw [rwFinish_eq hchain (hidx ▸ h.descs.nodup p) (hidx ▸ h.descs.busy p)]
  generalize ht : VirtioDisk.goto p .idle _ = t
  have hself : t.pc p = .idle := by
    simp [← ht, VirtioDisk.goto]
  have hothers (q) (hq : q ≠ p) : t.pc q = wakeupFree s.pc q := by
    simp [← ht, VirtioDisk.goto, freedAll, hq]
  have howner : s.bufLock r.b = some p := h.locks.owner p r (by rw [hp]; rfl)
  refine ⟨?_, h.locks.step (p := p) ?_ ?_ ?_ ?_ ?_, h.descs.release (p := p) ?_ ?_ ?_ ?_,
    h.queues.frame ?_ ?_ ?_ ?_ ?_ ?_ ?_ ?_⟩
  · rw [← ht]
    exact h.panicked
  · rw [← ht]
    exact Or.inr (Or.inr ⟨hlocked, rfl⟩)
  · rw [hself, ← ht]
    simp [DiskPc.locked, VirtioDisk.goto]
  · intro r' hr'
    simp [hself, DiskPc.req] at hr'
  · intro q hq
    rw [hothers q hq]
    exact ⟨locked_wakeupFree s.pc q, (wakeupFree_same s.pc q).req⟩
  · intro q hq r' hr'
    have hne : r'.b ≠ r.b := by
      intro heq
      have := h.locks.owner q r' hr'
      rw [heq, howner] at this
      exact hq (Option.some.inj this).symm
    simp [← ht, VirtioDisk.goto, freedAll, hne]
  · rw [← ht, hidx]
    rfl
  · rw [hself]
    rfl
  · intro q hq
    rw [hothers q hq]
    exact (wakeupFree_same s.pc q).idx
  · intro q
    by_cases hq : q = p
    · rw [hq, hself]
      rfl
    · rw [hothers q hq]
      exact waitsFree_wakeupFree s.pc q
  · intro q
    by_cases hq : q = p
    · right
      rw [hq, hself, hp]
      exact ⟨rfl, Or.inr rfl⟩
    · left
      rw [hothers q hq]
      exact wakeupFree_same s.pc q
  · intro q hstage d hd
    have hq : q ≠ p := by
      rintro rfl
      exact hstage (by rw [hself]; rfl)
    have hne : d ∉ [i, j, k] := by
      intro hmem
      exact h.descs.disjoint q p hq hd (hidx ▸ hmem)
    have hdi : d ≠ i := fun heq => hne (by simp [heq])
    simp only [← ht, VirtioDisk.goto, freedAll, if_neg hne, Function.update_of_ne hdi, and_self]
  all_goals
    rw [← ht]
    rfl

theorem Proto.virtioDiskRw (h : s.Proto) (hstep : s.virtioDiskRw p = some t) : t.Proto := by
  unfold VirtioDisk.virtioDiskRw at hstep
  cases hp : s.pc p with
  | idle | asleepFree r | asleepBuf r idx => simp [hp] at hstep
  | enter r | awake r idx =>
    simp only [hp, ite_eq_some] at hstep
    obtain ⟨hlock, rfl⟩ := hstep
    apply h.goto (Or.inr (Or.inl ⟨hlock, rfl⟩))
    · simp [DiskPc.locked]
    · rw [hp]
      exact ⟨rfl, rfl, rfl⟩
    · intro hwaits
      cases hwaits
  | alloc r =>
    simp only [hp, Option.some.injEq] at hstep
    exact hstep ▸ h.rwAlloc hp
  | format r idx =>
    simp only [hp] at hstep
    split at hstep
    · cases hstep
      exact h.rwFormat hp
    · cases hstep
  | publish r idx =>
    simp only [hp, Option.some.injEq] at hstep
    exact hstep ▸ h.rwPublish hp
  | wait r idx =>
    simp only [hp, Option.some.injEq] at hstep
    exact hstep ▸ h.rwWait hp
  | finish r idx =>
    simp only [hp] at hstep
    split at hstep
    · cases hstep
      exact h.rwFinish hp
    · cases hstep

theorem Proto.kill (h : s.Proto) (hkill : s.kill p = some t) : t.Proto := by
  have hnot (hp : (s.pc p).locked = false) : s.vdiskLock ≠ some (.rw p) := by
    intro hlock
    rw [(h.locks.held p).mpr hlock] at hp
    cases hp
  unfold VirtioDisk.kill at hkill
  split at hkill
  · rename_i r hp
    cases hkill
    apply h.goto (Or.inl rfl)
    · simp [DiskPc.locked, hnot (by rw [hp]; rfl)]
    · rw [hp]
      exact ⟨rfl, rfl, rfl⟩
    · intro hwaits
      cases hwaits
  · rename_i r idx hp
    cases hkill
    apply h.goto (Or.inl rfl)
    · simp [DiskPc.locked, hnot (by rw [hp]; rfl)]
    · rw [hp]
      exact ⟨rfl, rfl, rfl⟩
    · intro hwaits
      cases hwaits
  · cases hkill

end VirtioDisk

end Xv6
