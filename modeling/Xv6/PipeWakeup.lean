import Xv6.Pipe

/-!
# Wakeups in pipes

A process sleeps on `&pi->nread` while the pipe is empty and on `&pi->nwrite`
while it is full.  Whoever moves a byte or closes an end has to call `wakeup`
before it gives `pi->lock` up.  `pipewrite` does so on every way out but one:
when it finds the process killed it returns at once, even if it has stored
bytes that nobody has been told of.
-/

namespace Xv6

open Function (update update_of_ne update_self)
open PipeState Machine

/-- Somebody sleeps on `&pi->nread`. -/
def PipeState.ReaderAsleep (s : PipeState) : Prop := ∃ p n, s.pc p = .readAsleep n

/-- Somebody sleeps on `&pi->nwrite`. -/
def PipeState.WriterAsleep (s : PipeState) : Prop := ∃ p n i, s.pc p = .writeAsleep n i

/-! ## Who sleeps after a `wakeup` -/

@[simp] theorem wakeupNread_ne_readAsleep (pc : ℕ → PipePc) (p : ℕ) (n : ℤ) :
    wakeupNread pc p ≠ .readAsleep n := by
  unfold wakeupNread
  split
  · simp
  · rename_i hpc
    exact hpc n

@[simp] theorem wakeupNwrite_ne_writeAsleep
    (pc : ℕ → PipePc) (p : ℕ) (n i : ℤ) :
    wakeupNwrite pc p ≠ .writeAsleep n i := by
  unfold wakeupNwrite
  split
  · simp
  · rename_i hpc
    exact hpc n i

@[simp] theorem wakeupNread_eq_writeAsleep
    {pc : ℕ → PipePc} {p : ℕ} {n i : ℤ} :
    wakeupNread pc p = .writeAsleep n i ↔ pc p = .writeAsleep n i := by
  unfold wakeupNread
  split
  · rename_i hpc
    simp [hpc]
  · exact Iff.rfl

@[simp] theorem wakeupNwrite_eq_readAsleep
    {pc : ℕ → PipePc} {p : ℕ} {n : ℤ} :
    wakeupNwrite pc p = .readAsleep n ↔ pc p = .readAsleep n := by
  unfold wakeupNwrite
  split
  · rename_i hpc
    simp [hpc]
  · exact Iff.rfl

/-! ## The invariant -/

/-- Sleepers have a reason to sleep, or the holder of the lock is on its way
to wake them. -/
structure PipeState.Awake (s : PipeState) : Prop where
  lock : s.LockHeld
  writeopen : s.ReaderAsleep → s.pipe.writeopen = true
  readopen : s.WriterAsleep → s.pipe.readopen = true
  reader : s.ReaderAsleep → s.pipe.nread = s.pipe.nwrite ∨
    ∃ q n i, s.pc q = .writeLoop n i ∧ s.pipe.readopen = true ∧ (s.killed q = true → n ≤ i)
  writer : s.WriterAsleep → s.pipe.nwrite = s.pipe.nread + UInt32.ofNat pipeSize ∨
      ∃ q n i, s.pc q = .readCopy n i

theorem pipealloc_awake (junk : Fin pipeSize → UInt8) : (pipealloc junk).Awake := by
  refine ⟨pipealloc_lockHeld junk, ?_, ?_, ?_, ?_⟩ <;>
    simp [pipealloc, ReaderAsleep, WriterAsleep]

/-- `kill` does not come between two iterations of a `pipewrite` by its victim
while there are bytes in the pipe. -/
def killBetweenCalls (l : PipeLabel) (s : PipeState) : Bool :=
  match l with
  | .kill p =>
    match s.pc p with
    | .writeLoop n i => n ≤ i ∨ s.pipe.nread = s.pipe.nwrite
    | _ => true
  | _ => true

section

variable {s : PipeState} {p : ℕ}

theorem PipeState.Awake.reader_of (h : s.Awake) (hnot : ∀ q n i, s.pc q ≠ .writeLoop n i)
    (hasleep : s.ReaderAsleep) : s.pipe.nread = s.pipe.nwrite := by
  rcases h.reader hasleep with hempty | ⟨q, n, i, hq, _⟩
  · exact hempty
  · exact absurd hq (hnot q n i)

theorem PipeState.Awake.writer_of (h : s.Awake) (hnot : ∀ q n i, s.pc q ≠ .readCopy n i)
    (hasleep : s.WriterAsleep) : s.pipe.nwrite = s.pipe.nread + UInt32.ofNat pipeSize := by
  rcases h.writer hasleep with hfull | ⟨q, n, i, hq⟩
  · exact hfull
  · exact absurd hq (hnot q n i)

theorem PipeState.LockHeld.no_writer (h : s.LockHeld) (hp : (s.pc p).critical = true)
    (hnot : ∀ n i, s.pc p ≠ .writeLoop n i) (q : ℕ) (n i : ℤ) : s.pc q ≠ .writeLoop n i := by
  intro hq
  obtain rfl := h.unique hp (q := q) (by rw [hq]; rfl)
  exact hnot n i hq

theorem PipeState.LockHeld.no_reader (h : s.LockHeld) (hp : (s.pc p).critical = true)
    (hnot : ∀ n i, s.pc p ≠ .readCopy n i) (q : ℕ) (n i : ℤ) : s.pc q ≠ .readCopy n i := by
  intro hq
  obtain rfl := h.unique hp (q := q) (by rw [hq]; rfl)
  exact hnot n i hq

/-! ## Sleepers after one process has moved -/

variable {pc : ℕ → PipePc} {c : PipePc}

theorem update_eq_readAsleep (hc : ∀ n, c ≠ .readAsleep n) {q : ℕ} {n : ℤ}
    (hq : update pc p c q = .readAsleep n) : pc q = .readAsleep n := by
  by_cases hqp : q = p
  · rw [hqp, update_self] at hq
    exact absurd hq (hc n)
  · rwa [update_of_ne hqp] at hq

theorem update_eq_writeAsleep (hc : ∀ n i, c ≠ .writeAsleep n i)
    {q : ℕ} {n i : ℤ} (hq : update pc p c q = .writeAsleep n i) : pc q = .writeAsleep n i := by
  by_cases hqp : q = p
  · rw [hqp, update_self] at hq
    exact absurd hq (hc n i)
  · rwa [update_of_ne hqp] at hq

theorem PipeState.Awake.move_outside (h : s.Awake)
    (hlock : ({ s with pc := update s.pc p c } : PipeState).LockHeld)
    (hp : (s.pc p).critical = false)
    (hread : ∀ n, c ≠ .readAsleep n) (hwrite : ∀ n i, c ≠ .writeAsleep n i) :
    ({ s with pc := update s.pc p c } : PipeState).Awake := by
  have hother : ∀ q, (s.pc q).critical = true → q ≠ p := by
    rintro q hq rfl
    rw [hp] at hq
    contradiction
  refine ⟨hlock, ?_, ?_, ?_, ?_⟩
  · rintro ⟨q, n, hq⟩
    exact h.writeopen ⟨q, n, update_eq_readAsleep hread hq⟩
  · rintro ⟨q, n, i, hq⟩
    exact h.readopen ⟨q, n, i, update_eq_writeAsleep hwrite hq⟩
  · rintro ⟨q, n, hq⟩
    rcases h.reader ⟨q, n, update_eq_readAsleep hread hq⟩ with
      hempty | ⟨q', n', i, hq', hrest⟩
    · exact Or.inl hempty
    · refine Or.inr ⟨q', n', i, ?_, hrest⟩
      exact (update_of_ne (hother q' (by rw [hq']; rfl)) _ _).trans hq'
  · rintro ⟨q, n, i, hq⟩
    rcases h.writer ⟨q, n, i, update_eq_writeAsleep hwrite hq⟩ with
      hfull | ⟨q', n', i', hq'⟩
    · exact Or.inl hfull
    · refine Or.inr ⟨q', n', i', ?_⟩
      exact (update_of_ne (hother q' (by rw [hq']; rfl)) _ _).trans hq'

theorem PipeState.Awake.acquire (h : s.Awake) (hfree : s.lock = none)
    (hlock : ({ s with lock := some p, pc := update s.pc p c } : PipeState).LockHeld)
    (hread : ∀ n, c ≠ .readAsleep n) (hwrite : ∀ n i, c ≠ .writeAsleep n i) :
    ({ s with lock := some p, pc := update s.pc p c } : PipeState).Awake := by
  have hnone := h.lock.free hfree
  refine ⟨hlock, ?_, ?_, ?_, ?_⟩
  · rintro ⟨q, n, hq⟩
    exact h.writeopen ⟨q, n, update_eq_readAsleep hread hq⟩
  · rintro ⟨q, n, i, hq⟩
    exact h.readopen ⟨q, n, i, update_eq_writeAsleep hwrite hq⟩
  · rintro ⟨q, n, hq⟩
    refine Or.inl (h.reader_of ?_ ⟨q, n, update_eq_readAsleep hread hq⟩)
    intro q' n' i hq'
    have := hnone q'
    rw [hq'] at this
    contradiction
  · rintro ⟨q, n, i, hq⟩
    refine Or.inl (h.writer_of ?_ ⟨q, n, i, update_eq_writeAsleep hwrite hq⟩)
    intro q' n' i' hq'
    have := hnone q'
    rw [hq'] at this
    contradiction

theorem PipeState.give_up {pipe : Pipe} {accepted removed : List UInt8} (hlock : ({ s with
        lock := none
        pipe := pipe
        accepted := accepted
        removed := removed
        pc := update pc p c } : PipeState).LockHeld)
    (hw : pipe.writeopen = s.pipe.writeopen)
    (hr : pipe.readopen = s.pipe.readopen)
    (hreader : ∀ q n, update pc p c q = .readAsleep n →
      s.pipe.writeopen = true ∧ pipe.nread = pipe.nwrite)
    (hwriter : ∀ q n i, update pc p c q = .writeAsleep n i → s.pipe.readopen = true ∧
        pipe.nwrite = pipe.nread + UInt32.ofNat pipeSize) :
    ({ s with
        lock := none
        pipe := pipe
        accepted := accepted
        removed := removed
        pc := update pc p c } : PipeState).Awake := by
  refine ⟨hlock, ?_, ?_, ?_, ?_⟩
  · rintro ⟨q, n, hq⟩
    exact hw.trans (hreader q n hq).1
  · rintro ⟨q, n, i, hq⟩
    exact hr.trans (hwriter q n i hq).1
  · rintro ⟨q, n, hq⟩
    exact Or.inl (hreader q n hq).2
  · rintro ⟨q, n, i, hq⟩
    exact Or.inl (hwriter q n i hq).2

theorem PipeState.Awake.go_on (h : s.Awake) {pipe : Pipe} {accepted removed : List UInt8}
    (hlock : ({ s with
        pipe := pipe
        accepted := accepted
        removed := removed
        pc := update s.pc p c } : PipeState).LockHeld)
    (hc : c.critical = true) (hw : pipe.writeopen = s.pipe.writeopen)
    (hr : pipe.readopen = s.pipe.readopen)
    (hreader : s.ReaderAsleep → pipe.nread = pipe.nwrite ∨
      ∃ n i, c = .writeLoop n i ∧ s.pipe.readopen = true ∧ (s.killed p = true → n ≤ i))
    (hwriter : s.WriterAsleep → pipe.nwrite = pipe.nread + UInt32.ofNat pipeSize ∨
        ∃ n i, c = .readCopy n i) :
    ({ s with
        pipe := pipe
        accepted := accepted
        removed := removed
        pc := update s.pc p c } : PipeState).Awake := by
  have hread : ∀ n, c ≠ .readAsleep n := by
    rintro n rfl
    contradiction
  have hwrite : ∀ n i, c ≠ .writeAsleep n i := by
    rintro n i rfl
    contradiction
  refine ⟨hlock, ?_, ?_, ?_, ?_⟩
  · rintro ⟨q, n, hq⟩
    exact hw.trans (h.writeopen ⟨q, n, update_eq_readAsleep hread hq⟩)
  · rintro ⟨q, n, i, hq⟩
    exact hr.trans (h.readopen ⟨q, n, i, update_eq_writeAsleep hwrite hq⟩)
  · rintro ⟨q, n, hq⟩
    rcases hreader ⟨q, n, update_eq_readAsleep hread hq⟩ with
      hempty | ⟨n, i, rfl, hopen, hkilled⟩
    · exact Or.inl hempty
    · exact Or.inr ⟨p, n, i, update_self .., hr.trans hopen, hkilled⟩
  · rintro ⟨q, n, i, hq⟩
    rcases hwriter ⟨q, n, i, update_eq_writeAsleep hwrite hq⟩ with
      hfull | ⟨n, i, rfl⟩
    · exact Or.inl hfull
    · exact Or.inr ⟨p, n, i, update_self ..⟩

/-! ## Every step keeps the invariant -/

theorem pipecloseEnd_awake (h : s.Awake) (hfree : s.lock = none)
    (writable : Bool) : (pipecloseEnd writable s).Awake := by
  have hnone := h.lock.free hfree
  have hlock := pipecloseEnd_lockHeld h.lock writable
  have hnotWrite : ∀ q n i, s.pc q ≠ .writeLoop n i := by
    intro q n i hq
    have := hnone q
    rw [hq] at this
    contradiction
  have hnotRead : ∀ q n i, s.pc q ≠ .readCopy n i := by
    intro q n i hq
    have := hnone q
    rw [hq] at this
    contradiction
  unfold pipecloseEnd at hlock ⊢
  split
  · rw [if_pos ‹_›] at hlock
    refine ⟨hlock, ?_, ?_, ?_, ?_⟩
    · rintro ⟨q, n, hq⟩
      exact absurd hq (wakeupNread_ne_readAsleep _ _ _)
    · rintro ⟨q, n, i, hq⟩
      exact h.readopen ⟨q, n, i, wakeupNread_eq_writeAsleep.mp hq⟩
    · rintro ⟨q, n, hq⟩
      exact absurd hq (wakeupNread_ne_readAsleep _ _ _)
    · rintro ⟨q, n, i, hq⟩
      exact Or.inl (h.writer_of hnotRead ⟨q, n, i, wakeupNread_eq_writeAsleep.mp hq⟩)
  · rw [if_neg ‹_›] at hlock
    refine ⟨hlock, ?_, ?_, ?_, ?_⟩
    · rintro ⟨q, n, hq⟩
      exact h.writeopen ⟨q, n, wakeupNwrite_eq_readAsleep.mp hq⟩
    · rintro ⟨q, n, i, hq⟩
      exact absurd hq (wakeupNwrite_ne_writeAsleep _ _ _ _)
    · rintro ⟨q, n, hq⟩
      exact Or.inl (h.reader_of hnotWrite ⟨q, n, wakeupNwrite_eq_readAsleep.mp hq⟩)
    · rintro ⟨q, n, i, hq⟩
      exact absurd hq (wakeupNwrite_ne_writeAsleep _ _ _ _)

theorem pipeclose_awake (h : s.Awake) (hfree : s.lock = none)
    (writable : Bool) : (pipeclose writable s).Awake := by
  have hend := pipecloseEnd_awake h hfree writable
  unfold pipeclose
  split
  · exact ⟨hend.lock, hend.writeopen, hend.readopen, hend.reader, hend.writer⟩
  · exact hend

theorem PipeState.Awake.setKilled (h : s.Awake) (hallowed : killBetweenCalls (.kill p) s = true) :
    ({ s with killed := update s.killed p true } : PipeState).Awake := by
  refine ⟨h.lock, h.writeopen, h.readopen, ?_, h.writer⟩
  intro hasleep
  rcases h.reader hasleep with hempty | ⟨q, n, i, hq, hopen, hkilled⟩
  · exact Or.inl hempty
  · by_cases hqp : q = p
    · subst hqp
      have hcases : n ≤ i ∨ s.pipe.nread = s.pipe.nwrite := by
        simpa [killBetweenCalls, hq] using hallowed
      rcases hcases with hdone | hempty
      · exact Or.inr ⟨q, n, i, hq, hopen, fun _ => hdone⟩
      · exact Or.inl hempty
    · refine Or.inr ⟨q, n, i, hq, hopen, ?_⟩
      intro hkill
      dsimp only at hkill
      rw [update_of_ne hqp] at hkill
      exact hkilled hkill

theorem pipeKill_awake (h : s.Awake) (hallowed : killBetweenCalls (.kill p) s = true) :
    (pipeKill p s).Awake := by
  have hset := h.setKilled hallowed
  have hlock := pipeKill_lockHeld h.lock p
  unfold pipeKill at hlock ⊢
  split
  · rename_i hpc
    rw [hpc] at hlock
    exact hset.move_outside hlock (by simp [hpc, PipePc.critical]) (by simp) (by simp)
  · rename_i hpc
    rw [hpc] at hlock
    exact hset.move_outside hlock (by simp [hpc, PipePc.critical]) (by simp) (by simp)
  · rw [Function.update_eq_self]
    exact hset

theorem PipeMove.awake {l : PipeLabel} {s' : PipeState} (hmove : PipeMove s l s')
    (hallowed : killBetweenCalls l s = true) (h : s.Awake) : s'.Awake := by
  have hlock := hmove.lockHeld h.lock
  cases hmove with
  | callWrite hpc | callRead hpc =>
    exact h.move_outside hlock (by simp [hpc, PipePc.critical]) (by simp) (by simp)
  | acquireWrite hpc hfree | acquireRead hpc hfree =>
    exact h.acquire hfree hlock (by simp) (by simp)
  | @writeFail p n i copyin hpc hmore hstop =>
    have hp : (s.pc p).critical = true := by rw [hpc]; rfl
    refine give_up hlock rfl rfl ?_ ?_
    · intro q n' hq
      have hasleep : s.ReaderAsleep := ⟨q, n', update_eq_readAsleep (by simp) hq⟩
      refine ⟨h.writeopen hasleep, ?_⟩
      rcases h.reader hasleep with hempty | ⟨q', n', i', hq', hopen, hkilled⟩
      · exact hempty
      · obtain rfl := h.lock.unique hp (q := q') (by rw [hq']; rfl)
        rw [hpc] at hq'
        injection hq' with hn hi
        rcases hstop with hclosed | hkill
        · rw [hopen] at hclosed
          contradiction
        · have := hkilled hkill
          omega
    · intro q n' i' hq
      have hasleep : s.WriterAsleep := ⟨q, n', i', update_eq_writeAsleep (by simp) hq⟩
      exact ⟨h.readopen hasleep, h.writer_of (h.lock.no_reader hp (by simp [hpc])) hasleep⟩
  | @writeFull p n i copyin hpc hmore hgo hfull =>
    have hp : (s.pc p).critical = true := by rw [hpc]; rfl
    have hopen : s.pipe.readopen = true := by
      simp only [not_or] at hgo
      simpa using hgo.1
    refine give_up hlock rfl rfl ?_ (fun _ _ _ _ => ⟨hopen, hfull⟩)
    intro q n' hq
    exact absurd (update_eq_readAsleep (by simp) hq) (wakeupNread_ne_readAsleep _ _ _)
  | @writeByte p n i ch hpc hmore hgo hroom =>
    have hp : (s.pc p).critical = true := by rw [hpc]; rfl
    simp only [not_or] at hgo
    refine h.go_on hlock rfl rfl rfl ?_ ?_
    · intro _
      refine Or.inr ⟨n, i + 1, rfl, by simpa using hgo.1, ?_⟩
      exact fun hkilled => absurd hkilled hgo.2
    · intro hasleep
      exact absurd (h.writer_of (h.lock.no_reader hp (by simp [hpc])) hasleep) hroom
  | @writeEnd p n i copyin hpc =>
    have hp : (s.pc p).critical = true := by rw [hpc]; rfl
    refine give_up hlock rfl rfl ?_ ?_
    · intro q n' hq
      exact absurd (update_eq_readAsleep (by simp) hq) (wakeupNread_ne_readAsleep _ _ _)
    · intro q n' i' hq
      have hasleep : s.WriterAsleep := ⟨q, n', i',
        wakeupNread_eq_writeAsleep.mp (update_eq_writeAsleep (by simp) hq)⟩
      exact ⟨h.readopen hasleep, h.writer_of (h.lock.no_reader hp (by simp [hpc])) hasleep⟩
  | @waitFail p n hpc =>
    have hp : (s.pc p).critical = true := by rw [hpc]; rfl
    refine give_up hlock rfl rfl ?_ ?_
    · intro q n' hq
      have hasleep : s.ReaderAsleep := ⟨q, n', update_eq_readAsleep (by simp) hq⟩
      exact ⟨h.writeopen hasleep, h.reader_of (h.lock.no_writer hp (by simp [hpc])) hasleep⟩
    · intro q n' i' hq
      have hasleep : s.WriterAsleep := ⟨q, n', i', update_eq_writeAsleep (by simp) hq⟩
      exact ⟨h.readopen hasleep, h.writer_of (h.lock.no_reader hp (by simp [hpc])) hasleep⟩
  | @waitSleep p n hpc hempty hopen =>
    have hp : (s.pc p).critical = true := by rw [hpc]; rfl
    refine give_up hlock rfl rfl (fun _ _ _ => ⟨hopen, hempty⟩) ?_
    intro q n' i' hq
    have hasleep : s.WriterAsleep := ⟨q, n', i', update_eq_writeAsleep (by simp) hq⟩
    exact ⟨h.readopen hasleep, h.writer_of (h.lock.no_reader hp (by simp [hpc])) hasleep⟩
  | @waitEnd p n hpc =>
    have hp : (s.pc p).critical = true := by rw [hpc]; rfl
    refine h.go_on hlock rfl rfl rfl ?_ (fun _ => Or.inr ⟨n, 0, rfl⟩)
    exact fun hasleep =>
      Or.inl (h.reader_of (h.lock.no_writer hp (by simp [hpc])) hasleep)
  | @readByte p n i hpc hmore hne =>
    have hp : (s.pc p).critical = true := by rw [hpc]; rfl
    refine h.go_on hlock rfl rfl rfl ?_ (fun _ => Or.inr ⟨n, i + 1, rfl⟩)
    exact fun hasleep => absurd (h.reader_of (h.lock.no_writer hp (by simp [hpc])) hasleep) hne
  | @readFault p n i hpc hmore hne =>
    have hp : (s.pc p).critical = true := by rw [hpc]; rfl
    refine give_up hlock rfl rfl ?_ ?_
    · intro q n' hq
      have hasleep : s.ReaderAsleep := ⟨q, n',
        wakeupNwrite_eq_readAsleep.mp (update_eq_readAsleep (by simp) hq)⟩
      exact absurd (h.reader_of (h.lock.no_writer hp (by simp [hpc])) hasleep) hne
    · intro q n' i' hq
      exact absurd (update_eq_writeAsleep (by simp) hq) (wakeupNwrite_ne_writeAsleep _ _ _ _)
  | @readEnd p n i copyout hpc =>
    have hp : (s.pc p).critical = true := by rw [hpc]; rfl
    refine give_up hlock rfl rfl ?_ ?_
    · intro q n' hq
      have hasleep : s.ReaderAsleep := ⟨q, n',
        wakeupNwrite_eq_readAsleep.mp (update_eq_readAsleep (by simp) hq)⟩
      exact ⟨h.writeopen hasleep, h.reader_of (h.lock.no_writer hp (by simp [hpc])) hasleep⟩
    · intro q n' i' hq
      exact absurd (update_eq_writeAsleep (by simp) hq) (wakeupNwrite_ne_writeAsleep _ _ _ _)
  | close hfree => exact pipeclose_awake h hfree _
  | kill => exact pipeKill_awake h hallowed

end

theorem Pipe.count_eq_zero {pi : Pipe} (hempty : pi.nread = pi.nwrite) : pi.count = 0 := by
  rw [Pipe.count, hempty, UInt32.sub_self]
  rfl

theorem Pipe.count_eq_pipeSize {pi : Pipe} (hfull : pi.nwrite = pi.nread + UInt32.ofNat pipeSize) :
    pi.count = pipeSize := by
  rw [Pipe.count, hfull, UInt32.add_comm, UInt32.add_sub_cancel]
  rfl

end Xv6
