import Xv6.Lib.Machine
import Xv6.Lib.Ring

/-!
# Pipes

This is the state machine of `pipe.c`.  Any number of processes call
`pipewrite` and `piperead` on one pipe.  A process that holds `pi->lock` takes
one loop iteration at a time; it gives the lock up by returning or inside
`sleep`, and after a `wakeup` it has to take the lock again.  What a step does
not decide itself, the byte that `copyin` finds in user memory or whether
`copyout` succeeds, is part of the label.

The history variables `accepted` and `removed` list the bytes that `pipewrite`
stored and that `piperead` took out, in the order in which this happened.
-/

namespace Xv6

open Function (update update_of_ne update_self)

def pipeSize : ℕ := 512

instance : NeZero pipeSize := ⟨by decide⟩

structure Pipe where
  data : Fin pipeSize → UInt8
  nread : UInt32
  nwrite : UInt32
  readopen : Bool
  writeopen : Bool

/-- The place of a counter value in `data`: `data[c % PIPESIZE]`. -/
def Pipe.slot (c : UInt32) : Fin pipeSize := Fin.ofNat pipeSize c.toNat

/-- Where a process is in its use of the pipe.  `writeAcquire` and
`readAcquire` wait for `pi->lock`, on entry or on the way out of `sleep`. -/
inductive PipePc
  | user (ret : Option ℤ)
  | writeAcquire (n i : ℤ)
  | writeLoop (n i : ℤ)
  | writeAsleep (n i : ℤ)
  | readAcquire (n : ℤ)
  | readWait (n : ℤ)
  | readAsleep (n : ℤ)
  | readCopy (n i : ℤ)
  deriving DecidableEq

structure PipeState where
  pipe : Pipe
  lock : Option ℕ
  pc : ℕ → PipePc
  killed : ℕ → Bool
  freed : Bool
  accepted : List UInt8
  removed : List UInt8

/-- The pipe that `pipealloc` sets up in a page that `kalloc` has filled
with junk. -/
def pipealloc (junk : Fin pipeSize → UInt8) : PipeState where
  pipe :=
    { data := junk, nread := 0, nwrite := 0, readopen := true, writeopen := true }
  lock := none
  pc := fun _ => .user none
  killed := fun _ => false
  freed := false
  accepted := []
  removed := []

/-- `wakeup(&pi->nread)`. -/
def wakeupNread (pc : ℕ → PipePc) : ℕ → PipePc := fun p =>
  match pc p with
  | .readAsleep n => .readAcquire n
  | c => c

/-- `wakeup(&pi->nwrite)`. -/
def wakeupNwrite (pc : ℕ → PipePc) : ℕ → PipePc := fun p =>
  match pc p with
  | .writeAsleep n i => .writeAcquire n i
  | c => c

/-- `pi->data[pi->nwrite++ % PIPESIZE] = ch`. -/
def Pipe.push (pi : Pipe) (ch : UInt8) : Pipe :=
  { pi with
    data := update pi.data (Pipe.slot pi.nwrite) ch
    nwrite := pi.nwrite + 1 }

/-- The effect of `pi->nread++`. -/
def Pipe.pop (pi : Pipe) : Pipe := { pi with nread := pi.nread + 1 }

/-- `release(&pi->lock); return ret`. -/
def PipeState.leave (s : PipeState) (p : ℕ) (ret : ℤ) : PipeState :=
  { s with lock := none, pc := update s.pc p (.user (some ret)) }

/-- One iteration of the loop of `pipewrite`, or its exit.  `copyin` is the
byte at `addr + i`, or `none` when that address is not mapped. -/
def pipewrite (p : ℕ) (n i : ℤ) (copyin : Option UInt8) (s : PipeState) : PipeState := if i < n then
    if s.pipe.readopen = false ∨ s.killed p = true then
      s.leave p (-1)
    else if s.pipe.nwrite = s.pipe.nread + UInt32.ofNat pipeSize then
      { s with
        lock := none
        pc := update (wakeupNread s.pc) p (.writeAsleep n i) }
    else
      match copyin with
      | none => { s with pc := wakeupNread s.pc }.leave p i
      | some ch =>
        { s with
          pipe := s.pipe.push ch
          accepted := s.accepted ++ [ch]
          pc := update s.pc p (.writeLoop n (i + 1)) }
  else
    { s with pc := wakeupNread s.pc }.leave p i

/-- One test of the first loop of `piperead`, which waits for data. -/
def pipereadWait (p : ℕ) (n : ℤ) (s : PipeState) : PipeState :=
  if s.pipe.nread = s.pipe.nwrite ∧ s.pipe.writeopen = true then
    if s.killed p = true then
      s.leave p (-1)
    else
      { s with
        lock := none
        pc := update s.pc p (.readAsleep n) }
  else
    { s with pc := update s.pc p (.readCopy n 0) }

/-- One iteration of the second loop of `piperead`, or its exit.  The byte
has left the pipe by the time `copyout` is tried. -/
def pipereadCopy (p : ℕ) (n i : ℤ) (copyout : Bool) (s : PipeState) : PipeState := if i < n then
    if s.pipe.nread = s.pipe.nwrite then
      { s with pc := wakeupNwrite s.pc }.leave p i
    else
      let ch := s.pipe.data (Pipe.slot s.pipe.nread)
      let s :=
        { s with
          pipe := s.pipe.pop
          removed := s.removed ++ [ch] }
      if copyout = true then
        { s with pc := update s.pc p (.readCopy n (i + 1)) }
      else
        { s with pc := wakeupNwrite s.pc }.leave p i
  else
    { s with pc := wakeupNwrite s.pc }.leave p i

/-- The first half of `pipeclose`: one end goes, and whoever sleeps on the
other end is woken. -/
def pipecloseEnd (writable : Bool) (s : PipeState) : PipeState := if writable = true then
    { s with
      pipe := { s.pipe with writeopen := false }
      pc := wakeupNread s.pc }
  else
    { s with
      pipe := { s.pipe with readopen := false }
      pc := wakeupNwrite s.pc }

/-- The critical section of `pipeclose`; with both ends gone the page goes
back to `kfree`. -/
def pipeclose (writable : Bool) (s : PipeState) : PipeState :=
  if (pipecloseEnd writable s).pipe.readopen = false ∧
      (pipecloseEnd writable s).pipe.writeopen = false then
    { pipecloseEnd writable s with freed := true }
  else
    pipecloseEnd writable s

/-- `kill` marks the process and takes it out of any `sleep`. -/
def pipeKill (p : ℕ) (s : PipeState) : PipeState :=
  { s with
    killed := update s.killed p true
    pc := update s.pc p <|
      match s.pc p with
      | .writeAsleep n i => .writeAcquire n i
      | .readAsleep n => .readAcquire n
      | c => c }

inductive PipeLabel
  | callWrite (p : ℕ) (n : ℤ)
  | callRead (p : ℕ) (n : ℤ)
  | acquire (p : ℕ)
  | write (p : ℕ) (copyin : Option UInt8)
  | wait (p : ℕ)
  | read (p : ℕ) (copyout : Bool)
  | close (writable : Bool)
  | kill (p : ℕ)

/-- One step of the system of processes.  Steps inside the loops are taken
by the process that holds the lock, all others that touch the pipe only while
the lock is free; nobody touches a pipe that has been freed. -/
def pipeStep (l : PipeLabel) (s : PipeState) : Option PipeState := if s.freed = true then none else
  match l with
  | .callWrite p n =>
    match s.pc p with
    | .user _ =>
      some { s with pc := update s.pc p (.writeAcquire n 0) }
    | _ => none
  | .callRead p n =>
    match s.pc p with
    | .user _ =>
      some { s with pc := update s.pc p (.readAcquire n) }
    | _ => none
  | .acquire p =>
    if s.lock = none then
      match s.pc p with
      | .writeAcquire n i =>
        some { s with
          lock := some p
          pc := update s.pc p (.writeLoop n i) }
      | .readAcquire n =>
        some { s with
          lock := some p
          pc := update s.pc p (.readWait n) }
      | _ => none
    else none
  | .write p copyin =>
    match s.pc p with
    | .writeLoop n i => some (pipewrite p n i copyin s)
    | _ => none
  | .wait p =>
    match s.pc p with
    | .readWait n => some (pipereadWait p n s)
    | _ => none
  | .read p copyout =>
    match s.pc p with
    | .readCopy n i => some (pipereadCopy p n i copyout s)
    | _ => none
  | .close writable =>
    if s.lock = none then some (pipeclose writable s) else none
  | .kill p => some (pipeKill p s)

/-! ## What one step can do -/

/-- The moves of the system: `PipeMove s l s'` says that `l` takes `s` to `s'`
and why. -/
inductive PipeMove (s : PipeState) : PipeLabel → PipeState → Prop
  | callWrite {p n ret} (hpc : s.pc p = .user ret) : PipeMove s (.callWrite p n)
        { s with pc := update s.pc p (.writeAcquire n 0) }
  | callRead {p n ret} (hpc : s.pc p = .user ret) : PipeMove s (.callRead p n)
        { s with pc := update s.pc p (.readAcquire n) }
  | acquireWrite {p n i} (hpc : s.pc p = .writeAcquire n i)
      (hfree : s.lock = none) :
      PipeMove s (.acquire p)
        { s with
          lock := some p
          pc := update s.pc p (.writeLoop n i) }
  | acquireRead {p n} (hpc : s.pc p = .readAcquire n)
      (hfree : s.lock = none) :
      PipeMove s (.acquire p)
        { s with
          lock := some p
          pc := update s.pc p (.readWait n) }
  | writeFail {p n i copyin} (hpc : s.pc p = .writeLoop n i) (hmore : i < n)
      (hstop : s.pipe.readopen = false ∨ s.killed p = true) :
      PipeMove s (.write p copyin) (s.leave p (-1))
  | writeFull {p n i copyin} (hpc : s.pc p = .writeLoop n i) (hmore : i < n)
      (hgo : ¬(s.pipe.readopen = false ∨ s.killed p = true))
      (hfull : s.pipe.nwrite = s.pipe.nread + UInt32.ofNat pipeSize) :
      PipeMove s (.write p copyin)
        { s with
          lock := none
          pc := update (wakeupNread s.pc) p (.writeAsleep n i) }
  | writeByte {p n i ch} (hpc : s.pc p = .writeLoop n i) (hmore : i < n)
      (hgo : ¬(s.pipe.readopen = false ∨ s.killed p = true))
      (hroom : s.pipe.nwrite ≠ s.pipe.nread + UInt32.ofNat pipeSize) :
      PipeMove s (.write p (some ch))
        { s with
          pipe := s.pipe.push ch
          accepted := s.accepted ++ [ch]
          pc := update s.pc p (.writeLoop n (i + 1)) }
  | writeEnd {p n i copyin} (hpc : s.pc p = .writeLoop n i) : PipeMove s (.write p copyin)
        ({ s with pc := wakeupNread s.pc }.leave p i)
  | waitFail {p n} (hpc : s.pc p = .readWait n) : PipeMove s (.wait p) (s.leave p (-1))
  | waitSleep {p n} (hpc : s.pc p = .readWait n)
      (hempty : s.pipe.nread = s.pipe.nwrite)
      (hopen : s.pipe.writeopen = true) :
      PipeMove s (.wait p)
        { s with
          lock := none
          pc := update s.pc p (.readAsleep n) }
  | waitEnd {p n} (hpc : s.pc p = .readWait n) : PipeMove s (.wait p)
        { s with pc := update s.pc p (.readCopy n 0) }
  | readByte {p n i} (hpc : s.pc p = .readCopy n i) (hmore : i < n)
      (hne : s.pipe.nread ≠ s.pipe.nwrite) :
      PipeMove s (.read p true)
        { s with
          pipe := s.pipe.pop
          removed := s.removed ++ [s.pipe.data (Pipe.slot s.pipe.nread)]
          pc := update s.pc p (.readCopy n (i + 1)) }
  | readFault {p n i} (hpc : s.pc p = .readCopy n i) (hmore : i < n)
      (hne : s.pipe.nread ≠ s.pipe.nwrite) :
      PipeMove s (.read p false)
        ({ s with
          pipe := s.pipe.pop
          removed := s.removed ++ [s.pipe.data (Pipe.slot s.pipe.nread)]
          pc := wakeupNwrite s.pc }.leave p i)
  | readEnd {p n i copyout} (hpc : s.pc p = .readCopy n i)
      (hend : ¬(i < n ∧ s.pipe.nread ≠ s.pipe.nwrite)) :
      PipeMove s (.read p copyout)
        ({ s with pc := wakeupNwrite s.pc }.leave p i)
  | close {writable} (hfree : s.lock = none) : PipeMove s (.close writable) (pipeclose writable s)
  | kill {p} : PipeMove s (.kill p) (pipeKill p s)

variable {s s' : PipeState} {l : PipeLabel} {pi : Pipe}

theorem pipewrite_move {p : ℕ} {n i : ℤ} (copyin : Option UInt8) (hpc : s.pc p = .writeLoop n i) :
    PipeMove s (.write p copyin) (pipewrite p n i copyin s) := by
  unfold pipewrite
  by_cases hmore : i < n
  · rw [if_pos hmore]
    by_cases hstop : s.pipe.readopen = false ∨ s.killed p = true
    · rw [if_pos hstop]
      exact .writeFail hpc hmore hstop
    · rw [if_neg hstop]
      by_cases hfull : s.pipe.nwrite = s.pipe.nread + UInt32.ofNat pipeSize
      · rw [if_pos hfull]
        exact .writeFull hpc hmore hstop hfull
      · rw [if_neg hfull]
        cases copyin with
        | none => exact .writeEnd hpc
        | some ch => exact .writeByte hpc hmore hstop hfull
  · rw [if_neg hmore]
    exact .writeEnd hpc

theorem pipereadWait_move {p : ℕ} {n : ℤ} (hpc : s.pc p = .readWait n) :
    PipeMove s (.wait p) (pipereadWait p n s) := by
  unfold pipereadWait
  by_cases hwait : s.pipe.nread = s.pipe.nwrite ∧ s.pipe.writeopen = true
  · rw [if_pos hwait]
    by_cases hkilled : s.killed p = true
    · rw [if_pos hkilled]
      exact .waitFail hpc
    · rw [if_neg hkilled]
      exact .waitSleep hpc hwait.1 hwait.2
  · rw [if_neg hwait]
    exact .waitEnd hpc

theorem pipereadCopy_move {p : ℕ} {n i : ℤ} (copyout : Bool) (hpc : s.pc p = .readCopy n i) :
    PipeMove s (.read p copyout) (pipereadCopy p n i copyout s) := by
  unfold pipereadCopy
  by_cases hmore : i < n
  · rw [if_pos hmore]
    by_cases hempty : s.pipe.nread = s.pipe.nwrite
    · rw [if_pos hempty]
      exact .readEnd hpc fun hbyte => hbyte.2 hempty
    · rw [if_neg hempty]
      cases copyout with
      | true => exact .readByte hpc hmore hempty
      | false => exact .readFault hpc hmore hempty
  · rw [if_neg hmore]
    exact .readEnd hpc fun hbyte => hmore hbyte.1

theorem pipeStep_move (hstep : pipeStep l s = some s') : PipeMove s l s' := by
  unfold pipeStep at hstep
  split at hstep
  · simp at hstep
  cases l with
  | callWrite p n =>
    dsimp only at hstep
    split at hstep <;> cases hstep
    rename_i hpc
    exact .callWrite hpc
  | callRead p n =>
    dsimp only at hstep
    split at hstep <;> cases hstep
    rename_i hpc
    exact .callRead hpc
  | acquire p =>
    dsimp only at hstep
    split at hstep
    · rename_i hfree
      split at hstep <;>
        simp only [Option.some.injEq, reduceCtorEq] at hstep
      · rename_i hpc
        exact hstep ▸ .acquireWrite hpc hfree
      · rename_i hpc
        exact hstep ▸ .acquireRead hpc hfree
    · simp at hstep
  | write p copyin =>
    dsimp only at hstep
    split at hstep <;> cases hstep
    rename_i hpc
    exact pipewrite_move copyin hpc
  | wait p =>
    dsimp only at hstep
    split at hstep <;> cases hstep
    rename_i hpc
    exact pipereadWait_move hpc
  | read p copyout =>
    dsimp only at hstep
    split at hstep <;> cases hstep
    rename_i hpc
    exact pipereadCopy_move copyout hpc
  | close writable =>
    dsimp only at hstep
    split at hstep <;> cases hstep
    rename_i hfree
    exact .close hfree
  | kill p =>
    cases hstep
    exact .kill

/-! ## The lock -/

/-- The process is between `acquire` and `release` of `pi->lock`. -/
def PipePc.critical : PipePc → Bool
  | .writeLoop _ _ | .readWait _ | .readCopy _ _ => true
  | _ => false

@[simp] theorem critical_wakeupNread (pc : ℕ → PipePc) (p : ℕ) :
    (wakeupNread pc p).critical = (pc p).critical := by
  unfold wakeupNread
  split
  · rename_i hpc
    simp [hpc, PipePc.critical]
  · rfl

@[simp] theorem critical_wakeupNwrite (pc : ℕ → PipePc) (p : ℕ) :
    (wakeupNwrite pc p).critical = (pc p).critical := by
  unfold wakeupNwrite
  split
  · rename_i hpc
    simp [hpc, PipePc.critical]
  · rfl

def PipeState.LockHeld (s : PipeState) : Prop := ∀ p, (s.pc p).critical = true → s.lock = some p

theorem pipealloc_lockHeld (junk : Fin pipeSize → UInt8) : (pipealloc junk).LockHeld := by
  intro p hp
  contradiction

theorem PipeState.LockHeld.unique (h : s.LockHeld) {p q : ℕ}
    (hp : (s.pc p).critical = true) (hq : (s.pc q).critical = true) : p = q :=
  Option.some.inj ((h p hp).symm.trans (h q hq))

theorem PipeState.LockHeld.free (h : s.LockHeld) (hfree : s.lock = none) (q : ℕ) :
    (s.pc q).critical = false := by
  by_contra hcritical
  have hlock := h q (by simpa using hcritical)
  rw [hfree] at hlock
  contradiction

section

variable {s s' : PipeState} {p : ℕ} {pc : ℕ → PipePc} {c : PipePc}

theorem PipeState.LockHeld.of_stay (h : s.LockHeld) (hpc : ∀ q, (pc q).critical = (s.pc q).critical)
    (hc : c.critical = true → s'.lock = some p) (hlock : ∀ q, q ≠ p →
    s.lock = some q → s'.lock = some q) (hs' : s'.pc = update pc p c) : s'.LockHeld := by
  intro q hq
  rw [hs'] at hq
  by_cases hqp : q = p
  · subst hqp
    rw [update_self] at hq
    exact hc hq
  · rw [update_of_ne hqp, hpc] at hq
    exact hlock q hqp (h q hq)

theorem PipeState.LockHeld.of_release (h : s.LockHeld) (hp : (s.pc p).critical = true)
    (hpc : ∀ q, (pc q).critical = (s.pc q).critical) (hc : c.critical = false)
    (hs' : s'.pc = update pc p c) : s'.LockHeld := by
  refine h.of_stay hpc (by simp [hc]) ?_ hs'
  intro q hqp hq
  exact absurd (Option.some.inj (hq.symm.trans (h p hp))) hqp

theorem pipecloseEnd_lockHeld (h : s.LockHeld) (writable : Bool) :
    (pipecloseEnd writable s).LockHeld := by
  unfold pipecloseEnd
  split
  · intro q hq
    rw [critical_wakeupNread] at hq
    exact h q hq
  · intro q hq
    rw [critical_wakeupNwrite] at hq
    exact h q hq

theorem pipeKill_lockHeld (h : s.LockHeld) (p : ℕ) : (pipeKill p s).LockHeld := by
  refine h.of_stay (fun _ => rfl) ?_ (fun _ _ hq => hq) rfl
  intro hc
  split at hc
  · contradiction
  · contradiction
  · exact h p hc

theorem PipeMove.lockHeld {l : PipeLabel} (hmove : PipeMove s l s')
    (h : s.LockHeld) : s'.LockHeld := by
  cases hmove with
  | callWrite _ | callRead _ =>
    exact h.of_stay (fun _ => rfl) (by simp [PipePc.critical]) (fun _ _ hq => hq) rfl
  | acquireWrite _ hfree | acquireRead _ hfree =>
    exact h.of_stay (fun _ => rfl) (fun _ => rfl) (by simp [hfree]) rfl
  | writeFail hpc | waitFail hpc | waitSleep hpc =>
    exact h.of_release (by rw [hpc]; rfl) (fun _ => rfl) rfl rfl
  | writeFull hpc | writeEnd hpc =>
    exact h.of_release (by rw [hpc]; rfl) (critical_wakeupNread _) rfl rfl
  | writeByte hpc | waitEnd hpc | readByte hpc =>
    exact h.of_stay (fun _ => rfl) (fun _ => h _ (by rw [hpc]; rfl)) (fun _ _ hq => hq) rfl
  | readFault hpc | readEnd hpc =>
    exact h.of_release (by rw [hpc]; rfl) (critical_wakeupNwrite _) rfl rfl
  | @close writable _ =>
    have hend := pipecloseEnd_lockHeld h writable
    unfold pipeclose
    split <;> exact hend
  | kill => exact pipeKill_lockHeld h _

end

/-! ## The bytes in the pipe -/

/-- Number of bytes in the pipe, `nwrite - nread` modulo `2^32`. -/
def Pipe.count (pi : Pipe) : ℕ := (pi.nwrite - pi.nread).toNat

/-- The bytes `data[nread % PIPESIZE], ..., data[(nwrite-1) % PIPESIZE]`. -/
def Pipe.bytes (pi : Pipe) : List UInt8 := (List.range pi.count).map fun k =>
    pi.data (Pipe.slot (pi.nread + UInt32.ofNat k))

theorem Pipe.count_eq_ring (pi : Pipe) :
    pi.count = Ring.count (2 ^ 32) pi.nread.toNat pi.nwrite.toNat := by
  unfold Pipe.count Ring.count
  exact UInt32.toNat_sub pi.nwrite pi.nread

theorem Pipe.bytes_eq_window (pi : Pipe) : pi.bytes =
      Ring.window (2 ^ 32) pi.data pi.nread.toNat pi.nwrite.toNat := by
  unfold Pipe.bytes Ring.window
  rw [Pipe.count_eq_ring]
  apply List.map_congr_left
  intro k _
  simp [Pipe.slot, UInt32.toNat_add]

theorem Pipe.length_bytes (pi : Pipe) : pi.bytes.length = pi.count := by
  simp [Pipe.bytes]

theorem Pipe.count_ne_zero (hne : pi.nread ≠ pi.nwrite) : 0 < pi.count := by
  rw [Pipe.count_eq_ring]
  apply Nat.pos_of_ne_zero
  intro hzero
  have heq := (Ring.count_eq_zero_iff pi.nread.toNat_lt pi.nwrite.toNat_lt).mp hzero
  exact hne (UInt32.toNat_inj.mp heq)

theorem Pipe.count_lt_of_not_full (hbound : pi.count ≤ pipeSize)
    (hnot : pi.nwrite ≠ pi.nread + UInt32.ofNat pipeSize) : pi.count < pipeSize := by
  apply lt_of_le_of_ne hbound
  intro hfull
  apply hnot
  have hsub : pi.nwrite - pi.nread = UInt32.ofNat pipeSize := by
    rw [← hfull, Pipe.count, UInt32.ofNat_toNat]
  rw [← hsub, UInt32.add_comm, UInt32.sub_add_cancel]

theorem Pipe.count_push (ch : UInt8) (hroom : pi.count < pipeSize) :
    (pi.push ch).count = pi.count + 1 := by
  rw [Pipe.count_eq_ring] at hroom ⊢
  rw [Pipe.count_eq_ring pi]
  simp only [Pipe.push, UInt32.toNat_add, UInt32.toNat_one]
  apply Ring.count_succ_write
  unfold pipeSize at hroom
  omega

theorem Pipe.bytes_push (ch : UInt8) (hroom : pi.count < pipeSize) :
    (pi.push ch).bytes = pi.bytes ++ [ch] := by
  rw [Pipe.count_eq_ring] at hroom
  rw [Pipe.bytes_eq_window, Pipe.bytes_eq_window]
  simp only [Pipe.push, UInt32.toNat_add, UInt32.toNat_one]
  exact Ring.window_push pi.data ch (by decide) (by decide) pi.nread.toNat_lt hroom

theorem Pipe.bytes_pop (hne : pi.nread ≠ pi.nwrite) : pi.bytes =
      pi.data (Pipe.slot pi.nread) :: pi.pop.bytes := by
  have hpos := Pipe.count_ne_zero hne
  rw [Pipe.count_eq_ring] at hpos
  rw [Pipe.bytes_eq_window, Pipe.bytes_eq_window]
  simp only [Pipe.pop, UInt32.toNat_add, UInt32.toNat_one]
  exact Ring.window_pop pi.data pi.nread.toNat_lt pi.nwrite.toNat_lt hpos

/-! ## First in, first out -/

/-- The pipe never holds more than `PIPESIZE` bytes, and the bytes removed so
far followed by those still in the pipe are the bytes accepted so far. -/
structure PipeState.Fifo (s : PipeState) : Prop where
  bound : s.pipe.count ≤ pipeSize
  queue : s.accepted = s.removed ++ s.pipe.bytes

theorem pipealloc_fifo (junk : Fin pipeSize → UInt8) : (pipealloc junk).Fifo := by
  constructor
  · simp [pipealloc, Pipe.count]
  · simp [pipealloc, Pipe.bytes, Pipe.count]

theorem PipeState.Fifo.of_same
    (hfifo : s.Fifo) (hcount : s'.pipe.count = s.pipe.count) (hbytes : s'.pipe.bytes = s.pipe.bytes)
    (haccepted : s'.accepted = s.accepted) (hremoved : s'.removed = s.removed) : s'.Fifo := by
  constructor
  · rw [hcount]
    exact hfifo.bound
  · rw [haccepted, hremoved, hbytes]
    exact hfifo.queue

theorem PipeState.Fifo.pop (hfifo : s.Fifo) (hne : s.pipe.nread ≠ s.pipe.nwrite) : ({ s with
        pipe := s.pipe.pop
        removed := s.removed ++ [s.pipe.data (Pipe.slot s.pipe.nread)] } :
      PipeState).Fifo := by
  have hpop := Pipe.bytes_pop hne
  constructor
  · have hlen := congrArg List.length hpop
    rw [List.length_cons, Pipe.length_bytes, Pipe.length_bytes] at hlen
    have hbound := hfifo.bound
    change s.pipe.pop.count ≤ pipeSize
    omega
  · change s.accepted = _
    rw [hfifo.queue, hpop, List.append_assoc, List.singleton_append]

theorem PipeState.Fifo.push (hfifo : s.Fifo)
    (ch : UInt8) (hnotFull : s.pipe.nwrite ≠ s.pipe.nread + UInt32.ofNat pipeSize) : ({ s with
        pipe := s.pipe.push ch
        accepted := s.accepted ++ [ch] } : PipeState).Fifo := by
  have hroom := Pipe.count_lt_of_not_full hfifo.bound hnotFull
  constructor
  · change (s.pipe.push ch).count ≤ pipeSize
    rw [Pipe.count_push ch hroom]
    exact hroom
  · change s.accepted ++ [ch] = s.removed ++ (s.pipe.push ch).bytes
    rw [Pipe.bytes_push ch hroom, hfifo.queue, List.append_assoc]

theorem pipecloseEnd_fifo (hfifo : s.Fifo) (writable : Bool) : (pipecloseEnd writable s).Fifo := by
  unfold pipecloseEnd
  split <;> exact hfifo.of_same rfl rfl rfl rfl

theorem pipeclose_fifo (hfifo : s.Fifo) (writable : Bool) : (pipeclose writable s).Fifo := by
  have hend := pipecloseEnd_fifo hfifo writable
  unfold pipeclose
  split
  · exact hend.of_same rfl rfl rfl rfl
  · exact hend

theorem PipeMove.fifo (hmove : PipeMove s l s') (hfifo : s.Fifo) : s'.Fifo := by
  cases hmove with
  | writeByte _ _ _ hroom =>
    exact (hfifo.push _ hroom).of_same rfl rfl rfl rfl
  | readByte _ _ hne | readFault _ _ hne =>
    exact (hfifo.pop hne).of_same rfl rfl rfl rfl
  | close _ => exact pipeclose_fifo hfifo _
  | _ => exact hfifo.of_same rfl rfl rfl rfl

theorem pipeStep_fifo (hfifo : s.Fifo) (hstep : pipeStep l s = some s') : s'.Fifo :=
  (pipeStep_move hstep).fifo hfifo

/-- Along every interleaving of readers and writers the pipe is a queue of at
most `PIPESIZE` bytes: `data` holds, from `nread` to `nwrite`, exactly the
last `nwrite - nread` accepted bytes in acceptance order, and the bytes
removed so far are the accepted bytes before them. -/
theorem pipe_fifo (junk : Fin pipeSize → UInt8) (labels : List PipeLabel) (s : PipeState)
    (hrun : Machine.run pipeStep labels (pipealloc junk) = some s) :
    s.pipe.count ≤ pipeSize ∧ s.pipe.bytes = s.accepted.drop (s.accepted.length - s.pipe.count) ∧
      s.removed = s.accepted.take (s.accepted.length - s.pipe.count) := by
  have hfifo : s.Fifo := Machine.run_invariant (fun _ _ _ => pipeStep_fifo)
      (pipealloc_fifo junk) hrun
  have hlen : s.accepted.length - s.pipe.count = s.removed.length := by
    rw [hfifo.queue, List.length_append, Pipe.length_bytes, Nat.add_sub_cancel]
  refine ⟨hfifo.bound, ?_, ?_⟩
  · rw [hlen, hfifo.queue, List.drop_left]
  · rw [hlen, hfifo.queue, List.take_left]

/-- One writer stores two bytes and one reader takes the first of them. -/
theorem pipe_fifo_two_bytes : ∃ s, Machine.run pipeStep
        [.callWrite 1 2, .acquire 1, .write 1 (some 7), .write 1 (some 8),
          .write 1 none, .callRead 2 1, .acquire 2, .wait 2, .read 2 true]
        (pipealloc fun _ => 0) = some s ∧
      s.pipe.count ≤ pipeSize ∧
      s.pipe.bytes = s.accepted.drop (s.accepted.length - s.pipe.count) ∧
      s.removed = s.accepted.take (s.accepted.length - s.pipe.count) := by
  obtain ⟨s, hrun⟩ := Option.isSome_iff_exists.mp
    (show (Machine.run pipeStep
        [.callWrite 1 2, .acquire 1, .write 1 (some 7), .write 1 (some 8),
          .write 1 none, .callRead 2 1, .acquire 2, .wait 2, .read 2 true]
        (pipealloc fun _ => 0)).isSome = true by decide)
  exact ⟨s, hrun, pipe_fifo _ _ s hrun⟩

end Xv6
