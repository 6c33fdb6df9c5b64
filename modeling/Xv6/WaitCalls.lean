import Xv6.MemorySafety
import Xv6.ProcSystem

/-!
# `wait` and `getprocinfo`

The two calls are one loop over the process table that differs in what is
copied out for a child that has exited.  Here the loop is a function of the
process table and of memory: all of it runs under `wait_lock`, which `exit`
needs as well.
-/

namespace Xv6

open ProcSystem MemSystem

/-- The process table, and the memory of the processes in it. -/
structure WaitState where
  proc : ProcSystem
  mem : MemSystem

inductive WaitOutcome
  | returned (ret : Int32)
  | sleeping (chan : Chan)
  deriving DecidableEq

def WaitOutcome.pc (w : WaitCall) (addr : UInt64) : WaitOutcome → ProcPc
  | .returned ret => .user (some ret)
  | .sleeping _ => .waitSleep w addr

def wordBytes (n : UInt32) : List UInt8 :=
  (List.range 4).map fun k => UInt8.ofNat (n.toNat / 256 ^ k)

/-- The bytes of `xstate`, or of `struct sched_stat`. -/
def WaitData.bytes : WaitData → List UInt8
  | .status xstate => wordBytes xstate.toUInt32
  | .schedStat pid times =>
    wordBytes pid.toUInt32 ++ wordBytes times.creationTime ++
      wordBytes times.runTime ++ wordBytes times.waitingTime ++
      wordBytes times.turnaroundTime ++ wordBytes times.finishTime

def WaitCall.size : WaitCall → ℕ
  | .wait => 4
  | .getprocinfo => 24

theorem WaitCall.length_bytes (w : WaitCall) (q : Slot) (s : ProcSystem) :
    (s.waitData w q).bytes.length = w.size := by
  cases w <;> simp [waitData, WaitData.bytes, wordBytes, size]

namespace WaitState

/-- `copyout` to the memory of `p`. -/
def copyData (p : Slot) (addr : UInt64) (data : WaitData) (s : WaitState) :
    Except VmPanic (Bool × MemSystem) :=
  match s.mem.procs p with
  | none => .ok (false, s.mem)
  | some pm => do
    let (copied, m) ← copyout pm.pagetable addr.toNat
      (fun k => data.bytes.getD k 0) data.bytes.length s.mem.mem
    .ok (copied, { s.mem with mem := m })

def freeproc (q : Slot) (s : WaitState) : Except VmPanic WaitState :=
  match s.mem.procs q with
  | none => .ok { s with proc := s.proc.freeproc q }
  | some pm => do
    let m ← ProcMem.freeproc (some pm.trapframe) (some pm.pagetable) pm.sz
      s.mem.mem
    .ok ⟨s.proc.freeproc q, s.mem.setProc q none m⟩

def reap (w : WaitCall) (addr : UInt64) (p q : Slot) (s : WaitState) :
    Except VmPanic (WaitOutcome × WaitState) := do
  let (copied, mem) ←
    if addr ≠ 0 then s.copyData p addr (s.proc.waitData w q)
    else .ok (true, s.mem)
  if copied = false then .ok (.returned (-1), { s with mem := mem })
  else
    let t ← freeproc q { s with mem := mem }
    .ok (.returned (s.proc.pid q), t)

/-- The loop over the table, with the slots that are left. -/
def waitLoop (w : WaitCall) (addr : UInt64) (p : Slot) :
    List Slot → Bool → WaitState → Except VmPanic (WaitOutcome × WaitState)
  | [], havekids, s =>
    if havekids = false ∨ s.proc.killed p = true then
      .ok (.returned (-1), s)
    else .ok (.sleeping (.proc p), s)
  | q :: qs, havekids, s =>
    if s.proc.parent q = some p then
      if s.proc.state q = .zombie then s.reap w addr p q
      else waitLoop w addr p qs true s
    else waitLoop w addr p qs havekids s

def wait (addr : UInt64) (p : Slot) (s : WaitState) : Except VmPanic (WaitOutcome × WaitState) :=
  waitLoop .wait addr p (List.finRange nproc) false s

def getprocinfo (addr : UInt64) (p : Slot) (s : WaitState) :
    Except VmPanic (WaitOutcome × WaitState) :=
  waitLoop .getprocinfo addr p (List.finRange nproc) false s

def call (w : WaitCall) (addr : UInt64) (p : Slot) (s : WaitState) :
    Except VmPanic (WaitOutcome × WaitState) :=
  match w with
  | .wait => s.wait addr p
  | .getprocinfo => s.getprocinfo addr p

/-! ## The child that is found -/

/-- A child of `p` that has exited. -/
def Exited (s : ProcSystem) (p q : Slot) : Prop := s.parent q = some p ∧ s.state q = .zombie

instance (s : ProcSystem) (p q : Slot) : Decidable (Exited s p q) :=
  inferInstanceAs (Decidable (_ ∧ _))

variable {s : WaitState} {p q : Slot} {w : WaitCall} {addr : UInt64}

variable {havekids : Bool}

theorem waitLoop_none {qs : List Slot} (h : ∀ q ∈ qs, ¬Exited s.proc p q) :
    waitLoop w addr p qs havekids s = if (havekids = true ∨ ∃ q ∈ qs, s.proc.parent q = some p) ∧
          s.proc.killed p = false then .ok (.sleeping (.proc p), s)
      else .ok (.returned (-1), s) := by
  induction qs generalizing havekids with
  | nil =>
    cases havekids <;> cases hk : s.proc.killed p <;> simp [waitLoop, hk]
  | cons q qs ih =>
    rw [waitLoop]
    have hq := h q List.mem_cons_self
    have hqs := fun q' hq' => h q' (List.mem_cons_of_mem q hq')
    by_cases hparent : s.proc.parent q = some p
    · rw [if_pos hparent, if_neg fun hstate => hq ⟨hparent, hstate⟩, ih hqs]
      simp [hparent]
    · rw [if_neg hparent, ih hqs]
      simp [hparent]

theorem waitLoop_some {qs : List Slot}
    (h : qs.find? (fun q => decide (Exited s.proc p q)) = some q) :
    waitLoop w addr p qs havekids s = s.reap w addr p q := by
  induction qs generalizing havekids with
  | nil => simp at h
  | cons q' qs ih =>
    rw [waitLoop]
    by_cases hq : Exited s.proc p q'
    · simp only [List.find?_cons, hq, decide_true] at h
      cases h
      rw [if_pos hq.1, if_pos hq.2]
    · simp only [List.find?_cons, hq, decide_false] at h
      by_cases hparent : s.proc.parent q' = some p
      · rw [if_pos hparent, if_neg fun hstate => hq ⟨hparent, hstate⟩, ih h]
      · rw [if_neg hparent, ih h]

/-! ## What becomes of memory -/

/-- `copyout` of `n` bytes to this address of `p` succeeds. -/
def CanCopy (s : WaitState) (p : Slot) (addr : UInt64) (n : ℕ) : Prop :=
  ∃ pm m, s.mem.procs p = some pm ∧
    copyout pm.pagetable addr.toNat (fun _ => 0) n s.mem.mem = .ok (true, m)

variable {k : ℕ} {T ptes : Slot → List ℕ} {pm : ProcMem}

theorem copyData_spec (h : s.mem.Inv k T ptes) (hp : s.mem.procs p = some pm) (addr : UInt64)
    (data : WaitData) : ∃ copied m, s.copyData p addr data = .ok (copied, { s.mem with mem := m }) ∧
    s.mem.mem.Extends (mapped (ptes p)) m (mapped (ptes p)) ∧
    (copied = true ↔ s.CanCopy p addr data.bytes.length) := by
  have hspace := h.space p pm hp
  have hown : s.mem.mem.Owns (mapped (ptes p) ++ T p) :=
    (h.ownsProc hp).of_sublist (List.sublist_cons_self _ _)
  obtain ⟨copied, m, hcopy, hext⟩ := hspace.shape.copyout procHi_supervisor
    hown addr.toNat (fun k => data.bytes.getD k 0) data.bytes.length
  refine ⟨copied, m, ?_, hext, ?_⟩
  · unfold copyData
    rw [hp]
    dsimp only
    rw [hcopy, ok_bind]
  · unfold copyout at hcopy
    obtain ⟨m1, hzero⟩ := hspace.shape.copyoutLoop_result hspace.shape
      procHi_supervisor hown hown hcopy fun _ => 0
    constructor
    · rintro rfl
      exact ⟨pm, m1, hp, hzero⟩
    · rintro ⟨pm', m2, hp', htrue⟩
      rw [hp] at hp'
      cases hp'
      unfold copyout at htrue
      rw [hzero] at htrue
      cases htrue
      rfl

theorem freeproc_spec (h : s.mem.Inv k T ptes) (q : Slot) :
    ∃ mem, s.freeproc q = .ok ⟨s.proc.freeproc q, mem⟩ ∧ mem.procs = Function.update
    s.mem.procs q none ∧ mem.mem.freelist.Perm (s.mem.pieces T ptes q ++ s.mem.mem.freelist) := by
  unfold freeproc
  cases hq : s.mem.procs q with
  | none =>
    refine ⟨s.mem, rfl, (Function.update_eq_self_iff.mpr hq.symm).symm, ?_⟩
    rw [pieces_of_none hq]
    exact List.Perm.refl _
  | some pm =>
    obtain ⟨m, hfree, hext⟩ := (h.space q pm hq).freeproc (h.ownsProc hq)
    refine ⟨s.mem.setProc q none m, ?_, rfl, ?_⟩
    · dsimp only
      rw [hfree, ok_bind]
    · rw [pieces_of_some hq]
      exact hext.perm

theorem reap_spec (h : s.mem.Inv k T ptes) (hp : s.mem.procs p = some pm)
    (hcopy : addr = 0 ∨ s.CanCopy p addr w.size) (q : Slot) : ∃ mem, s.reap w addr p q = .ok
    (.returned (s.proc.pid q), ⟨s.proc.freeproc q, mem⟩) ∧ mem.procs = Function.update
    s.mem.procs q none ∧ mem.mem.freelist.Perm (s.mem.pieces T ptes q ++ s.mem.mem.freelist) := by
  unfold reap
  by_cases haddr : addr = 0
  · obtain ⟨mem, hfree, hrest⟩ := freeproc_spec h q
    refine ⟨mem, ?_, hrest⟩
    rw [if_neg (not_not.mpr haddr), ok_bind]
    dsimp only
    rw [if_neg (by decide), hfree, ok_bind]
  · obtain ⟨copied, m, hdata, hext, hiff⟩ := copyData_spec h hp addr (s.proc.waitData w q)
    rw [WaitCall.length_bytes] at hiff
    obtain rfl := hiff.mpr (hcopy.resolve_left haddr)
    obtain ⟨mem, hfree, hprocs, hlist⟩ := freeproc_spec
      (s := { s with mem := { s.mem with mem := m } }) (h.setUser hp hext) q
    refine ⟨mem, ?_, hprocs, hlist.trans ?_⟩
    · rw [if_pos haddr, hdata, ok_bind]
      dsimp only
      rw [if_neg (by decide), hfree, ok_bind]
    · exact List.Perm.append_left _ ((List.perm_append_left_iff _).mp hext.perm)

theorem reap_fails (h : s.mem.Inv k T ptes) (hp : s.mem.procs p = some pm)
    (haddr : addr ≠ 0) (hcopy : ¬s.CanCopy p addr w.size) (q : Slot) :
    ∃ m, s.reap w addr p q = .ok (.returned (-1), ⟨s.proc, { s.mem with mem := m }⟩) ∧
      s.mem.mem.Extends (mapped (ptes p)) m (mapped (ptes p)) := by
  obtain ⟨copied, m, hdata, hext, hiff⟩ := copyData_spec h hp addr (s.proc.waitData w q)
  rw [WaitCall.length_bytes] at hiff
  have hfalse : copied = false := by
    cases copied with
    | false => rfl
    | true => exact absurd (hiff.mp rfl) hcopy
  subst hfalse
  refine ⟨m, ?_, hext⟩
  unfold reap
  rw [if_pos haddr, hdata, ok_bind]
  rfl

theorem call_eq (w : WaitCall) (addr : UInt64) (p : Slot) (s : WaitState) :
    s.call w addr p = waitLoop w addr p (List.finRange nproc) false s := by
  cases w <;> rfl

/-- The first child that has exited, in the order of the table. -/
def firstExited (s : WaitState) (p : Slot) : Option Slot :=
  (List.finRange nproc).find? fun q => decide (Exited s.proc p q)

theorem call_of_some (h : s.firstExited p = some q) : s.call w addr p = s.reap w addr p q := by
  rw [call_eq]
  exact waitLoop_some h

theorem firstExited_none (h : s.firstExited p = none) (q : Slot) : ¬Exited s.proc p q := by
  have hnone := List.find?_eq_none.mp h q (List.mem_finRange q)
  simpa using hnone

theorem exited_of_firstExited (h : s.firstExited p = some q) : Exited s.proc p q := by
  simpa using List.find?_some h

theorem exists_firstExited (h : Exited s.proc p q) : ∃ q', s.firstExited p = some q' := by
  cases hq : s.firstExited p with
  | none => exact absurd h (firstExited_none hq q)
  | some q' => exact ⟨q', rfl⟩

/-! ## The steps of the caller -/

/-- The fields of the process table that the two calls read and write. -/
def callTable (s : ProcSystem) := (s.state, s.parent, s.pid, s.killed, s.xstate, s.chan, s.times)

theorem step_waitScan {u : ProcSystem} (mode : SchedMode) {c : ℕ} (ok : Bool)
    (hcpu : s.proc.cpu c = .run p) (hthread : s.proc.thread p = .running)
    {i : ℕ} (hu : s.proc.goto p (.waitScan w addr havekids i) = u) :
    u.step mode (.act c (.next ok)) = u.waitScan p w addr ok havekids i := by
  have hcpu' : u.cpu c = .run p := by
    rw [← hu]
    exact hcpu
  have hthread' : u.thread p = .running := by
    rw [← hu]
    exact hthread
  have hpc : u.pc p = .waitScan w addr havekids i := by
    rw [← hu]
    simp [ProcSystem.goto]
  simp only [ProcSystem.step, ProcSystem.act, hcpu', hthread', actRunning, actNext, hpc]

theorem run_one {u u' : ProcSystem} {mode : SchedMode} {l : ProcLabel}
    (h : u.step mode l = some u') :
    Machine.run (ProcSystem.step mode) (List.replicate 1 l) u = some u' :=
  Machine.run_cons_eq_some.mpr ⟨u', h, rfl⟩

/-- The loop is what the steps of the caller do, from the slot at which it is,
while the locks of the processes are free and `copyout` has the result that it
has in this memory. -/
theorem waitLoop_of_steps {mode : SchedMode} {c : ℕ} {ok : Bool}
    (h : s.mem.Inv k T ptes) (hp : s.mem.procs p = some pm) (hcpu : s.proc.cpu c = .run p)
    (hthread : s.proc.thread p = .running) (hlock : ∀ q, s.proc.lock q = none)
    (hok : addr ≠ 0 → (ok = true ↔ s.CanCopy p addr w.size)) {i : ℕ} (hi : i ≤ nproc)
    (havekids : Bool) :
    ∃ o t n proc, waitLoop w addr p ((List.finRange nproc).drop i) havekids s = .ok (o, t) ∧
      Machine.run (ProcSystem.step mode) (List.replicate n (.act c (.next ok)))
        (s.proc.goto p (.waitScan w addr havekids i)) = some proc ∧
      callTable proc = callTable t.proc ∧ proc.pc p = o.pc w addr := by
  induction hn : nproc - i generalizing i havekids with
  | zero =>
    have hdrop : (List.finRange nproc).drop i = [] := by
      rw [List.drop_eq_nil_iff, List.length_finRange]
      omega
    generalize hu : s.proc.goto p (.waitScan w addr havekids i) = u
    have hstep := step_waitScan mode ok hcpu hthread hu
    rw [waitScan, dif_neg (by omega)] at hstep
    obtain ⟨hlockp, hkilled, htable⟩ : u.lock p = none ∧ u.killed p = s.proc.killed p ∧
        callTable u = callTable s.proc := by
      rw [← hu]
      exact ⟨hlock p, rfl, rfl⟩
    rw [hdrop, waitLoop, ← hkilled]
    by_cases hkids : havekids = false
    · rw [if_pos hkids] at hstep
      refine ⟨_, s, 1, _, if_pos (Or.inl hkids), run_one hstep, htable, ?_⟩
      simp [waitReturn, ProcSystem.goto, WaitOutcome.pc]
    · rw [if_neg hkids, if_pos hlockp] at hstep
      by_cases hdead : u.killed p = true
      · rw [if_pos hdead] at hstep
        refine ⟨_, s, 1, _, if_pos (Or.inr hdead), run_one hstep, htable, ?_⟩
        simp [waitReturn, ProcSystem.goto, WaitOutcome.pc]
      · rw [if_neg hdead] at hstep
        refine ⟨_, s, 1, _, if_neg (not_or.mpr ⟨hkids, hdead⟩), run_one hstep, htable, ?_⟩
        simp [ProcSystem.goto, WaitOutcome.pc]
  | succ n ih =>
    have hlt : i < nproc := by omega
    have hdrop : (List.finRange nproc).drop i = ⟨i, hlt⟩ :: (List.finRange nproc).drop (i + 1) := by
      rw [List.drop_eq_getElem_cons (by simpa using hlt)]
      simp
    generalize hu : s.proc.goto p (.waitScan w addr havekids i) = u
    have hstep := step_waitScan mode ok hcpu hthread hu
    rw [waitScan, dif_pos hlt] at hstep
    dsimp only at hstep
    generalize hq : (⟨i, hlt⟩ : Slot) = q at hstep hdrop
    obtain ⟨hparent', hstate', hlockq, htable⟩ : u.parent q = s.proc.parent q ∧
        u.state q = s.proc.state q ∧ u.lock q = none ∧ callTable u = callTable s.proc := by
      rw [← hu]
      exact ⟨rfl, rfl, hlock q, rfl⟩
    rw [hparent', hstate', if_pos hlockq] at hstep
    rw [hdrop, waitLoop]
    -- the rest of the loop, if the step goes on
    have hrest (havekids' : Bool)
        (hstep : u.step mode (.act c (.next ok)) =
          some (u.goto p (.waitScan w addr havekids' (i + 1)))) :
        ∃ o t n proc, waitLoop w addr p ((List.finRange nproc).drop (i + 1)) havekids' s =
            .ok (o, t) ∧
          Machine.run (ProcSystem.step mode) (List.replicate n (.act c (.next ok))) u = some proc ∧
          callTable proc = callTable t.proc ∧ proc.pc p = o.pc w addr := by
      obtain ⟨o, t, n, proc, hloop, hrun, hend⟩ := ih (i := i + 1) (by omega) havekids' (by omega)
      rw [← hu, ProcSystem.goto_goto, hu] at hstep
      exact ⟨o, t, n + 1, proc, hloop, Machine.run_cons_eq_some.mpr ⟨_, hstep, hrun⟩, hend⟩
    by_cases hparent : s.proc.parent q = some p
    · rw [if_pos hparent] at hstep ⊢
      by_cases hstate : s.proc.state q = .zombie
      · rw [if_pos hstate] at hstep ⊢
        by_cases hfails : addr ≠ 0 ∧ ok = false
        · rw [if_pos hfails] at hstep
          have hcopy : ¬s.CanCopy p addr w.size := by
            rw [← hok hfails.1, hfails.2]
            decide
          obtain ⟨m, hreap, -⟩ := reap_fails h hp hfails.1 hcopy q
          refine ⟨_, _, 1, _, hreap, run_one hstep, htable, ?_⟩
          simp [waitReturn, ProcSystem.goto, WaitOutcome.pc]
        · rw [if_neg hfails] at hstep
          have hcopy : addr = 0 ∨ s.CanCopy p addr w.size := by
            by_cases haddr : addr = 0
            · exact Or.inl haddr
            · refine Or.inr ((hok haddr).mp ?_)
              simpa [haddr] using hfails
          obtain ⟨mem, hreap, -⟩ := reap_spec h hp hcopy q
          refine ⟨_, _, 1, _, hreap, run_one hstep, ?_, ?_⟩
          · rw [← hu]
            rfl
          · rw [← hu]
            simp [waitReap, waitReturn, ProcSystem.goto, WaitOutcome.pc]
      · rw [if_neg hstate] at hstep ⊢
        exact hrest true hstep
    · rw [if_neg hparent] at hstep ⊢
      exact hrest havekids hstep

def exitedChild : ProcSystem :=
  { userinit with
    state := Function.update userinit.state 1 .zombie
    parent := Function.update userinit.parent 1 (some 0)
    pid := Function.update userinit.pid 1 2 }

def waitingParent : ProcSystem :=
  { exitedChild with cpu := fun _ => .run 0, thread := fun _ => .running }

theorem waitLoop_of_steps_reaps : ∃ mem, memBoot (128 * 1024 * 1024 - 12 * pgsize) 1 0x80007000 =
      some mem ∧ ∃ o t n proc, waitLoop .wait 0 0 ((List.finRange nproc).drop 0) false
        ⟨waitingParent, mem⟩ = .ok (o, t) ∧
      Machine.run (ProcSystem.step .roundRobin) (List.replicate n (.act 0 (.next true)))
        (waitingParent.goto 0 (.waitScan .wait 0 false 0)) = some proc ∧
      callTable proc = callTable t.proc ∧ proc.pc 0 = o.pc .wait 0 := by
  obtain ⟨mem, pm, hboot, hp, -⟩ := exists_running
  obtain ⟨T, ptes, h⟩ := inv_of_boot hboot
  exact ⟨mem, hboot, waitLoop_of_steps (s := ⟨waitingParent, mem⟩) h hp rfl rfl (fun _ => rfl)
    (fun haddr => absurd rfl haddr) (Nat.zero_le nproc) false⟩

end WaitState

end Xv6
