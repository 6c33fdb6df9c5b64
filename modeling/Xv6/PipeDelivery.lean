import Xv6.Pipe

/-!
# What readers of a pipe get

Beside the pipe, this keeps the memory of the processes and what every
`piperead` has done: the bytes that it took out of the pipe, one for each
`pi->nread++`, the count that it returned, and the bytes that stood in the
caller's buffer then.  `piperead` takes a byte out before it knows whether
`copyout` can store it, so the byte at which a buffer becomes invalid is lost.
-/

namespace Xv6

open Function (update update_of_ne update_self)
open Machine

/-- A call of `piperead` that has returned. -/
structure PipeRead where
  proc : ℕ
  addr : ℕ
  ret : ℤ
  taken : List UInt8
  stored : List UInt8

/-- `mem p` is the memory of process `p`, by virtual address; `addr p` is the
buffer of its current call of `piperead` and `taken p` what this call has taken
out of the pipe so far. -/
structure PipeIo where
  sys : PipeState
  mem : ℕ → ℕ → UInt8
  addr : ℕ → ℕ
  taken : ℕ → List UInt8
  returned : List PipeRead

def PipeIo.start (junk : Fin pipeSize → UInt8) (mem : ℕ → ℕ → UInt8) : PipeIo where
  sys := pipealloc junk
  mem := mem
  addr := fun _ => 0
  taken := fun _ => []
  returned := []

/-- The `n` bytes of `p`'s buffer from its start on. -/
def PipeIo.buffer (s : PipeIo) (p n : ℕ) : List UInt8 :=
  (List.range n).map fun k => s.mem p ((s.addr p + k) % 2 ^ 64)

/-- `piperead` by `p` returns `ret`. -/
def PipeIo.finish (s : PipeIo) (p : ℕ) (ret : ℤ) : PipeIo :=
  { s with
    returned := s.returned ++
      [{ proc := p, addr := s.addr p, ret := ret, taken := s.taken p,
         stored := s.buffer p ret.toNat }] }

/-- `piperead` by `p` has taken byte `ch` out, as the one for index `i` of its
buffer, and `copyout` has stored it or not. -/
def PipeIo.take (s : PipeIo) (p : ℕ) (i : ℤ) (copyout : Bool) (ch : UInt8) : PipeIo :=
  { s with
    taken := update s.taken p (s.taken p ++ [ch])
    mem := if copyout = true then
        update s.mem p
          (update (s.mem p) ((s.addr p + i.toNat) % 2 ^ 64) ch)
      else s.mem }

/-- What an iteration of the second loop of `piperead` does besides. -/
def PipeIo.read (s : PipeIo) (p : ℕ) (n i : ℤ) (copyout : Bool) : PipeIo :=
  if i < n ∧ s.sys.pipe.nread ≠ s.sys.pipe.nwrite then
    let ch := s.sys.pipe.data (Pipe.slot s.sys.pipe.nread)
    if copyout = true then s.take p i true ch
    else (s.take p i false ch).finish p i
  else s.finish p i

/-- What a step to `sys` does besides.  `addr` is the argument of a call of
`piperead`. -/
def PipeIo.note (l : PipeLabel) (addr : ℕ) (s : PipeIo) (sys : PipeState) : PipeIo :=
  match l with
  | .callRead p _ =>
    { s with
      addr := update s.addr p addr
      taken := update s.taken p [] }
  | .wait p =>
    match sys.pc p with
    | .user (some ret) => s.finish p ret
    | _ => s
  | .read p copyout =>
    match s.sys.pc p with
    | .readCopy n i => s.read p n i copyout
    | _ => s
  | _ => s

/-- The argument `n` of `piperead` is an `int`. -/
def intArgument : PipeLabel → Bool
  | .callRead _ n => -2 ^ 31 ≤ n ∧ n < 2 ^ 31
  | _ => true

def pipeIoStep (l : PipeLabel × ℕ) (s : PipeIo) : Option PipeIo := if intArgument l.1 = true then
    (pipeStep l.1 s.sys).map fun sys => { s.note l.1 l.2 sys with sys := sys }
  else none

/-- The data that readers have got, in the order in which they got it. -/
def PipeIo.delivered (s : PipeIo) : List UInt8 := s.returned.flatMap PipeRead.stored

/-- No `copyout` of a `piperead` fails. -/
def copyoutSucceeds : PipeLabel × ℕ → Bool
  | (.read _ copyout, _) => copyout
  | _ => true

/-! ## Readers and what they hold -/

/-- The argument `n` of a process in `piperead`, and the index `i` of its second
loop once it is there. -/
def PipePc.readArgs : PipePc → Option (ℤ × Option ℤ)
  | .readAcquire n | .readWait n | .readAsleep n => some (n, none)
  | .readCopy n i => some (n, some i)
  | _ => none

@[simp] theorem readArgs_wakeupNread (pc : ℕ → PipePc) (p : ℕ) :
    (wakeupNread pc p).readArgs = (pc p).readArgs := by
  unfold wakeupNread
  split
  · rename_i hpc
    simp [hpc, PipePc.readArgs]
  · rfl

@[simp] theorem readArgs_wakeupNwrite (pc : ℕ → PipePc) (p : ℕ) :
    (wakeupNwrite pc p).readArgs = (pc p).readArgs := by
  unfold wakeupNwrite
  split
  · rename_i hpc
    simp [hpc, PipePc.readArgs]
  · rfl

theorem critical_of_copying {c : PipePc} {n i : ℤ}
    (hc : c.readArgs = some (n, some i)) : c.critical = true := by
  cases c <;> simp_all [PipePc.readArgs, PipePc.critical]

/-- A call of `piperead` returned as many bytes as it took, or -1 and took
none. -/
def PipeRead.Exact (r : PipeRead) : Prop := (r.ret = -1 ∧ r.taken = []) ∨
    (r.ret = r.taken.length ∧ r.stored = r.taken)

/-- All bytes taken out of the pipe have been delivered, or are in the buffer
of the process that is copying. -/
structure PipeIo.Delivers (s : PipeIo) : Prop where
  lock : s.sys.LockHeld
  fifo : s.sys.Fifo
  waiting : ∀ p n, (s.sys.pc p).readArgs = some (n, none) → n < 2 ^ 31 ∧ s.taken p = []
  copying : ∀ p n i, (s.sys.pc p).readArgs = some (n, some i) →
    n < 2 ^ 31 ∧ i < 2 ^ 31 ∧ i = (s.taken p).length ∧ s.buffer p (s.taken p).length = s.taken p ∧
      s.sys.removed = s.delivered ++ s.taken p
  idle : (∀ p n i, (s.sys.pc p).readArgs ≠ some (n, some i)) → s.sys.removed = s.delivered
  exact : ∀ r ∈ s.returned, r.Exact

theorem PipeIo.start_delivers (junk : Fin pipeSize → UInt8)
    (mem : ℕ → ℕ → UInt8) : (PipeIo.start junk mem).Delivers := by
  refine ⟨pipealloc_lockHeld junk, pipealloc_fifo junk, ?_, ?_, ?_, ?_⟩ <;>
    simp [PipeIo.start, pipealloc, PipePc.readArgs, delivered]

section

variable {s : PipeIo} {sys : PipeState} {p : ℕ} {n i : ℤ}

theorem PipeIo.Delivers.of_quiet (h : s.Delivers) (hlock : sys.LockHeld)
    (hfifo : sys.Fifo) (hremoved : sys.removed = s.sys.removed)
    (hargs : ∀ q, (sys.pc q).readArgs = (s.sys.pc q).readArgs) :
    ({ s with sys := sys } : PipeIo).Delivers := by
  refine ⟨hlock, hfifo, ?_, ?_, ?_, h.exact⟩
  · intro q n hq
    rw [hargs q] at hq
    exact h.waiting q n hq
  · intro q n i hq
    rw [hargs q] at hq
    obtain ⟨hn, hi, hlength, hbuffer, hqueue⟩ := h.copying q n i hq
    exact ⟨hn, hi, hlength, hbuffer, hremoved.trans hqueue⟩
  · intro hnone
    refine hremoved.trans (h.idle fun q n i hq => hnone q n i ?_)
    rw [hargs q]
    exact hq

theorem readArgs_update {pc : ℕ → PipePc} {c : PipePc} {f : ℕ → PipePc}
    (hpc : ∀ q, (pc q).readArgs = (f q).readArgs) (hc : c.readArgs = (f p).readArgs) (q : ℕ) :
    (update pc p c q).readArgs = (f q).readArgs := by
  by_cases hqp : q = p
  · rw [hqp, update_self, hc]
  · rw [update_of_ne hqp, hpc]

theorem no_copying (h : s.sys.LockHeld) (hp : (s.sys.pc p).critical = true)
    {pc : ℕ → PipePc} {c : PipePc} (hpc : ∀ q, (pc q).readArgs = (s.sys.pc q).readArgs)
    (hc : ∀ n i, c.readArgs ≠ some (n, some i)) (q : ℕ) (n i : ℤ) :
    (update pc p c q).readArgs ≠ some (n, some i) := by
  intro hq
  by_cases hqp : q = p
  · rw [hqp, update_self] at hq
    exact hc n i hq
  · rw [update_of_ne hqp, hpc] at hq
    exact hqp (h.unique (critical_of_copying hq) hp)

/-! ## Every step keeps the invariant -/

theorem PipeIo.Delivers.callRead (h : s.Delivers) (hn : n < 2 ^ 31)
    {ret : Option ℤ} (hpc : s.sys.pc p = .user ret) (addr : ℕ) (hlock : ({ s.sys with
      pc := update s.sys.pc p (.readAcquire n) } : PipeState).LockHeld) :
    ({ s with
        sys := { s.sys with
          pc := update s.sys.pc p (.readAcquire n) }
        addr := update s.addr p addr
        taken := update s.taken p [] } : PipeIo).Delivers := by
  refine ⟨hlock, h.fifo.of_same rfl rfl rfl rfl, ?_, ?_, ?_, h.exact⟩
  · intro q n' hq
    dsimp only at hq ⊢
    by_cases hqp : q = p
    · subst hqp
      rw [update_self] at hq ⊢
      simp only [PipePc.readArgs, Option.some.injEq, Prod.mk.injEq] at hq
      exact ⟨hq.1 ▸ hn, rfl⟩
    · rw [update_of_ne hqp] at hq ⊢
      exact h.waiting q n' hq
  · intro q n' i' hq
    dsimp only at hq ⊢
    by_cases hqp : q = p
    · subst hqp
      rw [update_self] at hq
      simp [PipePc.readArgs] at hq
    · rw [update_of_ne hqp] at hq
      obtain ⟨hn', hi', hlength, hbuffer, hqueue⟩ := h.copying q n' i' hq
      rw [update_of_ne hqp]
      refine ⟨hn', hi', hlength, ?_, hqueue⟩
      unfold PipeIo.buffer at hbuffer ⊢
      dsimp only
      rwa [update_of_ne hqp]
  · intro hnone
    refine h.idle fun q n' i' hq => hnone q n' i' ?_
    have hqp : q ≠ p := by
      rintro rfl
      rw [hpc] at hq
      simp [PipePc.readArgs] at hq
    dsimp only
    rwa [update_of_ne hqp]

theorem PipeIo.Delivers.waitFail (h : s.Delivers)
    (hpc : s.sys.pc p = .readWait n) (hlock : (s.sys.leave p (-1)).LockHeld) :
    ({ s.finish p (-1) with sys := s.sys.leave p (-1) } : PipeIo).Delivers := by
  have htaken : s.taken p = [] := (h.waiting p n (by rw [hpc]; rfl)).2
  have hdelivered : (s.finish p (-1)).delivered = s.delivered := by
    simp [delivered, PipeIo.finish, PipeIo.buffer]
  have hnone := no_copying h.lock (p := p) (by rw [hpc]; rfl) (fun _ => rfl)
    (c := .user (some (-1))) (by simp [PipePc.readArgs])
  have hidle : s.sys.removed = s.delivered := by
    refine h.idle fun q n' i' hq => ?_
    have hqp := h.lock.unique (p := q) (q := p) (critical_of_copying hq) (by rw [hpc]; rfl)
    rw [hqp, hpc] at hq
    simp [PipePc.readArgs] at hq
  refine ⟨hlock, h.fifo.of_same rfl rfl rfl rfl, ?_, ?_, ?_, ?_⟩
  · intro q n' hq
    have hqp : q ≠ p := by
      rintro rfl
      simp [PipeState.leave, PipePc.readArgs] at hq
    simp only [PipeState.leave, update_of_ne hqp] at hq
    exact h.waiting q n' hq
  · exact fun q n' i' hq => absurd hq (hnone q n' i')
  · exact fun _ => hidle.trans hdelivered.symm
  · intro r hr
    rcases List.mem_append.mp hr with hr | hr
    · exact h.exact r hr
    · rw [List.mem_singleton.mp hr]
      exact Or.inl ⟨rfl, htaken⟩

theorem PipeIo.Delivers.waitEnd (h : s.Delivers) (hpc : s.sys.pc p = .readWait n)
    (hlock : ({ s.sys with
      pc := update s.sys.pc p (.readCopy n 0) } : PipeState).LockHeld) :
    ({ s with
        sys := { s.sys with
          pc := update s.sys.pc p (.readCopy n 0) } } :
      PipeIo).Delivers := by
  have hp : (s.sys.pc p).critical = true := by rw [hpc]; rfl
  obtain ⟨hn, htaken⟩ := h.waiting p n (by rw [hpc]; rfl)
  have hidle : s.sys.removed = s.delivered := by
    refine h.idle fun q n' i' hq => ?_
    have hqp := h.lock.unique (critical_of_copying hq) hp
    rw [hqp, hpc] at hq
    simp [PipePc.readArgs] at hq
  refine ⟨hlock, h.fifo.of_same rfl rfl rfl rfl, ?_, ?_, ?_, h.exact⟩
  · intro q n' hq
    have hqp : q ≠ p := by
      rintro rfl
      simp [PipePc.readArgs] at hq
    dsimp only at hq
    rw [update_of_ne hqp] at hq
    exact h.waiting q n' hq
  · intro q n' i' hq
    have hqp : q = p := by
      by_contra hqp
      dsimp only at hq
      rw [update_of_ne hqp] at hq
      exact hqp (h.lock.unique (critical_of_copying hq) hp)
    subst hqp
    simp only [update_self, PipePc.readArgs, Option.some.injEq, Prod.mk.injEq] at hq
    obtain ⟨rfl, rfl⟩ := hq
    dsimp only
    rw [htaken]
    exact ⟨hn, by norm_num, rfl, rfl, hidle.trans (List.append_nil _).symm⟩
  · intro hnone
    exact absurd (by simp [PipePc.readArgs]) (hnone p n 0)

theorem PipeIo.buffer_take (s : PipeIo) (p : ℕ) (ch : UInt8) {k : ℕ} (hk : k < 2 ^ 31) :
    (s.take p k true ch).buffer p (k + 1) = s.buffer p k ++ [ch] := by
  unfold PipeIo.buffer
  rw [List.range_succ, List.map_append, List.map_singleton]
  congr 1
  · apply List.map_congr_left
    intro j hj
    have hjk := List.mem_range.mp hj
    have hne : (s.addr p + j) % 2 ^ 64 ≠ (s.addr p + k) % 2 ^ 64 := by omega
    simp only [PipeIo.take, if_true, update_self, Int.toNat_natCast]
    rw [update_of_ne hne]
  · simp [PipeIo.take]

theorem PipeIo.Delivers.readByte (h : s.Delivers) (hpc : s.sys.pc p = .readCopy n i) (hmore : i < n)
    (hlock : sys.LockHeld) (hfifo : sys.Fifo)
    (hremoved : sys.removed = s.sys.removed ++ [s.sys.pipe.data (Pipe.slot s.sys.pipe.nread)])
    (hsys : sys.pc = update s.sys.pc p (.readCopy n (i + 1))) :
    ({ s.take p i true (s.sys.pipe.data (Pipe.slot s.sys.pipe.nread)) with
        sys := sys } : PipeIo).Delivers := by
  have hp : (s.sys.pc p).critical = true := by rw [hpc]; rfl
  obtain ⟨hn, hi, hlength, hbuffer, hqueue⟩ := h.copying p n i (by rw [hpc]; rfl)
  have hsmall : (s.taken p).length < 2 ^ 31 := by omega
  refine ⟨hlock, hfifo, ?_, ?_, ?_, h.exact⟩
  · intro q n' hq
    dsimp only at hq
    rw [hsys] at hq
    have hqp : q ≠ p := by
      rintro rfl
      simp [PipePc.readArgs] at hq
    rw [update_of_ne hqp] at hq
    obtain ⟨hn', htaken⟩ := h.waiting q n' hq
    refine ⟨hn', ?_⟩
    simp only [PipeIo.take]
    rw [update_of_ne hqp, htaken]
  · intro q n' i' hq
    dsimp only at hq
    rw [hsys] at hq
    have hqp : q = p := by
      by_contra hqp
      rw [update_of_ne hqp] at hq
      exact hqp (h.lock.unique (critical_of_copying hq) hp)
    subst hqp
    simp only [update_self, PipePc.readArgs, Option.some.injEq, Prod.mk.injEq] at hq
    obtain ⟨rfl, rfl⟩ := hq
    have htaken : (s.take q i true (s.sys.pipe.data (Pipe.slot s.sys.pipe.nread))).taken q =
          s.taken q ++ [s.sys.pipe.data (Pipe.slot s.sys.pipe.nread)] := by
      simp [PipeIo.take]
    dsimp only
    rw [htaken, List.length_append, List.length_singleton]
    refine ⟨hn, by omega, by rw [hlength]; rfl, ?_, ?_⟩
    · have hstep := s.buffer_take q (s.sys.pipe.data (Pipe.slot s.sys.pipe.nread)) hsmall
      rw [← hlength, hbuffer] at hstep
      exact hstep
    · rw [hremoved, hqueue, List.append_assoc]
      rfl
  · intro hnone
    refine absurd ?_ (hnone p n (i + 1))
    simp [hsys, PipePc.readArgs]

theorem PipeIo.Delivers.readEnd (h : s.Delivers) (hpc : s.sys.pc p = .readCopy n i)
    (hlock : ({ s.sys with pc := wakeupNwrite s.sys.pc }.leave p i).LockHeld) : ({ s.finish p i with
        sys := { s.sys with pc := wakeupNwrite s.sys.pc }.leave p i } :
      PipeIo).Delivers := by
  obtain ⟨_, _, hlength, hbuffer, hqueue⟩ := h.copying p n i (by rw [hpc]; rfl)
  have hstored : s.buffer p i.toNat = s.taken p := by
    rw [hlength, Int.toNat_natCast, hbuffer]
  have hnone := no_copying h.lock (p := p) (by rw [hpc]; rfl)
    (readArgs_wakeupNwrite s.sys.pc) (c := .user (some i)) (by simp [PipePc.readArgs])
  refine ⟨hlock, h.fifo.of_same rfl rfl rfl rfl, ?_, ?_, ?_, ?_⟩
  · intro q n' hq
    have hqp : q ≠ p := by
      rintro rfl
      simp [PipeState.leave, PipePc.readArgs] at hq
    simp only [PipeState.leave, update_of_ne hqp, readArgs_wakeupNwrite] at hq
    exact h.waiting q n' hq
  · exact fun q n' i' hq => absurd hq (hnone q n' i')
  · intro _
    change s.sys.removed = _
    rw [hqueue, ← hstored]
    simp [delivered, PipeIo.finish]
  · intro r hr
    rcases List.mem_append.mp hr with hr | hr
    · exact h.exact r hr
    · rw [List.mem_singleton.mp hr]
      exact Or.inr ⟨hlength, hstored⟩

theorem pipeKill_readArgs (s : PipeState) (p q : ℕ) :
    ((pipeKill p s).pc q).readArgs = (s.pc q).readArgs := by
  refine readArgs_update (fun _ => rfl) ?_ q
  split
  · rename_i hpc
    simp [hpc, PipePc.readArgs]
  · rename_i hpc
    simp [hpc, PipePc.readArgs]
  · rfl

theorem pipeclose_readArgs (writable : Bool) (s : PipeState) (q : ℕ) :
    ((pipeclose writable s).pc q).readArgs = (s.pc q).readArgs := by
  have hend : ((pipecloseEnd writable s).pc q).readArgs = (s.pc q).readArgs := by
    unfold pipecloseEnd
    split
    · exact readArgs_wakeupNread s.pc q
    · exact readArgs_wakeupNwrite s.pc q
  unfold pipeclose
  split <;> exact hend

theorem pipeclose_removed (writable : Bool) (s : PipeState) :
    (pipeclose writable s).removed = s.removed := by
  unfold pipeclose pipecloseEnd
  split <;> split <;> rfl

theorem pipeIoStep_delivers {l : PipeLabel × ℕ} {s' : PipeIo} (h : s.Delivers)
    (hok : copyoutSucceeds l = true) (hstep : pipeIoStep l s = some s') : s'.Delivers := by
  obtain ⟨l, addr⟩ := l
  unfold pipeIoStep at hstep
  split at hstep
  swap
  · contradiction
  rename_i hint
  obtain ⟨sys, hsys, rfl⟩ := Option.map_eq_some_iff.mp hstep
  have hmove := pipeStep_move hsys
  have hlock := hmove.lockHeld h.lock
  have hfifo := hmove.fifo h.fifo
  dsimp only at hmove hint ⊢
  cases hmove with
  | callWrite hpc | acquireWrite hpc _ | acquireRead hpc _ | writeFail hpc
  | writeByte hpc =>
    exact h.of_quiet hlock hfifo rfl (readArgs_update (fun _ => rfl) (by rw [hpc]; rfl))
  | callRead hpc =>
    simp only [intArgument, Bool.decide_and, Bool.and_eq_true, decide_eq_true_eq] at hint
    exact h.callRead hint.2 hpc addr hlock
  | writeFull hpc | writeEnd hpc =>
    exact h.of_quiet hlock hfifo rfl (readArgs_update (readArgs_wakeupNread _) (by rw [hpc]; rfl))
  | @waitFail p n hpc =>
    have hnote : s.note (.wait p) addr (s.sys.leave p (-1)) = s.finish p (-1) := by
      simp [PipeIo.note, PipeState.leave]
    rw [hnote]
    exact h.waitFail hpc hlock
  | @waitSleep p n hpc _ _ =>
    have hquiet := h.of_quiet hlock hfifo rfl (readArgs_update (fun _ => rfl) (by rw [hpc]; rfl))
    simpa [PipeIo.note] using hquiet
  | @waitEnd p n hpc =>
    have hend := h.waitEnd hpc hlock
    simpa [PipeIo.note] using hend
  | @readByte p n i hpc hmore hne =>
    have hbyte := h.readByte hpc hmore hlock hfifo rfl rfl
    simpa [PipeIo.note, hpc, PipeIo.read, hmore, hne] using hbyte
  | readFault hpc => contradiction
  | @readEnd p n i copyout hpc hend =>
    have hread := h.readEnd hpc hlock
    rw [PipeIo.note, hpc]
    simp only [PipeIo.read, if_neg hend]
    exact hread
  | @close writable _ =>
    exact h.of_quiet hlock hfifo (pipeclose_removed writable s.sys)
      (pipeclose_readArgs writable s.sys)
  | @kill p =>
    exact h.of_quiet hlock hfifo rfl (pipeKill_readArgs s.sys p)

end

/-- As long as no `copyout` of a `piperead` fails, every call of `piperead`
takes as many bytes out of the pipe as it returns (none if it returns -1), these
bytes are in its caller's buffer when it returns, and all the data delivered so
far is a prefix of the data accepted from writers. -/
theorem piperead_exact (junk : Fin pipeSize → UInt8) (mem : ℕ → ℕ → UInt8)
    (labels : List (PipeLabel × ℕ)) (s : PipeIo)
    (hrun : Machine.run (restrict (fun l _ => copyoutSucceeds l = true) pipeIoStep)
      labels (.start junk mem) = some s) :
    (∀ r ∈ s.returned, (r.ret = -1 ∧ r.taken = []) ∨
      (r.ret = r.taken.length ∧ r.stored = r.taken)) ∧
    s.delivered <+: s.sys.accepted := by
  have h : s.Delivers := by
    refine run_invariant ?_ (PipeIo.start_delivers junk mem) hrun
    intro l s s' hs hstep
    obtain ⟨hok, hstep⟩ := Machine.restrict_eq_some.mp hstep
    exact pipeIoStep_delivers hs hok hstep
  refine ⟨h.exact, ?_⟩
  have hprefix : s.delivered <+: s.sys.removed := by
    by_cases hcopy : ∃ p n i, (s.sys.pc p).readArgs = some (n, some i)
    · obtain ⟨p, n, i, hp⟩ := hcopy
      rw [(h.copying p n i hp).2.2.2.2]
      exact List.prefix_append _ _
    · rw [h.idle fun p n i hp => hcopy ⟨p, n, i, hp⟩]
  rw [h.fifo.queue]
  exact hprefix.trans (List.prefix_append _ _)

/-- One read takes two of three bytes. -/
theorem piperead_exact_two_bytes : ∃ s, Machine.run
        (restrict (fun l _ => copyoutSucceeds l = true) pipeIoStep)
        [(.callWrite 1 3, 0), (.acquire 1, 0), (.write 1 (some 7), 0),
          (.write 1 (some 8), 0), (.write 1 (some 9), 0), (.write 1 none, 0),
          (.callRead 2 2, 100), (.acquire 2, 0), (.wait 2, 0),
          (.read 2 true, 0), (.read 2 true, 0), (.read 2 true, 0)]
        (.start (fun _ => 0) fun _ _ => 0) = some s ∧
      s.delivered = [7, 8] ∧ s.delivered <+: s.sys.accepted := by
  refine exists_run (P := fun s => decide (s.delivered = [7, 8])) (by decide +kernel) ?_
  intro s hrun hs
  exact ⟨of_decide_eq_true hs, (piperead_exact _ _ _ s hrun).2⟩

/-- The buffer of the first read is not mapped: it takes the byte 7 out of the
pipe and returns 0.  The next read gets the byte 8, which was accepted
second. -/
theorem faulting_piperead_loses_byte : ∃ s, Machine.run pipeIoStep
        [(.callWrite 1 2, 0), (.acquire 1, 0), (.write 1 (some 7), 0),
          (.write 1 (some 8), 0), (.write 1 none, 0), (.callRead 2 1, 100),
          (.acquire 2, 0), (.wait 2, 0), (.read 2 false, 0),
          (.callRead 2 1, 200), (.acquire 2, 0), (.wait 2, 0),
          (.read 2 true, 0), (.read 2 true, 0)]
        (.start (fun _ => 0) fun _ _ => 0) = some s ∧
      (s.returned.map fun r => (r.ret, r.taken, r.stored)) = [(0, [7], []), (1, [8], [8])] ∧
      s.sys.accepted = [7, 8] ∧ ¬s.delivered <+: s.sys.accepted := by
  exact exists_run_decide (by decide +kernel)

end Xv6
