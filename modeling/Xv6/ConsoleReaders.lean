import Xv6.Console
import Xv6.Lib.Machine

/-!
# Reading from the console

Processes call `consoleread` while characters arrive.  The lock of the console
is given up only in `sleep`; `fault` and `kill` stand for a buffer that cannot
be written and for a caller that is killed.
-/

namespace Xv6

/-! ## The system -/

/-- Where a process is in `consoleread`: `id` is the number of its call.  A
process that is `reading` has `cons.lock`. -/
inductive ReadPc
  | user (ret : Option ℤ)
  | reading (id : ℕ) (target : UInt32) (n : Int32)
  | asleep (id : ℕ) (target : UInt32) (n : Int32)
  | woken (id : ℕ) (target : UInt32) (n : Int32)

namespace ReadPc

def call : ReadPc → Option (ℕ × UInt32 × Int32)
  | user _ => none
  | reading id target n | asleep id target n | woken id target n =>
    some (id, target, n)

/-- `wakeup(&cons.r)` for one process. -/
def wake : ReadPc → ReadPc
  | asleep id target n => woken id target n
  | pc => pc

@[simp] theorem call_wake (pc : ReadPc) : pc.wake.call = pc.call := by
  cases pc <;> rfl

end ReadPc

/-- `buffer` has what has been copied to the user for a call.  The history
variables: `tty` follows the abstract line discipline, `delivered` has the bytes
that have been copied out with the calls that they went to, and `returned` has
the calls that are over with their results. -/
structure ConsSystem where
  cons : Cons
  lock : Option ℕ
  pc : ℕ → ReadPc
  killed : ℕ → Bool
  calls : ℕ
  buffer : ℕ → List UInt8
  tty : Tty
  delivered : List (ℕ × UInt8)
  returned : List (ℕ × ℤ)

inductive ConsLabel
  | intr (c : UInt8)
  | read (p : ℕ) (n : Int32)
  | next (p : ℕ) (fault : Bool)
  | kill (p : ℕ)

namespace ConsSystem

def goto (p : ℕ) (k : ReadPc) (s : ConsSystem) : ConsSystem :=
  { s with pc := Function.update s.pc p k }

/-- `release(&cons.lock); return ret`. -/
def leave (p : ℕ) (id : ℕ) (ret : ℤ) (s : ConsSystem) : ConsSystem :=
  { s with
    lock := none
    pc := Function.update s.pc p (.user (some ret))
    returned := s.returned ++ [(id, ret)] }

/-- `release(&cons.lock); return target - n`. -/
def finish (p : ℕ) (id : ℕ) (target : UInt32) (n : Int32) (s : ConsSystem) : ConsSystem :=
  s.leave p id (target - n.toUInt32).toInt32.toInt

def intr (c : UInt8) (s : ConsSystem) : ConsSystem :=
  { s with
    cons := (s.cons.consoleintr c).1
    pc := if (s.cons.consoleintr c).2 then fun p => (s.pc p).wake else s.pc
    tty := s.tty.input c }

def acquire (p : ℕ) (id : ℕ) (target : UInt32) (n : Int32) (s : ConsSystem) : Option ConsSystem :=
  if s.lock = none then
    some ({ s with lock := some p }.goto p (.reading id target n))
  else none

/-- `cons.r++`, for a byte that stays taken. -/
def take (s : ConsSystem) : ConsSystem :=
  { s with
    cons := { s.cons with r := s.cons.r + 1 }
    tty := s.tty.take }

def deliver (id : ℕ) (c : UInt8) (s : ConsSystem) : ConsSystem :=
  { s with
    buffer := Function.update s.buffer id (s.buffer id ++ [c])
    delivered := s.delivered ++ [(id, c)] }

/-- One round of the loop of `consoleread`; `fault` says that `either_copyout`
fails.  A ^D that comes after other bytes is put back. -/
def consoleread (p : ℕ) (id : ℕ) (target : UInt32) (n : Int32)
    (fault : Bool) (s : ConsSystem) : ConsSystem :=
  if 0 < n then
    if s.cons.r = s.cons.w then
      if s.killed p then s.leave p id (-1)
      else { s with lock := none }.goto p (.asleep id target n)
    else
      let c := s.cons.buf (Cons.slot s.cons.r)
      if c = ctrl 'D' then
        if n.toUInt32 < target then s.finish p id target n
        else s.take.finish p id target n
      else if fault then s.take.finish p id target n
      else
        let s := s.take.deliver id c
        let n := n - 1
        if c = newline then s.finish p id target n
        else s.goto p (.reading id target n)
  else s.finish p id target n

def step (l : ConsLabel) (s : ConsSystem) : Option ConsSystem :=
  match l with
  | .intr c => if s.lock = none then some (s.intr c) else none
  | .read p n =>
    match s.pc p with
    | .user _ =>
      { s with calls := s.calls + 1 }.acquire p s.calls n.toUInt32 n
    | _ => none
  | .next p fault =>
    match s.pc p with
    | .reading id target n => some (s.consoleread p id target n fault)
    | .woken id target n => s.acquire p id target n
    | _ => none
  | .kill p =>
    some ({ s with killed := Function.update s.killed p true }.goto p (s.pc p).wake)

/-- Nothing has been typed and nobody reads. -/
structure Start (s : ConsSystem) : Prop where
  r : s.cons.r = s.cons.w
  e : s.cons.e = s.cons.w
  pc : ∀ p, ∃ ret, s.pc p = .user ret
  killed : ∀ p, s.killed p = false
  buffer : ∀ id, s.buffer id = []
  tty : s.tty = ⟨[], [], 0⟩
  delivered : s.delivered = []
  returned : s.returned = []

end ConsSystem

/-- Lengths are positive, buffers do not fault and callers are not killed. -/
def ConsLabel.Quiet : ConsLabel → Prop
  | .intr _ => True
  | .read _ n => 0 < n
  | .next _ fault => fault = false
  | .kill _ => False

/-! ## What has been taken -/

namespace ConsSystem

/-- The bytes that have been taken from the buffer have been delivered, except
that a ^D has ended a read of no bytes. -/
structure Taken (s : ConsSystem) : Prop where
  agrees : s.tty.Agrees s.cons
  delivered : s.delivered.map Prod.snd = (s.tty.committed.take s.tty.taken).filter (· ≠ ctrl 'D')
  eof : s.returned.countP (·.2 = 0) = (s.tty.committed.take s.tty.taken).count (ctrl 'D')

variable {s t : ConsSystem} {p id : ℕ} {target : UInt32} {n : Int32}

theorem Taken.intr (h : s.Taken) (c : UInt8) : (s.intr c).Taken := by
  obtain ⟨htaken, hcommitted⟩ := s.tty.input_committed c
  have htake : (s.tty.input c).committed.take (s.tty.input c).taken =
      s.tty.committed.take s.tty.taken := by
    obtain ⟨new, hnew⟩ := hcommitted
    rw [htaken, ← hnew, List.take_append_of_le_length h.agrees.taken]
  refine ⟨h.agrees.input c, ?_, ?_⟩
  · change _ = ((s.tty.input c).committed.take (s.tty.input c).taken).filter _
    rw [htake]
    exact h.delivered
  · change _ = ((s.tty.input c).committed.take (s.tty.input c).taken).count _
    rw [htake]
    exact h.eof

theorem Taken.leave {ret : ℤ} (h : s.Taken) (hret : ret ≠ 0) : (s.leave p id ret).Taken := by
  refine ⟨h.agrees, h.delivered, ?_⟩
  change (s.returned ++ [(id, ret)]).countP _ = (s.tty.committed.take s.tty.taken).count _
  simpa [List.countP_append, hret] using h.eof

theorem Taken.next (h : s.Taken) (hne : s.cons.r ≠ s.cons.w) :
    s.tty.take.Agrees { s.cons with r := s.cons.r + 1 } ∧ s.tty.committed.take s.tty.take.taken =
        s.tty.committed.take s.tty.taken ++ [s.cons.buf (Cons.slot s.cons.r)] := by
  have hholds := h.agrees.holds
  have hlt : s.tty.taken < s.tty.committed.length := by
    by_contra hge
    apply hne
    rw [hholds.unread_eq_nil_iff, Tty.unread]
    exact List.drop_eq_nil_of_le (by omega)
  have hunread : s.tty.unread = s.tty.committed[s.tty.taken] :: s.tty.take.unread :=
    List.drop_eq_getElem_cons hlt
  rw [hunread] at hholds
  obtain ⟨hc, hpop⟩ := hholds.pop
  refine ⟨⟨hpop, h.agrees.line, hlt⟩, ?_⟩
  rw [hc]
  exact List.take_succ_eq_append_getElem hlt

theorem Taken.deliver (h : s.Taken) (hne : s.cons.r ≠ s.cons.w)
    (hc : s.cons.buf (Cons.slot s.cons.r) ≠ ctrl 'D') (id : ℕ) :
    (s.take.deliver id (s.cons.buf (Cons.slot s.cons.r))).Taken := by
  obtain ⟨hagrees, htake⟩ := h.next hne
  generalize s.cons.buf (Cons.slot s.cons.r) = c at hc htake
  refine ⟨hagrees, ?_, ?_⟩
  · change (s.delivered ++ [(id, c)]).map Prod.snd =
      (s.tty.committed.take s.tty.take.taken).filter _
    simpa [htake, hc] using h.delivered
  · change _ = (s.tty.committed.take s.tty.take.taken).count _
    rw [htake, List.count_append, List.count_singleton, if_neg (by simpa)]
    exact h.eof

theorem Taken.eof_leave (h : s.Taken) (hne : s.cons.r ≠ s.cons.w)
    (hc : s.cons.buf (Cons.slot s.cons.r) = ctrl 'D') : (s.take.leave p id 0).Taken := by
  obtain ⟨hagrees, htake⟩ := h.next hne
  rw [hc] at htake
  refine ⟨hagrees, ?_, ?_⟩
  · change s.delivered.map Prod.snd = (s.tty.committed.take s.tty.take.taken).filter _
    simpa [htake] using h.delivered
  · change (s.returned ++ [(id, 0)]).countP _ = (s.tty.committed.take s.tty.take.taken).count _
    simpa [htake, List.countP_append] using h.eof

/-! ## The calls -/

/-- A call in progress has `n` bytes to go, and has not seen a newline. -/
structure Active (s : ConsSystem) (id : ℕ) (target : UInt32) (n : Int32) : Prop where
  rest : 0 ≤ n.toInt
  sum : n.toInt + (s.buffer id).length = target.toNat
  target : 0 < target.toNat ∧ target.toNat < 2 ^ 31
  line : newline ∉ s.buffer id

/-- Nobody is in the call, and it is not over. -/
structure Free (s : ConsSystem) (id : ℕ) : Prop where
  known : id < s.calls
  returned : ∀ x ∈ s.returned, x.1 ≠ id
  pc : ∀ q x, (s.pc q).call = some x → x.1 ≠ id

structure Calls (s : ConsSystem) : Prop where
  killed : ∀ p, s.killed p = false
  buffer : ∀ id, s.buffer id = (s.delivered.filter (·.1 = id)).map Prod.snd
  fresh : ∀ id, s.calls ≤ id → s.buffer id = []
  active : ∀ p id target n, (s.pc p).call = some (id, target, n) →
    id < s.calls ∧ (∀ x ∈ s.returned, x.1 ≠ id) ∧ s.Active id target n
  distinct : ∀ p q x y, (s.pc p).call = some x → (s.pc q).call = some y → x.1 = y.1 → p = q
  returned : ∀ x ∈ s.returned, x.1 < s.calls ∧
    x.2 = (s.buffer x.1).length ∧ newline ∉ (s.buffer x.1).dropLast

theorem Calls.of_start (h : s.Start) : s.Calls := by
  have hpc : ∀ p, (s.pc p).call = none := by
    intro p
    obtain ⟨ret, hp⟩ := h.pc p
    rw [hp]
    rfl
  refine ⟨h.killed, ?_, fun id _ => h.buffer id, ?_, ?_, ?_⟩
  · intro id
    rw [h.buffer, h.delivered]
    rfl
  · intro p id target n hp
    rw [hpc] at hp
    cases hp
  · intro p q x y hp
    rw [hpc] at hp
    cases hp
  · rw [h.returned]
    intro x hx
    cases hx

theorem Calls.of_call_eq {pc : ℕ → ReadPc} {lock : Option ℕ} {cons : Cons}
    {tty : Tty} (h : s.Calls) (hpc : ∀ q, (pc q).call = (s.pc q).call) :
    ({ s with cons := cons, lock := lock, pc := pc, tty := tty } : ConsSystem).Calls := by
  refine ⟨h.killed, h.buffer, h.fresh, ?_, ?_, h.returned⟩
  · intro p id target n hp
    obtain ⟨hid, hreturned, hactive⟩ := h.active p id target n ((hpc p).symm.trans hp)
    exact ⟨hid, hreturned, ⟨hactive.rest, hactive.sum, hactive.target, hactive.line⟩⟩
  · intro p q x y hp hq
    exact h.distinct p q x y ((hpc p).symm.trans hp) ((hpc q).symm.trans hq)

theorem call_goto {k : ReadPc} (hk : k.call = (s.pc p).call) (q : ℕ) :
    ((s.goto p k).pc q).call = (s.pc q).call := by
  by_cases hq : q = p
  · subst hq
    simpa [ConsSystem.goto] using hk
  · simp [ConsSystem.goto, hq]

theorem call_user {ret : Option ℤ} {x : ℕ × UInt32 × Int32} {q : ℕ}
    (hq : ((s.goto p (.user ret)).pc q).call = some x) : q ≠ p ∧ (s.pc q).call = some x := by
  by_cases hqp : q = p
  · subst hqp
    simp [ConsSystem.goto, ReadPc.call] at hq
  · refine ⟨hqp, ?_⟩
    simpa [ConsSystem.goto, hqp] using hq

theorem Calls.user (h : s.Calls) (ret : Option ℤ) : (s.goto p (.user ret)).Calls := by
  refine ⟨h.killed, h.buffer, h.fresh, ?_, ?_, h.returned⟩
  · intro q id target n hq
    obtain ⟨hid, hreturned, hactive⟩ := h.active q id target n (call_user hq).2
    exact ⟨hid, hreturned, ⟨hactive.rest, hactive.sum, hactive.target, hactive.line⟩⟩
  · intro q q' x y hq hq'
    exact h.distinct q q' x y (call_user hq).2 (call_user hq').2

theorem Calls.free (h : s.Calls) (hp : (s.pc p).call = some (id, target, n))
    (ret : Option ℤ) : (s.goto p (.user ret)).Free id := by
  obtain ⟨hid, hreturned, _⟩ := h.active p id target n hp
  refine ⟨hid, hreturned, ?_⟩
  intro q x hq heq
  obtain ⟨hne, hq⟩ := call_user hq
  exact hne (h.distinct q p x _ hq hp heq)

theorem Calls.deliver (h : s.Calls) (hfree : s.Free id) (c : UInt8) : (s.deliver id c).Calls := by
  have hother : ∀ id', id' ≠ id → (s.deliver id c).buffer id' = s.buffer id' :=
    fun id' hne => Function.update_of_ne hne ..
  refine ⟨h.killed, ?_, ?_, ?_, h.distinct, ?_⟩
  · intro id'
    change _ = ((s.delivered ++ [(id, c)]).filter _).map _
    by_cases hid : id' = id
    · subst hid
      simp [ConsSystem.deliver, h.buffer]
    · rw [hother id' hid, h.buffer]
      simp [Ne.symm hid]
  · intro id' hid'
    rw [hother id' (lt_of_lt_of_le hfree.known hid').ne']
    exact h.fresh id' hid'
  · intro q id' target n hq
    obtain ⟨hid, hreturned, hactive⟩ := h.active q id' target n hq
    have hbuffer := hother id' (hfree.pc q _ hq)
    refine ⟨hid, hreturned, hactive.rest, ?_, hactive.target, ?_⟩
    · rw [hbuffer]
      exact hactive.sum
    · rw [hbuffer]
      exact hactive.line
  · intro x hx
    rw [hother x.1 (hfree.returned x hx)]
    exact h.returned x hx

theorem Free.deliver (h : s.Free id) (c : UInt8) : (s.deliver id c).Free id :=
  ⟨h.known, h.returned, h.pc⟩

theorem Calls.enter {k : ReadPc} (h : s.Calls) (hfree : s.Free id)
    (hk : k.call = some (id, target, n)) (hactive : s.Active id target n) : (s.goto p k).Calls := by
  have hcall : ∀ q x, ((s.goto p k).pc q).call = some x →
      q = p ∧ x = (id, target, n) ∨ q ≠ p ∧ (s.pc q).call = some x := by
    intro q x hq
    by_cases hqp : q = p
    · subst hqp
      refine .inl ⟨rfl, ?_⟩
      simpa [ConsSystem.goto, hk, eq_comm] using hq
    · exact .inr ⟨hqp, by simpa [ConsSystem.goto, hqp] using hq⟩
  refine ⟨h.killed, h.buffer, h.fresh, ?_, ?_, h.returned⟩
  · intro q id' target' n' hq
    rcases hcall q _ hq with ⟨_, heq⟩ | ⟨_, hq⟩
    · cases heq
      exact ⟨hfree.known, hfree.returned, ⟨hactive.rest, hactive.sum, hactive.target, hactive.line⟩⟩
    · obtain ⟨hid, hreturned, hactive⟩ := h.active q id' target' n' hq
      exact ⟨hid, hreturned, ⟨hactive.rest, hactive.sum, hactive.target, hactive.line⟩⟩
  · intro q q' x y hq hq' heq
    rcases hcall q x hq with ⟨hqp, rfl⟩ | ⟨_, hold⟩
    · rcases hcall q' y hq' with ⟨hqp', _⟩ | ⟨_, hold'⟩
      · rw [hqp, hqp']
      · exact absurd heq.symm (hfree.pc q' y hold')
    · rcases hcall q' y hq' with ⟨_, rfl⟩ | ⟨_, hold'⟩
      · exact absurd heq (hfree.pc q x hold)
      · exact h.distinct q q' x y hold hold' heq

theorem Calls.leave {ret : ℤ} (h : s.Calls) (hfree : s.Free id) (hret : ret = (s.buffer id).length)
    (hline : newline ∉ (s.buffer id).dropLast) : (s.leave p id ret).Calls := by
  have huser := h.user (p := p) (some ret)
  refine ⟨huser.killed, huser.buffer, huser.fresh, ?_, huser.distinct, ?_⟩
  · intro q id' target' n' hq
    obtain ⟨hid, hreturned, hactive⟩ := huser.active q id' target' n' hq
    refine ⟨hid, ?_, hactive.rest, hactive.sum, hactive.target, hactive.line⟩
    intro x hx
    rcases List.mem_append.mp hx with hx | hx
    · exact hreturned x hx
    · cases List.mem_singleton.mp hx
      exact (hfree.pc q _ (call_user hq).2).symm
  · intro x hx
    rcases List.mem_append.mp hx with hx | hx
    · exact h.returned x hx
    · cases List.mem_singleton.mp hx
      exact ⟨hfree.known, hret, hline⟩

/-! ## One step -/

theorem toNat_of_nonneg (h : 0 ≤ n.toInt) : (n.toUInt32.toNat : ℤ) = n.toInt := by
  change (n.toBitVec.toNat : ℤ) = n.toBitVec.toInt
  change 0 ≤ n.toBitVec.toInt at h
  rw [BitVec.toInt_eq_toNat_cond] at h ⊢
  split
  · rfl
  · rename_i hge
    rw [if_neg hge] at h
    have := n.toBitVec.isLt
    omega

theorem ret_eq {m : ℕ} (hrest : 0 ≤ n.toInt) (hsum : n.toInt + m = target.toNat)
    (htarget : target.toNat < 2 ^ 31) : (target - n.toUInt32).toInt32.toInt = m := by
  rw [← toNat_of_nonneg hrest] at hsum
  have hsub : (target - n.toUInt32).toNat = m := by
    rw [UInt32.toNat_sub_of_le _ _ (UInt32.le_iff_toNat_le.mpr (by omega))]
    omega
  change (target - n.toUInt32).toBitVec.toInt = _
  rw [BitVec.toInt_eq_toNat_cond]
  change (if 2 * (target - n.toUInt32).toNat < 2 ^ 32 then
    ((target - n.toUInt32).toNat : ℤ) else _) = _
  rw [hsub, if_pos (by omega)]

theorem Active.sub_one (h : s.Active id target n) (hn : 0 < n) {c : UInt8} : 0 ≤ (n - 1).toInt ∧
      (n - 1).toInt + (s.buffer id ++ [c]).length = target.toNat := by
  have hpos : 0 < n.toInt := Int32.lt_iff_toInt_lt.mp hn
  have hlt := n.toInt_lt
  have hsub : (n - 1).toInt = n.toInt - 1 := by
    rw [Int32.toInt_sub]
    change (n.toInt - 1).bmod (2 ^ 32) = _
    exact Int.bmod_eq_of_le (by omega) (by omega)
  have hsum := h.sum
  rw [hsub, List.length_append, List.length_singleton]
  constructor
  · omega
  · push_cast
    omega

theorem goto_goto (s : ConsSystem) (p : ℕ) (k k' : ReadPc) :
    (s.goto p k).goto p k' = s.goto p k' := by
  simp [ConsSystem.goto]

theorem goto_leave (s : ConsSystem) (p id : ℕ) (k : ReadPc) (ret : ℤ) :
    (s.goto p k).leave p id ret = s.leave p id ret := by
  simp [ConsSystem.goto, ConsSystem.leave]

theorem Calls.finish (h : s.Calls) (hp : (s.pc p).call = some (id, target, n)) :
    (s.finish p id target n).Calls := by
  obtain ⟨_, _, hactive⟩ := h.active p id target n hp
  rw [ConsSystem.finish, ret_eq hactive.rest hactive.sum hactive.target.2,
    ← goto_leave s p id (.user none)]
  refine (h.user none).leave (h.free hp none) rfl ?_
  exact fun hmem => hactive.line (List.mem_of_mem_dropLast hmem)

theorem Calls.take (h : s.Calls) : s.take.Calls := h.of_call_eq fun _ => rfl

theorem Calls.deliverThen (h : s.Calls) (hn : 0 < n) (hp : (s.pc p).call = some (id, target, n))
    (c : UInt8) : (if c = newline then (s.deliver id c).finish p id target (n - 1)
      else (s.deliver id c).goto p (.reading id target (n - 1))).Calls := by
  obtain ⟨_, _, hactive⟩ := h.active p id target n hp
  have huser := (h.user (p := p) none).deliver (h.free hp none) c
  have hfree := (h.free hp none).deliver c
  have hbuffer : ((s.goto p (.user none)).deliver id c).buffer id =
      s.buffer id ++ [c] := Function.update_self ..
  obtain ⟨hrest, hsum⟩ := hactive.sub_one hn (c := c)
  split
  · rw [ConsSystem.finish, ret_eq hrest hsum hactive.target.2, ← goto_leave _ p id (.user none)]
    refine Calls.leave (s := (s.goto p (.user none)).deliver id c) huser hfree ?_ ?_
    · rw [hbuffer]
    · rw [hbuffer, List.dropLast_concat]
      exact hactive.line
  · rename_i hc
    rw [← goto_goto _ p (.user none)]
    refine Calls.enter (s := (s.goto p (.user none)).deliver id c) huser hfree
      rfl ⟨hrest, ?_, hactive.target, ?_⟩
    · rw [hbuffer]
      exact hsum
    · rw [hbuffer]
      simpa [Ne.symm hc] using hactive.line

theorem consoleread_step (hT : s.Taken) (hC : s.Calls) (hp : s.pc p = .reading id target n) :
    (s.consoleread p id target n false).Taken ∧ (s.consoleread p id target n false).Calls := by
  have hcall : (s.pc p).call = some (id, target, n) := by
    rw [hp]
    rfl
  obtain ⟨_, _, hactive⟩ := hC.active p id target n hcall
  have hret := ret_eq hactive.rest hactive.sum hactive.target.2
  have hsum := hactive.sum
  have htarget := hactive.target
  unfold consoleread
  by_cases hn : 0 < n
  · rw [if_pos hn]
    by_cases hempty : s.cons.r = s.cons.w
    · rw [if_pos hempty, if_neg (by rw [hC.killed p]; decide)]
      refine ⟨⟨hT.agrees, hT.delivered, hT.eof⟩, hC.of_call_eq ?_⟩
      exact call_goto (by rw [hcall]; rfl)
    rw [if_neg hempty]
    dsimp only
    by_cases hD : s.cons.buf (Cons.slot s.cons.r) = ctrl 'D'
    · rw [if_pos hD]
      by_cases hlt : n.toUInt32 < target
      · rw [if_pos hlt]
        refine ⟨?_, hC.finish hcall⟩
        rw [ConsSystem.finish, hret]
        apply hT.leave
        rw [UInt32.lt_iff_toNat_lt] at hlt
        have := toNat_of_nonneg hactive.rest
        omega
      · rw [if_neg hlt]
        refine ⟨?_, hC.take.finish hcall⟩
        have hzero : ((s.buffer id).length : ℤ) = 0 := by
          rw [UInt32.lt_iff_toNat_lt] at hlt
          have := toNat_of_nonneg hactive.rest
          omega
        rw [ConsSystem.finish, hret, hzero]
        exact hT.eof_leave hempty hD
    · rw [if_neg hD, if_neg Bool.false_ne_true]
      refine ⟨?_, hC.take.deliverThen hn hcall _⟩
      have hdeliver := hT.deliver hempty hD id
      split
      · rw [ConsSystem.finish]
        apply hdeliver.leave
        obtain ⟨hrest, hsum⟩ := hactive.sub_one hn (c := newline)
        rw [ret_eq hrest hsum htarget.2]
        simp
        omega
      · exact ⟨hdeliver.agrees, hdeliver.delivered, hdeliver.eof⟩
  · rw [if_neg hn]
    refine ⟨?_, hC.finish hcall⟩
    rw [ConsSystem.finish, hret]
    apply hT.leave
    rw [Int32.lt_iff_toInt_lt] at hn
    have hrest := hactive.rest
    change ¬0 < n.toInt at hn
    omega

theorem Calls.begin (h : s.Calls) (hn : 0 < n) :
    (({ s with calls := s.calls + 1 } : ConsSystem).goto p
      (.reading s.calls n.toUInt32 n)).Calls := by
  have hcalls : ({ s with calls := s.calls + 1 } : ConsSystem).Calls := by
    refine ⟨h.killed, h.buffer, ?_, ?_, h.distinct, ?_⟩
    · intro id hid
      exact h.fresh id (Nat.le_of_succ_le hid)
    · intro q id target n hq
      obtain ⟨hid, hreturned, hactive⟩ := h.active q id target n hq
      exact ⟨Nat.lt_succ_of_lt hid, hreturned,
        ⟨hactive.rest, hactive.sum, hactive.target, hactive.line⟩⟩
    · intro x hx
      obtain ⟨hid, hrest⟩ := h.returned x hx
      exact ⟨Nat.lt_succ_of_lt hid, hrest⟩
  have hfree : ({ s with calls := s.calls + 1 } : ConsSystem).Free s.calls := by
    refine ⟨Nat.lt_succ_self _, ?_, ?_⟩
    · intro x hx
      exact (h.returned x hx).1.ne
    · intro q x hq
      exact (h.active q x.1 x.2.1 x.2.2 hq).1.ne
  have hpos : 0 < n.toInt := Int32.lt_iff_toInt_lt.mp hn
  have hlt := n.toInt_lt
  have hnat := toNat_of_nonneg hpos.le
  have hbuffer := h.fresh s.calls le_rfl
  refine hcalls.enter hfree rfl ⟨hpos.le, ?_, ⟨by omega, by omega⟩, ?_⟩
  · change n.toInt + ((s.buffer s.calls).length : ℤ) = _
    rw [hbuffer, hnat]
    simp
  · change newline ∉ s.buffer s.calls
    rw [hbuffer]
    exact List.not_mem_nil

theorem Taken.of_start (h : s.Start) : s.Taken := by
  have hr : s.cons.w - s.cons.r = 0 := by rw [h.r, UInt32.sub_self]
  have he : s.cons.e - s.cons.r = 0 := by rw [h.r, h.e, UInt32.sub_self]
  refine ⟨?_, ?_, ?_⟩
  · rw [h.tty]
    refine ⟨⟨?_, ?_, by decide, ?_⟩, List.not_mem_nil, le_rfl⟩
    · rw [hr]
      rfl
    · rw [he]
      rfl
    · apply List.length_eq_zero_iff.mp
      rw [Ring.length_window, Cons.count_eq, he]
      rfl
  · rw [h.delivered, h.tty]
    rfl
  · rw [h.returned, h.tty]
    rfl

theorem step_taken_calls {l : ConsLabel} (hl : l.Quiet) (hT : s.Taken)
    (hC : s.Calls) (hstep : step l s = some t) : t.Taken ∧ t.Calls := by
  cases l with
  | intr c =>
    simp only [step] at hstep
    split at hstep <;> cases hstep
    refine ⟨hT.intr c, hC.of_call_eq ?_⟩
    intro q
    split
    · exact ReadPc.call_wake _
    · rfl
  | read p n =>
    simp only [step] at hstep
    split at hstep
    · rename_i ret hp
      simp only [acquire] at hstep
      split at hstep <;> cases hstep
      refine ⟨⟨hT.agrees, hT.delivered, hT.eof⟩, ?_⟩
      have hbegin := hC.begin (p := p) hl
      exact hbegin.of_call_eq fun _ => rfl
    · cases hstep
  | next p fault =>
    cases hl
    simp only [step] at hstep
    split at hstep
    · rename_i id target n hp
      cases hstep
      exact consoleread_step hT hC hp
    · rename_i id target n hp
      simp only [acquire] at hstep
      split at hstep <;> cases hstep
      refine ⟨⟨hT.agrees, hT.delivered, hT.eof⟩, hC.of_call_eq ?_⟩
      exact call_goto (by rw [hp]; rfl)
    · cases hstep
  | kill p => cases hl

/-! ## Runs -/

theorem console_line_discipline {ls : List ConsLabel} (hstart : s.Start)
    (hquiet : ∀ l ∈ ls, l.Quiet) (hrun : Machine.run step ls s = some t) :
    ((t.cons.w - t.cons.r).toNat ≤ (t.cons.e - t.cons.r).toNat ∧
      (t.cons.e - t.cons.r).toNat ≤ inputBufSize) ∧
    (t.cons.unread = t.tty.unread ∧ t.cons.line = t.tty.line) ∧
    (∀ c, t.cons.unread <+: (t.cons.consoleintr c).1.unread) ∧
    (t.delivered.map Prod.snd = (t.tty.committed.take t.tty.taken).filter (· ≠ ctrl 'D')) ∧
    (∀ id, t.buffer id = (t.delivered.filter (·.1 = id)).map Prod.snd) ∧
    (∀ x ∈ t.returned, x.2 = (t.buffer x.1).length ∧ newline ∉ (t.buffer x.1).dropLast) ∧
    t.returned.countP (·.2 = 0) = (t.tty.committed.take t.tty.taken).count (ctrl 'D') := by
  obtain ⟨hT, hC⟩ : t.Taken ∧ t.Calls := Machine.run_invariant_of (P := ConsLabel.Quiet)
      (I := fun t => t.Taken ∧ t.Calls)
      (fun _ _ _ hl hI hstep => step_taken_calls hl hI.1 hI.2 hstep)
      hquiet ⟨.of_start hstart, .of_start hstart⟩ hrun
  have hholds := hT.agrees.holds
  refine ⟨⟨?_, ?_⟩, ⟨hholds.unread_eq, hholds.line_eq⟩, ?_, hT.delivered,
    hC.buffer, fun x hx => (hC.returned x hx).2, hT.eof⟩
  · rw [hholds.committed, hholds.edited]
    omega
  · rw [hholds.edited]
    exact hholds.fits
  · intro c
    obtain ⟨htaken, new, hnew⟩ := t.tty.input_committed c
    rw [hholds.unread_eq, (hT.agrees.input c).holds.unread_eq, Tty.unread,
      Tty.unread, htaken, ← hnew,
      List.drop_append_of_le_length hT.agrees.taken]
    exact List.prefix_append _ _

def wrapStart : ConsSystem where
  cons := ⟨fun _ => 0, -3, -3, -3, 0, []⟩
  lock := none
  pc _ := .user none
  killed _ := false
  calls := 0
  buffer _ := []
  tty := ⟨[], [], 0⟩
  delivered := []
  returned := []

/-- "ax", backspace, return and ^D are typed and read by two processes. -/
def wrapRun : List ConsLabel :=
  [.intr 97, .intr 120, .intr 8, .read 0 10, .next 0 false, .intr 13, .intr 4,
    .next 0 false, .next 0 false, .next 0 false, .read 1 10, .next 1 false]

theorem console_line_discipline_wrap : ∃ t, Machine.run step wrapRun wrapStart = some t ∧
    (t.delivered.map Prod.snd = (t.tty.committed.take t.tty.taken).filter (· ≠ ctrl 'D')) ∧
    t.delivered = [(0, 97), (0, 10)] ∧ t.returned = [(0, 2), (1, 0)] := by
  refine Machine.exists_run (P := fun t => t.delivered = [(0, 97), (0, 10)] ∧
      t.returned = [(0, 2), (1, 0)]) (by decide +kernel) ?_
  intro t hrun htest
  have hstart : wrapStart.Start :=
    ⟨rfl, rfl, fun _ => ⟨none, rfl⟩, fun _ => rfl, fun _ => rfl, rfl, rfl, rfl⟩
  have hquiet : ∀ l ∈ wrapRun, l.Quiet := by
    simp [wrapRun, ConsLabel.Quiet]
  exact ⟨(console_line_discipline hstart hquiet hrun).2.2.2.1, of_decide_eq_true htest⟩

end ConsSystem

end Xv6
