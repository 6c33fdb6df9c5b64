import Xv6.Lib.Machine
import Xv6.Lib.Ring

/-!
# The output ring of the UART

The processes of `proc[]` call `uartputc`, and `uartintr` runs at any time.
What the transmitter says when `uartstart` reads `LSR` is part of the label of
the step.
-/

namespace Xv6.Uart

open Function (update update_apply)

abbrev uartTxBufSize : ℕ := 32

variable {nproc : ℕ}

/-- Where a process is while it does not hold `uart_tx_lock`; `inside` is the
process that holds it. -/
inductive Pc
  | idle
  | acquire (c : ℤ)
  | inside
  -- in `sleep`: `p->lock` is held and `uart_tx_lock` released
  | falling (c : ℤ)
  | asleep (c : ℤ)
  | reacquire (c : ℤ)
deriving DecidableEq

/-- Where the holder of `uart_tx_lock` is.  In `uartstart` it is the process
`me`, or `uartintr` if there is none. -/
inductive Critical (nproc : ℕ)
  -- before `panicked` is read
  | check (p : Fin nproc) (c : ℤ)
  -- at the condition of the loop of `uartputc`
  | test (p : Fin nproc) (c : ℤ)
  -- at the head of the loop of `uartstart`
  | start (me : Option (Fin nproc))
  -- in `wakeup`, at `proc[j]`; the byte `b` is out of the ring
  | wakeup (me : Option (Fin nproc)) (j : ℕ) (b : UInt8)
  | thr (me : Option (Fin nproc)) (b : UInt8)
deriving DecidableEq

structure State (nproc : ℕ) where
  buf : Fin uartTxBufSize → UInt8
  w : ℕ
  r : ℕ
  panicked : Bool
  lock : Option (Critical nproc)
  pc : Fin nproc → Pc
  /-- The bytes `uartputc` has stored, and those written to `THR`. -/
  accepted : List UInt8
  written : List UInt8

inductive Label (nproc : ℕ)
  | uartputc (p : Fin nproc) (c : ℤ)
  | step (p : Fin nproc)
  | uartintr
  | locked (idle : Bool)
  | kill (p : Fin nproc)
  | panic

namespace State

def init : State nproc := ⟨fun _ => 0, 0, 0, false, none, fun _ => .idle, [], []⟩

def goto (s : State nproc) (p : Fin nproc) (k : Pc) : State nproc :=
  { s with pc := update s.pc p k }

def take (s : State nproc) (k : Critical nproc) : Option (State nproc) :=
  if s.lock = none then some { s with lock := some k } else none

def store (s : State nproc) (p : Fin nproc) (b : UInt8) : State nproc :=
  { s with
    buf := update s.buf (Fin.ofNat _ s.w) b
    w := (s.w + 1) % 2 ^ 64
    accepted := s.accepted ++ [b]
    lock := some (.start (some p)) }

def fetch (s : State nproc) (me : Option (Fin nproc)) : State nproc :=
  { s with
    r := (s.r + 1) % 2 ^ 64
    lock := some (.wakeup me 0 (s.buf (Fin.ofNat _ s.r))) }

/-- `wakeup` at one process; `none` while the lock of the process is held. -/
def wakeupOne (s : State nproc) (p : Fin nproc) : Option (State nproc) :=
  match s.pc p with
  | .falling _ => none
  | .asleep c => some (s.goto p (.reacquire c))
  | _ => some s

/-- A step of the holder of the lock. -/
def locked (s : State nproc) (idle : Bool) : Critical nproc → Option (State nproc)
  | .check p c =>
    if s.panicked then none else some { s with lock := some (.test p c) }
  | .test p c =>
    if s.w = (s.r + uartTxBufSize) % 2 ^ 64 then
      some { s.goto p (.falling c) with lock := none }
    else some (s.store p (UInt8.ofInt c))
  | .start me =>
    if s.w = s.r ∨ idle = false then
      some { me.elim s (s.goto · .idle) with lock := none }
    else some (s.fetch me)
  | .wakeup me j b =>
    if hj : j < nproc then
      (if me = some ⟨j, hj⟩ then some s else s.wakeupOne ⟨j, hj⟩).map
        ({ · with lock := some (.wakeup me (j + 1) b) })
    else some { s with lock := some (.thr me b) }
  | .thr me b =>
    some { s with written := s.written ++ [b], lock := some (.start me) }

end State

def step : Label nproc → State nproc → Option (State nproc)
  | .uartputc p c, s =>
    if s.pc p = .idle then some (s.goto p (.acquire c)) else none
  | .step p, s =>
    match s.pc p with
    | .acquire c => (s.goto p .inside).take (.check p c)
    | .falling c => some (s.goto p (.asleep c))
    | .reacquire c => (s.goto p .inside).take (.test p c)
    | _ => none
  | .uartintr, s => s.take (.start none)
  | .locked idle, s => s.lock.bind (s.locked idle)
  | .kill p, s =>
    match s.pc p with
    | .asleep c => some (s.goto p (.reacquire c))
    | _ => none
  | .panic, s => some { s with panicked := true }

def Pc.waits : Pc → Bool
  | falling _ | asleep _ => true
  | _ => false

/-- The process that holds the lock. -/
def Critical.process : Critical nproc → Option (Fin nproc)
  | check p _ | test p _ => some p
  | start me | wakeup me _ _ | thr me _ => me

def Critical.inFlight : Critical nproc → List UInt8
  | wakeup _ _ b | thr _ b => [b]
  | _ => []

namespace State

variable {s s' : State nproc}

def count (s : State nproc) : ℕ := Ring.count (2 ^ 64) s.r s.w

def inFlight (s : State nproc) : List UInt8 := s.lock.elim [] (·.inFlight)

/-- A `wakeup` is under way that has not yet come past `proc[p]`. -/
def Reaches (s : State nproc) (p : Fin nproc) : Prop :=
  ∃ me j b, s.lock = some (.wakeup me j b) ∧ j ≤ p.val

structure Inv (s : State nproc) : Prop where
  read : s.r < 2 ^ 64
  write : s.w < 2 ^ 64
  bounded : s.count ≤ uartTxBufSize
  inside : ∀ p, s.lock.bind (·.process) = some p → s.pc p = .inside
  bytes : s.written ++ s.inFlight ++ Ring.window (2 ^ 64) s.buf s.r s.w = s.accepted
  waiting : ∀ p, (s.pc p).waits = true → s.count = uartTxBufSize ∨ s.Reaches p

theorem Inv.init : Inv (init : State nproc) := by
  constructor <;> simp [State.init, count, inFlight, Ring.window, Ring.count, Pc.waits]

theorem full_iff (hr : s.r < 2 ^ 64) (hw : s.w < 2 ^ 64) :
    s.w = (s.r + uartTxBufSize) % 2 ^ 64 ↔ s.count = uartTxBufSize := by
  unfold count Ring.count uartTxBufSize
  omega

variable {p : Fin nproc} {k : Critical nproc} {me : Option (Fin nproc)}

section

variable (h : Inv s)
include h

theorem Inv.goto {k : Pc} (hout : s.lock = none ∨ s.pc p ≠ .inside)
    (hk : k.waits = true → (s.pc p).waits = true ∨ s.count = uartTxBufSize) : Inv (s.goto p k) := by
  have hpc (q : Fin nproc) : (s.goto p k).pc q = if q = p then k else s.pc q := update_apply ..
  refine ⟨h.read, h.write, h.bounded, ?_, h.bytes, ?_⟩
  · intro q hq
    have hne : q ≠ p := by
      rintro rfl
      rcases hout with hnone | hne
      · rw [State.goto, hnone] at hq
        cases hq
      · exact hne (h.inside q hq)
    rw [hpc, if_neg hne]
    exact h.inside q hq
  · intro q hq
    rw [hpc] at hq
    split_ifs at hq with hqp
    · subst hqp
      exact (hk hq).elim (h.waiting q) .inl
    · exact h.waiting q hq

theorem Inv.holder (hlock : s.lock = some k) (p : Fin nproc)
    (hp : k.process = some p) : s.pc p = .inside :=
  h.inside p (by rw [hlock]; exact hp)

/-- The lock changes hands, or its holder moves, with the ring as it is. -/
theorem Inv.relock {l : Option (Critical nproc)} (hin : ∀ p, l.bind (·.process) = some p →
    s.pc p = .inside) (hflight : l.elim [] (·.inFlight) = s.inFlight)
    (hreach : ∀ p, (s.pc p).waits = true → s.Reaches p → Reaches { s with lock := l } p) :
    Inv { s with lock := l } := by
  refine ⟨h.read, h.write, h.bounded, hin, ?_, ?_⟩
  · rw [← h.bytes, ← hflight]
    rfl
  · intro p hp
    exact (h.waiting p hp).imp_right (hreach p hp)

/-- The holder moves, and was not in `wakeup`. -/
theorem Inv.move {l : Option (Critical nproc)} (hlock : s.lock = some k) (hk : k.inFlight = [])
    (hl : l = none ∨ ∃ k', l = some k' ∧ k'.process = k.process ∧
      k'.inFlight = []) : Inv { s with lock := l } := by
  refine h.relock ?_ ?_ ?_
  · rcases hl with rfl | ⟨k', rfl, heq, -⟩
    · exact fun p hp => nomatch hp
    · exact fun p hp => h.holder hlock p (heq ▸ hp)
  · rw [inFlight, hlock]
    rcases hl with rfl | ⟨k', rfl, -, hk'⟩
    · exact hk.symm
    · exact hk'.trans hk.symm
  · rintro p - ⟨me, j, b, hwake, -⟩
    rw [hlock] at hwake
    cases hwake
    cases hk

theorem Inv.full (hlock : ∀ me j b, s.lock ≠ some (.wakeup me j b))
    (hp : (s.pc p).waits = true) : s.count = uartTxBufSize :=
  (h.waiting p hp).resolve_right fun ⟨me, j, b, hl, _⟩ => hlock me j b hl

theorem Inv.take (hin : ∀ p, k.process = some p → s.pc p = .inside)
    (hk : k.inFlight = []) (hs : s.take k = some s') : Inv s' := by
  unfold State.take at hs
  split_ifs at hs with hlock
  cases hs
  refine h.relock hin ?_ ?_
  · rw [inFlight, hlock]
    exact hk
  · rintro p - ⟨me, j, b, hl, -⟩
    rw [hlock] at hl
    cases hl

theorem Inv.store {c : ℤ} (hlock : s.lock = some (.test p c))
    (hroom : s.count ≠ uartTxBufSize) (b : UInt8) : Inv (s.store p b) := by
  have hlt : Ring.count (2 ^ 64) s.r s.w < uartTxBufSize := lt_of_le_of_ne h.bounded hroom
  refine ⟨h.read, Nat.mod_lt _ (by decide), ?_, h.holder hlock, ?_, ?_⟩
  · change Ring.count (2 ^ 64) s.r ((s.w + 1) % 2 ^ 64) ≤ _
    rw [Ring.count_succ_write (lt_of_le_of_lt hlt (by decide))]
    exact hlt
  · have hbytes := h.bytes
    rw [inFlight, hlock] at hbytes
    change s.written ++ [] ++ Ring.window (2 ^ 64) (update _ _ b) s.r
      ((s.w + 1) % 2 ^ 64) = s.accepted ++ [b]
    rw [Ring.window_push _ _ (by decide) (by decide) h.read hlt, ← List.append_assoc, ← hbytes]
    rfl
  · intro q hq
    exact absurd (h.full (by simp [hlock]) hq) hroom

theorem Inv.fetch (hlock : s.lock = some (.start me)) (hne : s.w ≠ s.r) : Inv (s.fetch me) := by
  have hpos : 0 < Ring.count (2 ^ 64) s.r s.w := Nat.pos_of_ne_zero fun hzero =>
      hne ((Ring.count_eq_zero_iff h.read h.write).mp hzero).symm
  have hsucc := Ring.count_succ_read h.read h.write hpos
  refine ⟨Nat.mod_lt _ (by decide), h.write, ?_, h.holder hlock, ?_,
    fun p _ => .inr ⟨me, 0, _, rfl, Nat.zero_le _⟩⟩
  · have hle : Ring.count (2 ^ 64) s.r s.w ≤ uartTxBufSize := h.bounded
    change Ring.count (2 ^ 64) ((s.r + 1) % 2 ^ 64) s.w ≤ _
    omega
  · have hbytes := h.bytes
    rw [inFlight, hlock, Ring.window_pop _ h.read h.write hpos] at hbytes
    change s.written ++ [] ++ _ = _ at hbytes
    rw [List.append_nil, ← List.singleton_append, ← List.append_assoc] at hbytes
    exact hbytes

theorem Inv.wakeupOne (hs : s.wakeupOne p = some s') :
    Inv s' ∧ s'.lock = s.lock ∧ (s'.pc p).waits = false := by
  unfold State.wakeupOne at hs
  split at hs
  · cases hs
  · cases hs
    rename_i hpc
    exact ⟨h.goto (.inr (by simp [hpc])) (by simp [Pc.waits]), rfl, by simp [State.goto, Pc.waits]⟩
  · rename_i hfalling hasleep
    cases hs
    refine ⟨h, rfl, ?_⟩
    cases hpc : s.pc p with
    | falling c => exact absurd hpc (hfalling c)
    | asleep c => exact absurd hpc (hasleep c)
    | _ => rfl

/-- The scan of `wakeup` goes past a process that does not wait. -/
theorem Inv.scan {j : ℕ} {b : UInt8} (hlock : s.lock = some (.wakeup me j b))
    (hj : ∀ p : Fin nproc, p.val = j → (s.pc p).waits = false) :
    Inv { s with lock := some (.wakeup me (j + 1) b) } := by
  refine h.relock (h.holder hlock) (by rw [inFlight, hlock]; rfl) ?_
  rintro p hp ⟨me', j', b', hl, hle⟩
  rw [hlock] at hl
  cases hl
  refine ⟨me, j + 1, b, rfl, lt_of_le_of_ne hle ?_⟩
  intro hpj
  rw [hj p hpj.symm] at hp
  cases hp

theorem Inv.thr {b : UInt8} (hlock : s.lock = some (.thr me b)) :
    Inv { s with written := s.written ++ [b], lock := some (.start me) } := by
  have hbytes := h.bytes
  rw [inFlight, hlock] at hbytes
  refine ⟨h.read, h.write, h.bounded, h.holder hlock, ?_,
    fun p hp => .inl (h.full (by simp [hlock]) hp)⟩
  change s.written ++ [b] ++ [] ++ _ = _
  rw [List.append_nil]
  exact hbytes

theorem Inv.locked {idle : Bool} (hlock : s.lock = some k)
    (hs : s.locked idle k = some s') : Inv s' := by
  cases k with
  | check p c =>
    simp only [State.locked] at hs
    split_ifs at hs
    cases hs
    exact h.move hlock rfl (.inr ⟨_, rfl, rfl, rfl⟩)
  | test p c =>
    simp only [State.locked, full_iff h.read h.write] at hs
    split_ifs at hs with hfull
    · cases hs
      exact (h.move hlock rfl (.inl rfl)).goto (.inl rfl) fun _ => .inr hfull
    · cases hs
      exact h.store hlock hfull _
  | start me =>
    simp only [State.locked] at hs
    split_ifs at hs with hstop
    · cases hs
      have hfree := h.move hlock rfl (.inl rfl)
      cases me with
      | none => exact hfree
      | some p => exact hfree.goto (.inl rfl) (by simp [Pc.waits])
    · cases hs
      exact h.fetch hlock fun hw => hstop (.inl hw)
  | wakeup me j b =>
    simp only [State.locked] at hs
    split_ifs at hs with hj hme
    · cases hs
      refine h.scan hlock ?_
      rintro p rfl
      rw [h.holder hlock p hme]
      rfl
    · obtain ⟨u, hu, rfl⟩ := Option.map_eq_some_iff.mp hs
      obtain ⟨hinv, hsame, hwoken⟩ := h.wakeupOne hu
      refine hinv.scan (hsame.trans hlock) ?_
      rintro p rfl
      exact hwoken
    · cases hs
      refine h.relock (h.holder hlock) (by rw [inFlight, hlock]; rfl) ?_
      rintro p - ⟨me', j', b', hl, hle⟩
      rw [hlock] at hl
      cases hl
      exact absurd (hle.trans_lt p.isLt) hj
  | thr me b =>
    cases hs
    exact h.thr hlock

end

end State

open State

theorem step_inv (l : Label nproc) (s s' : State nproc) (h : Inv s)
    (hstep : step l s = some s') : Inv s' := by
  have hinside {p : Fin nproc} {k : Critical nproc} (hpc : s.pc p ≠ .inside)
      (hp : k.process = some p) (hk : k.inFlight = [])
      (hs : (s.goto p .inside).take k = some s') : Inv s' := by
    refine (h.goto (.inr hpc) (by simp [Pc.waits])).take ?_ hk hs
    intro q hq
    cases hp.symm.trans hq
    exact Function.update_self ..
  cases l with
  | uartputc p c =>
    simp only [step] at hstep
    split_ifs at hstep with hpc
    cases hstep
    exact h.goto (.inr (by simp [hpc])) (by simp [Pc.waits])
  | step p =>
    simp only [step] at hstep
    split at hstep
    · rename_i c hpc
      exact hinside (by simp [hpc]) rfl rfl hstep
    · rename_i c hpc
      cases hstep
      exact h.goto (.inr (by simp [hpc])) fun _ => .inl (by rw [hpc]; rfl)
    · rename_i c hpc
      exact hinside (by simp [hpc]) rfl rfl hstep
    · cases hstep
  | uartintr => exact h.take (by simp [Critical.process]) rfl hstep
  | locked idle =>
    obtain ⟨k, hlock, hs⟩ := Option.bind_eq_some_iff.mp hstep
    exact h.locked hlock hs
  | kill p =>
    simp only [step] at hstep
    split at hstep
    · rename_i c hpc
      cases hstep
      exact h.goto (.inr (by simp [hpc])) (by simp [Pc.waits])
    · cases hstep
  | panic =>
    cases hstep
    exact ⟨h.read, h.write, h.bounded, h.inside, h.bytes, h.waiting⟩

theorem output_ring {ls : List (Label nproc)} {s : State nproc}
    (hrun : Machine.run step ls .init = some s) :
    Ring.count (2 ^ 64) s.r s.w ≤ uartTxBufSize ∧
      s.written ++ s.inFlight ++ Ring.window (2 ^ 64) s.buf s.r s.w = s.accepted ∧
      (s.lock = none → ∀ p c, s.pc p = .asleep c →
        Ring.count (2 ^ 64) s.r s.w = uartTxBufSize) := by
  have h : Inv s := Machine.run_invariant step_inv Inv.init hrun
  refine ⟨h.bounded, h.bytes, fun hlock p c hp => ?_⟩
  exact h.full (by simp [hlock]) (p := p) (by rw [hp]; rfl)

/-- While the transmitter is busy the 33rd byte has to wait. -/
theorem output_ring_full : ∃ s : State 1, Machine.run step
        ((List.replicate 32 [.uartputc 0 97, .step 0, .locked false,
          .locked false, .locked false]).flatten ++ [.uartputc 0 97, .step 0,
          .locked false, .locked false, .step 0]) .init = some s ∧
      s.lock = none ∧ s.pc 0 = .asleep 97 ∧
      Ring.count (2 ^ 64) s.r s.w = uartTxBufSize := by
  refine Machine.exists_run (P := fun s => decide (s.lock = none ∧ s.pc 0 = .asleep 97))
    (by decide +kernel) ?_
  intro s hrun hs
  obtain ⟨hlock, hpc⟩ := of_decide_eq_true hs
  exact ⟨hlock, hpc, (output_ring hrun).2.2 hlock 0 97 hpc⟩

end Xv6.Uart
