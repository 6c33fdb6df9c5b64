import Xv6.CopyUser
import Xv6.ProcSystem

/-!
# What `getptable` copies to the user

A `struct proc_info` has 40 bytes: `pid`, `ppid` and `state` at 0, 4 and 8,
`name` from 12 to 27, four bytes of padding and `sz` at 32.  The local `pinfo`
is given by its bytes, which are whatever the stack has at first.
-/

namespace Xv6

open Function (update update_apply)

/-- What `getptable` reads of a `struct proc`; `name` has 16 bytes. -/
structure ProcEntry where
  state : ProcState
  pid : UInt32
  ppid : UInt32
  name : ℕ → UInt8
  sz : UInt64

def ProcState.code : ProcState → ℕ
  | .unused => 0
  | .used => 1
  | .sleeping => 2
  | .runnable => 3
  | .running => 4
  | .zombie => 5

/-- The bytes of an integer are stored at `off`. -/
def putLE (off k v : ℕ) (b : ℕ → UInt8) : ℕ → UInt8 :=
  fun i => if off ≤ i ∧ i < off + k then UInt8.ofNat (v / 256 ^ (i - off))
    else b i

/-- The loop of `safestrcpy(s, t, n)`, at byte `i` of both; `s` is at `off` in
`b`. -/
def safestrcpyLoop (off : ℕ) (t : ℕ → UInt8) : ℕ → ℕ → (ℕ → UInt8) → ℕ → UInt8
  | 0, i, b => update b (off + i) 0
  | n + 1, i, b =>
    if n > 0 then
      if t i ≠ 0 then safestrcpyLoop off t n (i + 1) (update b (off + i) (t i))
      else update (update b (off + i) 0) (off + i + 1) 0
    else update b (off + i) 0

/-- The assignments to `pinfo`. -/
def fillInfo (p : ProcEntry) (pinfo : ℕ → UInt8) : ℕ → UInt8 :=
  putLE 32 8 p.sz.toNat (safestrcpyLoop 12 p.name 16 0
    (putLE 8 4 p.state.code (putLE 4 4 p.ppid.toNat (putLE 0 4 p.pid.toNat pinfo))))

/-- The loop of `getptable`, over the rest of the process table: whether it
returns 1, and the memory. -/
def getptableLoop (pt : ℕ) (nproc : ℤ) (buffer : ℕ) : List ProcEntry → ℕ → (ℕ → UInt8) → PhysMem →
    Except VmPanic (Bool × PhysMem)
  | [], _, _, m => .ok (true, m)
  | p :: ps, count, pinfo, m =>
    if count < nproc then
      if p.state ≠ .unused then do
        let (ok, m) ← copyout pt ((buffer + count * 40) % 2 ^ 64)
          (fun i => if i < 40 then fillInfo p pinfo i else 0) 40 m
        if ok then
          getptableLoop pt nproc buffer ps (count + 1) (fillInfo p pinfo) m
        else .ok (false, m)
      else getptableLoop pt nproc buffer ps count pinfo m
    else .ok (true, m)

def getptable (procs : List ProcEntry) (pt : ℕ) (nproc : ℤ) (buffer : ℕ)
    (pinfo : ℕ → UInt8) (m : PhysMem) : Except VmPanic (Bool × PhysMem) :=
  if nproc < 1 then .ok (false, m)
  else getptableLoop pt nproc buffer procs 0 pinfo m

/-- The record of a process whose name has at least 14 characters, with this
padding. -/
def ProcEntry.record (p : ProcEntry) (padding : ℕ → UInt8) : ℕ → UInt8 :=
  putLE 32 8 p.sz.toNat (putLE 8 4 p.state.code (putLE 4 4 p.ppid.toNat
    (putLE 0 4 p.pid.toNat fun i =>
      if i < 27 then p.name (i - 12) else if i = 27 then 0 else padding i)))

theorem safestrcpyLoop_eq {t : ℕ → UInt8} (ht : ∀ i < 14, t i ≠ 0) {n i : ℕ}
    (hn : i + (n + 1) = 16) (b : ℕ → UInt8) (j : ℕ) :
    safestrcpyLoop 12 t (n + 1) i b j = if 12 + i ≤ j ∧ j < 27 then t (j - 12)
      else if j = 27 then 0 else b j := by
  induction n generalizing i b with
  | zero =>
    obtain rfl : i = 15 := by omega
    rw [safestrcpyLoop, if_neg (lt_irrefl 0), if_neg (by omega), update_apply]
  | succ n ih =>
    rw [safestrcpyLoop, if_pos (Nat.succ_pos n)]
    by_cases hi : t i = 0
    · obtain rfl : i = 14 := by
        by_contra hne
        exact ht i (by omega) hi
      rw [if_neg (not_not.mpr hi)]
      simp only [update_apply]
      split_ifs <;> first | rfl | omega | skip
      obtain rfl : j = 26 := by omega
      exact hi.symm
    · rw [if_pos hi, ih (by omega)]
      simp only [update_apply]
      split_ifs <;> first | rfl | omega | skip
      obtain rfl : j = 12 + i := by omega
      rw [Nat.add_sub_cancel_left]

/-- Two contents of `pinfo` that have the same padding. -/
def SamePadding (b b' : ℕ → UInt8) : Prop := ∀ i, 28 ≤ i → i < 32 → b i = b' i

section

variable {p : ProcEntry} {b b' : ℕ → UInt8}

theorem fillInfo_eq (hname : ∀ i < 14, p.name i ≠ 0) (h : SamePadding b b') :
    (∀ i < 40, fillInfo p b i = p.record b' i) ∧ SamePadding (fillInfo p b) b' := by
  have hcopy := safestrcpyLoop_eq hname (n := 15) (i := 0) rfl
  constructor
  · intro i hi
    simp only [fillInfo, ProcEntry.record, putLE, hcopy]
    split_ifs <;> first | rfl | omega | exact h i (by omega) (by omega)
  · intro i hlo hhi
    simp only [fillInfo, putLE, hcopy]
    split_ifs <;> first | omega | exact h i hlo hhi

theorem getptableLoop_eq {procs : List ProcEntry} {pt : ℕ}
    {nproc : ℤ} {buffer : ℕ} (hname : ∀ p ∈ procs, p.state ≠ .unused → ∀ i < 14, p.name i ≠ 0)
    (h : SamePadding b b') (count : ℕ) (m : PhysMem) : getptableLoop
    pt nproc buffer procs count b m = getptableLoop pt nproc buffer procs count b' m := by
  induction procs generalizing b b' count m with
  | nil => rfl
  | cons p procs ih =>
    rw [List.forall_mem_cons] at hname
    by_cases hused : p.state ≠ .unused
    · obtain ⟨hrec, hpad⟩ := fillInfo_eq (hname.1 hused) h
      obtain ⟨hrec', hpad'⟩ := fillInfo_eq (b := b') (hname.1 hused) fun i _ _ => rfl
      have hsrc : (fun i => if i < 40 then fillInfo p b i else 0) =
          fun i => if i < 40 then fillInfo p b' i else 0 := by
        funext i
        split_ifs with hi
        · rw [hrec i hi, hrec' i hi]
        · rfl
      have hsame : SamePadding (fillInfo p b) (fillInfo p b') :=
        fun i hlo hhi => (hpad i hlo hhi).trans (hpad' i hlo hhi).symm
      simp only [getptableLoop, if_pos hused, hsrc, ih hname.2 hsame]
    · simp only [getptableLoop, if_neg hused, ih hname.2 h]

end

/-- What the user gets of a process named "a" from a stack full of `x`: whether
the call succeeds, a byte of the name and one of the padding. -/
def listOne (x : UInt8) : Option (Bool × Option UInt8 × Option UInt8) :=
  (getptable [⟨.running, 1, 0, fun i => if i = 0 then 97 else 0, 0⟩] 0x1000 1 0 (fun _ => x)
    (twoPages 0 (userPage 0x5000) 1 (userPage 0x4000))).toOption.map
  fun r => (r.1, r.2.userByte 0x1000 20, r.2.userByte 0x1000 28)

end Xv6
