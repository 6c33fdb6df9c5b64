import Xv6.CacheAccounting
import Xv6.LogAdmission

/-!
# What the log's own code holds

For each statement of `commit` and `recover_from_log` the tables below say
which buffers the process has locked and for which blocks, which block it is
about to read, which buffer it is about to release, and how far the loop of
`install_trans` has come.  A process in the middle of a call of `bio.c` is
counted as being where the call will return to as soon as it has the lock it
asked for, or has given up the lock it releases.
-/

namespace Xv6

/-- Where a process counts as being, given the call it is in. -/
def LogPc.seen (pc : LogPc) : Call → LogPc
  | .none => pc
  | .want _ _ => pc
  | .check i _ => pc.afterBread i
  | .drop _ => pc.afterBrelse

/-- The log block of entry `tail`. -/
def LogGeometry.logBlock (g : LogGeometry) (tail : ℕ) : ℕ := g.logstart + tail + 1

/-- Locked buffers, each with its block; the one to be released first comes
first. -/
def LogPc.held (g : LogGeometry) (lh : List ℕ) : LogPc → List (ℕ × ℕ)
  | .writeLogFrom tail dst => [(dst, g.logBlock tail)]
  | .writeLogCopy tail dst src =>
    [(src, lh.getD tail 0), (dst, g.logBlock tail)]
  | .writeLogWrite tail dst src =>
    [(src, lh.getD tail 0), (dst, g.logBlock tail)]
  | .writeLogRelFrom tail dst src =>
    [(src, lh.getD tail 0), (dst, g.logBlock tail)]
  | .writeLogRelTo tail dst => [(dst, g.logBlock tail)]
  | .headFill _ buf => [(buf, g.logstart)]
  | .headWrite _ buf => [(buf, g.logstart)]
  | .headRel _ buf => [(buf, g.logstart)]
  | .installDst _ tail lbuf => [(lbuf, g.logBlock tail)]
  | .installCopy _ tail lbuf dbuf =>
    [(lbuf, g.logBlock tail), (dbuf, lh.getD tail 0)]
  | .installWrite _ tail lbuf dbuf =>
    [(lbuf, g.logBlock tail), (dbuf, lh.getD tail 0)]
  | .installUnpin tail lbuf dbuf =>
    [(lbuf, g.logBlock tail), (dbuf, lh.getD tail 0)]
  | .installRelLog _ tail lbuf dbuf =>
    [(lbuf, g.logBlock tail), (dbuf, lh.getD tail 0)]
  | .installRelDst _ tail dbuf => [(dbuf, lh.getD tail 0)]
  | .recoverHead buf => [(buf, g.logstart)]
  | .recoverRel buf => [(buf, g.logstart)]
  | _ => []

def LogPc.wanted (g : LogGeometry) (lh : List ℕ) : LogPc → Option ℕ
  | .writeLogTo tail => some (g.logBlock tail)
  | .writeLogFrom tail _ => some (lh.getD tail 0)
  | .headRead _ => some g.logstart
  | .installLog _ tail => some (g.logBlock tail)
  | .installDst _ tail _ => some (lh.getD tail 0)
  | .recoverRead => some g.logstart
  | _ => none

def LogPc.releasing : LogPc → Option ℕ
  | .writeLogRelFrom _ _ src => some src
  | .writeLogRelTo _ dst => some dst
  | .headRel _ buf => some buf
  | .installRelLog _ _ lbuf _ => some lbuf
  | .installRelDst _ _ dbuf => some dbuf
  | .recoverRel buf => some buf
  | _ => none

/-- The bound on the loop variable, for `n` blocks in the log. -/
def LogPc.inRange (n : ℕ) : LogPc → Prop
  | .writeLogTest tail => tail ≤ n
  | .writeLogTo tail => tail < n
  | .writeLogFrom tail _ => tail < n
  | .writeLogCopy tail _ _ => tail < n
  | .writeLogWrite tail _ _ => tail < n
  | .writeLogRelFrom tail _ _ => tail < n
  | .writeLogRelTo tail _ => tail < n
  | .installTest _ tail => tail ≤ n
  | .installLog _ tail => tail < n
  | .installDst _ tail _ => tail < n
  | .installCopy _ tail _ _ => tail < n
  | .installWrite _ tail _ _ => tail < n
  | .installUnpin tail _ _ => tail < n
  | .installRelLog _ tail _ _ => tail < n
  | .installRelDst _ tail _ => tail < n
  | _ => True

/-- How many home blocks `install_trans` has written. -/
def LogPc.written (n : ℕ) : LogPc → ℕ
  | .installTest _ tail => tail
  | .installLog _ tail => tail
  | .installDst _ tail _ => tail
  | .installCopy _ tail _ _ => tail
  | .installWrite _ tail _ _ => tail
  | .installUnpin tail _ _ => tail + 1
  | .installRelLog _ tail _ _ => tail + 1
  | .installRelDst _ tail _ => tail + 1
  | .clear _ => n
  | _ => 0

def LogPc.unpinned (n : ℕ) : LogPc → ℕ
  | .installUnpin tail _ _ => tail
  | pc => pc.written n

/-- Whether `log.lh.n` has been set to 0. -/
def LogPc.cleared : LogPc → Bool
  | .headRead .commit => false
  | .headFill .commit _ => false
  | .headWrite .commit _ => false
  | .headRel .commit _ => false
  | .headRead _ => true
  | .headFill _ _ => true
  | .headWrite _ _ => true
  | .headRel _ _ => true
  | .done _ => true
  | _ => false

/-! ## The tables and the calls -/

section

variable {g : LogGeometry} {lh : List ℕ} {pc : LogPc} {n : ℕ}

theorem LogPc.held_afterBread {b : ℕ} (hwanted : pc.wanted g lh = some b) (i : ℕ) :
    ((pc.afterBread i).held g lh).Perm ((i, b) :: pc.held g lh) := by
  cases pc with
  | installDst r tail lbuf =>
    obtain rfl := Option.some.inj hwanted
    exact List.Perm.swap _ _ _
  | writeLogTo tail | writeLogFrom tail dst | headRead use | installLog r tail |
      recoverRead =>
    obtain rfl := Option.some.inj hwanted
    exact List.Perm.refl _
  | _ => contradiction

theorem LogPc.held_afterBrelse {i : ℕ} (hreleasing : pc.releasing = some i) :
    ∃ b, pc.held g lh = (i, b) :: pc.afterBrelse.held g lh := by
  cases pc with
  | headRel use buf =>
    obtain rfl := Option.some.inj hreleasing
    cases use with
    | _ => exact ⟨_, rfl⟩
  | writeLogRelFrom tail dst src | writeLogRelTo tail dst
  | installRelLog r tail lbuf dbuf | installRelDst r tail dbuf
  | recoverRel buf =>
    obtain rfl := Option.some.inj hreleasing
    exact ⟨_, rfl⟩
  | _ => contradiction

theorem LogPc.inRange_afterBread (hrange : pc.inRange n) (i : ℕ) : (pc.afterBread i).inRange n := by
  cases pc <;> exact hrange

theorem LogPc.inRange_afterBrelse (hrange : pc.inRange n) : pc.afterBrelse.inRange n := by
  cases pc with
  | headRel use buf =>
    cases use with
    | commit => exact Nat.zero_le n
    | erase | recover => trivial
  | recoverRel buf => exact Nat.zero_le n
  | _ => exact hrange

@[simp] theorem LogPc.written_afterBread (i : ℕ) : (pc.afterBread i).written n = pc.written n := by
  cases pc <;> rfl

@[simp] theorem LogPc.written_afterBrelse : pc.afterBrelse.written n = pc.written n := by
  cases pc with
  | headRel use buf => cases use <;> rfl
  | _ => rfl

@[simp] theorem LogPc.unpinned_afterBread (i : ℕ) :
    (pc.afterBread i).unpinned n = pc.unpinned n := by
  cases pc <;> rfl

@[simp] theorem LogPc.unpinned_afterBrelse : pc.afterBrelse.unpinned n = pc.unpinned n := by
  cases pc with
  | headRel use buf => cases use <;> rfl
  | _ => rfl

@[simp] theorem LogPc.cleared_afterBread (i : ℕ) : (pc.afterBread i).cleared = pc.cleared := by
  cases pc with
  | headRead use => cases use <;> rfl
  | _ => rfl

@[simp] theorem LogPc.cleared_afterBrelse : pc.afterBrelse.cleared = pc.cleared := by
  cases pc with
  | headRel use buf => cases use <;> rfl
  | _ => rfl

end

/-! ## Statements that are calls -/

theorem LogState.exec_wanted {g : LogGeometry} {s : LogState} {p b : ℕ}
    {pc : LogPc} (hwanted : pc.wanted g s.log.lh = some b) : s.exec g p pc = s.bget p b := by
  cases pc <;> first
    | contradiction
    | (obtain rfl := Option.some.inj hwanted; rfl)

theorem LogState.exec_releasing {g : LogGeometry} {s : LogState} {p i : ℕ}
    {pc : LogPc} (hreleasing : pc.releasing = some i) : s.exec g p pc = s.releasesleep p i := by
  cases pc <;> first
    | contradiction
    | (obtain rfl := Option.some.inj hreleasing; rfl)

/-! ## Buffers that a process has locked -/

/-- Between `c` and `c'`, process `p` neither takes nor loses a lock, and its
buffers change in nothing but the number of references. -/
structure Bcache.Keeps (p : ℕ) (c c' : Bcache) : Prop where
  same : ∀ i, (c.buf i).lock = some p → c'.buf i = { c.buf i with refcnt := (c'.buf i).refcnt }
  back : ∀ i, (c'.buf i).lock = some p → (c.buf i).lock = some p

section

variable {p i : ℕ} {c c' : Bcache}

theorem Bcache.Keeps.refl (p : ℕ) (c : Bcache) : c.Keeps p c where
  same := fun _ _ => rfl
  back := fun _ hlock => hlock

theorem Bcache.Keeps.lock (h : c.Keeps p c')
    (hlock : (c.buf i).lock = some p) : (c'.buf i).lock = some p := by
  rw [h.same i hlock]
  exact hlock

theorem Bcache.Keeps.blockno (h : c.Keeps p c') (hlock : (c.buf i).lock = some p) :
    (c'.buf i).blockno = (c.buf i).blockno := by
  rw [h.same i hlock]

theorem Bcache.Keeps.of_buf (hsame : ∀ j, j ≠ i → c'.buf j = c.buf j)
    (hother : (c.buf i).lock ≠ some p) (hother' : (c'.buf i).lock ≠ some p) : c.Keeps p c' := by
  constructor
  · intro j hlock
    by_cases hj : j = i
    · subst hj
      contradiction
    · rw [hsame j hj]
  · intro j hlock
    by_cases hj : j = i
    · subst hj
      contradiction
    · rwa [hsame j hj] at hlock

theorem Bcache.Keeps.set {b : Buf} (hother : (c.buf i).lock ≠ some p)
    (hother' : b.lock ≠ some p) : c.Keeps p (c.set i b) := by
  refine .of_buf (fun j hj => set_buf_of_ne c b hj) hother ?_
  rwa [set_buf_self]

theorem Bcache.Keeps.of_refcnt
    (hsame : ∀ j, c'.buf j = { c.buf j with refcnt := (c'.buf j).refcnt }) : c.Keeps p c' where
  same := fun j _ => hsame j
  back := by
    intro j hlock
    rwa [hsame j] at hlock

theorem Bcache.set_refcnt_same (c : Bcache) (i n j : ℕ) :
    (c.set i { c.buf i with refcnt := n }).buf j = { c.buf j with
        refcnt := ((c.set i { c.buf i with refcnt := n }).buf j).refcnt } := by
  by_cases hj : j = i
  · subst hj
    simp only [set_buf_self]
  · simp only [set_buf_of_ne c _ hj]

theorem Bcache.Keeps.brelse (p i : ℕ) (c : Bcache) : c.Keeps p (brelse i c) := by
  apply Keeps.of_refcnt
  intro j
  rw [brelse_buf_eq]
  exact c.set_refcnt_same i _ j

theorem Bcache.Keeps.bget {call : ℕ → Call} {refs : List (ℕ × ℕ)} {pins : List ℕ} {b : ℕ}
    (h : CacheInv c call refs pins) (p : ℕ)
    (hget : Xv6.bget rootDev b c = some (i, c')) : c.Keeps p c' := by
  rcases bget_eq_some hget with ⟨_, _, _, rfl⟩ | ⟨_, hzero, _, rfl⟩
  · exact Keeps.of_refcnt (c.set_refcnt_same i _)
  · have hunlocked : (c.buf i).lock ≠ some p := by
      intro hlock
      have := h.refcnt_pos (h.mem_refs_of_lock hlock)
      omega
    exact Keeps.set hunlocked hunlocked

end

end Xv6
