import Xv6.Block
import Xv6.FileTable

/-!
# The offset of a file

Processes that share a `struct file` share its offset.  `fileread` and
`filewrite` pass it to `readi` and `writei` and advance it by what these return,
under the lock of the inode; a large write gives up the lock between its parts.
Other files may be open for the same inode.
-/

namespace Xv6

open Function (update update_of_ne update_self)

/-! ## `readi` and `writei` -/

def maxfile : ℕ := 12 + bsize / 4

/-- What happens to one block: `bmap` may find no block for it, and copying
from or to the user may fail. -/
inductive Chunk
  | ok
  | noBlock
  | fault
  deriving DecidableEq

/-- The loop of `readi`, with a bound on the rounds that are left, the number of
the block and what has been copied; `none` stands for -1. -/
def readiLoop (chunk : ℕ → Chunk) (n : ℕ) : ℕ → ℕ → ℕ → ℕ → Option ℕ
  | 0, _, _, tot => some tot
  | rounds + 1, k, off, tot =>
    if tot < n then
      match chunk k with
      | .noBlock => some tot
      | .fault => none
      | .ok =>
        let m := min (n - tot) (bsize - off % bsize)
        readiLoop chunk n rounds (k + 1) (off + m) (tot + m)
    else some tot

/-- A number of bytes as an `int`. -/
def intOf (tot : ℕ) : ℤ := (UInt32.ofNat tot).toInt32.toInt

/-- What `readi` returns for an inode of this size. -/
def readi (size off n : UInt32) (chunk : ℕ → Chunk) : ℤ := if off > size ∨ off + n < off then 0
  else
    let n := if off + n > size then size - off else n
    match readiLoop chunk n.toNat (n.toNat / bsize + 2) 0 off.toNat 0 with
    | none => -1
    | some tot => intOf tot

/-- The loop of `writei`, which stops when copying fails. -/
def writeiLoop (chunk : ℕ → Chunk) (n : ℕ) : ℕ → ℕ → ℕ → ℕ → ℕ
  | 0, _, _, tot => tot
  | rounds + 1, k, off, tot =>
    if tot < n then
      match chunk k with
      | .noBlock | .fault => tot
      | .ok =>
        let m := min (n - tot) (bsize - off % bsize)
        writeiLoop chunk n rounds (k + 1) (off + m) (tot + m)
    else tot

/-- What `writei` returns, and the size of the inode afterwards. -/
def writei (size off n : UInt32) (chunk : ℕ → Chunk) : ℤ × UInt32 :=
  if off > size ∨ off + n < off then (-1, size)
  else if (off + n).toNat > maxfile * bsize then (-1, size)
  else
    let tot := writeiLoop chunk n.toNat (n.toNat / bsize + 2) 0 off.toNat 0
    let off := off + UInt32.ofNat tot
    (intOf tot, if off > size then off else size)

variable {chunk : ℕ → Chunk} {tot a b : ℕ} {ts : List Transfer}

theorem readiLoop_le {n rounds k off r : ℕ}
    (h : readiLoop chunk n rounds k off tot = some r) (htot : tot ≤ n) : r ≤ n := by
  induction rounds generalizing k off tot with
  | zero =>
    cases h
    exact htot
  | succ rounds ih =>
    rw [readiLoop] at h
    split at h
    · cases hk : chunk k with
      | noBlock =>
        rw [hk] at h
        cases h
        exact htot
      | fault =>
        rw [hk] at h
        cases h
      | ok =>
        rw [hk] at h
        exact ih h (by omega)
    · cases h
      exact htot

theorem writeiLoop_le {n rounds k off : ℕ} (htot : tot ≤ n) :
    writeiLoop chunk n rounds k off tot ≤ n := by
  induction rounds generalizing k off tot with
  | zero => exact htot
  | succ rounds ih =>
    rw [writeiLoop]
    split
    · cases hk : chunk k with
      | noBlock | fault => exact htot
      | ok => exact ih (by omega)
    · exact htot

theorem intOf_eq (tot : ℕ) : intOf tot = Int.bmod tot (2 ^ 32) := by
  change (BitVec.ofNat 32 tot).toInt = _
  rw [BitVec.toInt_eq_toNat_bmod, BitVec.toNat_ofNat]
  exact Int.emod_bmod tot (2 ^ 32)

theorem intOf_pos (htot : tot < 2 ^ 32) (h : 0 < intOf tot) : (intOf tot).toNat = tot := by
  rw [intOf_eq, Int.bmod_def] at h ⊢
  split at h <;> rename_i hlt
  · rw [if_pos hlt]
    omega
  · omega

theorem readi_bound {size off n : UInt32} (h : 0 < readi size off n chunk) :
    off.toNat + (readi size off n chunk).toNat < 2 ^ 32 := by
  unfold readi at h ⊢
  by_cases hcheck : off > size ∨ off + n < off
  · rw [if_pos hcheck] at h
    omega
  rw [if_neg hcheck] at h ⊢
  simp only [gt_iff_lt, UInt32.lt_iff_toNat_lt, not_or, not_lt] at hcheck
  obtain ⟨hsize, hwrap⟩ := hcheck
  have hlt := size.toNat_lt
  generalize hn : (if off + n > size then size - off else n) = n' at h ⊢
  have hn' : off.toNat + n'.toNat < 2 ^ 32 := by
    rw [← hn]
    split
    · rw [UInt32.toNat_sub_of_le _ _ (UInt32.le_iff_toNat_le.mpr hsize)]
      omega
    · rw [UInt32.toNat_add] at hwrap
      have := n.toNat_lt
      have := off.toNat_lt
      omega
  dsimp only at h ⊢
  split at h
  · omega
  · rename_i tot hloop
    have htot := readiLoop_le hloop (Nat.zero_le _)
    rw [intOf_pos (by omega) h]
    omega

theorem writei_bound {size off n : UInt32} (h : 0 < (writei size off n chunk).1) :
    off.toNat + (writei size off n chunk).1.toNat < 2 ^ 32 := by
  unfold writei at h ⊢
  by_cases hcheck : off > size ∨ off + n < off
  · rw [if_pos hcheck] at h
    simp at h
  rw [if_neg hcheck] at h ⊢
  by_cases hmax : (off + n).toNat > maxfile * bsize
  · rw [if_pos hmax] at h
    simp at h
  rw [if_neg hmax] at h ⊢
  dsimp only at h ⊢
  simp only [gt_iff_lt, UInt32.lt_iff_toNat_lt, not_or, not_lt] at hcheck
  have hwrap := hcheck.2
  rw [UInt32.toNat_add] at hwrap
  have htot : writeiLoop chunk n.toNat (n.toNat / bsize + 2) 0 off.toNat 0 ≤
      n.toNat := writeiLoop_le (Nat.zero_le _)
  have hn := n.toNat_lt
  have hoff := off.toNat_lt
  rw [intOf_pos (by omega) h]
  omega

/-! ## The system -/

/-- One call of `readi` or `writei`: the offset that it was given and what it
returned. -/
structure Transfer where
  start : ℕ
  result : ℤ

def Transfer.stop (t : Transfer) : ℕ := t.start + t.result.toNat

/-- Where a process is in `fileread` or `filewrite`.  `readAdd` and `writeAdd`
have the offset that was passed and the result, and are about to advance the
offset; `n` and `i` are those of the source. -/
inductive OffPc
  | user (ret : Option ℤ)
  | readLock (f : FileIx) (n : UInt32)
  | readI (f : FileIx) (n : UInt32)
  | readAdd (f : FileIx) (off : UInt32) (r : ℤ)
  | readUnlock (f : FileIx) (r : ℤ)
  | writeLock (f : FileIx) (n i : ℤ)
  | writeI (f : FileIx) (n i : ℤ)
  | writeAdd (f : FileIx) (n i : ℤ) (off : UInt32) (r : ℤ)
  | writeUnlock (f : FileIx) (n i r : ℤ)

namespace OffPc

def file : OffPc → Option (FileIx)
  | user _ => none
  | readLock f _ | readI f _ | readAdd f _ _ | readUnlock f _ => some f
  | writeLock f _ _ | writeI f _ _ | writeAdd f _ _ _ _
  | writeUnlock f _ _ _ => some f

def held : OffPc → Option (FileIx)
  | user _ | readLock _ _ | writeLock _ _ _ => none
  | readI f _ | readAdd f _ _ | readUnlock f _ => some f
  | writeI f _ _ | writeAdd f _ _ _ _ | writeUnlock f _ _ _ => some f

/-- The result that has not yet been added to the offset of the file. -/
def pending : OffPc → Option (FileIx × UInt32 × ℤ)
  | readAdd f off r => some (f, off, r)
  | writeAdd f _ _ off r => some (f, off, r)
  | _ => none

theorem held_of_pending {k : OffPc} {f : FileIx} {off : UInt32} {r : ℤ}
    (h : k.pending = some (f, off, r)) : k.held = some f := by
  cases k <;> cases h <;> rfl

end OffPc

/-- The open files are of type `FD_INODE`.  The history variables `start` and
`transfers` have the offset at which a file began and its calls of `readi` and
`writei` since. -/
structure OffSystem where
  isOpen : FileIx → Bool
  ip : FileIx → ℕ
  readable : FileIx → Bool
  writable : FileIx → Bool
  off : FileIx → UInt32
  size : ℕ → UInt32
  lock : ℕ → Option (Slot)
  pc : Slot → OffPc
  start : FileIx → ℕ
  transfers : FileIx → List Transfer

/-- `((MAXOPBLOCKS-1-1-2) / 2) * BSIZE`. -/
def maxWrite : ℤ := (((maxOpBlocks - 1 - 1 - 2) / 2) * bsize : ℕ)

def partOf (n i : ℤ) : ℤ := if n - i > maxWrite then maxWrite else n - i

namespace OffSystem

def goto (p : Slot) (k : OffPc) (s : OffSystem) : OffSystem := { s with pc := update s.pc p k }

def fileread (p : Slot) (f : FileIx) (n : Int32) (s : OffSystem) : OffSystem :=
  if s.readable f = false then s.goto p (.user (some (-1)))
  else s.goto p (.readLock f n.toUInt32)

/-- The head of the loop of `filewrite`. -/
def writeHead (p : Slot) (f : FileIx) (n i : ℤ) (s : OffSystem) : OffSystem :=
  if i < n then s.goto p (.writeLock f n i)
  else s.goto p (.user (some (if i = n then n else -1)))

def filewrite (p : Slot) (f : FileIx) (n : Int32) (s : OffSystem) : OffSystem :=
  if s.writable f = false then s.goto p (.user (some (-1)))
  else s.writeHead p f n.toInt 0

/-- `ilock(f->ip)`. -/
def ilock (p : Slot) (ip : ℕ) (s : OffSystem) : Option OffSystem := if s.lock ip = none then
    some { s with lock := update s.lock ip (some p) }
  else none

def iunlock (ip : ℕ) (s : OffSystem) : OffSystem := { s with lock := update s.lock ip none }

/-- `if(r > 0) f->off += r`. -/
def advance (f : FileIx) (off : UInt32) (r : ℤ) (s : OffSystem) : OffSystem :=
  { s with
    off := update s.off f
      (if 0 < r then s.off f + UInt32.ofNat r.toNat else s.off f)
    transfers := update s.transfers f
      (s.transfers f ++ [⟨off.toNat, r⟩]) }

def setSize (ip : ℕ) (n : UInt32) (s : OffSystem) : OffSystem :=
  { s with size := update s.size ip n }

/-- The next step of a call; `chunk` says what happens to the blocks. -/
def next (p : Slot) (chunk : ℕ → Chunk) (s : OffSystem) : Option OffSystem :=
  match s.pc p with
  | .user _ => none
  | .readLock f n => (s.ilock p (s.ip f)).map (goto p (.readI f n))
  | .readI f n =>
    let r := readi (s.size (s.ip f)) (s.off f) n chunk
    some (s.goto p (.readAdd f (s.off f) r))
  | .readAdd f off r => some ((s.goto p (.readUnlock f r)).advance f off r)
  | .readUnlock f r => some ((s.goto p (.user (some r))).iunlock (s.ip f))
  | .writeLock f n i => (s.ilock p (s.ip f)).map (goto p (.writeI f n i))
  | .writeI f n i =>
    let n1 := UInt32.ofNat (partOf n i).toNat
    let (r, size) := writei (s.size (s.ip f)) (s.off f) n1 chunk
    some ((s.goto p (.writeAdd f n i (s.off f) r)).setSize (s.ip f) size)
  | .writeAdd f n i off r =>
    some ((s.goto p (.writeUnlock f n i r)).advance f off r)
  | .writeUnlock f n i r =>
    if r ≠ partOf n i then
      let ret := if i = n then n else -1
      some ((s.goto p (.user (some ret))).iunlock (s.ip f))
    else some ((s.writeHead p f n (i + r)).iunlock (s.ip f))

/-- The part of `sys_open` that holds the lock of the inode, for a file that
`filealloc` has found; `trunc` is `O_TRUNC`. -/
def sysOpen (f : FileIx) (ip : ℕ) (readable writable trunc : Bool)
    (s : OffSystem) : Option OffSystem :=
  if s.isOpen f = false ∧ s.lock ip = none then
    some
      { s with
        isOpen := update s.isOpen f true
        ip := update s.ip f ip
        readable := update s.readable f readable
        writable := update s.writable f writable
        off := update s.off f 0
        size := if trunc then update s.size ip 0 else s.size
        start := update s.start f 0
        transfers := update s.transfers f [] }
  else none

/-- The last `fileclose`: a process in a call has the file open. -/
def fileclose (f : FileIx) (s : OffSystem) : Option OffSystem := if ∀ p, (s.pc p).file ≠ some f then
    some { s with isOpen := update s.isOpen f false }
  else none

end OffSystem

inductive OffLabel
  | read (p : Slot) (f : FileIx) (n : Int32)
  | write (p : Slot) (f : FileIx) (n : Int32)
  | next (p : Slot) (chunk : ℕ → Chunk)
  | open (f : FileIx) (ip : ℕ) (readable writable trunc : Bool)
  | close (f : FileIx)

def OffLabel.opens : OffLabel → Option (FileIx)
  | .open f _ _ _ _ => some f
  | _ => none

namespace OffSystem

/-- A process is in one call at a time, on a file that is open. -/
def canCall (p : Slot) (f : FileIx) (s : OffSystem) : Bool := (s.pc p).file = none ∧ s.isOpen f

def step (l : OffLabel) (s : OffSystem) : Option OffSystem :=
  match l with
  | .read p f n => if s.canCall p f then some (s.fileread p f n) else none
  | .write p f n => if s.canCall p f then some (s.filewrite p f n) else none
  | .next p chunk => s.next p chunk
  | .open f ip readable writable trunc =>
    s.sysOpen f ip readable writable trunc
  | .close f => s.fileclose f

/-- No call is in progress, and the history begins. -/
structure Idle (s : OffSystem) : Prop where
  pc : ∀ p, ∃ ret, s.pc p = .user ret
  start : ∀ f, s.start f = (s.off f).toNat
  transfers : ∀ f, s.transfers f = []

end OffSystem

/-! ## Transfers that follow each other -/

/-- The transfers begin at `a`, each where the one before ended, up to `b`. -/
def Follows (a : ℕ) : List Transfer → ℕ → Prop
  | [], b => a = b
  | t :: ts, b => t.start = a ∧ Follows t.stop ts b

theorem Follows.snoc (h : Follows a ts b) (r : ℤ) : Follows a (ts ++ [⟨b, r⟩]) (b + r.toNat) := by
  induction ts generalizing a with
  | nil =>
    cases h
    exact ⟨rfl, rfl⟩
  | cons t ts ih => exact ⟨h.1, ih h.2⟩

theorem Follows.sum (h : Follows a ts b) : b = a + (ts.map fun t => t.result.toNat).sum := by
  induction ts generalizing a with
  | nil => exact h.symm
  | cons t ts ih =>
    have hrest := ih h.2
    rw [Transfer.stop, h.1] at hrest
    rw [List.map_cons, List.sum_cons]
    omega

theorem Follows.isChain (h : Follows a ts b) : (ts.head?.all fun t => t.start = a) ∧
      ts.IsChain fun t u => u.start = t.stop := by
  induction ts generalizing a with
  | nil => exact ⟨rfl, .nil⟩
  | cons t ts ih =>
    obtain ⟨hhead, hchain⟩ := ih h.2
    refine ⟨by simpa using h.1, ?_⟩
    cases ts with
    | nil => exact .singleton t
    | cons u ts => exact .cons_cons (by simpa using hhead) hchain

theorem Follows.pairwise (h : Follows a ts b) : (∀ t ∈ ts, a ≤ t.start) ∧
      ts.Pairwise fun t u => t.stop ≤ u.start := by
  induction ts generalizing a with
  | nil => exact ⟨by simp, .nil⟩
  | cons t ts ih =>
    obtain ⟨hle, hpairs⟩ := ih h.2
    refine ⟨?_, List.pairwise_cons.mpr ⟨hle, hpairs⟩⟩
    intro u hu
    rcases List.mem_cons.mp hu with rfl | hu
    · exact h.1.ge
    · have hu := hle u hu
      have hstart := h.1
      unfold Transfer.stop at hu
      omega

/-! ## The invariant -/

namespace OffSystem

/-- A process between its `ilock` and its `iunlock` has the lock; a result that
has not been added belongs to the offset that the file has now. -/
structure Inv (s : OffSystem) : Prop where
  isOpen : ∀ p f, (s.pc p).file = some f → s.isOpen f = true
  lock : ∀ p f, (s.pc p).held = some f → s.lock (s.ip f) = some p
  pending : ∀ p f off r, (s.pc p).pending = some (f, off, r) →
    off = s.off f ∧ (0 < r → off.toNat + r.toNat < 2 ^ 32)
  follows : ∀ f, Follows (s.start f) (s.transfers f) (s.off f).toNat

variable {s t : OffSystem} {p : Slot} {f : FileIx}

theorem Inv.of_idle (h : s.Idle) : s.Inv := by
  have hfile : ∀ p, (s.pc p).file = none ∧ (s.pc p).held = none ∧ (s.pc p).pending = none := by
    intro p
    obtain ⟨ret, hp⟩ := h.pc p
    rw [hp]
    exact ⟨rfl, rfl, rfl⟩
  refine ⟨?_, ?_, ?_, ?_⟩
  · intro p f hp
    rw [(hfile p).1] at hp
    cases hp
  · intro p f hp
    rw [(hfile p).2.1] at hp
    cases hp
  · intro p f off r hp
    rw [(hfile p).2.2] at hp
    cases hp
  · intro f
    rw [h.start, h.transfers]
    rfl

variable {k : OffPc}

section

variable (h : s.Inv)
include h

theorem Inv.goto (hfile : ∀ f, k.file = some f → s.isOpen f = true) (hheld : ∀ f, k.held = some f →
    s.lock (s.ip f) = some p) (hpending : ∀ f off r, k.pending = some (f, off, r) →
    off = s.off f ∧ (0 < r → off.toNat + r.toNat < 2 ^ 32)) : (s.goto p k).Inv := by
  refine ⟨?_, ?_, ?_, h.follows⟩
  · intro q
    by_cases hq : q = p
    · subst hq
      simpa [OffSystem.goto] using hfile
    · simpa [OffSystem.goto, hq] using h.isOpen q
  · intro q
    by_cases hq : q = p
    · subst hq
      simpa [OffSystem.goto] using hheld
    · simpa [OffSystem.goto, hq] using h.lock q
  · intro q
    by_cases hq : q = p
    · subst hq
      simpa [OffSystem.goto] using hpending
    · simpa [OffSystem.goto, hq] using h.pending q

theorem Inv.user (ret : Option ℤ) : (s.goto p (.user ret)).Inv := h.goto nofun nofun nofun

theorem Inv.writeHead (hf : s.isOpen f = true) (n i : ℤ) : (s.writeHead p f n i).Inv := by
  unfold OffSystem.writeHead
  split
  · refine h.goto ?_ nofun nofun
    intro g hg
    cases hg
    exact hf
  · exact h.user _

theorem Inv.iunlock {ip : ℕ} (hfree : ∀ q f, (s.pc q).held = some f → s.ip f ≠ ip) :
    (s.iunlock ip).Inv := by
  refine ⟨h.isOpen, ?_, h.pending, h.follows⟩
  intro q f hq
  change update s.lock ip none (s.ip f) = some q
  rw [update_of_ne (hfree q f hq)]
  exact h.lock q f hq

theorem Inv.free_of_goto (hp : (s.pc p).held = some f) (hk : k.held = none) :
    ∀ q g, ((s.goto p k).pc q).held = some g → s.ip g ≠ s.ip f := by
  intro q g hq heq
  by_cases hqp : q = p
  · subst hqp
    simp [OffSystem.goto, hk] at hq
  · have hother : (s.goto p k).pc q = s.pc q := update_of_ne hqp ..
    rw [hother] at hq
    have hlock := h.lock q g hq
    rw [heq, h.lock p f hp] at hlock
    exact hqp (Option.some.inj hlock).symm

theorem Inv.advance {off : UInt32} {r : ℤ} (hnone : ∀ q off r, (s.pc q).pending ≠ some (f, off, r))
    (hoff : off = s.off f) (hr : 0 < r → off.toNat + r.toNat < 2 ^ 32) :
    (s.advance f off r).Inv := by
  subst hoff
  refine ⟨h.isOpen, h.lock, ?_, ?_⟩
  · intro q g off' r' hq
    have hg : g ≠ f := by
      rintro rfl
      exact hnone q off' r' hq
    simpa [OffSystem.advance, hg] using h.pending q g off' r' hq
  · intro g
    by_cases hg : g = f
    · subst hg
      have hsnoc := (h.follows g).snoc r
      simp only [OffSystem.advance, update_self]
      split
      · rename_i hpos
        have hlt := hr hpos
        rw [UInt32.toNat_add, UInt32.toNat_ofNat_of_lt' (by
          rw [UInt32.size]
          omega), Nat.mod_eq_of_lt hlt]
        exact hsnoc
      · rename_i hneg
        rw [Int.toNat_of_nonpos (by omega), Nat.add_zero] at hsnoc
        exact hsnoc
    · simpa [OffSystem.advance, hg] using h.follows g

theorem Inv.pending_of_goto (hp : (s.pc p).held = some f) (hk : k.pending = none) :
    ∀ q off r, ((s.goto p k).pc q).pending ≠ some (f, off, r) := by
  intro q off r hq
  by_cases hqp : q = p
  · subst hqp
    simp [OffSystem.goto, hk] at hq
  · have hother : (s.goto p k).pc q = s.pc q := update_of_ne hqp ..
    rw [hother] at hq
    have hlock := h.lock q f (OffPc.held_of_pending hq)
    rw [h.lock p f hp] at hlock
    exact hqp (Option.some.inj hlock).symm

theorem Inv.setSize (ip : ℕ) (n : UInt32) : (s.setSize ip n).Inv :=
  ⟨h.isOpen, h.lock, h.pending, h.follows⟩

theorem Inv.ilock {ip : ℕ} (hstep : s.ilock p ip = some t) :
    t.Inv ∧ t.lock ip = some p ∧ t.ip = s.ip ∧ t.isOpen = s.isOpen := by
  unfold OffSystem.ilock at hstep
  split at hstep
  · rename_i hfree
    cases hstep
    refine ⟨⟨h.isOpen, ?_, h.pending, h.follows⟩, update_self .., rfl, rfl⟩
    intro q f hq
    have hlock := h.lock q f hq
    have hne : s.ip f ≠ ip := by
      rintro rfl
      rw [hfree] at hlock
      cases hlock
    change update s.lock ip (some p) (s.ip f) = some q
    rw [update_of_ne hne]
    exact hlock
  · cases hstep

theorem Inv.lockThen (hopen : s.isOpen f = true) (hfile : k.file = some f) (hheld : k.held = some f)
    (hpending : k.pending = none) (hstep : (s.ilock p (s.ip f)).map (OffSystem.goto p k) = some t) :
    t.Inv := by
  obtain ⟨u, hu, rfl⟩ := Option.map_eq_some_iff.mp hstep
  obtain ⟨hinv, hlock, hip, hisOpen⟩ := h.ilock hu
  refine hinv.goto ?_ ?_ ?_
  · intro g hg
    rw [hfile] at hg
    cases hg
    rw [hisOpen]
    exact hopen
  · intro g hg
    rw [hheld] at hg
    cases hg
    rw [hip]
    exact hlock
  · rw [hpending]
    exact nofun

theorem Inv.gotoHeld
    (hp : (s.pc p).file = some f) (hheld : (s.pc p).held = some f) (hfile : k.file = some f)
    (hk : k.held = some f) (hpending : ∀ off r, k.pending = some (f, off, r) →
    off = s.off f ∧ (0 < r → off.toNat + r.toNat < 2 ^ 32)) : (s.goto p k).Inv := by
  refine h.goto ?_ ?_ ?_
  · intro g hg
    rw [hfile] at hg
    cases hg
    exact h.isOpen p f hp
  · intro g hg
    rw [hk] at hg
    cases hg
    exact h.lock p f hheld
  · intro g off r hg
    have hgf := OffPc.held_of_pending hg
    rw [hk] at hgf
    cases hgf
    exact hpending off r hg

theorem Inv.next {chunk : ℕ → Chunk} (hstep : s.next p chunk = some t) : t.Inv := by
  have hopen := h.isOpen p
  have hpend := h.pending p
  unfold OffSystem.next at hstep
  cases hpc : s.pc p <;> rw [hpc] at hstep hopen hpend <;>
    dsimp only at hstep
  case user => cases hstep
  case readLock f n => exact h.lockThen (hopen f rfl) rfl rfl rfl hstep
  case writeLock f n i => exact h.lockThen (hopen f rfl) rfl rfl rfl hstep
  case readI f n =>
      cases hstep
      refine h.gotoHeld (by rw [hpc]; rfl) (by rw [hpc]; rfl) rfl rfl ?_
      rintro off r ⟨⟩
      exact ⟨rfl, readi_bound⟩
  case writeI f n i =>
      cases hstep
      refine Inv.setSize (h.gotoHeld (by rw [hpc]; rfl) (by rw [hpc]; rfl) rfl rfl ?_) _ _
      rintro off r ⟨⟩
      exact ⟨rfl, writei_bound⟩
  case readAdd f off r =>
      cases hstep
      obtain ⟨hoff, hr⟩ := hpend f off r rfl
      have hheld : (s.pc p).held = some f := by rw [hpc]; rfl
      refine (h.gotoHeld (by rw [hpc]; rfl) hheld rfl rfl ?_).advance
        (h.pending_of_goto hheld rfl) hoff hr
      rintro _ _ ⟨⟩
  case writeAdd f n i off r =>
      cases hstep
      obtain ⟨hoff, hr⟩ := hpend f off r rfl
      have hheld : (s.pc p).held = some f := by rw [hpc]; rfl
      refine (h.gotoHeld (by rw [hpc]; rfl) hheld rfl rfl ?_).advance
        (h.pending_of_goto hheld rfl) hoff hr
      rintro _ _ ⟨⟩
  case readUnlock f r =>
      cases hstep
      have hheld : (s.pc p).held = some f := by rw [hpc]; rfl
      exact (h.user _).iunlock (h.free_of_goto hheld rfl)
  case writeUnlock f n i r =>
      have hheld : (s.pc p).held = some f := by rw [hpc]; rfl
      split at hstep
      · cases hstep
        exact (h.user _).iunlock (h.free_of_goto hheld rfl)
      · cases hstep
        refine (h.writeHead (hopen f rfl) n (i + r)).iunlock ?_
        unfold OffSystem.writeHead
        split <;> exact h.free_of_goto hheld rfl

theorem Inv.sysOpen {ip : ℕ} {readable writable trunc : Bool}
    (hstep : s.sysOpen f ip readable writable trunc = some t) : t.Inv := by
  unfold OffSystem.sysOpen at hstep
  split at hstep
  · rename_i hguard
    cases hstep
    -- a process in a call is in a call of another file
    have hne : ∀ q g, (s.pc q).file = some g → g ≠ f := by
      rintro q g hq rfl
      rw [h.isOpen q g hq] at hguard
      cases hguard.1
    have hfile : ∀ {k : OffPc} {g}, k.held = some g → k.file = some g := by
      intro k g hk
      cases k <;> first | exact hk | cases hk
    refine ⟨?_, ?_, ?_, ?_⟩
    · intro q g hq
      simpa [hne q g hq] using h.isOpen q g hq
    · intro q g hq
      simpa [hne q g (hfile hq)] using h.lock q g hq
    · intro q g off r hq
      simpa [hne q g (hfile (OffPc.held_of_pending hq))] using h.pending q g off r hq
    · intro g
      by_cases hg : g = f
      · subst hg
        simp [Follows]
      · simpa [hg] using h.follows g
  · cases hstep

theorem Inv.fileclose (hstep : s.fileclose f = some t) : t.Inv := by
  unfold OffSystem.fileclose at hstep
  split at hstep
  · rename_i hguard
    cases hstep
    refine ⟨?_, h.lock, h.pending, h.follows⟩
    intro q g hq
    have hg : g ≠ f := by
      rintro rfl
      exact hguard q hq
    simpa [hg] using h.isOpen q g hq
  · cases hstep

theorem Inv.step {l : OffLabel} (hstep : step l s = some t) : t.Inv := by
  cases l with
  | read p f n =>
    simp only [OffSystem.step, OffSystem.fileread] at hstep
    split at hstep
    · rename_i hcall
      simp only [canCall, decide_eq_true_eq] at hcall
      cases hstep
      split
      · exact h.user _
      · refine h.goto ?_ nofun nofun
        intro g hg
        cases hg
        exact hcall.2
    · cases hstep
  | write p f n =>
    simp only [OffSystem.step, OffSystem.filewrite] at hstep
    split at hstep
    · rename_i hcall
      simp only [canCall, decide_eq_true_eq] at hcall
      cases hstep
      split
      · exact h.user _
      · exact h.writeHead hcall.2 _ _
    · cases hstep
  | next p chunk => exact h.next hstep
  | «open» f ip readable writable trunc => exact h.sysOpen hstep
  | close f => exact h.fileclose hstep

end

/-! ## Runs -/

theorem start_of_next {chunk : ℕ → Chunk} (hstep : s.next p chunk = some t) :
    t.start = s.start := by
  have hlock : ∀ {ip k}, (s.ilock p ip).map (OffSystem.goto p k) = some t → t.start = s.start := by
    intro ip k h
    obtain ⟨u, hu, rfl⟩ := Option.map_eq_some_iff.mp h
    unfold OffSystem.ilock at hu
    split at hu <;> cases hu
    rfl
  unfold OffSystem.next at hstep
  cases hpc : s.pc p <;> rw [hpc] at hstep <;> dsimp only at hstep
  case readLock => exact hlock hstep
  case writeLock => exact hlock hstep
  case writeUnlock =>
      split at hstep <;> cases hstep
      · rfl
      · unfold OffSystem.writeHead
        split <;> rfl
  all_goals
    cases hstep
    try rfl

theorem start_of_step {l : OffLabel} (hl : l.opens ≠ some f)
    (hstep : step l s = some t) : t.start f = s.start f := by
  cases l with
  | read p g n =>
    simp only [OffSystem.step, OffSystem.fileread] at hstep
    split at hstep <;> cases hstep
    split <;> rfl
  | write p g n =>
    simp only [OffSystem.step, OffSystem.filewrite] at hstep
    split at hstep <;> cases hstep
    unfold OffSystem.writeHead
    split
    · rfl
    · split <;> rfl
  | next p chunk => rw [start_of_next hstep]
  | «open» g ip readable writable trunc =>
    have hg : f ≠ g := fun h => hl (congrArg some h.symm)
    simp only [OffSystem.step, OffSystem.sysOpen] at hstep
    split at hstep <;> cases hstep
    exact update_of_ne hg ..
  | close g =>
    simp only [OffSystem.step, OffSystem.fileclose] at hstep
    split at hstep <;> cases hstep
    rfl

theorem start_of_run {ls : List OffLabel} (hls : ∀ l ∈ ls, l.opens ≠ some f)
    (hrun : Machine.run step ls s = some t) : t.start f = s.start f :=
  Machine.run_invariant_of (I := fun u => u.start f = s.start f)
    (fun _ _ _ hl hu hstep => (start_of_step hl hstep).trans hu) hls rfl hrun

theorem shared_offset {ls : List OffLabel} (hidle : s.Idle)
    (hrun : Machine.run step ls s = some t) (f : FileIx) :
    ((t.transfers f).head?.all fun u => u.start = t.start f) ∧
    ((t.transfers f).IsChain fun u v => v.start = u.stop) ∧
    ((t.transfers f).Pairwise fun u v => u.stop ≤ v.start) ∧
    (t.off f).toNat = t.start f + ((t.transfers f).map fun u => u.result.toNat).sum ∧
    ((∀ l ∈ ls, l.opens ≠ some f) → t.start f = (s.off f).toNat) := by
  have hinv : t.Inv := Machine.run_invariant (I := Inv)
    (fun _ _ _ h h' => h.step h') (Inv.of_idle hidle) hrun
  have hfollows := hinv.follows f
  refine ⟨hfollows.isChain.1, hfollows.isChain.2, hfollows.pairwise.2, hfollows.sum, ?_⟩
  intro hls
  rw [start_of_run hls hrun, hidle.start]

/-- Two processes write to one file, one of them in two parts, and a third one
reads it through a file of its own. -/
def sharedRun : List OffLabel := let next p : OffLabel := .next p fun _ => .ok
  [.open 1 7 true false false, .write 0 0 4000, .write 1 0 100, .read 2 1 50,
    next 0, next 0, next 0, next 0, next 1, next 1, next 1, next 1,
    next 2, next 2, next 2, next 2, next 0, next 0, next 0, next 0]

def sharedStart : OffSystem where
  isOpen f := f = 0
  ip _ := 7
  readable _ := true
  writable _ := true
  off _ := 0
  size _ := 0
  lock _ := none
  pc _ := .user none
  start _ := 0
  transfers _ := []

theorem shared_offset_two : ∃ t, Machine.run step sharedRun sharedStart = some t ∧
    (t.off 0).toNat = t.start 0 + ((t.transfers 0).map fun u => u.result.toNat).sum ∧
    (t.transfers 0).map (fun u => (u.start, u.result)) = [(0, 3072), (3072, 100), (3172, 928)] := by
  refine Machine.exists_run
    (P := fun t => (t.transfers 0).map (fun u => (u.start, u.result)) =
      [(0, 3072), (3072, 100), (3172, 928)]) (by decide +kernel) ?_
  intro t hrun htest
  have hidle : sharedStart.Idle := ⟨fun _ => ⟨none, rfl⟩, fun _ => rfl, fun _ => rfl⟩
  exact ⟨(shared_offset hidle hrun 0).2.2.2.1, of_decide_eq_true htest⟩

end OffSystem

end Xv6
