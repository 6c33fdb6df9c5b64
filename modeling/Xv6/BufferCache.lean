import Xv6.Block
import Xv6.Param

/-!
# The buffer cache

The data of `bio.c` and its critical sections under `bcache.lock`.  The
circular list through `head.next` is the list `order`, most recently released
buffer first.  A buffer is named by its index in `bcache.buf`; `lock` is the
process that holds its sleep-lock.
-/

namespace Xv6

structure Buf where
  valid : Bool
  dev : ℕ
  blockno : ℕ
  refcnt : ℕ
  lock : Option ℕ
  data : Block

structure Bcache where
  buf : ℕ → Buf
  order : List ℕ

def binit : Bcache where
  buf := fun _ =>
    { valid := false, dev := 0, blockno := 0, refcnt := 0, lock := none, data := fun _ => 0 }
  order := (List.range nbuf).reverse

def Bcache.set (c : Bcache) (i : ℕ) (b : Buf) : Bcache :=
  { c with buf := Function.update c.buf i b }

/-- The first loop of `bget`. -/
def Bcache.lookup (c : Bcache) (dev blockno : ℕ) : Option ℕ :=
  c.order.find? fun i =>
    (c.buf i).dev == dev && (c.buf i).blockno == blockno

/-- The second loop of `bget`, from `head.prev` backwards. -/
def Bcache.lru (c : Bcache) : Option ℕ := c.order.reverse.find? fun i => (c.buf i).refcnt == 0

/-- `bget` up to the release of `bcache.lock`; `none` is
`panic("bget: no buffers")`. -/
def bget (dev blockno : ℕ) (c : Bcache) : Option (ℕ × Bcache) :=
  match c.lookup dev blockno with
  | some i => some (i, c.set i { c.buf i with refcnt := (c.buf i).refcnt + 1 })
  | none =>
    match c.lru with
    | some i =>
      some (i, c.set i
        { c.buf i with
          dev := dev, blockno := blockno, valid := false, refcnt := 1 })
    | none => none

/-- The decrement of an unsigned `refcnt`. -/
def decr (n : ℕ) : ℕ := if n = 0 then 2 ^ 32 - 1 else n - 1

/-- `brelse` after `releasesleep`. -/
def brelse (i : ℕ) (c : Bcache) : Bcache :=
  let b := { c.buf i with refcnt := decr (c.buf i).refcnt }
  if b.refcnt = 0 then
    { buf := Function.update c.buf i b, order := i :: c.order.erase i }
  else
    c.set i b

def bpin (i : ℕ) (c : Bcache) : Bcache := c.set i { c.buf i with refcnt := (c.buf i).refcnt + 1 }

def bunpin (i : ℕ) (c : Bcache) : Bcache := c.set i { c.buf i with refcnt := decr (c.buf i).refcnt }

@[simp] theorem Bcache.set_buf_self (c : Bcache) (i : ℕ) (b : Buf) : (c.set i b).buf i = b := by
  simp [Bcache.set]

variable {i dev blockno : ℕ} {c : Bcache}

theorem Bcache.set_buf_of_ne (c : Bcache) {j : ℕ} (b : Buf) (hne : j ≠ i) :
    (c.set i b).buf j = c.buf j := by
  simp [Bcache.set, hne]

theorem decr_eq {n : ℕ} (hpos : 0 < n) : decr n = n - 1 := by
  unfold decr
  rw [if_neg (by omega)]

/-! ## What `bget` returns -/

theorem Bcache.lookup_eq_some (h : c.lookup dev blockno = some i) :
    i ∈ c.order ∧ (c.buf i).dev = dev ∧ (c.buf i).blockno = blockno := by
  have hmem := List.mem_of_find?_eq_some h
  have hprop := List.find?_some h
  simp only [Bool.and_eq_true, beq_iff_eq] at hprop
  exact ⟨hmem, hprop⟩

theorem Bcache.lookup_eq_none : c.lookup dev blockno = none ↔
      ∀ i ∈ c.order, (c.buf i).dev = dev → (c.buf i).blockno ≠ blockno := by
  simp [Bcache.lookup, List.find?_eq_none]

theorem Bcache.lru_eq_some (h : c.lru = some i) : i ∈ c.order ∧ (c.buf i).refcnt = 0 := by
  have hmem := List.mem_of_find?_eq_some h
  have hprop := List.find?_some h
  exact ⟨List.mem_reverse.mp hmem, beq_iff_eq.mp hprop⟩

theorem Bcache.lru_eq_none : c.lru = none ↔ ∀ i ∈ c.order, (c.buf i).refcnt ≠ 0 := by
  simp [Bcache.lru, List.find?_eq_none]

theorem bget_eq_some {c' : Bcache} (h : bget dev blockno c = some (i, c')) :
    (i ∈ c.order ∧ (c.buf i).dev = dev ∧
    (c.buf i).blockno = blockno ∧ c' = c.set i { c.buf i with refcnt := (c.buf i).refcnt + 1 }) ∨
    ((∀ j ∈ c.order, (c.buf j).dev = dev → (c.buf j).blockno ≠ blockno) ∧
    i ∈ c.order ∧ (c.buf i).refcnt = 0 ∧ c' = c.set i { c.buf i with
            dev := dev, blockno := blockno, valid := false, refcnt := 1 }) := by
  unfold bget at h
  cases hlookup : c.lookup dev blockno with
  | some j =>
    rw [hlookup] at h
    simp only [Option.some.injEq, Prod.mk.injEq] at h
    obtain ⟨rfl, rfl⟩ := h
    obtain ⟨hmem, hdev, hblock⟩ := Bcache.lookup_eq_some hlookup
    exact Or.inl ⟨hmem, hdev, hblock, rfl⟩
  | none =>
    rw [hlookup] at h
    have hmiss := Bcache.lookup_eq_none.mp hlookup
    cases hlru : c.lru with
    | none => simp [hlru] at h
    | some j =>
      simp only [hlru, Option.some.injEq, Prod.mk.injEq] at h
      obtain ⟨rfl, rfl⟩ := h
      obtain ⟨hmem, hfree⟩ := Bcache.lru_eq_some hlru
      exact Or.inr ⟨hmiss, hmem, hfree, rfl⟩

theorem bget_eq_none : bget dev blockno c = none ↔ (∀ i ∈ c.order, (c.buf i).dev = dev →
      (c.buf i).blockno ≠ blockno) ∧ ∀ i ∈ c.order, (c.buf i).refcnt ≠ 0 := by
  rw [← Bcache.lookup_eq_none, ← Bcache.lru_eq_none]
  unfold bget
  cases c.lookup dev blockno with
  | some i => simp
  | none =>
    cases c.lru with
    | some i | none => simp

end Xv6
