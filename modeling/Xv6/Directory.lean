import Mathlib

/-!
# Names, paths and directory entries

A name is the bytes of a `char[DIRSIZ]` before its first NUL, so that two names
are equal under `namecmp` if and only if they are equal.  A path is the bytes
of a string before its NUL.
-/

namespace Xv6

def dirsiz : ℕ := 14

abbrev Name := List UInt8

abbrev Path := List UInt8

def slash : UInt8 := 47

def dot : Name := [46]

def dotdot : Name := [46, 46]

/-! ## Paths -/

/-- The next element of a path, cut to `DIRSIZ` bytes, and what follows it
without leading slashes. -/
def skipelem (path : Path) : Option (Name × Path) :=
  match path.dropWhile (· = slash) with
  | [] => none
  | c :: s =>
    some (((c :: s).takeWhile (· ≠ slash)).take dirsiz,
      ((c :: s).dropWhile (· ≠ slash)).dropWhile (· = slash))

theorem skipelem_length {path rest : Path} {name : Name}
    (h : skipelem path = some (name, rest)) : rest.length < path.length := by
  unfold skipelem at h
  split at h
  · contradiction
  · rename_i c s hpath
    simp only [Option.some.injEq, Prod.mk.injEq] at h
    have hc : c ≠ slash := by
      have := List.head?_dropWhile_not (fun x => decide (x = slash)) path
      simpa [hpath] using this
    have hdrop : ((c :: s).dropWhile fun x => decide (x ≠ slash)).length ≤ s.length := by
      rw [List.dropWhile_cons_of_pos (by simpa using hc)]
      exact (List.dropWhile_sublist _).length_le
    have hrest : rest.length ≤ ((c :: s).dropWhile fun x => decide (x ≠ slash)).length := by
      rw [← h.2]
      exact (List.dropWhile_sublist _).length_le
    have hle : (c :: s).length ≤ path.length := by
      rw [← hpath]
      exact (List.dropWhile_sublist _).length_le
    simp only [List.length_cons] at hle
    omega

/-- The elements that `namex` takes from a path one after another. -/
def pathElems (path : Path) : List Name :=
  match _h : skipelem path with
  | none => []
  | some (name, rest) => name :: pathElems rest
termination_by path.length
decreasing_by exact skipelem_length _h

example : pathElems [47, 47, 97, 47, 98, 98, 47] = [[97], [98, 98]] := by
  decide +kernel

/-! ## Directory entries -/

/-- A `struct dirent`.  The history variable `gen` says which of the inodes
that have had the number `inum` one after another the entry was made for. -/
structure Dirent where
  inum : ℕ
  name : Name
  gen : ℕ
  deriving DecidableEq

/-- A `struct dirent` of zeros. -/
def Dirent.zero : Dirent := ⟨0, [], 0⟩

/-- The loop of `dirlookup` from entry `off` on: the inode number and the place
of the first entry with the name. -/
def lookupEntry (name : Name) : List Dirent → ℕ → Option (ℕ × ℕ)
  | [], _ => none
  | e :: es, off =>
    if e.inum = 0 then lookupEntry name es (off + 1)
    else if name = e.name then some (e.inum, off)
    else lookupEntry name es (off + 1)

/-- The loop of `dirlink`: the place of the first empty entry, or the end. -/
def emptyEntry : List Dirent → ℕ
  | [] => 0
  | e :: es => if e.inum = 0 then 0 else emptyEntry es + 1

/-- The entry at `off` is written, at the end or in place. -/
def writeEntry (es : List Dirent) (off : ℕ) (e : Dirent) : List Dirent :=
  if off < es.length then es.set off e else es ++ [e]

/-- The loop of `isdirempty`. -/
def isdirempty (es : List Dirent) : Bool := (es.drop 2).all fun e => e.inum = 0

section

variable {es : List Dirent} {name : Name} {i off k : ℕ}

theorem lookupEntry_eq_some (h : lookupEntry name es k = some (i, off)) : ∃ pre e post, es =
    pre ++ e :: post ∧ off = k + pre.length ∧ e.inum = i ∧ i ≠ 0 ∧ e.name = name := by
  induction es generalizing k with
  | nil => simp [lookupEntry] at h
  | cons e es ih =>
    rw [lookupEntry] at h
    split at h
    · obtain ⟨pre, e', post, hes, hoff, hrest⟩ := ih h
      exact ⟨e :: pre, e', post, by rw [hes]; rfl, by rw [hoff, List.length_cons]; omega, hrest⟩
    · rename_i hne
      split at h
      · rename_i hname
        simp only [Option.some.injEq, Prod.mk.injEq] at h
        exact ⟨[], e, es, rfl, by simp [h.2], h.1, by rw [← h.1]; exact hne, hname.symm⟩
      · obtain ⟨pre, e', post, hes, hoff, hrest⟩ := ih h
        exact ⟨e :: pre, e', post, by rw [hes]; rfl, by rw [hoff, List.length_cons]; omega, hrest⟩

theorem lookupEntry_eq_none (h : lookupEntry name es k = none) :
    ∀ e ∈ es, e.inum ≠ 0 → e.name ≠ name := by
  induction es generalizing k with
  | nil => simp
  | cons e es ih =>
    rw [lookupEntry] at h
    split at h
    · rename_i hzero
      intro x hx
      rcases List.mem_cons.mp hx with rfl | hmem
      · exact fun hne => absurd hzero hne
      · exact ih h x hmem
    · split at h
      · contradiction
      · rename_i hname
        intro x hx
        rcases List.mem_cons.mp hx with rfl | hmem
        · exact fun _ heq => hname heq.symm
        · exact ih h x hmem

theorem writeEntry_cons (x : Dirent) (es : List Dirent) (k : ℕ) (e : Dirent) :
    writeEntry (x :: es) (k + 1) e = x :: writeEntry es k e := by
  unfold writeEntry
  simp only [List.length_cons, Nat.add_lt_add_iff_right, List.set_cons_succ]
  split <;> rfl

theorem writeEntry_emptyEntry (es : List Dirent) (e : Dirent) : ∃ pre zs post, es = pre ++
    zs ++ post ∧ writeEntry es (emptyEntry es) e = pre ++ [e] ++ post ∧ ∀ z ∈ zs, z.inum = 0 := by
  induction es with
  | nil => exact ⟨[], [], [], rfl, rfl, by simp⟩
  | cons x es ih =>
    rw [emptyEntry]
    split
    · rename_i hx
      exact ⟨[], [x], es, rfl, by simp [writeEntry], by simp [hx]⟩
    · obtain ⟨pre, zs, post, hes, hwrite, hzs⟩ := ih
      refine ⟨x :: pre, zs, post, by rw [hes]; rfl, ?_, hzs⟩
      rw [List.cons_append, List.cons_append, ← hwrite, writeEntry_cons]

theorem writeEntry_append (pre post : List Dirent) (x e : Dirent) :
    writeEntry (pre ++ x :: post) pre.length e = pre ++ e :: post := by
  rw [writeEntry, if_pos (by simp)]
  simp

end

end Xv6
