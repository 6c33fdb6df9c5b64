import Xv6.SharedOffset

/-!
# The `write` command

`write` shows a file, closes and opens it again, and writes what is typed.  The
file is one that exists; its contents are a list of bytes.  Opening sets the
offset to 0, so that the old contents are written over.
-/

namespace Xv6
namespace WriteCommand

structure File where
  off : ℕ
  readable : Bool
  writable : Bool

/-- `sys_open` of a regular file. -/
def sysOpen (omode : ℕ) (data : List UInt8) : File × List UInt8 :=
  (⟨0, omode &&& 0x001 = 0, omode &&& 0x001 ≠ 0 ∨ omode &&& 0x002 ≠ 0⟩,
    if omode &&& 0x400 ≠ 0 then [] else data)

/-- `readi` and the offset that `fileread` leaves. -/
def fileread (f : File) (data : List UInt8) (n : ℕ) : File × List UInt8 := if f.readable then
    let r := (data.drop f.off).take n
    ({ f with off := f.off + r.length }, r)
  else (f, [])

def overwrite (data : List UInt8) (off : ℕ) (src : List UInt8) : List UInt8 :=
  data.take off ++ src ++ data.drop (off + src.length)

/-- The loop of `writei` with the number of rounds left; `bmap` says whether
there is a block for a part of the file.  The result is the contents and
how much has been written. -/
def writeiLoop (bmap : ℕ → Bool) : ℕ → List UInt8 → ℕ → List UInt8 → List UInt8 × ℕ
  | 0, data, _, _ => (data, 0)
  | rounds + 1, data, off, src =>
    if src = [] ∨ bmap (off / bsize) = false then (data, 0)
    else
      let m := min src.length (bsize - off % bsize)
      let (data, tot) := writeiLoop bmap rounds
        (overwrite data off (src.take m)) (off + m) (src.drop m)
      (data, m + tot)

/-- `none` stands for -1. -/
def writei (bmap : ℕ → Bool) (data : List UInt8) (off : ℕ)
    (src : List UInt8) : List UInt8 × Option ℕ :=
  if off > data.length ∨ off + src.length > maxfile * bsize then (data, none)
  else
    let (data, tot) := writeiLoop bmap src.length data off src
    (data, some tot)

/-- The loop of `filewrite`: whether all has been written. -/
def writeLoop (bmap : ℕ → Bool) : ℕ → List UInt8 → File → List UInt8 → List UInt8 × File × Bool
  | 0, data, f, src => (data, f, src = [])
  | rounds + 1, data, f, src =>
    if src = [] then (data, f, true)
    else
      let n1 := min src.length maxWrite.toNat
      let (data, r) := writei bmap data f.off (src.take n1)
      let f := { f with off := f.off + r.getD 0 }
      if r ≠ some n1 then (data, f, false)
      else writeLoop bmap rounds data f (src.drop n1)

def filewrite (bmap : ℕ → Bool) (data : List UInt8) (f : File)
    (src : List UInt8) : List UInt8 × File × Bool :=
  if f.writable then writeLoop bmap src.length data f src
  else (data, f, false)

/-- The first loop of `main`, with what it shows. -/
def showLoop (data : List UInt8) : ℕ → File → List UInt8
  | 0, _ => []
  | rounds + 1, f =>
    let (f, buf) := fileread f data 512
    if buf = [] then [] else buf ++ showLoop data rounds f

/-- The second loop: what `read(0, ...)` returns is written until it is empty,
or until a write fails. -/
def typeLoop (bmap : ℕ → Bool) (data : List UInt8) (f : File) :
    List (List UInt8) → List UInt8 × Bool
  | [] => (data, true)
  | buf :: reads =>
    if buf = [] then (data, true)
    else
      let (data, f, ok) := filewrite bmap data f buf
      if ok then typeLoop bmap data f reads else (data, false)

/-- What is shown, the contents at the end, and whether no write failed. -/
def main (bmap : ℕ → Bool) (data : List UInt8) (reads : List (List UInt8)) :
    List UInt8 × List UInt8 × Bool :=
  let (f, data) := sysOpen (0x200 ||| 0x002) data
  let shown := showLoop data (data.length + 1) f
  let (f, data) := sysOpen (0x200 ||| 0x001) data
  (shown, typeLoop bmap data f reads)

/-! ## What is written -/

/-- The contents when `new` has been written over the start of `old`. -/
def written (old new : List UInt8) : List UInt8 := new ++ old.drop new.length

variable {bmap : ℕ → Bool} {old new : List UInt8}

theorem overwrite_written (src : List UInt8) :
    overwrite (written old new) new.length src = written old (new ++ src) := by
  simp [overwrite, written, List.drop_append]

theorem writeiLoop_written (rounds : ℕ) (src : List UInt8) :
    let r := writeiLoop bmap rounds (written old new) new.length src
    r.2 ≤ src.length ∧ r.1 = written old (new ++ src.take r.2) := by
  induction rounds generalizing new src with
  | zero => simp [writeiLoop]
  | succ rounds ih =>
    simp only [writeiLoop]
    split
    · simp
    · generalize hm : min src.length (bsize - new.length % bsize) = m
      have hlen : (src.take m).length = m := by
        simp
        omega
      have ih := @ih (new ++ src.take m) (src.drop m)
      rw [List.length_append, hlen, ← overwrite_written] at ih
      refine ⟨?_, ih.2.trans ?_⟩
      · have := ih.1
        simp only [List.length_drop] at this
        omega
      · rw [List.append_assoc, ← List.take_add]

theorem writei_written (src : List UInt8) : let r := writei bmap (written old new) new.length src
    r.2.getD 0 ≤ src.length ∧ r.1 = written old (new ++ src.take (r.2.getD 0)) := by
  unfold writei
  split
  · simp
  · exact writeiLoop_written src.length src

/-- A write that does not fail has written all. -/
theorem writeLoop_written (rounds : ℕ) {f : File} (hoff : f.off = new.length) (src : List UInt8)
    (h : (writeLoop bmap rounds (written old new) f src).2.2 = true) :
    let r := writeLoop bmap rounds (written old new) f src
    r.1 = written old (new ++ src) ∧ r.2.1.off = (new ++ src).length ∧
      r.2.1.writable = f.writable := by
  induction rounds generalizing new f src with
  | zero =>
    obtain rfl : src = [] := by simpa [writeLoop] using h
    simp [writeLoop, hoff]
  | succ rounds ih =>
    by_cases hsrc : src = []
    · simp [writeLoop, hsrc, hoff]
    · simp only [writeLoop, if_neg hsrc, hoff] at h ⊢
      generalize hn : min src.length maxWrite.toNat = n at h ⊢
      obtain ⟨-, hdata⟩ := @writei_written bmap old new (src.take n)
      split at h
      · contradiction
      · rename_i hr
        rw [not_not] at hr
        rw [if_neg (not_not.mpr hr)]
        simp only [hr, Option.getD_some, List.take_take, min_self] at hdata h ⊢
        have hlen : (new ++ src.take n).length = new.length + n := by
          simp
          omega
        rw [hdata] at h ⊢
        have ih := @ih _ { f with off := new.length + n } hlen.symm (src.drop n) h
        rwa [List.append_assoc, List.take_append_drop] at ih

theorem typeLoop_written {f : File} (hoff : f.off = new.length)
    (hw : f.writable = true) (reads : List (List UInt8))
    (hreads : ∀ buf ∈ reads, buf ≠ [])
    (h : (typeLoop bmap (written old new) f reads).2 = true) :
    (typeLoop bmap (written old new) f reads).1 = written old (new ++ reads.flatten) := by
  induction reads generalizing new f with
  | nil => simp [typeLoop]
  | cons buf reads ih =>
    rw [List.forall_mem_cons] at hreads
    simp only [typeLoop, if_neg hreads.1, filewrite, hw, if_true] at h ⊢
    split at h
    · rename_i hok
      obtain ⟨hdata, hoff', hw'⟩ := writeLoop_written buf.length hoff buf hok
      rw [if_pos hok]
      rw [hdata] at h ⊢
      rw [ih hoff' (hw'.trans hw) hreads.2 h, List.append_assoc, List.flatten_cons]
    · contradiction

/-- What is typed replaces the start of the file, so it is appended exactly if
the file or the input is empty. -/
theorem main_appends_iff (bmap : ℕ → Bool) (old : List UInt8)
    (reads : List (List UInt8)) (hreads : ∀ buf ∈ reads, buf ≠ [])
    (h : (main bmap old reads).2.2 = true) :
    (main bmap old reads).2.1 = old ++ reads.flatten ↔ old = [] ∨ reads.flatten = [] := by
  have hwritten : (main bmap old reads).2.1 = written old reads.flatten :=
    @typeLoop_written bmap old [] _ rfl rfl reads hreads h
  rw [hwritten, written]
  constructor
  · intro heq
    have hlen := congrArg List.length heq
    simp only [List.length_append, List.length_drop] at hlen
    rw [← List.length_eq_zero_iff, ← List.length_eq_zero_iff]
    omega
  · rintro (rfl | hempty)
    · simp
    · simp [hempty]

theorem main_new_file : (main (fun _ => true) [] [[98, 10]]).2.1 = [98, 10] :=
  (main_appends_iff _ [] [[98, 10]] (by decide) (by decide +kernel)).mpr
    (Or.inl rfl)

theorem main_replaces_line :
    main (fun _ => true) [97, 10] [[98, 10]] = ([97, 10], [98, 10], true) := by
  decide +kernel

end WriteCommand
end Xv6
