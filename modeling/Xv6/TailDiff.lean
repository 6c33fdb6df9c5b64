import Xv6.Lib.Lines

/-!
# `tail` and `diff`

The two programs read their input one byte at a time.  A row of a buffer is
given by the characters that have been stored before its terminator.
-/

namespace Xv6

open Function (update update_self update_of_ne)
open Lines

open Lines (lines)

namespace Tail

def newline : UInt8 := '\n'.toUInt8

def maxLines : ℕ := 20

def maxLine : ℕ := 512

structure State where
  total : ℕ
  /-- What has been stored in row `total % MAX_LINES`. -/
  row : List UInt8
  rows : ℕ → List UInt8

/-- The row is terminated; `none` when the `int` overflows. -/
def State.endLine (s : State) : Option State := if s.total + 1 < 2 ^ 31 then
    some ⟨s.total + 1, [], update s.rows (s.total % maxLines) s.row⟩
  else none

def readLoop : List UInt8 → State → Option State
  | [], s => some s
  | c :: input, s =>
    if c = newline then s.endLine.bind (readLoop input)
    else if s.row.length < maxLine - 1 then
      readLoop input { s with row := s.row ++ [c] }
    else readLoop input s

def State.lastLine (s : State) : Option State := if 0 < s.row.length then s.endLine else some s

def State.printLast (n : ℕ) (s : State) : List UInt8 :=
  let start := if s.total > n then s.total - n else 0
  (List.range' start (s.total - start)).flatMap
    fun i => (s.rows (i % maxLines)).takeWhile (· ≠ 0) ++ [newline]

/-- `tail(fd, n)`: what it prints. -/
def tail (n : ℕ) (input : List UInt8) : Option (List UInt8) :=
  ((readLoop input ⟨0, [], fun _ => []⟩).bind State.lastLine).map
    (State.printLast n)

/-- The ring holds the last rows of the lines `ls`. -/
structure State.Holds (s : State) (ls : List (List UInt8)) : Prop where
  total : s.total = ls.length
  rows : ∀ i l, ls[i]? = some l → ls.length ≤ i + maxLines →
    s.rows (i % maxLines) = l.take (maxLine - 1)

variable {s : State} {ls : List (List UInt8)}

theorem State.Holds.endLine (h : s.Holds ls) {l : List UInt8}
    (hrow : s.row = l.take (maxLine - 1)) (hlt : ls.length + 1 < 2 ^ 31) :
    ∃ t, s.endLine = some t ∧ t.row = [] ∧ t.Holds (ls ++ [l]) := by
  rw [← h.total] at hlt
  refine ⟨_, if_pos hlt, rfl, by simp [h.total], ?_⟩
  intro i l' hi hle
  rw [List.length_append, List.length_singleton] at hle
  rcases Nat.lt_trichotomy i ls.length with hlt | rfl | hgt
  · rw [List.getElem?_append_left hlt] at hi
    have hne : i % maxLines ≠ s.total % maxLines := by
      rw [h.total]
      unfold maxLines at hle ⊢
      omega
    exact (update_of_ne hne _ _).trans (h.rows i l' hi (by omega))
  · rw [List.getElem?_concat_length, Option.some.injEq] at hi
    change update s.rows (s.total % maxLines) s.row _ = _
    rw [h.total, update_self, hrow, hi]
  · rw [List.getElem?_eq_none (by simp; omega)] at hi
    contradiction

theorem readLoop_holds {cur : List UInt8} (input : List UInt8)
    (hs : s.Holds ls) (hcur : newline ∉ cur) (hrow : s.row = cur.take (maxLine - 1))
    (hlt : ls.length + (lines newline (cur ++ input)).length < 2 ^ 31) :
    ∃ t ls' cur', readLoop input s = some t ∧ t.Holds (ls ++ ls') ∧ t.row = cur'.take
    (maxLine - 1) ∧ newline ∉ cur' ∧ lines newline (cur ++ input) = ls' ++ lines newline cur' := by
  induction input generalizing s ls cur with
  | nil => exact ⟨s, [], cur, rfl, by simpa using hs, hrow, hcur, by simp⟩
  | cons c input ih =>
    by_cases hc : c = newline
    · subst hc
      rw [lines_append hcur] at hlt ⊢
      rw [List.length_cons] at hlt
      obtain ⟨t, ht, htrow, hthold⟩ := hs.endLine hrow (by omega)
      have hnil : newline ∉ ([] : List UInt8) := List.not_mem_nil
      obtain ⟨u, ls', cur', hu, huhold, hurow, hcur', hlines⟩ := ih hthold hnil (by simp [htrow])
          (by simp only [List.length_append, List.nil_append, List.length_singleton]; omega)
      refine ⟨u, cur :: ls', cur', ?_, by simpa using huhold, hurow, hcur', by simpa using hlines⟩
      rw [readLoop, if_pos rfl, ht]
      exact hu
    · have hstep : ∃ t : State, readLoop (c :: input) s = readLoop input t ∧
          t.Holds ls ∧ t.row = (cur ++ [c]).take (maxLine - 1) := by
        rw [readLoop, if_neg hc, hrow, List.length_take]
        split_ifs with hlen
        · have hle : cur.length < maxLine - 1 := by omega
          refine ⟨_, rfl, ⟨hs.total, hs.rows⟩, ?_⟩
          rw [List.take_of_length_le hle.le, List.take_of_length_le (by simp; omega)]
        · refine ⟨s, rfl, hs, ?_⟩
          rw [hrow, List.take_append_of_le_length (by omega)]
      obtain ⟨t, ht, hthold, htrow⟩ := hstep
      have hcons : cur ++ c :: input = (cur ++ [c]) ++ input := by simp
      rw [hcons] at hlt ⊢
      rw [ht]
      exact ih hthold (by simp [hcur, Ne.symm hc]) htrow hlt

theorem rows_eq_drop (h : s.Holds ls) (start : ℕ) (hstart : ls.length ≤ start + maxLines) :
    (List.range' start (ls.length - start)).map
    (fun i => s.rows (i % maxLines)) = (ls.drop start).map (List.take (maxLine - 1)) := by
  apply List.ext_getElem
  · simp
  · intro i hi hi'
    simp only [List.length_map, List.length_range'] at hi
    simp only [List.getElem_map, List.getElem_range', one_mul, List.getElem_drop]
    exact h.rows _ _ (List.getElem?_eq_getElem (by omega)) (by omega)

theorem State.Holds.print (h : s.Holds ls) {n : ℕ} (hring : n ≤ maxLines ∨ ls.length ≤ maxLines) :
    s.printLast n = (ls.drop (ls.length - n)).flatMap
      fun l => (l.take (maxLine - 1)).takeWhile (· ≠ 0) ++ [newline] := by
  have hstart : (if s.total > n then s.total - n else 0) = ls.length - n := by
    rw [h.total]
    split_ifs <;> omega
  have hrows := rows_eq_drop h (ls.length - n) (by omega)
  have hprint := congrArg (List.flatMap fun r => r.takeWhile (· ≠ 0) ++ [newline]) hrows
  rw [List.flatMap_map, List.flatMap_map] at hprint
  rw [State.printLast, hstart, h.total]
  exact hprint

end Tail

namespace Diff

def newline : UInt8 := '\n'.toUInt8

def maxLine : ℕ := 512

/-- The loop of `readline`, with `buf[0..i)`: the line, and what is left of the
file. -/
def readLoop : List UInt8 → List UInt8 → List UInt8 × List UInt8
  | [], buf => (buf, [])
  | c :: file, buf =>
    if c = newline then (buf, file)
    else if buf.length + 1 ≥ maxLine - 1 then (buf ++ [c], file)
    else readLoop file (buf ++ [c])

/-- `readline` returns the length of the line. -/
def readline (file : List UInt8) : List UInt8 × List UInt8 := readLoop file []

inductive Message
  | only1 (line : ℕ) (text : List UInt8)
  | only2 (line : ℕ) (text : List UInt8)
  | differ (line : ℕ) (text1 text2 : List UInt8)
  | identical
  deriving DecidableEq

def Message.line : Message → Option ℕ
  | only1 line _ => some line
  | only2 line _ => some line
  | differ line _ _ => some line
  | identical => none

/-- What `strcmp` and `%s` see of a buffer. -/
def cstr (buf : List UInt8) : List UInt8 := buf.takeWhile (· ≠ 0)

def compare (line : ℕ) (buf1 buf2 : List UInt8) : List Message :=
  if buf1.length = 0 then [.only2 line (cstr buf2)]
  else if buf2.length = 0 then [.only1 line (cstr buf1)]
  else if cstr buf1 ≠ cstr buf2 then [.differ line (cstr buf1) (cstr buf2)]
  else []

theorem readLoop_length (file buf : List UInt8) :
    (readLoop file buf).1.length + (readLoop file buf).2.length ≤ buf.length + file.length ∧
      (readLoop file buf).2.length ≤ file.length := by
  fun_induction readLoop file buf <;> simp_all <;> omega

def loop (line : ℕ) (file1 file2 : List UInt8) : List Message := let r1 := readline file1
  let r2 := readline file2
  if r1.1.length = 0 ∧ r2.1.length = 0 then []
  else compare line r1.1 r2.1 ++ loop (line + 1) r1.2 r2.2
termination_by file1.length + file2.length
decreasing_by
  have h1 := readLoop_length file1 []
  have h2 := readLoop_length file2 []
  simp only [readline, r1, r2, List.length_nil, zero_add] at *
  omega

/-- `diff` on the contents of two files. -/
def diff (file1 file2 : List UInt8) : List Message := let out := loop 1 file1 file2
  if out.length = 0 then [.identical] else out

theorem readLoop_append {l : List UInt8} (hl : newline ∉ l)
    (file buf : List UInt8) (hlen : buf.length + l.length < maxLine - 1) :
    readLoop (l ++ newline :: file) buf = (buf ++ l, file) ∧ readLoop l buf = (buf ++ l, []) := by
  induction l generalizing buf with
  | nil => simp [readLoop]
  | cons c l ih =>
    rw [List.mem_cons, not_or] at hl
    rw [List.length_cons] at hlen
    have hstop : ¬ buf.length + 1 ≥ maxLine - 1 := by omega
    have hrest := ih hl.2 (buf ++ [c]) (by simp; omega)
    simpa [readLoop, Ne.symm hl.1, hstop] using hrest

/-- No line is empty or has more than 510 characters. -/
structure Plain (file : List UInt8) : Prop where
  nul : 0 ∉ file
  line : ∀ l ∈ lines newline file, 0 < l.length ∧ l.length < maxLine - 1

theorem Plain.readline {file : List UInt8} (h : Plain file) :
    (file = [] ∧ readline file = ([], [])) ∨ ∃ l rest, readline file = (l, rest) ∧
    0 < l.length ∧ cstr l = l ∧ lines newline file = l :: lines newline rest ∧ Plain rest := by
  have hcstr : ∀ l : List UInt8, (∀ x ∈ l, x ∈ file) → cstr l = l := by
    intro l hl
    apply List.takeWhile_eq_self_iff.mpr
    intro x hx
    exact decide_eq_true fun h0 => h.nul (h0 ▸ hl x hx)
  obtain hnl | ⟨l, rest, hnl, rfl⟩ := text_cases newline file
  · cases file with
    | nil => exact Or.inl ⟨rfl, rfl⟩
    | cons c file =>
      have hlines := lines_of_not_mem hnl (List.cons_ne_nil c file)
      have hlen := h.line (c :: file) (by simp [hlines])
      have hread := (readLoop_append hnl [] [] (by simpa using hlen.2)).2
      exact Or.inr ⟨_, [], hread, hlen.1, hcstr _ fun x hx => hx, hlines, by simp, by simp [lines]⟩
  · have hlines := lines_append hnl rest
    have hlen := h.line l (by simp [hlines])
    have hread := (readLoop_append hnl rest [] (by simpa using hlen.2)).1
    refine Or.inr ⟨l, rest, hread, hlen.1,
      hcstr l fun x hx => List.mem_append_left _ hx, hlines, ?_, ?_⟩
    · intro h0
      exact h.nul (by simp [h0])
    · intro l' hl'
      exact h.line l' (by simp [hlines, hl'])

/-- Line `k`, from 0, is the first one at which the files differ. -/
def FirstAt (ls1 ls2 : List (List UInt8)) (k : ℕ) : Prop :=
  ls1[k]? ≠ ls2[k]? ∧ ∀ j < k, ls1[j]? = ls2[j]?

theorem FirstAt.cons {ls1 ls2 : List (List UInt8)}
    {k : ℕ} (h : FirstAt ls1 ls2 k) (l : List UInt8) : FirstAt (l :: ls1) (l :: ls2) (k + 1) := by
  refine ⟨h.1, ?_⟩
  intro j hj
  cases j with
  | zero => rfl
  | succ j => exact h.2 j (Nat.lt_of_succ_lt_succ hj)

theorem loop_spec (line : ℕ) {file1 file2 : List UInt8} (h1 : Plain file1) (h2 : Plain file2) :
    match (loop line file1 file2).head? with
    | none => lines newline file1 = lines newline file2
    | some m => ∃ k, m.line = some (line + k) ∧
        FirstAt (lines newline file1) (lines newline file2) k := by
  fun_induction loop line file1 file2 with
  | case1 line file1 file2 r1 r2 hstop =>
    subst r1 r2
    obtain ⟨rfl, -⟩ | ⟨l1, rest1, hr1, hpos1, -⟩ := h1.readline
    · obtain ⟨rfl, -⟩ | ⟨l2, rest2, hr2, hpos2, -⟩ := h2.readline
      · rfl
      · exact absurd hstop.2 (by rw [hr2]; exact hpos2.ne')
    · exact absurd hstop.1 (by rw [hr1]; exact hpos1.ne')
  | case2 line file1 file2 r1 r2 hgo ih =>
    subst r1 r2
    obtain ⟨rfl, hr1⟩ | ⟨l1, rest1, hr1, hpos1, hc1, hl1, hp1⟩ := h1.readline
    · obtain ⟨rfl, hr2⟩ | ⟨l2, rest2, hr2, hpos2, -, hl2, -⟩ := h2.readline
      · exact absurd ⟨by rw [hr1]; rfl, by rw [hr2]; rfl⟩ hgo
      · rw [hr1, hr2, hl2]
        exact ⟨0, rfl, by simp [lines], nofun⟩
    · obtain ⟨rfl, hr2⟩ | ⟨l2, rest2, hr2, hpos2, hc2, hl2, hp2⟩ := h2.readline
      · rw [hr1, hr2, hl1, compare, if_neg hpos1.ne']
        exact ⟨0, rfl, by simp [lines], nofun⟩
      · rw [hr1, hr2] at ih ⊢
        rw [hl1, hl2, compare, if_neg hpos1.ne', if_neg hpos2.ne', hc1, hc2]
        by_cases heq : l1 = l2
        · rw [if_neg (not_not.mpr heq), heq, List.nil_append]
          have hrest := ih hp1 hp2
          split at hrest
          · rename_i hnone
            rw [hnone]
            exact congrArg (l2 :: ·) hrest
          · rename_i m hsome
            rw [hsome]
            obtain ⟨k, hk, hfirst⟩ := hrest
            refine ⟨k + 1, ?_, hfirst.cons l2⟩
            rw [hk, add_right_comm, add_assoc]
        · rw [if_pos heq]
          exact ⟨0, rfl, by simpa using heq, nofun⟩

theorem identical_notMem_loop (line : ℕ) (file1 file2 : List UInt8) :
    .identical ∉ loop line file1 file2 := by
  fun_induction loop line file1 file2 with
  | case1 => exact List.not_mem_nil
  | case2 line file1 file2 r1 r2 hgo ih =>
    rw [List.mem_append, not_or]
    refine ⟨?_, ih⟩
    unfold compare
    split_ifs <;> simp

end Diff

end Xv6
