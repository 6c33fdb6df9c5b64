import Mathlib

/-!
# `wc`

The counts of `wc` are kept while a file is read in pieces, with a flag for
being inside a word and the length of the current line.  They are compared
with figures that are defined for the whole contents.
-/

namespace Xv6
namespace Wc

structure State where
  lines : ℕ
  words : ℕ
  chars : ℕ
  inword : Bool
  longest : ℕ
  curlen : ℕ

def space (c : UInt8) : Bool := c == 32 || c == 13 || c == 9 || c == 10 || c == 11

/-- One byte of `buf`. -/
def step (s : State) (c : UInt8) : State :=
  let s := { s with chars := s.chars + 1 }
  let s :=
    if c = 10 then
      { s with
        lines := s.lines + 1
        longest := if s.curlen > s.longest then s.curlen else s.longest
        curlen := 0 }
    else { s with curlen := s.curlen + 1 }
  if space c then { s with inword := false }
  else if !s.inword then { s with words := s.words + 1, inword := true }
  else s

/-- The loop over what `read` returns, up to its first empty answer. -/
def readLoop (s : State) : List (List UInt8) → State
  | [] => s
  | buf :: reads =>
    if buf.length > 0 then readLoop (buf.foldl step s) reads else s

structure Figures where
  lines : ℕ
  words : ℕ
  chars : ℕ
  longest : ℕ
  deriving DecidableEq

def figures (reads : List (List UInt8)) : Figures := let s := readLoop ⟨0, 0, 0, false, 0, 0⟩ reads
  { lines := s.lines, words := s.words, chars := s.chars,
    longest := if s.curlen > s.longest then s.curlen else s.longest }

/-- The `show_` flags. -/
structure Show where
  lines : Bool
  words : Bool
  chars : Bool
  longest : Bool

def Show.select (s : Show) (f : Figures) : List ℕ :=
  (if s.lines then [f.lines] else []) ++ (if s.words then [f.words] else []) ++
    (if s.chars then [f.chars] else []) ++
    if s.longest then [f.longest] else []

/-- If no flag is given, the default is shown. -/
def Show.orElse (s default : Show) : Show :=
  if !s.lines && !s.words && !s.chars && !s.longest then default else s

/-- `wc`: the totals afterwards and the numbers printed. -/
def wc (flags : Show) (total : Figures) (reads : List (List UInt8)) : Figures × List ℕ :=
  let f := figures reads
  let total :=
    { lines := total.lines + f.lines
      words := total.words + f.words
      chars := total.chars + f.chars
      longest := if f.longest > total.longest then f.longest
        else total.longest }
  (total, (flags.orElse ⟨true, true, true, true⟩).select f)

/-- The loop of `main` over the files; `none` is a file that does not open,
which ends the program. -/
def fileLoop (flags : Show) (total : Figures) :
    List (Option (List (List UInt8))) → List (List ℕ) × Option Figures
  | [] => ([], some total)
  | none :: _ => ([], none)
  | some reads :: files =>
    let (total, row) := wc flags total reads
    let (rows, total) := fileLoop flags total files
    (row :: rows, total)

/-- What `main` prints for the flags and the files of its arguments. -/
def main (flags : Show) (files : List (Option (List (List UInt8)))) :
    List (List ℕ) :=
  let (rows, total) := fileLoop flags ⟨0, 0, 0, 0⟩ files
  match total with
  | none => rows
  | some total =>
    if files.length > 1 then
      rows ++ [(flags.orElse ⟨true, true, true, false⟩).select total]
    else rows

/-! ## The figures of the contents -/

/-- Newlines, maximal runs of other bytes than blanks, bytes, and the longest
piece between newlines. -/
def contentFigures (content : List UInt8) : Figures where
  lines := content.count 10
  words := ((content.splitOnP (space ·)).filter (· ≠ [])).length
  chars := content.length
  longest := ((content.splitOn 10).map List.length).foldr max 0

/-- The sums over the files and the longest line of all. -/
def totalFigures (contents : List (List UInt8)) : Figures where
  lines := (contents.map fun c => (contentFigures c).lines).sum
  words := (contents.map fun c => (contentFigures c).words).sum
  chars := (contents.map fun c => (contentFigures c).chars).sum
  longest := (contents.map fun c => (contentFigures c).longest).foldr max 0

theorem splitOnP_cons {p : UInt8 → Bool} {l piece : List UInt8}
    {pieces : List (List UInt8)} (h : l.splitOnP p = piece :: pieces) (c : UInt8) :
    (c :: l).splitOnP p = if p c then [] :: piece :: pieces else (c :: piece) :: pieces := by
  rw [List.splitOnP_cons_eq_if_modifyHead, h]
  rfl

theorem foldl_step_lines (content : List UInt8) (s : State) : (content.foldl step s).lines =
    s.lines + content.count 10 ∧ (content.foldl step s).chars = s.chars + content.length := by
  induction content generalizing s with
  | nil => simp
  | cons c content ih =>
    obtain ⟨hlines, hchars⟩ := ih (step s c)
    rw [List.foldl_cons, hlines, hchars, List.count_cons, List.length_cons]
    by_cases hc : c = 10 <;> grind [step]

/-- A word that is open at the start is continued by the first piece. -/
theorem foldl_step_words (content : List UInt8) (s : State) : ∃ piece pieces, content.splitOnP
    (space ·) = piece :: pieces ∧ (content.foldl step s).words + (if s.inword ∧
    piece ≠ [] then 1 else 0) = s.words + ((piece :: pieces).filter (· ≠ [])).length := by
  induction content generalizing s with
  | nil => exact ⟨[], [], rfl, by simp⟩
  | cons c content ih =>
    obtain ⟨piece, pieces, hsplit, hwords⟩ := ih (step s c)
    have hcons := splitOnP_cons hsplit c
    by_cases hc : space c
    · refine ⟨[], piece :: pieces, by rw [hcons, if_pos hc], ?_⟩
      have hstep : (step s c).words = s.words ∧ (step s c).inword = false := by
        grind [step]
      simpa [hstep] using hwords
    · refine ⟨c :: piece, pieces, by rw [hcons, if_neg hc], ?_⟩
      have hstep : (step s c).inword = true ∧
          (step s c).words = s.words + if s.inword then 0 else 1 := by
        grind [step]
      by_cases hp : piece = [] <;> cases hs : s.inword <;>
        simp [hstep, hp, hs] at hwords ⊢ <;> omega

/-- So is a line. -/
theorem foldl_step_longest (content : List UInt8) (s : State) : ∃ piece pieces, content.splitOnP
    (· == 10) = piece :: pieces ∧ max (content.foldl step s).longest (content.foldl step s).curlen =
    max s.longest (max (s.curlen + piece.length) ((pieces.map List.length).foldr max 0)) := by
  induction content generalizing s with
  | nil => exact ⟨[], [], rfl, by simp⟩
  | cons c content ih =>
    obtain ⟨piece, pieces, hsplit, hlongest⟩ := ih (step s c)
    have hcons := splitOnP_cons hsplit c
    rw [List.foldl_cons, hlongest]
    by_cases hc : c = 10
    · refine ⟨[], piece :: pieces, by rw [hcons, if_pos (by simp [hc])], ?_⟩
      have hstep : (step s c).longest = max s.longest s.curlen ∧ (step s c).curlen = 0 := by
        grind [step]
      simp [hstep, max_assoc]
    · refine ⟨c :: piece, pieces, by rw [hcons, if_neg (by simp [hc])], ?_⟩
      have hstep : (step s c).longest = s.longest ∧ (step s c).curlen = s.curlen + 1 := by
        grind [step]
      rw [hstep.1, hstep.2, List.length_cons, add_assoc, add_comm 1]

theorem readLoop_eq (reads : List (List UInt8)) (h : ∀ buf ∈ reads, buf ≠ [])
    (s : State) : readLoop s reads = reads.flatten.foldl step s := by
  induction reads generalizing s with
  | nil => rfl
  | cons buf reads ih =>
    rw [List.forall_mem_cons] at h
    rw [readLoop, if_pos (List.length_pos_iff.mpr h.1), ih h.2,
      List.flatten_cons, List.foldl_append]

/-- The figures do not depend on how the contents are read. -/
theorem figures_eq (reads : List (List UInt8)) (h : ∀ buf ∈ reads, buf ≠ []) :
    figures reads = contentFigures reads.flatten := by
  obtain ⟨hlines, hchars⟩ := foldl_step_lines reads.flatten ⟨0, 0, 0, false, 0, 0⟩
  obtain ⟨_, _, hsplit, hwords⟩ := foldl_step_words reads.flatten ⟨0, 0, 0, false, 0, 0⟩
  obtain ⟨_, _, hsplit', hlongest⟩ := foldl_step_longest reads.flatten ⟨0, 0, 0, false, 0, 0⟩
  rw [figures, readLoop_eq reads h, contentFigures, hsplit, List.splitOn_eq_splitOnP, hsplit']
  grind

theorem fileLoop_eq (flags : Show) (files : List (List (List UInt8)))
    (h : ∀ reads ∈ files, ∀ buf ∈ reads, buf ≠ []) (total : Figures) :
    fileLoop flags total (files.map some) =
      (files.map fun reads => (flags.orElse ⟨true, true, true, true⟩).select
        (contentFigures reads.flatten),
      some (let t := totalFigures (files.map List.flatten)
        ⟨total.lines + t.lines, total.words + t.words, total.chars + t.chars,
          max total.longest t.longest⟩)) := by
  induction files generalizing total with
  | nil => simp [fileLoop, totalFigures]
  | cons reads files ih =>
    rw [List.forall_mem_cons] at h
    simp only [List.map_cons, fileLoop, wc, ih h.2, figures_eq reads h.1]
    simp [totalFigures, add_assoc]
    grind

/-- `wc` prints the figures of the contents, and of all of them together. -/
theorem main_eq (flags : Show) (files : List (List (List UInt8)))
    (h : ∀ reads ∈ files, ∀ buf ∈ reads, buf ≠ []) :
    main flags (files.map some) =
      (files.map fun reads => (flags.orElse ⟨true, true, true, true⟩).select
        (contentFigures reads.flatten)) ++
      if files.length > 1 then
        [(flags.orElse ⟨true, true, true, false⟩).select (totalFigures (files.map List.flatten))]
      else [] := by
  rw [main, fileLoop_eq flags files h]
  simp
  split <;> simp

/-- A word and a line that are split over two reads. -/
theorem main_two_reads : main ⟨false, false, false, false⟩ [some [[97, 98], [99, 10, 32]]] =
      [[1, 1, 5, 3]] :=
  (main_eq _ [[[97, 98], [99, 10, 32]]] (by decide)).trans (by decide +kernel)

end Wc
end Xv6
