import Mathlib

/-!
# Lines

A text is a list in which every line ends with `nl`, except that the last one
may lack it.
-/

namespace Lines

variable {α : Type*} {nl : α}

def lines [DecidableEq α] (nl : α) : List α → List (List α)
  | [] => []
  | x :: text =>
    if x = nl then [] :: lines nl text
    else
      match lines nl text with
      | [] => [[x]]
      | l :: ls => (x :: l) :: ls

/-- The text of lines that all end with `nl`. -/
def unlines (nl : α) (ls : List (List α)) : List α := ls.flatMap (· ++ [nl])

theorem lines_append [DecidableEq α] {l : List α} (hl : nl ∉ l) (text : List α) :
    lines nl (l ++ nl :: text) = l :: lines nl text := by
  induction l with
  | nil => simp [lines]
  | cons x l ih =>
    rw [List.mem_cons, not_or] at hl
    obtain ⟨hx, hl⟩ := hl
    rw [List.cons_append, lines, if_neg (Ne.symm hx), ih hl]

theorem lines_of_not_mem [DecidableEq α] {l : List α} (hl : nl ∉ l)
    (hne : l ≠ []) : lines nl l = [l] := by
  induction l with
  | nil => contradiction
  | cons x l ih =>
    rw [List.mem_cons, not_or] at hl
    obtain ⟨hx, hl⟩ := hl
    rw [lines, if_neg (Ne.symm hx)]
    cases l with
    | nil => rfl
    | cons y l => rw [ih hl (List.cons_ne_nil y l)]

theorem mem_of_mem_lines [DecidableEq α] {text l : List α} {x : α}
    (hl : l ∈ lines nl text) (hx : x ∈ l) : x ∈ text := by
  induction text generalizing l with
  | nil => simp [lines] at hl
  | cons y text ih =>
    unfold lines at hl
    split_ifs at hl with hy
    · rcases List.mem_cons.mp hl with rfl | hl
      · simp at hx
      · exact List.mem_cons_of_mem y (ih hl hx)
    · cases htext : lines nl text with
      | nil => simp_all
      | cons l' ls =>
        rw [htext] at hl ih
        rcases List.mem_cons.mp hl with rfl | hl
        · rcases List.mem_cons.mp hx with rfl | hx
          · exact List.mem_cons_self
          · exact List.mem_cons_of_mem y (ih List.mem_cons_self hx)
        · exact List.mem_cons_of_mem y (ih (List.mem_cons_of_mem l' hl) hx)

theorem text_cases (nl : α) (text : List α) :
    nl ∉ text ∨ ∃ l text', nl ∉ l ∧ text = l ++ nl :: text' := by
  classical
  by_cases hnl : nl ∈ text
  · obtain ⟨l, text', rfl, hl⟩ := List.eq_append_cons_of_mem hnl
    exact Or.inr ⟨l, text', hl, rfl⟩
  · exact Or.inl hnl

theorem unlines_split {l b rest : List α} {ls : List (List α)}
    (h : b ++ rest = unlines nl (l :: ls)) :
    b <+: l ∨ ∃ b', b = l ++ nl :: b' ∧ b' ++ rest = unlines nl ls := by
  rw [unlines, List.flatMap_cons, List.append_assoc] at h
  obtain ⟨a, rfl, -⟩ | ⟨a, rfl, hrest⟩ := List.append_eq_append_iff.mp h
  · exact Or.inl (List.prefix_append b a)
  · cases a with
    | nil => exact Or.inl (by simp)
    | cons x b' =>
      obtain ⟨rfl, htail⟩ := List.cons_eq_cons.mp hrest
      exact Or.inr ⟨b', rfl, htail.symm⟩

end Lines
