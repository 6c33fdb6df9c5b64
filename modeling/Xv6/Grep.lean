import Xv6.Lib.Lines

/-!
# `grep`

A C string is the list of the characters before its NUL.
-/

namespace Xv6.Grep

open Lines

def star : UInt8 := '*'.toUInt8
def dot : UInt8 := '.'.toUInt8
def dollar : UInt8 := '$'.toUInt8
def caret : UInt8 := '^'.toUInt8

/-- `matchstar(c, re, text)`, where `here` is `matchhere(re, ·)`. -/
def matchstar (c : UInt8) (here : List UInt8 → Bool) : List UInt8 → Bool
  | [] => here []
  | x :: text =>
    here (x :: text) || ((x == c || c == dot) && matchstar c here text)

/-- The last `if` of `matchhere`. -/
def matchone (c : UInt8) (here : List UInt8 → Bool) : List UInt8 → Bool
  | [] => false
  | x :: text => (c == dot || c == x) && here text

def matchhere : List UInt8 → List UInt8 → Bool
  | [], _ => true
  | [c], text =>
    if c = dollar then text.isEmpty else matchone c (matchhere []) text
  | c :: d :: re, text =>
    if d = star then matchstar c (matchhere re) text
    else matchone c (matchhere (d :: re)) text

/-- The loop of `match`. -/
def matchLoop (re : List UInt8) : List UInt8 → Bool
  | [] => matchhere re []
  | x :: text => matchhere re (x :: text) || matchLoop re text

/-- `match(re, text)`. -/
def matchText (re text : List UInt8) : Bool :=
  match re with
  | [] => matchLoop [] text
  | c :: re' => if c = caret then matchhere re' text else matchLoop re text

/-! ## What a pattern means -/

inductive Item
  | star (c : UInt8)
  | one (c : UInt8)
  | textEnd
  deriving DecidableEq

def items : List UInt8 → List Item
  | [] => []
  | [c] => if c = dollar then [.textEnd] else [.one c]
  | c :: d :: re =>
    if d = star then .star c :: items re else .one c :: items (d :: re)

/-- The character `c` of a pattern stands for `x`. -/
def Accepts (c x : UInt8) : Prop := c = dot ∨ x = c

/-- The item stands for the word `w` when `rest` follows. -/
def Item.Meets : Item → List UInt8 → List UInt8 → Prop
  | .star c, w, _ => ∀ x ∈ w, Accepts c x
  | .one c, w, _ => ∃ x, w = [x] ∧ Accepts c x
  | .textEnd, w, rest => w = [] ∧ rest = []

def Meets : List Item → List UInt8 → List UInt8 → Prop
  | [], w, _ => w = []
  | i :: is, w, rest =>
    ∃ u v, w = u ++ v ∧ i.Meets u (v ++ rest) ∧ Meets is v rest

/-- A word at the beginning of `text` matches. -/
def MeetsHere (is : List Item) (text : List UInt8) : Prop :=
  ∃ w rest, text = w ++ rest ∧ Meets is w rest

theorem meetsHere_cons (i : Item) (is : List Item) (text : List UInt8) : MeetsHere (i :: is) text ↔
      ∃ u v, text = u ++ v ∧ i.Meets u v ∧ MeetsHere is v := by
  constructor
  · rintro ⟨_, rest, rfl, u, v, rfl, hi, his⟩
    exact ⟨u, v ++ rest, by simp, hi, v, rest, rfl, his⟩
  · rintro ⟨u, _, rfl, hi, v, rest, rfl, his⟩
    exact ⟨u ++ v, rest, by simp, u, v, rfl, hi, his⟩

theorem matchone_iff (c : UInt8) (here : List UInt8 → Bool) (text : List UInt8) : matchone
    c here text = true ↔ ∃ u v, text = u ++ v ∧ (Item.one c).Meets u v ∧ here v = true := by
  cases text with
  | nil => simp [matchone, Item.Meets]
  | cons x text =>
    simp only [matchone, Bool.and_eq_true, Bool.or_eq_true, beq_iff_eq]
    constructor
    · rintro ⟨hc, hv⟩
      exact ⟨[x], text, rfl, ⟨x, rfl, hc.imp id Eq.symm⟩, hv⟩
    · rintro ⟨_, v, huv, ⟨y, rfl, hc⟩, hv⟩
      obtain ⟨rfl, rfl⟩ := List.cons_eq_cons.mp huv
      exact ⟨hc.imp id Eq.symm, hv⟩

theorem matchstar_iff (c : UInt8) (here : List UInt8 → Bool) (text : List UInt8) : matchstar
    c here text = true ↔ ∃ u v, text = u ++ v ∧ (Item.star c).Meets u v ∧ here v = true := by
  induction text with
  | nil => simp [matchstar, Item.Meets]
  | cons x text ih =>
    simp only [matchstar, Bool.or_eq_true, Bool.and_eq_true, ih, beq_iff_eq]
    constructor
    · rintro (hhere | ⟨hx, u, v, rfl, hu, hv⟩)
      · exact ⟨[], x :: text, rfl, by simp [Item.Meets], hhere⟩
      · exact ⟨x :: u, v, rfl, List.forall_mem_cons.mpr ⟨hx.symm, hu⟩, hv⟩
    · rintro ⟨u, v, huv, hu, hv⟩
      cases u with
      | nil => exact Or.inl (huv ▸ hv)
      | cons y u =>
        obtain ⟨rfl, rfl⟩ := List.cons_eq_cons.mp huv
        obtain ⟨hx, hu⟩ := List.forall_mem_cons.mp hu
        exact Or.inr ⟨hx.symm, u, v, rfl, hu, hv⟩

theorem matchhere_iff (re text : List UInt8) :
    matchhere re text = true ↔ MeetsHere (items re) text := by
  induction re using items.induct generalizing text with
  | case1 => simp [matchhere, items, MeetsHere, Meets]
  | case2 => simp [matchhere, items, Item.Meets, MeetsHere, Meets]
  | case3 c hc =>
    simp only [matchhere, items, if_neg hc, meetsHere_cons, matchone_iff]
    simp [MeetsHere, Meets]
  | case4 c re ih =>
    simp only [matchhere, items, if_true, meetsHere_cons, matchstar_iff, ih]
  | case5 c d re hd ih =>
    simp only [matchhere, items, if_neg hd, meetsHere_cons, matchone_iff, ih]

theorem matchLoop_iff (re text : List UInt8) : matchLoop re text = true ↔
      ∃ before text', text = before ++ text' ∧ MeetsHere (items re) text' := by
  induction text with
  | nil => simp [matchLoop, matchhere_iff]
  | cons x text ih =>
    simp only [matchLoop, Bool.or_eq_true, matchhere_iff, ih]
    constructor
    · rintro (hhere | ⟨before, text', rfl, h⟩)
      · exact ⟨[], _, rfl, hhere⟩
      · exact ⟨x :: before, text', rfl, h⟩
    · rintro ⟨before, text', heq, h⟩
      cases before with
      | nil => exact Or.inl (heq ▸ h)
      | cons y before =>
        obtain ⟨rfl, rfl⟩ := List.cons_eq_cons.mp heq
        exact Or.inr ⟨before, text', rfl, h⟩
/-- `match` finds the substrings of the text that the items of the pattern
stand for, or only prefixes when the pattern begins with `^`. -/
theorem match_meets (re text : List UInt8) : matchText re text = true ↔
      if re.head? = some caret then
        ∃ w rest, text = w ++ rest ∧ Meets (items re.tail) w rest
      else
        ∃ before w rest, text = before ++ (w ++ rest) ∧ Meets (items re) w rest := by
  have hloop : (∃ before text', text = before ++ text' ∧
      MeetsHere (items re) text') ↔ ∃ before w rest,
        text = before ++ (w ++ rest) ∧ Meets (items re) w rest := by
    constructor
    · rintro ⟨before, _, rfl, w, rest, rfl, h⟩
      exact ⟨before, w, rest, rfl, h⟩
    · rintro ⟨before, w, rest, rfl, h⟩
      exact ⟨before, _, rfl, w, rest, rfl, h⟩
  cases re with
  | nil => exact (matchLoop_iff [] text).trans hloop
  | cons c re =>
    by_cases hc : c = caret
    · have hhead : (c :: re).head? = some caret := congrArg some hc
      rw [matchText, if_pos hc, if_pos hhead]
      exact matchhere_iff re text
    · simpa [matchText, hc] using (matchLoop_iff _ text).trans hloop

/-! ## The lines of a file -/

def newline : UInt8 := '\n'.toUInt8

/-- The index of what `strchr(s, c)` points to. -/
def strchr (c : UInt8) : List UInt8 → Option ℕ
  | [] => none
  | x :: s =>
    if x = 0 then none
    else if x = c then some 0
    else (strchr c s).map (· + 1)

theorem strchr_lt {c : UInt8} {s : List UInt8} {q : ℕ}
    (h : strchr c s = some q) : q < s.length := by
  induction s generalizing q with
  | nil => contradiction
  | cons x s ih =>
    unfold strchr at h
    split_ifs at h
    · cases h
      exact Nat.zero_lt_succ _
    · obtain ⟨q, hq, rfl⟩ := Option.map_eq_some_iff.mp h
      exact Nat.succ_lt_succ (ih hq)

/-- The inner loop: what it writes, and the characters that are left from `p`
on. -/
def grepLines (pattern p : List UInt8) : List UInt8 × List UInt8 :=
  match _h : strchr newline p with
  | none => ([], p)
  | some q =>
    let line := p.take q
    let r := grepLines pattern (p.drop (q + 1))
    (if matchText pattern line then line ++ newline :: r.1 else r.1, r.2)
termination_by p.length
decreasing_by
  have := strchr_lt _h
  simp only [List.length_drop]
  omega

/-- `read` of at most `n` bytes; it may deliver fewer than there are. -/
def read (most n : ℕ) (input : List UInt8) : List UInt8 := input.take (min n (most + 1))

/-- The loop of `grep`.  The first `m` bytes of its buffer of 1024 are `buf`;
the `i`-th `read` delivers at most `split i + 1` bytes. -/
def grepLoop (pattern : List UInt8) (split : ℕ → ℕ) (i : ℕ) (buf input : List UInt8) : List UInt8 :=
  if read (split i) (1024 - buf.length - 1) input = [] then []
  else
    let piece := read (split i) (1024 - buf.length - 1) input
    let r := grepLines pattern (buf ++ piece)
    r.1 ++ grepLoop pattern split (i + 1) r.2 (input.drop piece.length)
termination_by input.length
decreasing_by
  rename_i h
  have := List.length_pos_iff.mpr h
  have : (read (split i) (1024 - buf.length - 1) input).length ≤
    input.length := List.length_take_le' _ _
  simp only [List.length_drop]
  omega

def grep (pattern : List UInt8) (split : ℕ → ℕ) (input : List UInt8) : List UInt8 :=
  grepLoop pattern split 0 [] input

def IsLine (l : List UInt8) : Prop := newline ∉ l ∧ 0 ∉ l

theorem strchr_append {l : List UInt8} (hl : IsLine l) (p : List UInt8) :
    strchr newline (l ++ newline :: p) = some l.length := by
  obtain ⟨hnl, hnul⟩ := hl
  induction l with
  | nil => rfl
  | cons x l ih =>
    rw [List.mem_cons, not_or] at hnl hnul
    simp [strchr, Ne.symm hnl.1, Ne.symm hnul.1, ih hnl.2 hnul.2]

theorem strchr_of_not_mem {c : UInt8} {p : List UInt8} (hp : c ∉ p) : strchr c p = none := by
  induction p with
  | nil => rfl
  | cons x p ih =>
    rw [List.mem_cons, not_or] at hp
    simp [strchr, Ne.symm hp.1, ih hp.2]

def matching (pattern : List UInt8) (ls : List (List UInt8)) : List UInt8 :=
  unlines newline (ls.filter (matchText pattern))

theorem matching_cons (pattern l : List UInt8) (ls : List (List UInt8)) :
    matching pattern (l :: ls) = if matchText pattern l then l ++ newline :: matching pattern ls
      else matching pattern ls := by
  unfold matching unlines
  rw [List.filter_cons]
  split <;> simp

theorem grepLines_of_not_mem (pattern : List UInt8) {p : List UInt8}
    (hp : newline ∉ p) : grepLines pattern p = ([], p) := by
  rw [grepLines]
  split
  · rfl
  · simp_all [strchr_of_not_mem hp]

theorem grepLines_line (pattern : List UInt8) {l : List UInt8} (hl : IsLine l) (p : List UInt8) :
    grepLines pattern (l ++ newline :: p) =
      (if matchText pattern l then l ++ newline :: (grepLines pattern p).1
      else (grepLines pattern p).1, (grepLines pattern p).2) := by
  rw [grepLines]
  split
  · simp_all [strchr_append hl]
  · rename_i q hq
    rw [strchr_append hl] at hq
    cases hq
    have hdrop : (l ++ newline :: p).drop (l.length + 1) = p := by
      rw [List.drop_append]
      simp
    simp [hdrop]

variable {ls : List (List UInt8)} {buf input : List UInt8}

theorem grepLines_spec (pattern : List UInt8) (hls : ∀ l ∈ ls, IsLine l)
    (h : buf ++ input = unlines newline ls) : ∃ ls', newline ∉ (grepLines pattern buf).2 ∧
    ls' <:+ ls ∧ (grepLines pattern buf).2 ++ input = unlines newline ls' ∧
    matching pattern ls = (grepLines pattern buf).1 ++ matching pattern ls' := by
  induction ls generalizing buf with
  | nil =>
    obtain ⟨rfl, rfl⟩ := List.append_eq_nil_iff.mp h
    rw [grepLines_of_not_mem pattern List.not_mem_nil]
    exact ⟨[], List.not_mem_nil, List.suffix_rfl, h, rfl⟩
  | cons l ls ih =>
    rw [List.forall_mem_cons] at hls
    obtain hpre | ⟨b, rfl, hb⟩ := unlines_split h
    · have hnl : newline ∉ buf := fun hmem => hls.1.1 (hpre.subset hmem)
      rw [grepLines_of_not_mem pattern hnl]
      exact ⟨l :: ls, hnl, List.suffix_rfl, h, rfl⟩
    · obtain ⟨ls', hnl, hsuf, htext, hout⟩ := ih hls.2 hb
      rw [grepLines_line pattern hls.1]
      refine ⟨ls', hnl, hsuf.trans (List.suffix_cons l ls), htext, ?_⟩
      rw [matching_cons, hout]
      split <;> simp

theorem length_lt_of_not_mem (hfit : ∀ l ∈ ls, l.length < 1023)
    (hbuf : newline ∉ buf) (h : buf ++ input = unlines newline ls) : buf.length < 1023 := by
  cases ls with
  | nil => simp_all [unlines]
  | cons l ls =>
    obtain hpre | ⟨b, rfl, -⟩ := unlines_split h
    · exact hpre.length_le.trans_lt (hfit l List.mem_cons_self)
    · simp at hbuf

theorem grepLoop_spec (pattern : List UInt8) (split : ℕ → ℕ) (i : ℕ) (hls : ∀ l ∈ ls, IsLine l ∧
    l.length < 1023) (hbuf : newline ∉ buf) (h : buf ++ input = unlines newline ls) :
    grepLoop pattern split i buf input = matching pattern ls := by
  have hlen := length_lt_of_not_mem (fun l hl => (hls l hl).2) hbuf h
  fun_induction grepLoop pattern split i buf input generalizing ls with
  | case1 i buf input hpiece =>
    -- There was room in the buffer, so nothing is left to be read.
    have hinput : input = [] := by
      rw [read, List.take_eq_nil_iff] at hpiece
      exact hpiece.resolve_left (by omega)
    cases ls with
    | nil => rfl
    | cons l ls =>
      rw [hinput, List.append_nil] at h
      simp [h, unlines] at hbuf
  | case2 i buf input hpiece piece r =>
    rename_i ih
    have htext : (buf ++ piece) ++ input.drop piece.length = unlines newline ls := by
      rw [← h, List.append_assoc]
      congr 1
      exact List.prefix_iff_eq_append.mp (List.take_prefix _ _)
    obtain ⟨ls', hnl, hsuf, hrest, hout⟩ := grepLines_spec pattern (fun l hl => (hls l hl).1) htext
    have hls' : ∀ l ∈ ls', IsLine l ∧ l.length < 1023 := fun l hl => hls l (hsuf.subset hl)
    rw [hout, ih hls' hnl hrest (length_lt_of_not_mem (fun l hl => (hls' l hl).2) hnl hrest)]

end Xv6.Grep
