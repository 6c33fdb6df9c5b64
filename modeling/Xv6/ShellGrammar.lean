import Xv6.Shell

/-!
# The grammar of the shell

The grammar is over tokens; a text spells a list of tokens with blanks between
them, where a word is as long as it can be.  `lex` is the list of tokens that
`gettoken` finds one after the other.
-/

namespace Xv6.Sh

/-! ## Trees -/

inductive Tree
  | exec (argv : List (List UInt8))
  | redir (cmd : Tree) (file : List UInt8) (mode fd : ℕ)
  | pipe (left right : Tree)
  | list (left right : Tree)
  | back (cmd : Tree)
  deriving DecidableEq

structure Redirection where
  file : List UInt8
  mode : ℕ
  fd : ℕ

/-- The redirections wrap the command one after the other. -/
def Tree.wrap (t : Tree) (rs : List Redirection) : Tree :=
  rs.foldl (fun t r => .redir t r.file r.mode r.fd) t

/-! ## Tokens and the grammar -/

inductive Tok
  | word (w : List UInt8)
  | lt
  | gt
  | gtgt
  | bar
  | amp
  | semi
  | lpar
  | rpar
  deriving DecidableEq

namespace Tok

def text : Tok → List UInt8
  | word w => w
  | lt => [byte '<']
  | gt => [byte '>']
  | gtgt => [byte '>', byte '>']
  | bar => [byte '|']
  | amp => [byte '&']
  | semi => [byte ';']
  | lpar => [byte '(']
  | rpar => [byte ')']

/-- A word is a run of characters that are neither blanks nor symbols. -/
def Ok : Tok → Prop
  | word w => w ≠ [] ∧ ∀ c ∈ w, isWordChar c
  | _ => True

/-- What may come directly after the token: a word is as long as it can be. -/
def EndsBefore : Tok → List UInt8 → Prop
  | word _, s => ∀ c ∈ s.head?, ¬isWordChar c
  | _, _ => True

end Tok

/-- The text is these tokens, with blanks between them. -/
inductive Spells : List Tok → List UInt8 → Prop
  | nil {blanks : List UInt8} (h : ∀ c ∈ blanks, isBlank c) : Spells [] blanks
  | cons {blanks : List UInt8} {t : Tok} {ts : List Tok} {s : List UInt8}
      (h : ∀ c ∈ blanks, isBlank c) (hok : t.Ok) (hend : t.EndsBefore s)
      (hs : Spells ts s) : Spells (t :: ts) (blanks ++ (t.text ++ s))

/-- A redirection: its token, the mode and the descriptor. -/
inductive IsOp : Tok → ℕ → ℕ → Prop
  | lt : IsOp .lt oRdonly 0
  | gt : IsOp .gt (oWronly ||| oCreate ||| oTrunc) 1
  | gtgt : IsOp .gtgt (oWronly ||| oCreate) 1

/-- `redir*`. -/
inductive IsRedirs : List Tok → List Redirection → Prop
  | nil : IsRedirs [] []
  | cons {op : Tok} {mode fd : ℕ} {file : List UInt8} {ts : List Tok}
      {rs : List Redirection} (hop : IsOp op mode fd) (hts : IsRedirs ts rs) :
      IsRedirs (op :: .word file :: ts) (⟨file, mode, fd⟩ :: rs)

/-- `(word redir*)*`. -/
inductive IsArgs : List Tok → List (List UInt8) → List Redirection → Prop
  | nil : IsArgs [] [] []
  | cons {w : List UInt8} {ts us : List Tok} {ws : List (List UInt8)}
      {rs rs' : List Redirection} (hts : IsRedirs ts rs)
      (hus : IsArgs us ws rs') :
      IsArgs (.word w :: (ts ++ us)) (w :: ws) (rs ++ rs')

mutual

/-- `pipe '&'* [';' line]`. -/
inductive IsLine : List Tok → Tree → Prop
  | last {ts : List Tok} {t : Tree} (h : IsPipe ts t) (n : ℕ) :
      IsLine (ts ++ List.replicate n .amp) (Tree.back^[n] t)
  | list {ts us : List Tok} {t u : Tree} (h : IsPipe ts t) (n : ℕ)
      (hrest : IsLine us u) :
      IsLine (ts ++ (List.replicate n .amp ++ .semi :: us))
        (.list (Tree.back^[n] t) u)

/-- `exec ['|' pipe]`. -/
inductive IsPipe : List Tok → Tree → Prop
  | last {ts : List Tok} {t : Tree} (h : IsExec ts t) : IsPipe ts t
  | pipe {ts us : List Tok} {t u : Tree} (h : IsExec ts t)
      (hrest : IsPipe us u) : IsPipe (ts ++ .bar :: us) (.pipe t u)

/-- `'(' line ')' redir* | redir* (word redir*)*`. -/
inductive IsExec : List Tok → Tree → Prop
  | block {ts us : List Tok} {t : Tree} {rs : List Redirection}
      (h : IsLine ts t) (hrs : IsRedirs us rs) :
      IsExec (.lpar :: (ts ++ .rpar :: us)) (t.wrap rs)
  | words {ts us : List Tok} {ws : List (List UInt8)}
      {rs rs' : List Redirection} (hrs : IsRedirs ts rs)
      (hargs : IsArgs us ws rs') (hmax : ws.length < maxargs) :
      IsExec (ts ++ us) (.wrap (.exec ws) (rs ++ rs'))

end

/-- The text is derived from `line`, and this is the tree. -/
def Derives (s : List UInt8) (t : Tree) : Prop := ∃ ts, Spells ts s ∧ IsLine ts t

/-! ## The tokens that `gettoken` finds -/

namespace Tok

/-- What `gettoken` returns for the token. -/
def ret : Tok → UInt8
  | word _ => byte 'a'
  | lt => byte '<'
  | gt => byte '>'
  | gtgt => byte '+'
  | bar => byte '|'
  | amp => byte '&'
  | semi => byte ';'
  | lpar => byte '('
  | rpar => byte ')'

def symbol : Tok → Option UInt8
  | word _ => none
  | lt => some (byte '<')
  | gt | gtgt => some (byte '>')
  | bar => some (byte '|')
  | amp => some (byte '&')
  | semi => some (byte ';')
  | lpar => some (byte '(')
  | rpar => some (byte ')')

/-- The token at the beginning of a text that begins with this character. -/
def first (c : UInt8) (s : Ptr) : Tok := if c = byte '|' then bar
  else if c = byte '(' then lpar
  else if c = byte ')' then rpar
  else if c = byte ';' then semi
  else if c = byte '&' then amp
  else if c = byte '<' then lt
  else if c = byte '>' then
    if s.head? = some (byte '>') then gtgt else gt
  else word ((c :: s).takeWhile isWordChar)

end Tok

/-- The token at the beginning of the text, and the text after it. -/
def firstTok (s : Ptr) : Option (Tok × Ptr) :=
  match skipBlanks s with
  | [] => none
  | c :: r => some (.first c r, (scan (c :: r)).2)

variable {c : UInt8} {s r : Ptr} {t : Tok} {ts : List Tok}

theorem mem_symbols : c ∈ symbols ↔ c = byte '<' ∨ c = byte '|' ∨ c = byte '>' ∨ c = byte '&' ∨
      c = byte ';' ∨ c = byte '(' ∨ c = byte ')' := by
  simp [symbols]

theorem first_word (h : c ∉ symbols) : Tok.first c s = .word ((c :: s).takeWhile isWordChar) := by
  simp only [mem_symbols, not_or] at h
  simp only [Tok.first, h, if_false]

theorem scan_word (h : c ∉ symbols) :
    scan (c :: s) = (byte 'a', (c :: s).dropWhile isWordChar) := by
  simp only [mem_symbols, not_or] at h
  simp [scan, strchr, h]

theorem first_spec (hc : isBlank c = false) : c :: s = (Tok.first c s).text ++ (scan (c :: s)).2 ∧
      (scan (c :: s)).1 = (Tok.first c s).ret ∧ (Tok.first c s).Ok ∧
      (Tok.first c s).EndsBefore (scan (c :: s)).2 := by
  by_cases hsym : c ∈ symbols
  · rw [mem_symbols] at hsym
    rcases hsym with rfl | rfl | rfl | rfl | rfl | rfl | rfl
    · exact ⟨rfl, rfl, trivial, trivial⟩
    · exact ⟨rfl, rfl, trivial, trivial⟩
    · cases s with
      | nil => exact ⟨rfl, rfl, trivial, trivial⟩
      | cons d s =>
        by_cases hd : d = byte '>'
        · subst hd
          exact ⟨rfl, rfl, trivial, trivial⟩
        · have hd' : (d :: s).head? ≠ some (byte '>') := by simpa using hd
          simp only [Tok.first, scan]
          rw [if_neg hd', if_neg hd']
          exact ⟨rfl, rfl, trivial, trivial⟩
    · exact ⟨rfl, rfl, trivial, trivial⟩
    · exact ⟨rfl, rfl, trivial, trivial⟩
    · exact ⟨rfl, rfl, trivial, trivial⟩
    · exact ⟨rfl, rfl, trivial, trivial⟩
  · have hword : isWordChar c = true := by
      have hsym' : strchr symbols c = false := by
        simpa [strchr] using hsym
      rw [isWordChar, hsym', show strchr whitespace c = false from hc]
      rfl
    rw [first_word hsym, scan_word hsym]
    refine ⟨(List.takeWhile_append_dropWhile).symm, rfl, ⟨?_, ?_⟩, ?_⟩
    · rw [List.takeWhile_cons_of_pos hword]
      exact List.cons_ne_nil _ _
    · intro d hd
      exact List.mem_takeWhile_imp hd
    · intro d hd
      have := List.head?_dropWhile_not isWordChar (c :: s)
      rw [Option.mem_def.mp hd] at this
      simpa using this

theorem firstTok_eq_none (h : firstTok s = none) : skipBlanks s = [] := by
  unfold firstTok at h
  split at h
  · assumption
  · cases h

/-- What `gettoken` does in terms of the first token. -/
structure First (s : Ptr) (t : Tok) (r : Ptr) : Prop where
  split : skipBlanks s = t.text ++ r
  scan : scan (skipBlanks s) = (t.ret, r)
  ok : t.Ok
  ends : t.EndsBefore r

theorem isBlank_of_skipBlanks (h : skipBlanks s = c :: r) : isBlank c = false := by
  have := List.head?_dropWhile_not isBlank s
  rw [← skipBlanks, h] at this
  simpa using this

theorem firstTok_spec (h : firstTok s = some (t, r)) : First s t r := by
  unfold firstTok at h
  split at h
  · cases h
  · rename_i c r' hs
    cases h
    obtain ⟨hsplit, hret, hok, hends⟩ := first_spec (isBlank_of_skipBlanks hs)
    refine ⟨by rw [hs]; exact hsplit, ?_, hok, hends⟩
    rw [hs, ← hret]

theorem Tok.Ok.text_ne_nil (h : t.Ok) : t.text ≠ [] := by
  cases t with
  | word w => exact h.1
  | _ => exact List.cons_ne_nil _ _

theorem firstTok_lt (h : firstTok s = some (t, r)) : r.length < s.length := by
  have hspec := firstTok_spec h
  have hpos := List.length_pos_iff.mpr hspec.ok.text_ne_nil
  have hle := (List.dropWhile_suffix (l := s) isBlank).length_le
  rw [← skipBlanks] at hle
  rw [hspec.split, List.length_append] at hle
  omega

def lex (s : Ptr) : List Tok :=
  match _h : firstTok s with
  | none => []
  | some (t, r) => t :: lex r
termination_by s.length
decreasing_by exact firstTok_lt _h

theorem lex_of_none (h : firstTok s = none) : lex s = [] := by
  rw [lex]
  split
  · rfl
  · rename_i heq
    rw [h] at heq
    cases heq

theorem lex_of_some (h : firstTok s = some (t, r)) : lex s = t :: lex r := by
  rw [lex]
  split
  · rename_i heq
    rw [h] at heq
    cases heq
  · rename_i heq
    rw [h] at heq
    cases heq
    rfl

@[simp] theorem skipBlanks_skipBlanks (s : Ptr) : skipBlanks (skipBlanks s) = skipBlanks s := by
  cases h : skipBlanks s with
  | nil => rfl
  | cons c r =>
    rw [skipBlanks, List.dropWhile_cons_of_neg]
    rw [isBlank_of_skipBlanks h]
    exact Bool.false_ne_true

@[simp] theorem lex_skipBlanks (s : Ptr) : lex (skipBlanks s) = lex s := by
  have hfirst : firstTok (skipBlanks s) = firstTok s := by
    unfold firstTok
    rw [skipBlanks_skipBlanks]
  cases h : firstTok s with
  | none => rw [lex_of_none h, lex_of_none (hfirst.trans h)]
  | some x => rw [lex_of_some h, lex_of_some (hfirst.trans h)]

theorem gettoken_nil (h : lex s = []) :
    skipBlanks s = [] ∧ (gettoken s).ret = 0 ∧ (gettoken s).ps = [] := by
  cases hfirst : firstTok s with
  | some x =>
    rw [lex_of_some hfirst] at h
    cases h
  | none =>
    have hnil := firstTok_eq_none hfirst
    refine ⟨hnil, ?_, ?_⟩
    · rw [gettoken, hnil]
      rfl
    · rw [gettoken, hnil]
      rfl

theorem gettoken_cons (h : lex s = t :: ts) : (gettoken s).ret = t.ret ∧ lex (gettoken s).ps = ts ∧
      (gettoken s).q = t.text ++ (gettoken s).eq ∧ t.Ok ∧ t.EndsBefore (gettoken s).eq := by
  cases hfirst : firstTok s with
  | none =>
    rw [lex_of_none hfirst] at h
    cases h
  | some x =>
    obtain ⟨t', r⟩ := x
    rw [lex_of_some hfirst] at h
    cases h
    have hspec := firstTok_spec hfirst
    have htoken : gettoken s = ⟨t.ret, skipBlanks s, r, skipBlanks r⟩ := by
      rw [gettoken, hspec.scan]
    rw [htoken]
    exact ⟨rfl, lex_skipBlanks r, hspec.split, hspec.ok, hspec.ends⟩

theorem skipBlanks_suffix (s : Ptr) : skipBlanks s <:+ s := List.dropWhile_suffix _

theorem gettoken_suffix (h : lex s = t :: ts) : (gettoken s).ps <:+ s := by
  obtain ⟨-, -, hq, -, -⟩ := gettoken_cons h
  have heq : (gettoken s).eq <:+ (gettoken s).q := by
    rw [hq]
    exact List.suffix_append _ _
  exact (skipBlanks_suffix _).trans (heq.trans (skipBlanks_suffix s))

/-- The first token is a symbol that begins with one of these characters. -/
def headIn (ts : List Tok) (toks : List UInt8) : Bool :=
  (ts.head?.bind Tok.symbol).any (strchr toks)

theorem peek_eq {toks : List UInt8} (htoks : toks ⊆ symbols) (s : Ptr) :
    peek s toks = (headIn (lex s) toks, skipBlanks s) := by
  rw [peek, Prod.mk.injEq]
  refine ⟨?_, rfl⟩
  cases hfirst : firstTok s with
  | none =>
    rw [lex_of_none hfirst, firstTok_eq_none hfirst]
    rfl
  | some x =>
    obtain ⟨t, r⟩ := x
    have hspec := firstTok_spec hfirst
    rw [lex_of_some hfirst, hspec.split]
    cases t with
    | word w =>
      obtain ⟨hne, hword⟩ := hspec.ok
      obtain ⟨c, w, rfl⟩ := List.exists_cons_of_ne_nil hne
      have hc := hword c List.mem_cons_self
      have hnot : c ∉ toks := by
        intro hmem
        have := htoks hmem
        simp [isWordChar, strchr, this] at hc
      simpa [Tok.text, strchr, headIn, Tok.symbol] using hnot
    | _ => rfl

/-! ## Spelling -/

theorem spells_lex (s : Ptr) : Spells (lex s) s := by
  have hblank : ∀ c ∈ s.takeWhile isBlank, isBlank c := fun c hc => List.mem_takeWhile_imp hc
  have hsplit : s.takeWhile isBlank ++ skipBlanks s = s := List.takeWhile_append_dropWhile
  cases hfirst : firstTok s with
  | none =>
    rw [lex_of_none hfirst]
    rw [firstTok_eq_none hfirst, List.append_nil] at hsplit
    rw [← hsplit]
    exact .nil hblank
  | some x =>
    obtain ⟨t, r⟩ := x
    have hspec := firstTok_spec hfirst
    have hrest := spells_lex r
    rw [lex_of_some hfirst]
    rw [hspec.split] at hsplit
    exact hsplit ▸ .cons hblank hspec.ok hspec.ends hrest
termination_by s.length
decreasing_by exact firstTok_lt hfirst

/-- After `>` comes a word. -/
def Followed : List Tok → Prop
  | [] => True
  | t :: ts => (t = .gt → ∃ w us, ts = .word w :: us) ∧ Followed ts

theorem Followed.append {us : List Tok} (hts : Followed ts) (hus : Followed us) :
    Followed (ts ++ us) := by
  induction ts with
  | nil => exact hus
  | cons t ts ih =>
    refine ⟨?_, ih hts.2⟩
    intro ht
    obtain ⟨w, vs, rfl⟩ := hts.1 ht
    exact ⟨w, vs ++ us, rfl⟩

theorem Followed.cons (ht : t ≠ .gt) (hts : Followed ts) : Followed (t :: ts) :=
  ⟨fun h => absurd h ht, hts⟩

theorem IsRedirs.followed {rs : List Redirection} (h : IsRedirs ts rs) : Followed ts := by
  induction h with
  | nil => trivial
  | cons hop _ ih => exact ⟨fun _ => ⟨_, _, rfl⟩, ih.cons nofun⟩

theorem IsArgs.followed {ws : List (List UInt8)} {rs : List Redirection}
    (h : IsArgs ts ws rs) : Followed ts := by
  induction h with
  | nil => trivial
  | cons hts _ ih => exact (hts.followed.append ih).cons nofun

theorem followed_replicate (n : ℕ) : Followed (List.replicate n .amp) := by
  induction n with
  | zero => trivial
  | succ n ih => exact ih.cons nofun

mutual

variable {ts : List Tok}

theorem IsLine.followed {ts : List Tok} {t : Tree} : IsLine ts t → Followed ts
  | .last h n => h.followed.append (followed_replicate n)
  | .list h n hrest =>
    h.followed.append
      ((followed_replicate n).append (hrest.followed.cons nofun))

theorem IsPipe.followed {ts : List Tok} {t : Tree} : IsPipe ts t → Followed ts
  | .last h => h.followed
  | .pipe h hrest => h.followed.append (hrest.followed.cons nofun)

theorem IsExec.followed {ts : List Tok} {t : Tree} : IsExec ts t → Followed ts
  | .block h hrs =>
    have hclose : Followed (.rpar :: _) := hrs.followed.cons nofun
    (h.followed.append hclose).cons nofun
  | .words hrs hargs _ => hrs.followed.append hargs.followed

end

theorem isBlank_of_isWordChar (h : isWordChar c) : isBlank c = false ∧ c ∉ symbols := by
  simpa [isWordChar, isBlank, strchr] using h

theorem wordEnd (h : ∀ c ∈ s.head?, ¬isWordChar c) :
    s.takeWhile isWordChar = [] ∧ s.dropWhile isWordChar = s := by
  cases s with
  | nil => exact ⟨rfl, rfl⟩
  | cons c s =>
    have hc := h c rfl
    exact ⟨List.takeWhile_cons_of_neg hc, List.dropWhile_cons_of_neg hc⟩

theorem firstTok_text (hok : t.Ok) (hend : t.EndsBefore s)
    (hgt : t = .gt → s.head? ≠ some (byte '>')) : ∃ c r, t.text ++ s = c :: r ∧
    isBlank c = false ∧ Tok.first c r = t ∧ (scan (c :: r)).2 = s := by
  cases t with
  | word w =>
    obtain ⟨hne, hword⟩ := hok
    obtain ⟨c, w, rfl⟩ := List.exists_cons_of_ne_nil hne
    obtain ⟨hblank, hsym⟩ := isBlank_of_isWordChar (hword c List.mem_cons_self)
    refine ⟨c, w ++ s, rfl, hblank, ?_, ?_⟩
    · rw [first_word hsym, ← List.cons_append, List.takeWhile_append_of_pos hword, (wordEnd hend).1,
        List.append_nil]
    · rw [scan_word hsym, ← List.cons_append, List.dropWhile_append_of_pos hword, (wordEnd hend).2]
  | gt =>
    refine ⟨byte '>', s, rfl, rfl, ?_, ?_⟩
    · change (if s.head? = some (byte '>') then Tok.gtgt else .gt) = .gt
      rw [if_neg (hgt rfl)]
    · change (if s.head? = some (byte '>') then (byte '+', s.tail)
        else (byte '>', s)).2 = s
      rw [if_neg (hgt rfl)]
  | _ => exact ⟨_, _, rfl, rfl, rfl, rfl⟩

theorem head?_ne_of_spells {w : List UInt8} (h : Spells (.word w :: ts) s) :
    s.head? ≠ some (byte '>') := by
  cases h with
  | @cons blanks _ _ s hblank hok _ _ =>
    cases blanks with
    | cons c blanks =>
      intro heq
      have hc := hblank c List.mem_cons_self
      cases heq
      exact absurd hc (by decide)
    | nil =>
      obtain ⟨hne, hword⟩ := hok
      obtain ⟨c, w, rfl⟩ := List.exists_cons_of_ne_nil hne
      intro heq
      have hc := hword c List.mem_cons_self
      cases heq
      exact absurd hc (by decide)

theorem lex_of_spells (h : Spells ts s) (hts : Followed ts) : lex s = ts := by
  induction h with
  | @nil blanks hblank =>
    apply lex_of_none
    unfold firstTok skipBlanks
    rw [List.dropWhile_eq_nil_iff.mpr hblank]
  | @cons blanks t ts s hblank hok hend hs ih =>
    have hgt : t = .gt → s.head? ≠ some (byte '>') := by
      intro ht
      obtain ⟨w, us, rfl⟩ := hts.1 ht
      exact head?_ne_of_spells hs
    obtain ⟨c, r, hcons, hc, hfirst, hscan⟩ := firstTok_text hok hend hgt
    have hskip : skipBlanks (blanks ++ (t.text ++ s)) = c :: r := by
      rw [skipBlanks, List.dropWhile_append_of_pos hblank, hcons, List.dropWhile_cons_of_neg]
      rw [hc]
      exact Bool.false_ne_true
    have hnext : firstTok (blanks ++ (t.text ++ s)) = some (t, s) := by
      unfold firstTok
      rw [hskip]
      dsimp only
      rw [hfirst, hscan]
    rw [lex_of_some hnext, ih hts.2]

theorem derives_iff {t : Tree} : Derives s t ↔ IsLine (lex s) t := by
  constructor
  · rintro ⟨ts, hs, hline⟩
    rw [lex_of_spells hs hline.followed]
    exact hline
  · intro h
    exact ⟨lex s, spells_lex s, h⟩

end Xv6.Sh
