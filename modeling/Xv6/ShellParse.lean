import Xv6.ShellGrammar

/-!
# What the parser returns

What a parser function returns is derived from the tokens that it has passed.
-/

namespace Xv6.Sh

/-! ## The tree of a command -/

def slice (a : Ptr × Ptr) : List UInt8 := a.1.take (a.1.length - a.2.length)

def Cmd.tree : Cmd → Tree
  | exec argv => .exec (argv.map slice)
  | redir cmd file efile mode fd =>
    .redir cmd.tree (slice (file, efile)) mode fd
  | pipe left right => .pipe left.tree right.tree
  | list left right => .list left.tree right.tree
  | back cmd => .back cmd.tree

/-- The pointers to the beginning and to the end of a word in `s`. -/
def Placed (s : Ptr) (a : Ptr × Ptr) : Prop :=
  a.1 <:+ s ∧ ∃ w, a.1 = w ++ a.2 ∧ (Tok.word w).Ok ∧
    (Tok.word w).EndsBefore a.2

def Cmd.Placed (s : Ptr) : Cmd → Prop
  | exec argv => ∀ a ∈ argv, Sh.Placed s a
  | redir cmd file efile _ _ => cmd.Placed s ∧ Sh.Placed s (file, efile)
  | pipe left right => left.Placed s ∧ right.Placed s
  | list left right => left.Placed s ∧ right.Placed s
  | back cmd => cmd.Placed s

theorem Placed.mono {s u : Ptr} {a : Ptr × Ptr} (h : Placed s a) (hs : s <:+ u) : Placed u a :=
  ⟨h.1.trans hs, h.2⟩

theorem Cmd.Placed.mono {s u : Ptr} {cmd : Cmd} (h : cmd.Placed s)
    (hs : s <:+ u) : cmd.Placed u := by
  induction cmd with
  | exec argv => exact fun a ha => (h a ha).mono hs
  | redir cmd file efile mode fd ih => exact ⟨ih h.1, h.2.mono hs⟩
  | pipe left right ihl ihr | list left right ihl ihr =>
    exact ⟨ihl h.1, ihr h.2⟩
  | back cmd ih => exact ih h

theorem slice_append (w eq : Ptr) : slice (w ++ eq, eq) = w := by
  simp [slice]

def Tree.pushArg (w : List UInt8) : Tree → Tree
  | exec ws => exec (ws ++ [w])
  | redir t file mode fd => redir (t.pushArg w) file mode fd
  | t => t

theorem Cmd.tree_pushArg (a : Ptr × Ptr) (cmd : Cmd) :
    (cmd.pushArg a).tree = cmd.tree.pushArg (slice a) := by
  induction cmd with
  | exec argv => simp [Cmd.pushArg, Cmd.tree, Tree.pushArg]
  | redir cmd file efile mode fd ih =>
    simp only [Cmd.pushArg, Cmd.tree, Tree.pushArg, ih]
  | pipe left right | list left right | back cmd => rfl

theorem Cmd.Placed.pushArg {s : Ptr} {a : Ptr × Ptr} {cmd : Cmd}
    (h : cmd.Placed s) (ha : Sh.Placed s a) : (cmd.pushArg a).Placed s := by
  induction cmd with
  | exec argv =>
    intro b hb
    rcases List.mem_append.mp hb with hb | hb
    · exact h b hb
    · cases List.mem_singleton.mp hb
      exact ha
  | redir cmd file efile mode fd ih => exact ⟨ih h.1, h.2⟩
  | pipe left right | list left right | back cmd => exact h

theorem Tree.wrap_append (t : Tree) (rs rs' : List Redirection) :
    t.wrap (rs ++ rs') = (t.wrap rs).wrap rs' :=
  List.foldl_append

theorem Tree.pushArg_wrap (w : List UInt8) (t : Tree) (rs : List Redirection) :
    (t.wrap rs).pushArg w = (t.pushArg w).wrap rs := by
  induction rs generalizing t with
  | nil => rfl
  | cons r rs ih => exact ih (.redir t r.file r.mode r.fd)

/-! ## Looking at the first token -/

@[simp] theorem gettoken_skipBlanks (s : Ptr) : gettoken (skipBlanks s) = gettoken s := by
  simp only [gettoken, skipBlanks_skipBlanks]

theorem headIn_eq_true {ts : List Tok} {toks : List UInt8} (h : headIn ts toks = true) :
    ∃ t us c, ts = t :: us ∧ t.symbol = some c ∧ c ∈ toks := by
  cases ts with
  | nil => cases h
  | cons t us =>
    cases hsym : t.symbol with
    | none => simp [headIn, hsym] at h
    | some c =>
      have hc : c ∈ toks := by simpa [headIn, hsym, strchr] using h
      exact ⟨t, us, c, rfl, hsym, hc⟩

theorem eq_of_symbol {t u : Tok} {c : UInt8} (ht : t.symbol = some c)
    (hu : u.symbol = some c) (hc : c ≠ byte '>') : t = u := by
  have hsame : t.symbol = u.symbol := ht.trans hu.symm
  have hgt : t.symbol ≠ some (byte '>') := by
    rw [ht]
    simpa using hc
  have hne : t.symbol ≠ none := by
    rw [ht]
    exact Option.some_ne_none c
  cases t <;> cases u <;> first
    | rfl
    | exact absurd rfl hne
    | exact absurd rfl hgt
    | exact absurd hsame (by decide)
    | exact absurd hsame hne

theorem headIn_singleton {ts : List Tok} {t : Tok} {c : UInt8} (ht : t.symbol = some c)
    (hc : c ≠ byte '>') (h : headIn ts [c] = true) : ∃ us, ts = t :: us := by
  obtain ⟨u, us, d, rfl, hu, hd⟩ := headIn_eq_true h
  cases List.mem_singleton.mp hd
  exact ⟨us, by rw [eq_of_symbol ht hu hc]⟩

theorem headIn_redir {ts : List Tok} (h : headIn ts (['<', '>'].map byte) = true) :
    ∃ op us mode fd, ts = op :: us ∧ IsOp op mode fd := by
  obtain ⟨t, us, c, rfl, ht, hc⟩ := headIn_eq_true h
  cases t with
  | word w => cases ht
  | lt => exact ⟨_, us, _, _, rfl, .lt⟩
  | gt => exact ⟨_, us, _, _, rfl, .gt⟩
  | gtgt => exact ⟨_, us, _, _, rfl, .gtgt⟩
  | _ =>
    cases ht
    exact absurd hc (by decide)

theorem redirect_ret {op : Tok} {mode fd : ℕ} (h : IsOp op mode fd) (cmd : Cmd) (q eq : Ptr) :
    redirect op.ret cmd q eq = .redir cmd q eq mode fd := by
  cases h <;> rfl

theorem IsOp.headIn {op : Tok} {mode fd : ℕ} (h : IsOp op mode fd)
    (ts : List Tok) : headIn (op :: ts) (['<', '>'].map byte) = true := by
  cases h <;> rfl

theorem gettoken_word {s : Ptr} {w : List UInt8} {ts : List Tok} (h : lex s = .word w :: ts) :
    (gettoken s).ret = byte 'a' ∧ lex (gettoken s).ps = ts ∧
    slice ((gettoken s).q, (gettoken s).eq) = w ∧ Placed s ((gettoken s).q, (gettoken s).eq) := by
  obtain ⟨hret, hps, hq, hok, hends⟩ := gettoken_cons h
  refine ⟨hret, hps, ?_, skipBlanks_suffix s, w, hq, hok, hends⟩
  rw [hq]
  exact slice_append w _

theorem word_of_ret {s : Ptr} (h : (gettoken s).ret = byte 'a') :
    ∃ w ts, lex s = .word w :: ts := by
  cases hlex : lex s with
  | nil =>
    rw [(gettoken_nil hlex).2.1] at h
    exact absurd h (by decide)
  | cons t ts =>
    rw [(gettoken_cons hlex).1] at h
    cases t with
    | word w => exact ⟨w, ts, rfl⟩
    | _ => exact absurd h (by decide)

theorem nil_of_ret {s : Ptr} (h : (gettoken s).ret = 0) : lex s = [] := by
  cases hlex : lex s with
  | nil => rfl
  | cons t ts =>
    rw [(gettoken_cons hlex).1] at h
    cases t with
    | word w => exact absurd h (by decide : byte 'a' ≠ 0)
    | _ => exact absurd h (by decide)

theorem lex_nil : lex [] = [] := lex_of_none rfl

/-! ## The parser over tokens -/

theorem parseredirs_succ (fuel : ℕ) (cmd : Cmd) (s : Ptr) :
    parseredirs (fuel + 1) cmd s = if headIn (lex s) (['<', '>'].map byte) then
        if (gettoken (gettoken s).ps).ret ≠ byte 'a' then
          .panic ⟨"missing file for redirection", none⟩
        else
          parseredirs fuel (redirect (gettoken s).ret cmd
            (gettoken (gettoken s).ps).q (gettoken (gettoken s).ps).eq)
            (gettoken (gettoken s).ps).ps
      else .ok (cmd, skipBlanks s) := by
  rw [parseredirs, peek_eq (by decide)]
  dsimp only
  rw [gettoken_skipBlanks]

theorem parseargs_succ (fuel argc : ℕ) (ret : Cmd) (s : Ptr) : parseargs (fuel + 1) argc ret s =
      if headIn (lex s) (['|', ')', '&', ';'].map byte) then
        .ok (ret, skipBlanks s)
      else if (gettoken s).ret = 0 then .ok (ret, (gettoken s).ps)
      else if (gettoken s).ret ≠ byte 'a' then .panic ⟨"syntax", none⟩
      else if argc + 1 ≥ maxargs then .panic ⟨"too many args", none⟩
      else
        parseredirs fuel (ret.pushArg ((gettoken s).q, (gettoken s).eq))
          (gettoken s).ps >>= fun x => parseargs fuel (argc + 1) x.1 x.2 := by
  rw [parseargs, peek_eq (by decide)]
  dsimp only
  rw [gettoken_skipBlanks]

theorem parseback_succ (fuel : ℕ) (cmd : Cmd) (s : Ptr) :
    parseback (fuel + 1) cmd s = if headIn (lex s) [byte '&'] then
        parseback fuel (.back cmd) (gettoken s).ps
      else .ok (cmd, skipBlanks s) := by
  rw [parseback, peek_eq (by decide)]
  dsimp only
  rw [gettoken_skipBlanks]

theorem parseline_succ (fuel : ℕ) (s : Ptr) : parseline (fuel + 1) s =
      parsepipe fuel s >>= fun x => parseback fuel x.1 x.2 >>= fun y =>
        if headIn (lex y.2) [byte ';'] then
          parseline fuel (gettoken y.2).ps >>= fun z =>
            .ok (.list y.1 z.1, z.2)
        else .ok (y.1, skipBlanks y.2) := by
  rw [parseline]
  congr 1
  funext ⟨cmd1, s1⟩
  dsimp only
  congr 1
  funext ⟨cmd2, s2⟩
  dsimp only
  rw [peek_eq (by decide)]
  dsimp only
  rw [gettoken_skipBlanks]
  rfl

theorem parsepipe_succ (fuel : ℕ) (s : Ptr) : parsepipe (fuel + 1) s = parseexec fuel s >>= fun x =>
        if headIn (lex x.2) [byte '|'] then
          parsepipe fuel (gettoken x.2).ps >>= fun y =>
            .ok (.pipe x.1 y.1, y.2)
        else .ok (x.1, skipBlanks x.2) := by
  rw [parsepipe]
  congr 1
  funext ⟨cmd1, s1⟩
  dsimp only
  rw [peek_eq (by decide)]
  dsimp only
  rw [gettoken_skipBlanks]
  rfl

theorem parseexec_succ (fuel : ℕ) (s : Ptr) : parseexec (fuel + 1) s =
      if headIn (lex s) [byte '('] then parseblock fuel (skipBlanks s)
      else
        parseredirs fuel (.exec []) (skipBlanks s) >>= fun x =>
          parseargs fuel 0 x.1 x.2 := by
  rw [parseexec, peek_eq (by decide)]

theorem parseblock_succ (fuel : ℕ) (s : Ptr) : parseblock (fuel + 1) s =
      if headIn (lex s) [byte '('] then
        parseline fuel (gettoken s).ps >>= fun x =>
          if headIn (lex x.2) [byte ')'] then
            parseredirs fuel x.1 (gettoken x.2).ps
          else .panic ⟨"syntax - missing )", none⟩
      else .panic ⟨"parseblock", none⟩ := by
  rw [parseblock, peek_eq (by decide)]
  dsimp only
  rw [gettoken_skipBlanks]
  cases headIn (lex s) [byte '('] with
  | false => rfl
  | true =>
    rw [if_pos rfl]
    change parseline fuel (gettoken s).ps >>= _ = _
    congr 1
    funext x
    rw [peek_eq (by decide)]
    dsimp only
    rw [gettoken_skipBlanks]
    cases headIn (lex x.2) [byte ')'] <;> rfl

/-! ## What has been parsed -/

theorem parseredirs_sound {fuel : ℕ} {cmd cmd' : Cmd} {s r : Ptr}
    (h : parseredirs fuel cmd s = .ok (cmd', r)) : (∃ ts rs, lex s = ts ++ lex r ∧ IsRedirs ts rs ∧
    cmd'.tree = cmd.tree.wrap rs) ∧ r <:+ s ∧ ∀ u, s <:+ u → cmd.Placed u → cmd'.Placed u := by
  induction fuel generalizing cmd s with
  | zero => cases h
  | succ fuel ih =>
    rw [parseredirs_succ] at h
    by_cases hmore : headIn (lex s) (['<', '>'].map byte) = true
    · rw [if_pos hmore] at h
      obtain ⟨op, us, mode, fd, hlex, hop⟩ := headIn_redir hmore
      obtain ⟨hret, hps, -, -, -⟩ := gettoken_cons hlex
      have hsuffix := gettoken_suffix hlex
      split at h
      · cases h
      rename_i hword
      obtain ⟨w, vs, hfile⟩ := word_of_ret (not_not.mp hword)
      obtain ⟨-, hps', hslice, hplaced⟩ := gettoken_word hfile
      have hsuffix' := gettoken_suffix hfile
      rw [hret, redirect_ret hop] at h
      obtain ⟨⟨ts, rs, hts, hredirs, htree⟩, hr, hkeep⟩ := ih h
      refine ⟨⟨op :: .word w :: ts, ⟨w, mode, fd⟩ :: rs, ?_,
        .cons hop hredirs, ?_⟩, hr.trans (hsuffix'.trans hsuffix), ?_⟩
      · rw [hlex, ← hps, hfile, ← hps', hts]
        rfl
      · rw [htree, Cmd.tree, hslice]
        rfl
      · intro u hu hcmd
        have hs := hsuffix.trans hu
        exact hkeep u (hsuffix'.trans hs) ⟨hcmd, hplaced.mono hs⟩
    · rw [if_neg hmore] at h
      cases h
      refine ⟨⟨[], [], ?_, .nil, rfl⟩, skipBlanks_suffix s, fun _ _ h => h⟩
      rw [lex_skipBlanks]
      rfl

theorem parseargs_sound {fuel argc : ℕ} {cmd cmd' : Cmd} {s r : Ptr}
    (h : parseargs fuel argc cmd s = .ok (cmd', r)) {ws : List (List UInt8)} {rs : List Redirection}
    (hcmd : cmd.tree = .wrap (.exec ws) rs) (hargc : ws.length = argc) (hmax : argc < maxargs) :
    (∃ ts ws' rs', lex s = ts ++ lex r ∧ IsArgs ts ws' rs' ∧
    cmd'.tree = .wrap (.exec (ws ++ ws')) (rs ++ rs') ∧ (ws ++ ws').length < maxargs) ∧
    r <:+ s ∧ ∀ u, s <:+ u → cmd.Placed u → cmd'.Placed u := by
  induction fuel generalizing argc cmd s ws rs with
  | zero => cases h
  | succ fuel ih =>
    rw [parseargs_succ] at h
    have hdone : ∀ r', lex r' = lex s → r' <:+ s → cmd' = cmd → r = r' →
        (∃ ts ws' rs', lex s = ts ++ lex r ∧ IsArgs ts ws' rs' ∧
        cmd'.tree = .wrap (.exec (ws ++ ws')) (rs ++ rs') ∧ (ws ++ ws').length < maxargs) ∧
        r <:+ s ∧ ∀ u, s <:+ u → cmd.Placed u → cmd'.Placed u := by
      rintro r' hlex hr' rfl rfl
      refine ⟨⟨[], [], [], hlex.symm, .nil, ?_, ?_⟩, hr', fun _ _ h => h⟩
      · rw [hcmd, List.append_nil, List.append_nil]
      · rw [List.append_nil, hargc]
        exact hmax
    split at h
    · cases h
      exact hdone _ (lex_skipBlanks s) (skipBlanks_suffix s) rfl rfl
    split at h
    · rename_i hzero
      cases h
      have hnil := nil_of_ret hzero
      have hps := (gettoken_nil hnil).2.2
      refine hdone _ ?_ ?_ rfl rfl
      · rw [hps, hnil, lex_nil]
      · rw [hps]
        exact List.nil_suffix
    split at h
    · cases h
    rename_i hword
    obtain ⟨w, vs, hlex⟩ := word_of_ret (not_not.mp hword)
    obtain ⟨-, hps, hslice, hplaced⟩ := gettoken_word hlex
    have hsuffix := gettoken_suffix hlex
    split at h
    · cases h
    rename_i hlt
    obtain ⟨⟨cmd1, s1⟩, hredirs, h⟩ := Outcome.bind_eq_ok.mp h
    obtain ⟨⟨ts, rs1, hts, hrs1, htree⟩, hs1, hkeep⟩ := parseredirs_sound hredirs
    rw [Cmd.tree_pushArg, hcmd, hslice, Tree.pushArg_wrap, ← Tree.wrap_append] at htree
    obtain ⟨⟨us, ws', rs', hus, hargs, htree', hlen⟩, hr, hkeep'⟩ :=
      ih h htree (by simp [hargc]) (by omega)
    refine ⟨⟨.word w :: (ts ++ us), w :: ws', rs1 ++ rs', ?_,
      .cons hrs1 hargs, ?_, ?_⟩, hr.trans (hs1.trans hsuffix), ?_⟩
    · rw [hlex, ← hps, hts, hus, List.cons_append, List.append_assoc]
    · rw [htree', List.append_assoc, List.append_assoc]
      rfl
    · simpa using hlen
    · intro u hu hcmd
      have hs := hsuffix.trans hu
      exact hkeep' u (hs1.trans hs) (hkeep u hs (hcmd.pushArg (hplaced.mono hu)))

theorem parseback_sound {fuel : ℕ} {cmd cmd' : Cmd} {s r : Ptr}
    (h : parseback fuel cmd s = .ok (cmd', r)) : (∃ n, lex s = List.replicate n .amp ++ lex r ∧
    cmd'.tree = Tree.back^[n] cmd.tree) ∧ r <:+ s ∧ ∀ u, cmd.Placed u → cmd'.Placed u := by
  induction fuel generalizing cmd s with
  | zero => cases h
  | succ fuel ih =>
    rw [parseback_succ] at h
    by_cases hmore : headIn (lex s) [byte '&'] = true
    · rw [if_pos hmore] at h
      obtain ⟨us, hlex⟩ := headIn_singleton (t := .amp) rfl (by decide) hmore
      obtain ⟨-, hps, -, -, -⟩ := gettoken_cons hlex
      obtain ⟨⟨n, hn, htree⟩, hr, hkeep⟩ := ih h
      refine ⟨⟨n + 1, ?_, htree⟩, hr.trans (gettoken_suffix hlex), hkeep⟩
      rw [hlex, ← hps, hn]
      rfl
    · rw [if_neg hmore] at h
      cases h
      refine ⟨⟨0, ?_, rfl⟩, skipBlanks_suffix s, fun _ h => h⟩
      rw [lex_skipBlanks]
      rfl

/-- The command is derived from the tokens between the pointers. -/
structure Parsed (X : List Tok → Tree → Prop) (s : Ptr) (cmd : Cmd) (r : Ptr) : Prop where
  tokens : ∃ ts, lex s = ts ++ lex r ∧ X ts cmd.tree
  suffix : r <:+ s
  placed : cmd.Placed s

theorem peek_symbol {s : Ptr} {t : Tok} {c : UInt8} (ht : t.symbol = some c) (hc : c ≠ byte '>')
    (h : headIn (lex s) [c] = true) : lex s = t :: lex (gettoken s).ps ∧ (gettoken s).ps <:+ s := by
  obtain ⟨us, hlex⟩ := headIn_singleton ht hc h
  refine ⟨?_, gettoken_suffix hlex⟩
  rw [(gettoken_cons hlex).2.1, hlex]

section

variable {fuel : ℕ} (ihline : ∀ s cmd r, parseline fuel s = .ok (cmd, r) → Parsed IsLine s cmd r)
  (ihpipe : ∀ s cmd r, parsepipe fuel s = .ok (cmd, r) → Parsed IsPipe s cmd r)
  (ihexec : ∀ s cmd r, parseexec fuel s = .ok (cmd, r) → Parsed IsExec s cmd r)
  (ihblock : ∀ s cmd r, parseblock fuel s = .ok (cmd, r) → Parsed IsExec s cmd r)

include ihline ihpipe in
theorem parseline_parsed {s r : Ptr} {cmd : Cmd}
    (h : parseline (fuel + 1) s = .ok (cmd, r)) : Parsed IsLine s cmd r := by
  rw [parseline_succ] at h
  obtain ⟨⟨cmd1, s1⟩, hpipe, h⟩ := Outcome.bind_eq_ok.mp h
  obtain ⟨⟨cmd2, s2⟩, hback, h⟩ := Outcome.bind_eq_ok.mp h
  obtain ⟨⟨ts, hts, hX⟩, hs1, hplaced⟩ := ihpipe _ _ _ hpipe
  obtain ⟨⟨n, hn, htree⟩, hs2, hkeep⟩ := parseback_sound hback
  dsimp only at h
  by_cases hmore : headIn (lex s2) [byte ';'] = true
  · rw [if_pos hmore] at h
    obtain ⟨hlex, hsuffix⟩ := peek_symbol (t := .semi) rfl (by decide) hmore
    obtain ⟨⟨cmd3, s3⟩, hline, h⟩ := Outcome.bind_eq_ok.mp h
    cases h
    obtain ⟨⟨us, hus, hY⟩, hs3, hplaced'⟩ := ihline _ _ _ hline
    have hs := hsuffix.trans (hs2.trans hs1)
    refine ⟨⟨ts ++ (List.replicate n .amp ++ .semi :: us), ?_, ?_⟩,
      hs3.trans hs, hkeep s hplaced, hplaced'.mono hs⟩
    · rw [hts, hn, hlex, hus]
      simp
    · rw [Cmd.tree, htree]
      exact .list hX n hY
  · rw [if_neg hmore] at h
    cases h
    refine ⟨⟨ts ++ List.replicate n .amp, ?_, ?_⟩,
      (skipBlanks_suffix _).trans (hs2.trans hs1), hkeep s hplaced⟩
    · rw [hts, hn, lex_skipBlanks, List.append_assoc]
    · rw [htree]
      exact .last hX n

include ihpipe ihexec in
theorem parsepipe_parsed {s r : Ptr} {cmd : Cmd}
    (h : parsepipe (fuel + 1) s = .ok (cmd, r)) : Parsed IsPipe s cmd r := by
  rw [parsepipe_succ] at h
  obtain ⟨⟨cmd1, s1⟩, hexec, h⟩ := Outcome.bind_eq_ok.mp h
  obtain ⟨⟨ts, hts, hX⟩, hs1, hplaced⟩ := ihexec _ _ _ hexec
  dsimp only at h
  by_cases hmore : headIn (lex s1) [byte '|'] = true
  · rw [if_pos hmore] at h
    obtain ⟨hlex, hsuffix⟩ := peek_symbol (t := .bar) rfl (by decide) hmore
    obtain ⟨⟨cmd2, s2⟩, hpipe, h⟩ := Outcome.bind_eq_ok.mp h
    cases h
    obtain ⟨⟨us, hus, hY⟩, hs2, hplaced'⟩ := ihpipe _ _ _ hpipe
    have hs := hsuffix.trans hs1
    refine ⟨⟨ts ++ .bar :: us, ?_, .pipe hX hY⟩, hs2.trans hs, hplaced, hplaced'.mono hs⟩
    rw [hts, hlex, hus, List.append_assoc]
    rfl
  · rw [if_neg hmore] at h
    cases h
    refine ⟨⟨ts, ?_, .last hX⟩, (skipBlanks_suffix _).trans hs1, hplaced⟩
    rw [hts, lex_skipBlanks]

include ihblock in
theorem parseexec_parsed {s r : Ptr} {cmd : Cmd}
    (h : parseexec (fuel + 1) s = .ok (cmd, r)) : Parsed IsExec s cmd r := by
  have hs := skipBlanks_suffix s
  rw [parseexec_succ] at h
  split at h
  · obtain ⟨⟨ts, hts, hX⟩, hr, hplaced⟩ := ihblock _ _ _ h
    refine ⟨⟨ts, ?_, hX⟩, hr.trans hs, hplaced.mono hs⟩
    rw [← lex_skipBlanks, hts]
  · obtain ⟨⟨cmd1, s1⟩, hredirs, h⟩ := Outcome.bind_eq_ok.mp h
    obtain ⟨⟨ts, rs, hts, hrs, htree⟩, hs1, hkeep⟩ := parseredirs_sound hredirs
    obtain ⟨⟨us, ws, rs', hus, hargs, htree', hlen⟩, hr, hkeep'⟩ :=
      parseargs_sound h htree rfl (by decide)
    refine ⟨⟨ts ++ us, ?_, ?_⟩, hr.trans (hs1.trans hs), ?_⟩
    · rw [← lex_skipBlanks, hts, hus, List.append_assoc]
    · rw [htree']
      exact .words hrs hargs hlen
    · exact hkeep' s (hs1.trans hs) (hkeep s hs nofun)

include ihline in
theorem parseblock_parsed {s r : Ptr} {cmd : Cmd}
    (h : parseblock (fuel + 1) s = .ok (cmd, r)) : Parsed IsExec s cmd r := by
  rw [parseblock_succ] at h
  split at h
  · rename_i hopen
    obtain ⟨hlex, hsuffix⟩ := peek_symbol (t := .lpar) rfl (by decide) hopen
    obtain ⟨⟨cmd1, s1⟩, hline, h⟩ := Outcome.bind_eq_ok.mp h
    obtain ⟨⟨ts, hts, hX⟩, hs1, hplaced⟩ := ihline _ _ _ hline
    split at h
    · rename_i hclose
      obtain ⟨hlex', hsuffix'⟩ := peek_symbol (t := .rpar) rfl (by decide) hclose
      obtain ⟨⟨us, rs, hus, hrs, htree⟩, hr, hkeep⟩ := parseredirs_sound h
      have hs := hsuffix'.trans (hs1.trans hsuffix)
      refine ⟨⟨.lpar :: (ts ++ .rpar :: us), ?_, ?_⟩, hr.trans hs, ?_⟩
      · rw [hlex, hts, hlex', hus]
        simp
      · rw [htree]
        exact .block hX hrs
      · exact hkeep s hs (hplaced.mono hsuffix)
    · cases h
  · cases h

end

theorem parse_sound (fuel : ℕ) : (∀ s cmd r, parseline fuel s = .ok (cmd, r) →
    Parsed IsLine s cmd r) ∧ (∀ s cmd r, parsepipe fuel s = .ok (cmd, r) → Parsed IsPipe s cmd r) ∧
    (∀ s cmd r, parseexec fuel s = .ok (cmd, r) → Parsed IsExec s cmd r) ∧
    (∀ s cmd r, parseblock fuel s = .ok (cmd, r) → Parsed IsExec s cmd r) := by
  induction fuel with
  | zero =>
    refine ⟨?_, ?_, ?_, ?_⟩ <;>
    · intro s cmd r h
      cases h
  | succ fuel ih =>
    obtain ⟨ihline, ihpipe, ihexec, ihblock⟩ := ih
    exact ⟨fun _ _ _ => parseline_parsed ihline ihpipe, fun _ _ _ => parsepipe_parsed ihpipe ihexec,
      fun _ _ _ => parseexec_parsed ihblock, fun _ _ _ => parseblock_parsed ihline⟩

end Xv6.Sh
