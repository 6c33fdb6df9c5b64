import Xv6.ShellParse

/-!
# What the parser accepts

Where the tokens are derived from the grammar, and are followed by what may
follow there, the parser function returns the tree.  Four calls for each token
are deep enough for every text.
-/

namespace Xv6.Sh

/-! ## What the grammar derives is parsed -/

/-- The tokens that follow begin with one of these, if there are any. -/
def Ends (toks : List Tok) (rest : List Tok) : Prop := ∀ t ∈ rest.head?, t ∈ toks

variable {rest : List Tok} {rs : List Redirection}

theorem Ends.mono {toks toks' : List Tok} (h : Ends toks rest)
    (hsub : toks ⊆ toks') : Ends toks' rest :=
  fun t ht => hsub (h t ht)

theorem Ends.headIn_redir (h : Ends [.bar, .amp, .semi, .rpar] rest) :
    headIn rest (['<', '>'].map byte) = false := by
  cases rest with
  | nil => rfl
  | cons t rest =>
    have ht := h t rfl
    simp only [List.mem_cons, List.not_mem_nil, or_false] at ht
    rcases ht with rfl | rfl | rfl | rfl <;> rfl

theorem parseredirs_complete {ts : List Tok} (h : IsRedirs ts rs) (fuel : ℕ) (cmd : Cmd)
    {s : Ptr} (hlex : lex s = ts ++ rest) (hrest : headIn rest (['<', '>'].map byte) = false)
    (hfuel : ts.length < fuel) : ∃ cmd' r, parseredirs fuel cmd s = .ok (cmd', r) ∧
    lex r = rest ∧ cmd'.tree = cmd.tree.wrap rs := by
  induction h generalizing fuel cmd s with
  | nil =>
    obtain ⟨fuel, rfl⟩ := Nat.exists_eq_add_one_of_ne_zero hfuel.ne'
    rw [List.nil_append] at hlex
    refine ⟨cmd, skipBlanks s, ?_, by rw [lex_skipBlanks, hlex], rfl⟩
    rw [parseredirs_succ, hlex, hrest]
    rfl
  | @cons op mode fd file ts rs hop hts ih =>
    rw [List.length_cons, List.length_cons] at hfuel
    obtain ⟨fuel, rfl⟩ := Nat.exists_eq_add_one_of_ne_zero (by omega : fuel ≠ 0)
    obtain ⟨hret, hps, -, -, -⟩ := gettoken_cons hlex
    obtain ⟨hret', hps', hslice, -⟩ := gettoken_word hps
    obtain ⟨cmd', r, hparse, hr, htree⟩ :=
      ih fuel (.redir cmd (gettoken (gettoken s).ps).q
        (gettoken (gettoken s).ps).eq mode fd) hps' (by omega)
    refine ⟨cmd', r, ?_, hr, ?_⟩
    · rw [parseredirs_succ, hlex, List.cons_append, hop.headIn, if_pos rfl,
        if_neg (not_not.mpr hret'), hret, redirect_ret hop]
      exact hparse
    · rw [htree, Cmd.tree, hslice]
      rfl

theorem IsArgs.headIn_redir {us : List Tok} {ws : List (List UInt8)}
    (h : IsArgs us ws rs) (hrest : Ends [.bar, .amp, .semi, .rpar] rest) :
    headIn (us ++ rest) (['<', '>'].map byte) = false := by
  cases h with
  | nil => exact hrest.headIn_redir
  | cons hts hus => rfl

theorem parseargs_complete {us : List Tok} {ws' : List (List UInt8)} {rs' : List Redirection}
    (h : IsArgs us ws' rs') (fuel argc : ℕ) {cmd : Cmd} {s : Ptr} {ws : List (List UInt8)}
    (hlex : lex s = us ++ rest) (hrest : Ends [.bar, .amp, .semi, .rpar] rest)
    (hcmd : cmd.tree = .wrap (.exec ws) rs) (hmax : argc + ws'.length < maxargs)
    (hfuel : us.length < fuel) : ∃ cmd' r, parseargs fuel argc cmd s = .ok (cmd', r) ∧
    lex r = rest ∧ cmd'.tree = .wrap (.exec (ws ++ ws')) (rs ++ rs') := by
  induction h generalizing fuel argc cmd s ws rs with
  | nil =>
    obtain ⟨fuel, rfl⟩ := Nat.exists_eq_add_one_of_ne_zero hfuel.ne'
    rw [List.nil_append] at hlex
    rw [parseargs_succ, hlex, List.append_nil, List.append_nil]
    cases rest with
    | nil =>
      obtain ⟨-, hret, hps⟩ := gettoken_nil hlex
      refine ⟨cmd, (gettoken s).ps, ?_, ?_, hcmd⟩
      · rw [if_neg (by decide), if_pos hret]
      · rw [hps, lex_nil]
    | cons t rest =>
      refine ⟨cmd, skipBlanks s, ?_, by rw [lex_skipBlanks, hlex], hcmd⟩
      have ht := hrest t rfl
      simp only [List.mem_cons, List.not_mem_nil, or_false] at ht
      rcases ht with rfl | rfl | rfl | rfl <;> rfl
  | @cons w ts us ws' rs1 rs' hts hus ih =>
    rw [List.cons_append, List.append_assoc] at hlex
    rw [List.length_cons, List.length_append] at hfuel
    rw [List.length_cons] at hmax
    obtain ⟨fuel, rfl⟩ := Nat.exists_eq_add_one_of_ne_zero (by omega : fuel ≠ 0)
    obtain ⟨hret, hps, hslice, -⟩ := gettoken_word hlex
    obtain ⟨cmd1, s1, hparse1, hs1, htree1⟩ := parseredirs_complete hts fuel
      (cmd.pushArg ((gettoken s).q, (gettoken s).eq)) hps (hus.headIn_redir hrest) (by omega)
    rw [Cmd.tree_pushArg, hcmd, hslice, Tree.pushArg_wrap, ← Tree.wrap_append] at htree1
    obtain ⟨cmd', r, hparse, hr, htree⟩ := ih fuel (argc + 1) hs1 htree1 (by omega) (by omega)
    refine ⟨cmd', r, ?_, hr, ?_⟩
    · have hzero : (gettoken s).ret ≠ 0 := by
        rw [hret]
        decide
      rw [parseargs_succ, hlex, if_neg (by exact Bool.false_ne_true),
        if_neg hzero, if_neg (not_not.mpr hret), if_neg (by omega), hparse1]
      exact hparse
    · rw [htree, List.append_assoc, List.append_assoc]
      rfl

theorem parseback_complete (n fuel : ℕ) (cmd : Cmd) {s : Ptr}
    (hlex : lex s = List.replicate n .amp ++ rest) (hrest : headIn rest [byte '&'] = false)
    (hfuel : n < fuel) : ∃ cmd' r, parseback fuel cmd s = .ok (cmd', r) ∧
    lex r = rest ∧ cmd'.tree = Tree.back^[n] cmd.tree := by
  induction n generalizing fuel cmd s with
  | zero =>
    obtain ⟨fuel, rfl⟩ := Nat.exists_eq_add_one_of_ne_zero hfuel.ne'
    rw [List.replicate_zero, List.nil_append] at hlex
    refine ⟨cmd, skipBlanks s, ?_, by rw [lex_skipBlanks, hlex], rfl⟩
    rw [parseback_succ, hlex, hrest]
    rfl
  | succ n ih =>
    obtain ⟨fuel, rfl⟩ := Nat.exists_eq_add_one_of_ne_zero (by omega : fuel ≠ 0)
    obtain ⟨-, hps, -, -, -⟩ := gettoken_cons hlex
    obtain ⟨cmd', r, hparse, hr, htree⟩ := ih fuel (.back cmd) hps (by omega)
    refine ⟨cmd', r, ?_, hr, htree⟩
    rw [parseback_succ, hlex]
    exact hparse

/-- The function returns the tree and stops before the rest. -/
def Returns (x : Outcome (Cmd × Ptr)) (t : Tree) (rest : List Tok) : Prop :=
  ∃ cmd r, x = .ok (cmd, r) ∧ lex r = rest ∧ cmd.tree = t

section

variable {fuel : ℕ}
  (ihline : ∀ s ts t rest, IsLine ts t → lex s = ts ++ rest → Ends [.rpar] rest → 4 * ts.length + 4 ≤ fuel → Returns (parseline fuel s) t rest)
  (ihpipe : ∀ s ts t rest, IsPipe ts t → lex s = ts ++ rest → Ends [.amp, .semi, .rpar] rest → 4 * ts.length + 3 ≤ fuel → Returns (parsepipe fuel s) t rest)
  (ihexec : ∀ s ts t rest, IsExec ts t → lex s = ts ++ rest → Ends [.bar, .amp, .semi, .rpar] rest → 4 * ts.length + 2 ≤ fuel → Returns (parseexec fuel s) t rest)

variable {rest ts : List Tok} {s : Ptr} {t : Tree}

theorem ends_replicate {n : ℕ} {toks : List Tok} (h : Ends toks rest) :
    Ends (.amp :: toks) (List.replicate n .amp ++ rest) := by
  cases n with
  | zero => exact h.mono (List.subset_cons_self _ _)
  | succ n =>
    intro t ht
    cases ht
    exact List.mem_cons_self

include ihpipe in
theorem parsepipe_back
    {n : ℕ} (h : IsPipe ts t) (hlex : lex s = ts ++ (List.replicate n .amp ++ rest))
    (hrest : Ends [.semi, .rpar] rest) (hfuel : 4 * ts.length + 3 ≤ fuel) (hn : n < fuel) :
    ∃ cmd1 s1 cmd2 s2, parsepipe fuel s = .ok (cmd1, s1) ∧
    parseback fuel cmd1 s1 = .ok (cmd2, s2) ∧ lex s2 = rest ∧ cmd2.tree = Tree.back^[n] t := by
  obtain ⟨cmd1, s1, hpipe, hs1, htree⟩ := ihpipe s ts t _ h hlex (ends_replicate hrest) hfuel
  have hamp : headIn rest [byte '&'] = false := by
    cases rest with
    | nil => rfl
    | cons u rest =>
      have hu := hrest u rfl
      simp only [List.mem_cons, List.not_mem_nil, or_false] at hu
      rcases hu with rfl | rfl <;> rfl
  obtain ⟨cmd2, s2, hback, hs2, htree'⟩ := parseback_complete n fuel cmd1 hs1 hamp hn
  rw [htree] at htree'
  exact ⟨cmd1, s1, cmd2, s2, hpipe, hback, hs2, htree'⟩

include ihline ihpipe in
theorem parseline_returns (h : IsLine ts t) (hlex : lex s = ts ++ rest) (hrest : Ends [.rpar] rest)
    (hfuel : 4 * ts.length + 4 ≤ fuel + 1) : Returns (parseline (fuel + 1) s) t rest := by
  rw [parseline_succ]
  cases h with
  | @last ts t h n =>
    rw [List.length_append, List.length_replicate] at hfuel
    rw [List.append_assoc] at hlex
    obtain ⟨cmd1, s1, cmd2, s2, hpipe, hback, hs2, htree⟩ :=
      parsepipe_back ihpipe h hlex (hrest.mono (by decide)) (by omega) (by omega)
    refine ⟨cmd2, skipBlanks s2, ?_, ?_, htree⟩
    · have hsemi : headIn rest [byte ';'] = false := by
        cases rest with
        | nil => rfl
        | cons u rest =>
          cases List.mem_singleton.mp (hrest u rfl)
          rfl
      rw [hpipe, Outcome.ok_bind, hback, Outcome.ok_bind, hs2, hsemi]
      rfl
    · rw [lex_skipBlanks, hs2]
  | @list ts us t u h n hline =>
    simp only [List.length_append, List.length_replicate, List.length_cons] at hfuel
    rw [List.append_assoc, List.append_assoc] at hlex
    have hsemi : Ends [.semi, .rpar] (.semi :: us ++ rest) := by
      intro u hu
      cases hu
      exact List.mem_cons_self
    obtain ⟨cmd1, s1, cmd2, s2, hpipe, hback, hs2, htree⟩ :=
      parsepipe_back ihpipe h hlex hsemi (by omega) (by omega)
    obtain ⟨-, hps, -, -, -⟩ := gettoken_cons hs2
    obtain ⟨cmd3, s3, hparse, hs3, htree'⟩ := ihline _ us u rest hline hps hrest (by omega)
    refine ⟨.list cmd2 cmd3, s3, ?_, hs3, ?_⟩
    · rw [hpipe, Outcome.ok_bind, hback, Outcome.ok_bind, hs2]
      change parseline fuel (gettoken s2).ps >>= _ = _
      rw [hparse]
      rfl
    · rw [Cmd.tree, htree, htree']

include ihpipe ihexec in
theorem parsepipe_returns (h : IsPipe ts t) (hlex : lex s = ts ++ rest)
    (hrest : Ends [.amp, .semi, .rpar] rest) (hfuel : 4 * ts.length + 3 ≤ fuel + 1) :
    Returns (parsepipe (fuel + 1) s) t rest := by
  rw [parsepipe_succ]
  cases h with
  | last h =>
    obtain ⟨cmd1, s1, hexec, hs1, htree⟩ :=
      ihexec s ts t rest h hlex (hrest.mono (by decide)) (by omega)
    refine ⟨cmd1, skipBlanks s1, ?_, by rw [lex_skipBlanks, hs1], htree⟩
    have hbar : headIn rest [byte '|'] = false := by
      cases rest with
      | nil => rfl
      | cons u rest =>
        have hu := hrest u rfl
        simp only [List.mem_cons, List.not_mem_nil, or_false] at hu
        rcases hu with rfl | rfl | rfl <;> rfl
    rw [hexec, Outcome.ok_bind, hs1, hbar]
    rfl
  | @pipe ts us t u h hpipe =>
    simp only [List.length_append, List.length_cons] at hfuel
    rw [List.append_assoc] at hlex
    have hbar : Ends [.bar, .amp, .semi, .rpar] (.bar :: us ++ rest) := by
      intro u hu
      cases hu
      exact List.mem_cons_self
    obtain ⟨cmd1, s1, hexec, hs1, htree⟩ := ihexec s ts t _ h hlex hbar (by omega)
    obtain ⟨-, hps, -, -, -⟩ := gettoken_cons hs1
    obtain ⟨cmd2, s2, hparse, hs2, htree'⟩ := ihpipe _ us u rest hpipe hps hrest (by omega)
    refine ⟨.pipe cmd1 cmd2, s2, ?_, hs2, ?_⟩
    · rw [hexec, Outcome.ok_bind, hs1]
      change parsepipe fuel (gettoken s1).ps >>= _ = _
      rw [hparse]
      rfl
    · rw [Cmd.tree, htree, htree']

include ihline in
theorem parseblock_returns {us : List Tok} {rs : List Redirection}
    (h : IsLine ts t) (hrs : IsRedirs us rs) (hlex : lex s = .lpar :: (ts ++ .rpar :: us) ++ rest)
    (hrest : Ends [.bar, .amp, .semi, .rpar] rest)
    (hfuel : 4 * (.lpar :: (ts ++ .rpar :: us)).length + 1 ≤ fuel + 1) :
    Returns (parseblock (fuel + 1) s) (t.wrap rs) rest := by
  simp only [List.length_append, List.length_cons] at hfuel
  rw [List.cons_append, List.append_assoc] at hlex
  obtain ⟨-, hps, -, -, -⟩ := gettoken_cons hlex
  have hclose : Ends [.rpar] (.rpar :: us ++ rest) := by
    intro u hu
    cases hu
    exact List.mem_cons_self
  obtain ⟨cmd1, s1, hparse, hs1, htree⟩ := ihline _ ts t _ h hps hclose (by omega)
  obtain ⟨-, hps', -, -, -⟩ := gettoken_cons hs1
  obtain ⟨cmd2, s2, hredirs, hs2, htree'⟩ :=
    parseredirs_complete hrs fuel cmd1 hps' hrest.headIn_redir (by omega)
  refine ⟨cmd2, s2, ?_, hs2, by rw [htree', htree]⟩
  rw [parseblock_succ, hlex]
  change parseline fuel (gettoken s).ps >>= _ = _
  rw [hparse, Outcome.ok_bind, hs1]
  exact hredirs

theorem parseexec_returns (ihblock : ∀ s ts us t rs rest, IsLine ts t →
    IsRedirs us rs → lex s = .lpar :: (ts ++ .rpar :: us) ++ rest →
    Ends [.bar, .amp, .semi, .rpar] rest → 4 * (.lpar :: (ts ++ .rpar :: us)).length + 1 ≤ fuel →
    Returns (parseblock fuel s) (t.wrap rs) rest) (h : IsExec ts t) (hlex : lex s = ts ++ rest)
    (hrest : Ends [.bar, .amp, .semi, .rpar] rest) (hfuel : 4 * ts.length + 2 ≤ fuel + 1) :
    Returns (parseexec (fuel + 1) s) t rest := by
  rw [parseexec_succ]
  have hskip := lex_skipBlanks s
  cases h with
  | block h hrs =>
    rw [hlex]
    exact ihblock _ _ _ _ _ rest h hrs (hskip.trans hlex) hrest (by omega)
  | @words ts us ws rs rs' hrs hargs hmax =>
    rw [List.length_append] at hfuel
    rw [List.append_assoc] at hlex
    have hopen : headIn (lex s) [byte '('] = false := by
      rw [hlex]
      cases hrs with
      | cons hop _ => cases hop <;> rfl
      | nil =>
        cases hargs with
        | cons _ _ => rfl
        | nil =>
          cases rest with
          | nil => rfl
          | cons u rest =>
            have hu := hrest u rfl
            simp only [List.mem_cons, List.not_mem_nil, or_false] at hu
            rcases hu with rfl | rfl | rfl | rfl <;> rfl
    obtain ⟨cmd1, s1, hredirs, hs1, htree⟩ := parseredirs_complete hrs fuel
      (.exec []) (hskip.trans hlex) (hargs.headIn_redir hrest) (by omega)
    obtain ⟨cmd2, s2, hparse, hs2, htree'⟩ := parseargs_complete hargs fuel 0
      hs1 hrest htree (by omega) (by omega)
    refine ⟨cmd2, s2, ?_, hs2, htree'⟩
    rw [hopen, hredirs]
    exact hparse

end

theorem parse_complete (fuel : ℕ) : (∀ s ts t rest, IsLine ts t → lex s = ts ++ rest →
    Ends [.rpar] rest → 4 * ts.length + 4 ≤ fuel → Returns (parseline fuel s) t rest) ∧
    (∀ s ts t rest, IsPipe ts t → lex s = ts ++ rest → Ends [.amp, .semi, .rpar] rest →
    4 * ts.length + 3 ≤ fuel → Returns (parsepipe fuel s) t rest) ∧ (∀ s ts t rest, IsExec ts t →
    lex s = ts ++ rest → Ends [.bar, .amp, .semi, .rpar] rest → 4 * ts.length + 2 ≤ fuel →
    Returns (parseexec fuel s) t rest) ∧ (∀ s ts us t rs rest, IsLine ts t →
    IsRedirs us rs → lex s = .lpar :: (ts ++ .rpar :: us) ++ rest →
    Ends [.bar, .amp, .semi, .rpar] rest → 4 * (.lpar :: (ts ++ .rpar :: us)).length + 1 ≤ fuel →
    Returns (parseblock fuel s) (t.wrap rs) rest) := by
  induction fuel with
  | zero =>
    refine ⟨?_, ?_, ?_, ?_⟩
    · intro s ts t rest _ _ _ hfuel
      omega
    · intro s ts t rest _ _ _ hfuel
      omega
    · intro s ts t rest _ _ _ hfuel
      omega
    · intro s ts us t rs rest _ _ _ _ hfuel
      omega
  | succ fuel ih =>
    obtain ⟨ihline, ihpipe, ihexec, ihblock⟩ := ih
    exact ⟨fun _ _ _ _ => parseline_returns ihline ihpipe,
      fun _ _ _ _ => parsepipe_returns ihpipe ihexec,
      fun _ _ _ _ => parseexec_returns ihblock, fun _ _ _ _ _ _ => parseblock_returns ihline⟩

/-! ## Termination -/

theorem parseredirs_ne_running (fuel : ℕ) (cmd : Cmd) (s : Ptr)
    (h : (lex s).length < fuel) : parseredirs fuel cmd s ≠ .running := by
  induction fuel generalizing cmd s with
  | zero => omega
  | succ fuel ih =>
    rw [parseredirs_succ]
    split
    · rename_i hmore
      obtain ⟨op, us, mode, fd, hlex, -⟩ := headIn_redir hmore
      have hps := (gettoken_cons hlex).2.1
      split
      · exact nofun
      · rename_i hword
        obtain ⟨w, vs, hfile⟩ := word_of_ret (not_not.mp hword)
        have hps' := (gettoken_word hfile).2.1
        apply ih
        rw [hlex, ← hps, hfile, List.length_cons, List.length_cons] at h
        rw [hps']
        omega
    · exact nofun

theorem parseargs_ne_running (fuel argc : ℕ) (cmd : Cmd) (s : Ptr)
    (h : (lex s).length < fuel) : parseargs fuel argc cmd s ≠ .running := by
  induction fuel generalizing argc cmd s with
  | zero => omega
  | succ fuel ih =>
    rw [parseargs_succ]
    split
    · exact nofun
    split
    · exact nofun
    split
    · exact nofun
    rename_i hword
    obtain ⟨w, vs, hlex⟩ := word_of_ret (not_not.mp hword)
    have hps := (gettoken_word hlex).2.1
    rw [hlex, List.length_cons] at h
    split
    · exact nofun
    · apply Outcome.bind_ne_running
      · apply parseredirs_ne_running
        rw [hps]
        omega
      · rintro ⟨cmd1, s1⟩ hredirs
        obtain ⟨⟨ts, rs, hts, -, -⟩, -, -⟩ := parseredirs_sound hredirs
        apply ih
        rw [hps] at hts
        rw [hts, List.length_append] at h
        dsimp only
        omega

theorem parseback_ne_running (fuel : ℕ) (cmd : Cmd) (s : Ptr)
    (h : (lex s).length < fuel) : parseback fuel cmd s ≠ .running := by
  induction fuel generalizing cmd s with
  | zero => omega
  | succ fuel ih =>
    rw [parseback_succ]
    split
    · rename_i hmore
      have hlex := (peek_symbol (t := .amp) rfl (by decide) hmore).1
      apply ih
      rw [hlex, List.length_cons] at h
      omega
    · exact nofun

theorem Parsed.length_le {X : List Tok → Tree → Prop} {s r : Ptr} {cmd : Cmd}
    (h : Parsed X s cmd r) : (lex r).length ≤ (lex s).length := by
  obtain ⟨ts, hts, -⟩ := h.tokens
  rw [hts, List.length_append]
  omega

section

variable {fuel : ℕ} (ihline : ∀ s, 4 * (lex s).length + 4 ≤ fuel → parseline fuel s ≠ .running)
  (ihpipe : ∀ s, 4 * (lex s).length + 3 ≤ fuel → parsepipe fuel s ≠ .running)
  (ihexec : ∀ s, 4 * (lex s).length + 2 ≤ fuel → parseexec fuel s ≠ .running)
  (ihblock : ∀ s, 4 * (lex s).length + 1 ≤ fuel → parseblock fuel s ≠ .running)

include ihline ihpipe in
theorem parseline_ne_running (s : Ptr) (h : 4 * (lex s).length + 4 ≤ fuel + 1) :
    parseline (fuel + 1) s ≠ .running := by
  rw [parseline_succ]
  apply Outcome.bind_ne_running (ihpipe s (by omega))
  rintro ⟨cmd1, s1⟩ h1
  have hle := ((parse_sound fuel).2.1 _ _ _ h1).length_le
  dsimp only
  apply Outcome.bind_ne_running (parseback_ne_running _ _ _ (by omega))
  rintro ⟨cmd2, s2⟩ h2
  obtain ⟨⟨n, hn, -⟩, -, -⟩ := parseback_sound h2
  rw [hn, List.length_append] at hle
  dsimp only
  split
  · rename_i hmore
    have hlex := (peek_symbol (t := .semi) rfl (by decide) hmore).1
    rw [hlex, List.length_cons] at hle
    exact Outcome.bind_ne_running (ihline _ (by omega)) fun _ _ => nofun
  · exact nofun

include ihpipe ihexec in
theorem parsepipe_ne_running (s : Ptr) (h : 4 * (lex s).length + 3 ≤ fuel + 1) :
    parsepipe (fuel + 1) s ≠ .running := by
  rw [parsepipe_succ]
  apply Outcome.bind_ne_running (ihexec s (by omega))
  rintro ⟨cmd1, s1⟩ h1
  have hle := ((parse_sound fuel).2.2.1 _ _ _ h1).length_le
  dsimp only
  split
  · rename_i hmore
    have hlex := (peek_symbol (t := .bar) rfl (by decide) hmore).1
    rw [hlex, List.length_cons] at hle
    exact Outcome.bind_ne_running (ihpipe _ (by omega)) fun _ _ => nofun
  · exact nofun

include ihblock in
theorem parseexec_ne_running (s : Ptr) (h : 4 * (lex s).length + 2 ≤ fuel + 1) :
    parseexec (fuel + 1) s ≠ .running := by
  rw [parseexec_succ]
  have hskip : (lex (skipBlanks s)).length = (lex s).length := by
    rw [lex_skipBlanks]
  split
  · exact ihblock _ (by omega)
  · apply Outcome.bind_ne_running (parseredirs_ne_running _ _ _ (by omega))
    rintro ⟨cmd1, s1⟩ h1
    obtain ⟨⟨ts, rs, hts, -, -⟩, -, -⟩ := parseredirs_sound h1
    rw [hts, List.length_append] at hskip
    apply parseargs_ne_running
    dsimp only
    omega

include ihline in
theorem parseblock_ne_running (s : Ptr) (h : 4 * (lex s).length + 1 ≤ fuel + 1) :
    parseblock (fuel + 1) s ≠ .running := by
  rw [parseblock_succ]
  split
  · rename_i hopen
    have hlex := (peek_symbol (t := .lpar) rfl (by decide) hopen).1
    rw [hlex, List.length_cons] at h
    apply Outcome.bind_ne_running (ihline _ (by omega))
    rintro ⟨cmd1, s1⟩ h1
    have hle := ((parse_sound fuel).1 _ _ _ h1).length_le
    dsimp only
    split
    · rename_i hclose
      have hlex' := (peek_symbol (t := .rpar) rfl (by decide) hclose).1
      rw [hlex', List.length_cons] at hle
      exact parseredirs_ne_running _ _ _ (by omega)
    · exact nofun
  · exact nofun

end

theorem parse_terminates (fuel : ℕ) :
    (∀ s, 4 * (lex s).length + 4 ≤ fuel → parseline fuel s ≠ .running) ∧
    (∀ s, 4 * (lex s).length + 3 ≤ fuel → parsepipe fuel s ≠ .running) ∧
    (∀ s, 4 * (lex s).length + 2 ≤ fuel → parseexec fuel s ≠ .running) ∧
    (∀ s, 4 * (lex s).length + 1 ≤ fuel → parseblock fuel s ≠ .running) := by
  induction fuel with
  | zero =>
    refine ⟨?_, ?_, ?_, ?_⟩ <;>
    · intro s h
      omega
  | succ fuel ih =>
    obtain ⟨ihline, ihpipe, ihexec, ihblock⟩ := ih
    exact ⟨parseline_ne_running ihline ihpipe, parsepipe_ne_running ihpipe ihexec,
      parseexec_ne_running ihblock, parseblock_ne_running ihline⟩

theorem length_lex_le (s : Ptr) : (lex s).length ≤ s.length := by
  cases hfirst : firstTok s with
  | none =>
    rw [lex_of_none hfirst]
    exact Nat.zero_le _
  | some x =>
    obtain ⟨t, r⟩ := x
    have hlt := firstTok_lt hfirst
    have hr := length_lex_le r
    rw [lex_of_some hfirst, List.length_cons]
    omega
termination_by s.length
decreasing_by exact firstTok_lt hfirst

end Xv6.Sh
