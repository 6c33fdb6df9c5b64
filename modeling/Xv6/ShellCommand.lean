import Xv6.ShellAccepts

/-!
# Commands of the shell

`nulterminate` writes a NUL after each word, so that the pointers of a command
are strings; the command is read from the buffer as `runcmd` finds it.
-/

namespace Xv6.Sh

def cstr (buf : List UInt8) (p : Ptr) : List UInt8 := (buf.drop (place buf p)).takeWhile (· ≠ 0)

def Cmd.read (buf : List UInt8) : Cmd → Tree
  | exec argv => .exec (argv.map fun a => cstr buf a.1)
  | redir cmd file _ mode fd => .redir (cmd.read buf) (cstr buf file) mode fd
  | pipe left right => .pipe (left.read buf) (right.read buf)
  | list left right => .list (left.read buf) (right.read buf)
  | back cmd => .back (cmd.read buf)

/-- The words of a command, in the order of `nulterminate`. -/
def Cmd.words : Cmd → List (Ptr × Ptr)
  | exec argv => argv
  | redir cmd file efile _ _ => cmd.words ++ [(file, efile)]
  | pipe left right => left.words ++ right.words
  | list left right => left.words ++ right.words
  | back cmd => cmd.words

theorem nulterminate_eq (cmd : Cmd) (buf : List UInt8) : nulterminate cmd buf =
      cmd.words.foldl (fun buf a => writeNul buf a.2) buf := by
  induction cmd generalizing buf with
  | exec argv => rfl
  | redir cmd file efile mode fd ih =>
    rw [nulterminate, ih, Cmd.words, List.foldl_append]
    rfl
  | pipe left right ihl ihr | list left right ihl ihr =>
    rw [nulterminate, ihl, ihr, Cmd.words, List.foldl_append]
  | back cmd ih => exact ih buf

variable {s p : Ptr} {cmd : Cmd} {buf : List UInt8}

theorem Cmd.Placed.words (h : cmd.Placed s) : ∀ a ∈ cmd.words, Sh.Placed s a := by
  induction cmd with
  | exec argv => exact h
  | redir cmd file efile mode fd ih =>
    intro a ha
    rcases List.mem_append.mp ha with ha | ha
    · exact ih h.1 a ha
    · cases List.mem_singleton.mp ha
      exact h.2
  | pipe left right ihl ihr | list left right ihl ihr =>
    exact List.forall_mem_append.mpr ⟨ihl h.1, ihr h.2⟩
  | back cmd ih => exact ih h

theorem Cmd.read_eq_tree (h : ∀ a ∈ cmd.words, cstr buf a.1 = slice a) :
    cmd.read buf = cmd.tree := by
  induction cmd with
  | exec argv => exact congrArg Tree.exec (List.map_congr_left h)
  | redir cmd file efile mode fd ih =>
    obtain ⟨hcmd, hfile⟩ := List.forall_mem_append.mp h
    rw [Cmd.read, Cmd.tree, ih hcmd, hfile _ List.mem_cons_self]
  | pipe left right ihl ihr | list left right ihl ihr =>
    obtain ⟨hl, hr⟩ := List.forall_mem_append.mp h
    rw [Cmd.read, Cmd.tree, ihl hl, ihr hr]
  | back cmd ih => rw [Cmd.read, Cmd.tree, ih h]

/-- The words of the line `s` are still in the buffer. -/
structure HasWords (s : Ptr) (buf : List UInt8) : Prop where
  length : buf.length = s.length + 1
  words : ∀ (i : ℕ) (c : UInt8), s[i]? = some c → isWordChar c → buf[i]? = some c

theorem HasWords.place (h : HasWords s buf) (p : Ptr) : Sh.place buf p = s.length - p.length := by
  rw [Sh.place, h.length, Nat.add_sub_cancel]

theorem getElem?_suffix (h : p <:+ s) (i : ℕ) : s[s.length - p.length + i]? = p[i]? := by
  obtain ⟨q, rfl⟩ := h
  rw [List.length_append, Nat.add_sub_cancel, List.getElem?_append_right
    (Nat.le_add_right _ _), Nat.add_sub_cancel_left]

theorem HasWords.writeNul (h : HasWords s buf) (hp : p <:+ s)
    (hend : ∀ c ∈ p.head?, ¬isWordChar c) : HasWords s (writeNul buf p) := by
  refine ⟨by rw [Sh.writeNul, List.length_set, h.length], ?_⟩
  intro i c hi hc
  have hne : s.length - p.length ≠ i := by
    rintro rfl
    have hhead := getElem?_suffix hp 0
    rw [Nat.add_zero, hi, ← List.head?_eq_getElem?] at hhead
    exact hend c hhead.symm hc
  rw [Sh.writeNul, h.place, List.getElem?_set_ne hne]
  exact h.words i c hi hc

theorem writeNul_zero {i : ℕ} (h : buf[i]? = some 0) : (writeNul buf p)[i]? = some 0 := by
  rw [writeNul, List.getElem?_set]
  split
  · rename_i heq
    have hlt := (List.getElem?_eq_some_iff.mp h).1
    rw [if_pos (heq ▸ hlt)]
  · exact h

theorem HasWords.writeNul_self (h : HasWords s buf) :
    (Sh.writeNul buf p)[s.length - p.length]? = some 0 := by
  have hlt : s.length - p.length < buf.length := by
    rw [h.length]
    omega
  rw [Sh.writeNul, h.place, List.getElem?_set_self hlt]

theorem foldl_writeNul {as : List (Ptr × Ptr)} (h : HasWords s buf) (has : ∀ a ∈ as, Placed s a) :
    HasWords s (as.foldl (fun buf a => writeNul buf a.2) buf) ∧
    (∀ i : ℕ, buf[i]? = some 0 → (as.foldl (fun buf a => writeNul buf a.2) buf)[i]? = some 0) ∧
    ∀ a ∈ as, (as.foldl (fun buf a => writeNul buf a.2) buf)[s.length - a.2.length]? = some 0 := by
  induction as generalizing buf with
  | nil => exact ⟨h, fun _ h => h, nofun⟩
  | cons a as ih =>
    obtain ⟨hsuffix, w, hq, -, hend⟩ := has a List.mem_cons_self
    have heq : a.2 <:+ s := by
      refine List.IsSuffix.trans ?_ hsuffix
      rw [hq]
      exact List.suffix_append _ _
    obtain ⟨hwords, hzero, hends⟩ := ih (h.writeNul heq hend)
      fun b hb => has b (List.mem_cons_of_mem _ hb)
    refine ⟨hwords, fun i hi => hzero i (writeNul_zero hi), ?_⟩
    intro b hb
    rcases List.mem_cons.mp hb with rfl | hb
    · exact hzero _ (h.writeNul_self)
    · exact hends b hb

theorem HasWords.cstr {a : Ptr × Ptr} (h : HasWords s buf) (ha : Placed s a)
    (hnul : buf[s.length - a.2.length]? = some 0) (hs : 0 ∉ s) : cstr buf a.1 = slice a := by
  obtain ⟨q, eq⟩ := a
  obtain ⟨hsuffix, w, hq, hok, -⟩ := ha
  dsimp only at hsuffix hq hnul ⊢
  subst hq
  have hle := hsuffix.length_le
  rw [List.length_append] at hle
  rw [slice_append, Sh.cstr, h.place, List.length_append]
  have hdrop : buf.drop (s.length - (w.length + eq.length)) =
      w ++ buf.drop (s.length - eq.length) := by
    apply List.ext_getElem?
    intro i
    rw [List.getElem?_drop]
    by_cases hi : i < w.length
    · have hchar := getElem?_suffix hsuffix i
      rw [List.length_append, List.getElem?_append_left hi, List.getElem?_eq_getElem hi] at hchar
      rw [List.getElem?_append_left hi, List.getElem?_eq_getElem hi]
      exact h.words _ _ hchar (hok.2 _ (List.getElem_mem hi))
    · rw [List.getElem?_append_right (by omega), List.getElem?_drop]
      congr 1
      omega
  have hlast : ∃ rest, buf.drop (s.length - eq.length) = 0 :: rest := by
    obtain ⟨hlt, hzero⟩ := List.getElem?_eq_some_iff.mp hnul
    exact ⟨_, by rw [List.drop_eq_getElem_cons hlt, hzero]⟩
  obtain ⟨rest, hrest⟩ := hlast
  have hw : ∀ c ∈ w, decide (c ≠ 0) = true := by
    intro c hc
    have hmem : c ∈ s := hsuffix.subset (List.mem_append_left _ hc)
    exact decide_eq_true fun hzero => hs (hzero ▸ hmem)
  rw [hdrop, hrest, List.takeWhile_append_of_pos hw]
  simp

theorem Cmd.Placed.cstr_nulterminate (h : cmd.Placed s) (hs : 0 ∉ s) :
    HasWords s (nulterminate cmd (s ++ [0])) ∧ ∀ a ∈ cmd.words,
        cstr (nulterminate cmd (s ++ [0])) a.1 = slice a := by
  have hbuf : HasWords s (s ++ [0]) := by
    refine ⟨List.length_append, ?_⟩
    intro i c hi _
    rw [List.getElem?_append_left (List.getElem?_eq_some_iff.mp hi).1]
    exact hi
  obtain ⟨hwords, -, hends⟩ := foldl_writeNul hbuf h.words
  rw [nulterminate_eq]
  exact ⟨hwords, fun a ha => hwords.cstr (h.words a ha) (hends a ha) hs⟩

theorem Cmd.Placed.read_nulterminate (h : cmd.Placed s) (hs : 0 ∉ s) :
    cmd.read (nulterminate cmd (s ++ [0])) = cmd.tree :=
  Cmd.read_eq_tree (h.cstr_nulterminate hs).2

theorem Placed.end_outside {a b : Ptr × Ptr} (ha : Placed s a) (hb : Placed s b)
    (hle : s.length - a.1.length ≤ s.length - b.2.length) :
    s.length - a.2.length ≤ s.length - b.2.length := by
  obtain ⟨hsuffix, w, hw, hok, -⟩ := ha
  obtain ⟨hsuffix', w', hw', -, hend⟩ := hb
  have hsuffix2 : b.2 <:+ s := by
    refine List.IsSuffix.trans ?_ hsuffix'
    rw [hw']
    exact List.suffix_append _ _
  by_contra hlt
  -- The terminator would be on a character of the word.
  obtain ⟨i, hi⟩ := Nat.exists_eq_add_of_le hle
  have hlen := hsuffix.length_le
  have hlength := congrArg List.length hw
  rw [List.length_append] at hlength
  have hiw : i < w.length := by omega
  have hchar := getElem?_suffix hsuffix i
  have hhead := getElem?_suffix hsuffix2 0
  rw [Nat.add_zero, hi, hchar, hw, List.getElem?_append_left hiw,
    List.getElem?_eq_getElem hiw, ← List.head?_eq_getElem?] at hhead
  exact hend _ hhead.symm (hok.2 _ (List.getElem_mem hiw))

theorem zero_notMem_text (buf : List UInt8) : 0 ∉ text buf := by
  intro hmem
  have := List.mem_takeWhile_imp hmem
  simp at this

theorem skipBlanks_eq_nil_iff : skipBlanks s = [] ↔ lex s = [] := by
  constructor
  · intro h
    rw [← lex_skipBlanks, h, lex_nil]
  · intro h
    exact (gettoken_nil h).1

theorem parsecmd_eq_ok {fuel : ℕ} {buf' : List UInt8} : parsecmd fuel buf = .ok (cmd, buf') ↔
      ∃ r, parseline fuel (text buf) = .ok (cmd, r) ∧ lex r = [] ∧
        nulterminate cmd (text buf ++ [0]) = buf' := by
  have hafter : ∀ x : Cmd × Ptr, ((if skipBlanks x.2 ≠ [] then
          Outcome.panic ⟨"syntax", some (skipBlanks x.2)⟩
        else .ok (x.1, nulterminate x.1 (text buf ++ [0]))) = .ok (cmd, buf') ↔
        x.1 = cmd ∧ lex x.2 = [] ∧ nulterminate cmd (text buf ++ [0]) = buf') := by
    intro x
    rw [← skipBlanks_eq_nil_iff]
    by_cases hr : skipBlanks x.2 = []
    · rw [if_neg (not_not.mpr hr), Outcome.ok.injEq, Prod.mk.injEq]
      constructor
      · rintro ⟨rfl, rfl⟩
        exact ⟨rfl, hr, rfl⟩
      · rintro ⟨rfl, -, rfl⟩
        exact ⟨rfl, rfl⟩
    · rw [if_pos hr]
      exact ⟨nofun, fun h => absurd h.2.1 hr⟩
  refine Outcome.bind_eq_ok.trans ?_
  constructor
  · rintro ⟨⟨cmd', r⟩, hline, h⟩
    obtain ⟨rfl, hr, hbuf⟩ := (hafter (cmd', r)).mp h
    exact ⟨r, hline, hr, hbuf⟩
  · rintro ⟨r, hline, hr, hbuf⟩
    exact ⟨(cmd, r), hline, (hafter (cmd, r)).mpr ⟨rfl, hr, hbuf⟩⟩

/-- For every buffer, and every bound on the depth that is large enough. -/
theorem parsecmd_accepts (buf : List UInt8) (fuel : ℕ) (hfuel : 4 * buf.length + 4 ≤ fuel) :
    parsecmd fuel buf ≠ .running ∧
      ∀ t, (∃ cmd buf', parsecmd fuel buf = .ok (cmd, buf') ∧
        cmd.read buf' = t) ↔ Derives (text buf) t := by
  have hlen : 4 * (lex (text buf)).length + 4 ≤ fuel := by
    have hlex := length_lex_le (text buf)
    have htext : (text buf).length ≤ buf.length := (List.takeWhile_prefix _).length_le
    omega
  constructor
  · apply Outcome.bind_ne_running ((parse_terminates fuel).1 _ hlen)
    rintro ⟨cmd, r⟩ -
    change (if skipBlanks r ≠ [] then _ else _) ≠ Outcome.running
    split <;> exact nofun
  · intro t
    rw [derives_iff]
    constructor
    · rintro ⟨cmd, buf', hparse, rfl⟩
      obtain ⟨r, hline, hr, rfl⟩ := parsecmd_eq_ok.mp hparse
      obtain ⟨⟨ts, hts, hX⟩, -, hplaced⟩ := (parse_sound fuel).1 _ _ _ hline
      rw [hr, List.append_nil] at hts
      rw [hplaced.read_nulterminate (zero_notMem_text buf), hts]
      exact hX
    · intro h
      obtain ⟨cmd, r, hline, hr, htree⟩ := (parse_complete fuel).1 _ _ t [] h
        (List.append_nil _).symm nofun hlen
      have hplaced := ((parse_sound fuel).1 _ _ _ hline).placed
      refine ⟨cmd, _, parsecmd_eq_ok.mpr ⟨r, hline, hr, rfl⟩, ?_⟩
      rw [hplaced.read_nulterminate (zero_notMem_text buf), htree]

/-- The words of a command that `parsecmd` accepts are strings in the buffer
afterwards, and no NUL has been written inside of a word. -/
theorem token_strings_exact (buf buf' : List UInt8) (fuel : ℕ) (cmd : Cmd)
    (h : parsecmd fuel buf = .ok (cmd, buf')) :
    ∀ a ∈ cmd.words,
      (a.1 <:+ text buf ∧ ∃ w, a.1 = w ++ a.2 ∧ w ≠ [] ∧
        (∀ c ∈ w, isWordChar c) ∧ (∀ c ∈ a.2.head?, ¬isWordChar c) ∧
        cstr buf' a.1 = w) ∧
      ∀ b ∈ cmd.words, place buf' b.2 < place buf' a.1 ∨ place buf' a.2 ≤ place buf' b.2 := by
  obtain ⟨r, hline, -, rfl⟩ := parsecmd_eq_ok.mp h
  have hplaced := ((parse_sound fuel).1 _ _ _ hline).placed
  obtain ⟨hwords, hcstr⟩ := hplaced.cstr_nulterminate (zero_notMem_text buf)
  intro a ha
  obtain ⟨hsuffix, w, hw, hok, hend⟩ := hplaced.words a ha
  refine ⟨⟨hsuffix, w, hw, hok.1, hok.2, hend, ?_⟩, ?_⟩
  · rw [hcstr a ha, slice, hw]
    simp
  · intro b hb
    rw [hwords.place, hwords.place, hwords.place]
    exact (Nat.lt_or_ge _ _).imp_right ((hplaced.words a ha).end_outside (hplaced.words b hb))

theorem token_strings_exact_redir : ∃ cmd buf', parsecmd 20 (['a', '>', 'b', '|', 'c'].map byte) =
        .ok (cmd, buf') ∧
      ∀ a ∈ cmd.words, ∃ w, a.1 = w ++ a.2 ∧ cstr buf' a.1 = w := by
  obtain ⟨cmd, buf', h⟩ : ∃ cmd buf', parsecmd 20
      (['a', '>', 'b', '|', 'c'].map byte) = .ok (cmd, buf') := ⟨_, _, rfl⟩
  refine ⟨cmd, buf', h, fun a ha => ?_⟩
  obtain ⟨⟨-, w, hw, -, -, -, hcstr⟩, -⟩ := token_strings_exact _ buf' 20 cmd h a ha
  exact ⟨w, hw, hcstr⟩

/-- `a>b|(c;d)&`. -/
theorem parsecmd_accepts_line :
    Derives (text (['a', '>', 'b', '|', '(', 'c', ';', 'd', ')', '&'].map byte))
      (.back (.pipe (.redir (.exec [[byte 'a']]) [byte 'b'] 0x601 1)
        (.list (.exec [[byte 'c']]) (.exec [[byte 'd']])))) :=
  ((parsecmd_accepts (['a', '>', 'b', '|', '(', 'c', ';', 'd', ')', '&'].map
    byte) 44 (by decide)).2 _).mp ⟨_, _, rfl, rfl⟩

end Xv6.Sh
