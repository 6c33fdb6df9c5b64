import Mathlib

/-!
# The parser of the shell

A pointer into the command line is the part of the line from there on, up to
`es`; so `s < es` says that this part is not empty, and reading at `es` gives
the terminating NUL.  The loops and calls take a bound on their depth;
`running` says that it was too small.
-/

namespace Xv6.Sh

def byte (c : Char) : UInt8 := UInt8.ofNat c.toNat

/-- What `panic` says, and the text that was printed as left over before. -/
structure ParseError where
  msg : String
  leftovers : Option (List UInt8)
  deriving DecidableEq

inductive Outcome (α : Type)
  | running
  | panic (e : ParseError)
  | ok (a : α)

namespace Outcome

variable {α β : Type}

def bind (x : Outcome α) (f : α → Outcome β) : Outcome β :=
  match x with
  | running => running
  | panic e => panic e
  | ok a => f a

instance : Monad Outcome where
  pure := ok
  bind := bind

@[simp] theorem ok_bind (a : α) (f : α → Outcome β) : ok a >>= f = f a := rfl

theorem bind_eq_ok {x : Outcome α} {f : α → Outcome β} {b : β} :
    x >>= f = ok b ↔ ∃ a, x = ok a ∧ f a = ok b := by
  cases x with
  | running | panic e => exact ⟨nofun, nofun⟩
  | ok a => simp

theorem bind_ne_running {x : Outcome α} {f : α → Outcome β}
    (hx : x ≠ running) (hf : ∀ a, x = ok a → f a ≠ running) : x >>= f ≠ running := by
  cases x with
  | running => exact absurd rfl hx
  | panic e => exact nofun
  | ok a => exact hf a rfl

end Outcome

/-! ## Tokens -/

def whitespace : List UInt8 := [' ', '\t', '\r', '\n', '\x0b'].map byte

def symbols : List UInt8 := ['<', '|', '>', '&', ';', '(', ')'].map byte

def strchr (s : List UInt8) (c : UInt8) : Bool := s.contains c

def isBlank (c : UInt8) : Bool := strchr whitespace c

def isWordChar (c : UInt8) : Bool := !strchr whitespace c && !strchr symbols c

abbrev Ptr := List UInt8

/-- `while(s < es && strchr(whitespace, *s)) s++`. -/
def skipBlanks (s : Ptr) : Ptr := s.dropWhile isBlank

/-- The `switch` of `gettoken`: its result, and where it leaves `s`. -/
def scan : Ptr → UInt8 × Ptr
  | [] => (0, [])
  | c :: s =>
    if strchr (['|', '(', ')', ';', '&', '<'].map byte) c then (c, s)
    else if c = byte '>' then
      if s.head? = some (byte '>') then (byte '+', s.tail) else (c, s)
    else (byte 'a', (c :: s).dropWhile isWordChar)

/-- What `gettoken` returns, the pointers it stores at `q` and `eq`, and `*ps`
afterwards. -/
structure Token where
  ret : UInt8
  q : Ptr
  eq : Ptr
  ps : Ptr

def gettoken (ps : Ptr) : Token where
  ret := (scan (skipBlanks ps)).1
  q := skipBlanks ps
  eq := (scan (skipBlanks ps)).2
  ps := skipBlanks (scan (skipBlanks ps)).2

/-- The result, and `*ps` afterwards. -/
def peek (ps : Ptr) (toks : List UInt8) : Bool × Ptr :=
  ((skipBlanks ps).head?.any (strchr toks), skipBlanks ps)

/-! ## Commands -/

def maxargs : ℕ := 10

def oRdonly : ℕ := 0x000

def oWronly : ℕ := 0x001

def oCreate : ℕ := 0x200

def oTrunc : ℕ := 0x400

/-- `argv` has the pointers `argv[i]` and `eargv[i]`. -/
inductive Cmd
  | exec (argv : List (Ptr × Ptr))
  | redir (cmd : Cmd) (file efile : Ptr) (mode fd : ℕ)
  | pipe (left right : Cmd)
  | list (left right : Cmd)
  | back (cmd : Cmd)

/-- `cmd->argv[argc] = q; cmd->eargv[argc] = eq`, where `cmd` is the command
that the redirections have been wrapped around. -/
def Cmd.pushArg (a : Ptr × Ptr) : Cmd → Cmd
  | exec argv => exec (argv ++ [a])
  | redir cmd file efile mode fd => redir (cmd.pushArg a) file efile mode fd
  | cmd => cmd

/-- The `switch` of `parseredirs`. -/
def redirect (tok : UInt8) (cmd : Cmd) (q eq : Ptr) : Cmd :=
  if tok = byte '<' then .redir cmd q eq oRdonly 0
  else if tok = byte '>' then
    .redir cmd q eq (oWronly ||| oCreate ||| oTrunc) 1
  else if tok = byte '+' then .redir cmd q eq (oWronly ||| oCreate) 1
  else cmd

def parseredirs : ℕ → Cmd → Ptr → Outcome (Cmd × Ptr)
  | 0, _, _ => .running
  | fuel + 1, cmd, ps =>
    let (more, ps) := peek ps (['<', '>'].map byte)
    if more then
      let tok := gettoken ps
      let file := gettoken tok.ps
      if file.ret ≠ byte 'a' then
        .panic ⟨"missing file for redirection", none⟩
      else
        parseredirs fuel (redirect tok.ret cmd file.q file.eq) file.ps
    else .ok (cmd, ps)

/-- The loop of `parseexec`. -/
def parseargs : ℕ → ℕ → Cmd → Ptr → Outcome (Cmd × Ptr)
  | 0, _, _, _ => .running
  | fuel + 1, argc, ret, ps =>
    let (stop, ps) := peek ps (['|', ')', '&', ';'].map byte)
    if stop then .ok (ret, ps)
    else
      let tok := gettoken ps
      if tok.ret = 0 then .ok (ret, tok.ps)
      else if tok.ret ≠ byte 'a' then .panic ⟨"syntax", none⟩
      else if argc + 1 ≥ maxargs then .panic ⟨"too many args", none⟩
      else do
        let (ret, ps) ← parseredirs fuel (ret.pushArg (tok.q, tok.eq)) tok.ps
        parseargs fuel (argc + 1) ret ps

/-- The loop of `parseline`. -/
def parseback : ℕ → Cmd → Ptr → Outcome (Cmd × Ptr)
  | 0, _, _ => .running
  | fuel + 1, cmd, ps =>
    let (more, ps) := peek ps [byte '&']
    if more then parseback fuel (.back cmd) (gettoken ps).ps
    else .ok (cmd, ps)

mutual

def parseline : ℕ → Ptr → Outcome (Cmd × Ptr)
  | 0, _ => .running
  | fuel + 1, ps => do
    let (cmd, ps) ← parsepipe fuel ps
    let (cmd, ps) ← parseback fuel cmd ps
    let (more, ps) := peek ps [byte ';']
    if more then
      let (right, ps) ← parseline fuel (gettoken ps).ps
      return (.list cmd right, ps)
    else return (cmd, ps)

def parsepipe : ℕ → Ptr → Outcome (Cmd × Ptr)
  | 0, _ => .running
  | fuel + 1, ps => do
    let (cmd, ps) ← parseexec fuel ps
    let (more, ps) := peek ps [byte '|']
    if more then
      let (right, ps) ← parsepipe fuel (gettoken ps).ps
      return (.pipe cmd right, ps)
    else return (cmd, ps)

def parseexec : ℕ → Ptr → Outcome (Cmd × Ptr)
  | 0, _ => .running
  | fuel + 1, ps =>
    let (block, ps) := peek ps [byte '(']
    if block then parseblock fuel ps
    else do
      let (ret, ps) ← parseredirs fuel (.exec []) ps
      parseargs fuel 0 ret ps

def parseblock : ℕ → Ptr → Outcome (Cmd × Ptr)
  | 0, _ => .running
  | fuel + 1, ps =>
    let (block, ps) := peek ps [byte '(']
    if !block then .panic ⟨"parseblock", none⟩
    else do
      let (cmd, ps) ← parseline fuel (gettoken ps).ps
      let (close, ps) := peek ps [byte ')']
      if !close then .panic ⟨"syntax - missing )", none⟩
      else parseredirs fuel cmd (gettoken ps).ps

end

/-- The place of a pointer in the buffer, which ends with a NUL. -/
def place (buf : List UInt8) (p : Ptr) : ℕ := buf.length - 1 - p.length

/-- `*p = 0`. -/
def writeNul (buf : List UInt8) (p : Ptr) : List UInt8 := buf.set (place buf p) 0

def nulterminate : Cmd → List UInt8 → List UInt8
  | .exec argv, buf => argv.foldl (fun buf a => writeNul buf a.2) buf
  | .redir cmd _ efile _ _, buf => writeNul (nulterminate cmd buf) efile
  | .pipe left right, buf => nulterminate right (nulterminate left buf)
  | .list left right, buf => nulterminate right (nulterminate left buf)
  | .back cmd, buf => nulterminate cmd buf

/-- The text of the string in `buf`, up to its NUL. -/
def text (buf : List UInt8) : List UInt8 := buf.takeWhile (· ≠ 0)

def parsecmd (fuel : ℕ) (buf : List UInt8) : Outcome (Cmd × List UInt8) := do
  let s := text buf
  let (cmd, ps) ← parseline fuel s
  let (_, ps) := peek ps []
  if ps ≠ [] then .panic ⟨"syntax", some ps⟩
  else return (cmd, nulterminate cmd (s ++ [0]))

end Xv6.Sh
