import Mathlib.Data.List.TakeWhile

/-!
**The parser of the shell** (`sh.c`: `gettoken`, `peek`, `parsecmd`, `parseline`, `parsepipe`,
`parseredirs`, `parseblock`, `parseexec`, `nulterminate`).

The line is the list of its characters, without the terminating 0; `es` is its end, and a pointer
into it is a position, where `*s` at the end reads the 0. The cursor `*ps` is the state of
`ParseM`, and `panic(msg)`, which prints the message and exits, ends the parse with the message.

A tree holds each string as the pair `(q, eq)` of where it starts and ends in the line: `argv[i]`
with `eargv[i]`, `file` with `efile`. `cmd->argv[argc] = q` in `parseexec` writes through `cmd`
into the `execcmd` that the redirections parsed so far wrap (`Cmd.addArg`). The nodes' memory is
not modelled: `malloc` is taken to succeed.

The parse turns on fuel: each function passes one less to what it calls and to its own next turn,
and running out of it is the error `noEnd`, which stands for a parse that does not stop.
`nulterminate` gives the line after it writes a 0 at the end of every string of the tree.
-/

namespace Xv6.Sh

/-- `MAXARGS`: the slots of `argv`, the last of them for the 0 after the arguments. -/
def maxArgs : Nat := 10

/-- `O_RDONLY`, `O_WRONLY`, `O_CREATE` (`fcntl.h`). -/
def oRdonly : Nat := 0x000

def oWronly : Nat := 0x001

def oCreate : Nat := 0x200

/-- `whitespace[]`: space, tab, CR, LF and VT. -/
def whitespace : List Char := [' ', '\t', '\r', '\n', '\x0B']

/-- `symbols[]`. -/
def symbols : List Char := ['<', '|', '>', '&', ';', '(', ')']

/-- `strchr(whitespace, c)`. -/
def isSpace (c : Char) : Bool := c ∈ whitespace

/-- A character of a word: `!strchr(whitespace, c) && !strchr(symbols, c)`. -/
def isWordChar (c : Char) : Bool := c ∉ whitespace ∧ c ∉ symbols

/-- `struct cmd`, of the kinds `EXEC`, `REDIR`, `PIPE`, `LIST` and `BACK`, with each string as an
`α`: the pointers `(q, eq)` the parser stores, or the text between them. -/
inductive Cmd (α : Type) where
  /-- `struct execcmd`: `argv[0..argc)`. -/
  | exec (argv : List α)
  /-- `struct redircmd`: `cmd` with `file` opened in `mode` as `fd`. -/
  | redir (cmd : Cmd α) (file : α) (mode fd : Nat)
  | pipe (left right : Cmd α)
  | list (left right : Cmd α)
  | back (cmd : Cmd α)
  deriving Repr, DecidableEq

namespace Cmd

variable {α β : Type}

/-- The tree with each string mapped by `f`. -/
def map (f : α → β) : Cmd α → Cmd β
  | exec argv => exec (argv.map f)
  | redir c file mode fd => redir (c.map f) (f file) mode fd
  | pipe l r => pipe (l.map f) (r.map f)
  | list l r => list (l.map f) (r.map f)
  | back c => back (c.map f)

/-- `cmd->argv[argc] = a`, through the pointer `cmd` to the `execcmd` under the redirections that
wrap it. -/
def addArg (a : α) : Cmd α → Cmd α
  | exec argv => exec (argv ++ [a])
  | redir c file mode fd => redir (c.addArg a) file mode fd
  | c => c

end Cmd

/-- A parse: the cursor `*ps` is the state, and `panic` ends it with its message. -/
abbrev ParseM := StateT Nat (Except String)

/-- Fuel that ran out: a parse that does not stop. -/
def noEnd : String := "sh: no end"

section Parser

-- the line, without its terminating 0
variable (s : List Char)

/-- `*p` at position `i`: the terminating 0 at the end. -/
def charAt (i : Nat) : Char := s.getD i '\x00'

/-- `while(s < es && p(*s)) s++` from `i`: past the characters from `i` on that satisfy `p`. -/
def scan (p : Char → Bool) (i : Nat) : Nat := i + ((s.drop i).takeWhile p).length

/-- The `switch(*s)` of `gettoken` at `q`: the value it returns, and where the token ends. -/
def tokenAt (q : Nat) : Char × Nat :=
  if charAt s q = '\x00' then ('\x00', q)
  else if charAt s q ∈ ['|', '(', ')', ';', '&', '<'] then (charAt s q, q + 1)
  else if charAt s q = '>' then
    if charAt s (q + 1) = '>' then ('+', q + 2) else ('>', q + 1)
  else ('a', scan s isWordChar q)

/-- `gettoken(ps, es, &q, &eq)`: the token's value, and where it starts and ends; `*ps` moves past
the token and the whitespace after it. -/
def gettoken : ParseM (Char × Nat × Nat) := do
  let q := scan s isSpace (← get)
  let (ret, eq) := tokenAt s q
  set (scan s isSpace eq)
  pure (ret, q, eq)

/-- `peek(ps, es, toks)`: past the whitespace, whether the next character is one of `toks`. -/
def peek (toks : List Char) : ParseM Bool := do
  let i := scan s isSpace (← get)
  set i
  pure (charAt s i ≠ '\x00' ∧ charAt s i ∈ toks)

/-- The `switch(tok)` of `parseredirs`: the `redircmd` for the operator `tok` around `cmd`. -/
def redirFor (tok : Char) (cmd : Cmd (Nat × Nat)) (file : Nat × Nat) : Cmd (Nat × Nat) :=
  if tok = '<' then .redir cmd file oRdonly 0
  else if tok = '>' then .redir cmd file (oWronly ||| oCreate) 1
  -- `>>`
  else if tok = '+' then .redir cmd file (oWronly ||| oCreate) 1
  else cmd

/-- `parseredirs(cmd, ps, es)`: each redirection that follows wraps the command built so far. -/
def parseredirs : Nat → Cmd (Nat × Nat) → ParseM (Cmd (Nat × Nat))
  | 0, _ => throw noEnd
  | fuel + 1, cmd => do
    if ← peek s ['<', '>'] then
      let (tok, _) ← gettoken s
      let (kind, q, eq) ← gettoken s
      if kind ≠ 'a' then throw "missing file for redirection"
      parseredirs fuel (redirFor tok cmd (q, eq))
    else pure cmd

/-- The loop `while(peek(ps, es, "&"))` of `parseline`: a `backcmd` around the command for each
`&`. -/
def parselineLoop : Nat → Cmd (Nat × Nat) → ParseM (Cmd (Nat × Nat))
  | 0, _ => throw noEnd
  | fuel + 1, cmd => do
    if ← peek s ['&'] then
      let _ ← gettoken s
      parselineLoop fuel (.back cmd)
    else pure cmd

/-- The loop of `parseexec` after `argc` arguments: each word is written into the `execcmd` under
`ret` as `argv[argc]`, and the redirections after it wrap `ret`. -/
def parseexecLoop : Nat → Nat → Cmd (Nat × Nat) → ParseM (Cmd (Nat × Nat))
  | 0, _, _ => throw noEnd
  | fuel + 1, argc, ret => do
    if ← peek s ['|', ')', '&', ';'] then pure ret
    else
      let (tok, q, eq) ← gettoken s
      if tok = '\x00' then pure ret
      else if tok ≠ 'a' then throw "syntax"
      else
        let ret := ret.addArg (q, eq)
        if argc + 1 ≥ maxArgs then throw "too many args"
        parseexecLoop fuel (argc + 1) (← parseredirs s fuel ret)

mutual

/-- `parseline(ps, es)`. -/
def parseline : Nat → ParseM (Cmd (Nat × Nat))
  | 0 => throw noEnd
  | fuel + 1 => do
    let cmd ← parselineLoop s fuel (← parsepipe fuel)
    if ← peek s [';'] then
      let _ ← gettoken s
      pure (.list cmd (← parseline fuel))
    else pure cmd

/-- `parsepipe(ps, es)`. -/
def parsepipe : Nat → ParseM (Cmd (Nat × Nat))
  | 0 => throw noEnd
  | fuel + 1 => do
    let cmd ← parseexec fuel
    if ← peek s ['|'] then
      let _ ← gettoken s
      pure (.pipe cmd (← parsepipe fuel))
    else pure cmd

/-- `parseblock(ps, es)`. -/
def parseblock : Nat → ParseM (Cmd (Nat × Nat))
  | 0 => throw noEnd
  | fuel + 1 => do
    if !(← peek s ['(']) then throw "parseblock"
    let _ ← gettoken s
    let cmd ← parseline fuel
    if !(← peek s [')']) then throw "syntax - missing )"
    let _ ← gettoken s
    parseredirs s fuel cmd

/-- `parseexec(ps, es)`. -/
def parseexec : Nat → ParseM (Cmd (Nat × Nat))
  | 0 => throw noEnd
  | fuel + 1 => do
    if ← peek s ['('] then parseblock fuel
    else parseexecLoop s fuel 0 (← parseredirs s fuel (.exec []))

end

/-- `nulterminate(cmd)`: a 0 written at the end of each string of the tree, in the line. -/
def nulterminate : Cmd (Nat × Nat) → List Char → List Char
  | .exec argv, buf => argv.foldl (fun buf x => buf.set x.2 '\x00') buf
  | .redir c file _ _, buf => (nulterminate c buf).set file.2 '\x00'
  | .pipe l r, buf => nulterminate r (nulterminate l buf)
  | .list l r, buf => nulterminate r (nulterminate l buf)
  | .back c, buf => nulterminate c buf

/-- `parsecmd(s)`: the tree, and the line after `nulterminate`. Each call of the parse passes a
token or goes down from `parseline` to `parseblock`, so `4 * |s| + 4` turns bound them. -/
def parsecmd : Except String (Cmd (Nat × Nat) × List Char) := do
  let (cmd, ps) ← (parseline s (4 * s.length + 4)).run 0
  let (_, ps) ← (peek s []).run ps
  if ps ≠ s.length then throw "syntax"
  pure (cmd, nulterminate cmd s)

end Parser

end Xv6.Sh
