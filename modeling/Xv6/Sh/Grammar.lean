import Xv6.Sh.Parse

/-!
**The language of the shell, and the tree of each of its commands.**

A line is read as tokens (`lex`): whitespace separates them, `>>` is one token, and a word is a
longest run of characters that are neither whitespace nor symbols. The grammar is

    line  ::= pipe ('&')* [';' line]
    pipe  ::= exec ['|' pipe]
    exec  ::= '(' line ')' redirs | redirs (WORD redirs)*     -- at most MAXARGS - 1 WORDs
    redirs ::= (('<' | '>' | '>>') WORD)*

and `Derives X ts t` says that the tokens `ts` are an `X`, with `t` the tree of the derivation:
`BACK` wraps the pipeline it follows, `LIST` and `PIPE` nest to the right, and each redirection
wraps the command built before it, in input order (`wrap`).

`follow X` lists the tokens that may come after an `X` in a line; `nextIn toks ts` is what `peek`
answers before the tokens `ts`: whether the next token starts with one of `toks`.
-/

namespace Xv6.Sh

/-- A token of a line. -/
inductive Tok where
  | word (w : List Char)
  | bar | amp | semi | lparen | rparen | lt | gt | gtgt
  deriving DecidableEq, Repr

namespace Tok

/-- What `gettoken` returns for the token: the symbol, `'+'` for `>>`, `'a'` for a word. -/
def code : Tok → Char
  | word _ => 'a'
  | bar => '|'
  | amp => '&'
  | semi => ';'
  | lparen => '('
  | rparen => ')'
  | lt => '<'
  | gt => '>'
  | gtgt => '+'

/-- The symbol the token starts with, which `peek` looks at; a word starts with none. -/
def lead : Tok → Option Char
  | word _ => none
  | gtgt => some '>'
  | tk => some tk.code

end Tok

/-- The token of a symbol of one character other than `>`. -/
def symTok (c : Char) : Option Tok :=
  if c = '|' then some .bar
  else if c = '&' then some .amp
  else if c = ';' then some .semi
  else if c = '(' then some .lparen
  else if c = ')' then some .rparen
  else if c = '<' then some .lt
  else none

/-- The tokens of a line. -/
def lex : List Char → List Tok
  | [] => []
  | c :: cs =>
    if isSpace c then lex cs
    else if c = '>' then
      if cs.head? = some '>' then .gtgt :: lex cs.tail else .gt :: lex cs
    else
      match symTok c with
      | some tk => tk :: lex cs
      | none => .word (c :: cs.takeWhile isWordChar) :: lex (cs.dropWhile isWordChar)
termination_by cs => cs.length
decreasing_by
  all_goals simp only [List.length_cons, List.length_tail]
  all_goals have := List.length_dropWhile_le isWordChar cs
  all_goals omega

/-- A redirection: `<`, `>` or `>>`. -/
inductive Redir where
  | input | output | append
  deriving DecidableEq, Repr

namespace Redir

def tok : Redir → Tok
  | input => .lt
  | output => .gt
  | append => .gtgt

/-- The mode `parseredirs` opens the file in. -/
def mode : Redir → Nat
  | input => oRdonly
  | _ => oWronly ||| oCreate

/-- The descriptor the file replaces. -/
def fd : Redir → Nat
  | input => 0
  | _ => 1

end Redir

/-- The tokens of redirections, each an operator and a word. -/
def redirToks (rs : List (Redir × List Char)) : List Tok :=
  rs.flatMap fun r => [r.1.tok, .word r.2]

/-- The tokens of the words of a command, each with the redirections after it. -/
def argToks (args : List (List Char × List (Redir × List Char))) : List Tok :=
  args.flatMap fun a => .word a.1 :: redirToks a.2

/-- Each redirection wraps the command built before it, in input order. -/
def wrap {α : Type} (rs : List (Redir × α)) (c : Cmd α) : Cmd α :=
  rs.foldl (fun c r => .redir c r.2 r.1.mode r.1.fd) c

/-- `k` times `BACK`. -/
def backs {α : Type} : Nat → Cmd α → Cmd α
  | 0, c => c
  | k + 1, c => backs k (.back c)

/-- The nonterminals `line`, `pipe` and `exec`. -/
inductive Sym where
  | line | pipe | exec
  deriving DecidableEq, Repr

/-- `Derives X ts t`: the tokens `ts` are an `X`, and `t` is the tree of its derivation. -/
inductive Derives : Sym → List Tok → Cmd (List Char) → Prop where
  /-- `line ::= pipe ('&')*`: `BACK` wraps the pipeline it follows. -/
  | line {ts t} (k : Nat) : Derives .pipe ts t →
      Derives .line (ts ++ List.replicate k .amp) (backs k t)
  /-- `line ::= pipe ('&')* ';' line`. -/
  | list {ts t us u} (k : Nat) : Derives .pipe ts t → Derives .line us u →
      Derives .line (ts ++ List.replicate k .amp ++ .semi :: us) (.list (backs k t) u)
  /-- `pipe ::= exec`. -/
  | pipe {ts t} : Derives .exec ts t → Derives .pipe ts t
  /-- `pipe ::= exec '|' pipe`. -/
  | pipeBar {ts t us u} : Derives .exec ts t → Derives .pipe us u →
      Derives .pipe (ts ++ .bar :: us) (.pipe t u)
  /-- `exec ::= '(' line ')' redirs`. -/
  | block {ts t} (rs : List (Redir × List Char)) : Derives .line ts t →
      Derives .exec (.lparen :: ts ++ .rparen :: redirToks rs) (wrap rs t)
  /-- `exec ::= redirs (WORD redirs)*`, with fewer than `MAXARGS` words. -/
  | simple (rs : List (Redir × List Char)) (args : List (List Char × List (Redir × List Char))) :
      args.length < maxArgs →
      Derives .exec (redirToks rs ++ argToks args)
        (wrap (rs ++ args.flatMap Prod.snd) (.exec (args.map Prod.fst)))

/-- The tokens that may follow an `X` in a line. -/
def follow : Sym → List Tok
  | .line => [.rparen]
  | .pipe => [.rparen, .amp, .semi]
  | .exec => [.rparen, .amp, .semi, .bar]

/-- The tokens `ts` may follow an `X`: they are none, or start with a token of `follow X`. -/
def Follows (X : Sym) : List Tok → Prop
  | [] => True
  | tk :: _ => tk ∈ follow X

/-- `peek(ps, es, toks)` before the tokens `ts`: the next token starts with one of `toks`. -/
def nextIn (toks : List Char) : List Tok → Bool
  | tk :: _ => tk.lead.any (· ∈ toks)
  | [] => false

section Lex

variable {c : Char} {cs : List Char}

@[simp] theorem lex_nil : lex [] = [] := by
  rw [lex]

theorem lex_space (space : isSpace c) : lex (c :: cs) = lex cs := by
  rw [lex, if_pos space]

theorem not_space_of_symbol (sym : c ∈ symbols) : isSpace c = false := by
  simp only [symbols, List.mem_cons, List.not_mem_nil, or_false] at sym
  rcases sym with rfl | rfl | rfl | rfl | rfl | rfl | rfl <;> decide

theorem lex_gtgt : lex ('>' :: '>' :: cs) = .gtgt :: lex cs := by
  rw [lex, if_neg (by decide), if_pos rfl]
  simp only [List.head?_cons, List.tail_cons, ↓reduceIte]

theorem lex_gt (single : cs.head? ≠ some '>') : lex ('>' :: cs) = .gt :: lex cs := by
  rw [lex, if_neg (by decide), if_pos rfl, if_neg single]

theorem symTok_ne_gt : symTok '>' = none := by decide

/-- A symbol other than `>` is one token. -/
theorem lex_sym {tk : Tok} (sym : symTok c = some tk) : lex (c :: cs) = tk :: lex cs := by
  have symbol : c ∈ symbols ∧ c ≠ '>' := by
    unfold symTok at sym
    split_ifs at sym <;> simp_all [symbols]
  rw [lex, if_neg (by rw [not_space_of_symbol symbol.1]; decide), if_neg symbol.2, sym]

theorem symTok_eq_none {c : Char} (word : isWordChar c) : symTok c = none := by
  simp only [isWordChar, symbols, List.mem_cons, List.not_mem_nil, decide_eq_true_eq] at word
  simp only [symTok]
  split_ifs <;> simp_all

/-- A word is the longest run of word characters. -/
theorem lex_word (word : isWordChar c) :
    lex (c :: cs) = .word (c :: cs.takeWhile isWordChar) :: lex (cs.dropWhile isWordChar) := by
  have notSpace : isSpace c = false := by
    simp only [isWordChar, decide_eq_true_eq] at word
    simpa [isSpace] using word.1
  have notGt : c ≠ '>' := by
    rintro rfl
    exact absurd word (by decide)
  rw [lex, if_neg (by rw [notSpace]; decide), if_neg notGt, symTok_eq_none word]

/-- Every character is whitespace, a word character, `>`, or another symbol. -/
theorem char_cases (c : Char) :
    isSpace c ∨ isWordChar c ∨ c = '>' ∨ ∃ tk, symTok c = some tk := by
  by_cases space : isSpace c
  · exact .inl space
  by_cases word : isWordChar c
  · exact .inr (.inl word)
  right; right
  have symbol : c ∈ symbols := by
    simp only [isSpace, isWordChar, decide_eq_true_eq, not_and, not_not] at space word
    exact word space
  simp only [symbols, List.mem_cons, List.not_mem_nil, or_false] at symbol
  rcases symbol with rfl | rfl | rfl | rfl | rfl | rfl | rfl
  all_goals first | exact .inl rfl | exact .inr ⟨_, rfl⟩

/-- Whitespace before the tokens changes nothing. -/
theorem lex_dropWhile_space (cs : List Char) : lex (cs.dropWhile isSpace) = lex cs := by
  induction cs with
  | nil => rfl
  | cons c cs ih =>
    rw [List.dropWhile_cons]
    split
    · rw [ih, lex_space ‹_›]
    · rfl

/-- Each token takes a character at least. -/
theorem length_lex_le (cs : List Char) : (lex cs).length ≤ cs.length := by
  induction cs using lex.induct with
  | case1 => simp
  | case2 c cs space ih =>
    rw [lex_space space]
    simp only [List.length_cons]
    omega
  | case3 cs pair notSpace ih =>
    obtain ⟨rest, rfl⟩ : ∃ rest, cs = '>' :: rest := by
      cases cs with
      | nil => cases pair
      | cons d rest => exact ⟨rest, by simp_all⟩
    rw [lex_gtgt]
    simp only [List.tail_cons, List.length_cons] at ih ⊢
    omega
  | case4 cs single notSpace ih =>
    rw [lex_gt single]
    simp only [List.length_cons]
    omega
  | case5 c cs notSpace gt tk sym ih =>
    rw [lex_sym sym]
    simp only [List.length_cons]
    omega
  | case6 c cs notSpace gt sym ih =>
    rw [lex, if_neg notSpace, if_neg gt, sym]
    have := List.length_dropWhile_le isWordChar cs
    simp only [List.length_cons]
    omega

end Lex

end Xv6.Sh
