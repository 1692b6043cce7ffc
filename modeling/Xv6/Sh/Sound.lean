import Xv6.Sh.Strings

/-!
**What the parser returns is a derivation of the grammar, and the parser stops.**

The runs are followed with the rules of `Ends`: a result of a parse function for `X`, from the
position `i` to `j`, is a derivation of `X` from the tokens between `i` and `j`, whose tree is the
returned tree read at its words; every string of that tree lies around a word of the line
(`Parses`). Each function keeps this one turn at a time (`parseline_sound`, `parsepipe_sound`,
`parseexec_sound`, `parseblock_sound`, from the same of the functions they call with less fuel),
and the loops by induction on their fuel (`parseredirs_sound`, `parselineLoop_sound`,
`parseexecLoop_sound`).

The same induction bounds the fuel: each call either passes a token or goes down from `parseline`
to `parsepipe`, `parseexec` and `parseblock`, so a parse with `4 * n + 4` turns before `n` tokens
never runs out (`Stops`). `parse_sound` is the induction on the fuel.
-/

namespace Xv6.Sh

open Xv6.Lib

section Peeked

variable {ts : List Tok}

/-- `peek` saw one of the symbols that only one token starts with. -/
theorem eq_of_nextIn_sym (tk : Tok) (single : tk ∈ [Tok.bar, .amp, .semi, .lparen, .rparen])
    (next : nextIn [tk.code] ts = true) : ∃ rest, ts = tk :: rest := by
  cases ts with
  | nil => cases next
  | cons tk' rest =>
    refine ⟨rest, ?_⟩
    simp only [List.mem_cons, List.not_mem_nil, or_false] at single
    rcases single with rfl | rfl | rfl | rfl | rfl <;> cases tk' <;>
      simp_all [nextIn, Tok.lead, Tok.code]

/-- `peek` saw `<` or `>`: a redirection comes next. -/
theorem eq_redir_of_nextIn (next : nextIn ['<', '>'] ts = true) :
    ∃ r rest, ts = Redir.tok r :: rest := by
  cases ts with
  | nil => cases next
  | cons tk rest =>
    cases tk <;> simp [nextIn, Tok.lead, Tok.code] at next
    · exact ⟨.input, rest, rfl⟩
    · exact ⟨.output, rest, rfl⟩
    · exact ⟨.append, rest, rfl⟩

theorem eq_word_of_code {tk : Tok} (code : tk.code = 'a') : ∃ w, tk = .word w := by
  cases tk <;> simp [Tok.code] at code
  exact ⟨_, rfl⟩

theorem code_ne_zero (tk : Tok) : tk.code ≠ '\x00' := by
  cases tk <;> simp only [Tok.code] <;> decide

end Peeked

section Sound

variable {s : List Char}

/-- An error of a run with `fuel`, of a parse that needs `bound` turns: the fuel runs out only
below the bound. -/
def Stops (fuel bound : Nat) (e : String) : Prop := e = noEnd → fuel < bound

theorem stops_of_ne {fuel bound : Nat} {e : String} (panic : e ≠ noEnd) : Stops fuel bound e :=
  fun same => absurd same panic

theorem WordsOk.addArg {t : Cmd (Nat × Nat)} {x : Nat × Nat} (words : WordsOk s t)
    (word : x.2 = scan s isWordChar x.1) : WordsOk s (t.addArg x) := by
  induction t with
  | exec argv =>
    intro y mem
    simp only [Cmd.addArg, Cmd.strings, List.mem_append, List.mem_singleton] at mem
    rcases mem with mem | rfl
    · exact words y mem
    · exact word
  | redir c file mode fd ih =>
    intro y mem
    simp only [Cmd.addArg, Cmd.strings, List.mem_append, List.mem_singleton] at mem
    rcases mem with mem | rfl
    · exact ih (fun z m => words z (by simp [Cmd.strings, m])) y mem
    · exact words y (by simp [Cmd.strings])
  | pipe l r => exact words
  | list l r => exact words
  | back c => exact words

/-- A derivation from the tokens a run passed. -/
def Parses (s : List Char) (X : Sym) (p : ParseM (Cmd (Nat × Nat))) (fuel bound i : Nat) : Prop :=
  Ends p i (Stops fuel bound) fun t j => j ≤ s.length ∧ WordsOk s t ∧
    ∃ ts, lex (s.drop i) = ts ++ lex (s.drop j) ∧ Derives X ts (t.map (text s))

theorem length_le_of_eq_append {ts rest all : List Tok} (split : all = ts ++ rest) :
    rest.length ≤ all.length := by
  rw [split, List.length_append]
  omega

-- the line holds no 0: it is a C string
variable (nul : '\x00' ∉ s)
include nul

/-- **The loop of `parseredirs`**: the redirections it passes, each wrapping the command. -/
theorem parseredirs_sound : ∀ (fuel : Nat) (cmd : Cmd (Nat × Nat)) (i : Nat), i ≤ s.length →
    Ends (parseredirs s fuel cmd) i (Stops fuel ((lex (s.drop i)).length + 1))
      fun c j => j ≤ s.length ∧ (WordsOk s cmd → WordsOk s c) ∧
        ∃ rs, lex (s.drop i) = redirToks rs ++ lex (s.drop j) ∧
          c.map (text s) = wrap rs (cmd.map (text s))
  | 0, _, _, _ => Ends.throw fun _ => Nat.succ_pos _
  | fuel + 1, cmd, i, hi => by
    rw [parseredirs]
    have hq := scan_le isSpace hi
    have same := lex_drop_scan_space (s := s) i
    refine Ends.bind (Ends.of_run (peek_run nul (by decide) i) ?_)
    refine Ends.ite (fun next => ?_) fun _ =>
      Ends.pure ⟨hq, id, [], by simp [same, redirToks], rfl⟩
    obtain ⟨r, rest, tokens⟩ := eq_redir_of_nextIn next
    obtain ⟨q1, eq1, j1, ran1, hj1, after1, -⟩ := gettoken_run_cons nul hq (same.trans tokens)
    refine Ends.bind (Ends.of_run ran1 ?_)
    dsimp only
    cases rest with
    | nil =>
      -- no file: the parse panics
      refine Ends.bind (Ends.of_run (gettoken_run_nil after1) ?_)
      dsimp only
      exact Ends.ite (fun _ => Ends.bind (Ends.throw (stops_of_ne (by decide))))
        fun good => (good (by decide)).elim
    | cons tk rest =>
      obtain ⟨q, eq, j, ran, hj, after, word⟩ := gettoken_run_cons nul hj1 after1
      refine Ends.bind (Ends.of_run ran ?_)
      dsimp only
      refine Ends.ite (fun _ => Ends.bind (Ends.throw (stops_of_ne (by decide)))) fun good => ?_
      obtain ⟨w, rfl⟩ := eq_word_of_code (by simpa using good)
      obtain ⟨stops, read⟩ := word w rfl
      rw [redirFor_tok]
      have fewer : (lex (s.drop j)).length + 2 = (lex (s.drop i)).length := by
        rw [tokens, after]
        simp
      refine (parseredirs_sound fuel _ j hj).weaken (fun e stop none => ?_) ?_
      · have := stop none
        omega
      rintro c j' ⟨hj', words, rs, toks, built⟩
      refine ⟨hj', fun ok => words ?_, (r, w) :: rs, ?_, ?_⟩
      · intro x mem
        simp only [Cmd.strings, List.mem_append, List.mem_singleton] at mem
        rcases mem with mem | rfl
        · exact ok x mem
        · exact stops
      · rw [tokens, ← after, toks]
        simp [redirToks]
      · rw [built, Cmd.map, read]
        rfl

/-- **The loop `while(peek(ps, es, "&"))` of `parseline`**: a `BACK` for each `&`. -/
theorem parselineLoop_sound : ∀ (fuel : Nat) (cmd : Cmd (Nat × Nat)) (i : Nat), i ≤ s.length →
    Ends (parselineLoop s fuel cmd) i (Stops fuel ((lex (s.drop i)).length + 1))
      fun c j => j ≤ s.length ∧
        ∃ k, lex (s.drop i) = List.replicate k .amp ++ lex (s.drop j) ∧ c = backs k cmd
  | 0, _, _, _ => Ends.throw fun _ => Nat.succ_pos _
  | fuel + 1, cmd, i, hi => by
    rw [parselineLoop]
    have hq := scan_le isSpace hi
    have same := lex_drop_scan_space (s := s) i
    refine Ends.bind (Ends.of_run (peek_run nul (by decide) i) ?_)
    refine Ends.ite (fun next => ?_) fun _ => Ends.pure ⟨hq, 0, by simp [same], rfl⟩
    obtain ⟨rest, tokens⟩ := eq_of_nextIn_sym .amp (by decide) next
    obtain ⟨q, eq, j, ran, hj, after, -⟩ := gettoken_run_cons nul hq (same.trans tokens)
    refine Ends.bind (Ends.of_run ran ?_)
    refine (parselineLoop_sound fuel (.back cmd) j hj).weaken (fun e stop none => ?_) ?_
    · have := stop none
      rw [after] at this
      rw [tokens, List.length_cons]
      omega
    rintro c j' ⟨hj', k, toks, rfl⟩
    refine ⟨hj', k + 1, ?_, rfl⟩
    rw [tokens, ← after, toks, List.replicate_succ, List.cons_append]

/-- **The loop of `parseexec`**: the words it passes, each with the redirections after it; the
words go into the `execcmd` and the redirections wrap the command. -/
theorem parseexecLoop_sound : ∀ (fuel argc : Nat) (ret : Cmd (Nat × Nat)) (i : Nat),
    i ≤ s.length → argc < maxArgs →
    Ends (parseexecLoop s fuel argc ret) i (Stops fuel ((lex (s.drop i)).length + 1))
      fun c j => j ≤ s.length ∧ (WordsOk s ret → WordsOk s c) ∧
        ∃ args : List (List Char × List (Redir × List Char)),
          lex (s.drop i) = argToks args ++ lex (s.drop j) ∧ argc + args.length < maxArgs ∧
          ∀ rs ws, ret.map (text s) = wrap rs (.exec ws) →
            c.map (text s) = wrap (rs ++ args.flatMap Prod.snd) (.exec (ws ++ args.map Prod.fst))
  | 0, _, _, _, _, _ => Ends.throw fun _ => Nat.succ_pos _
  | fuel + 1, argc, ret, i, hi, room => by
    rw [parseexecLoop]
    have hq := scan_le isSpace hi
    have same := lex_drop_scan_space (s := s) i
    -- the loop ends with `ret` as it is: no word was passed
    have done : ∀ j, j ≤ s.length → lex (s.drop j) = lex (s.drop i) →
        j ≤ s.length ∧ (WordsOk s ret → WordsOk s ret) ∧
          ∃ args : List (List Char × List (Redir × List Char)),
            lex (s.drop i) = argToks args ++ lex (s.drop j) ∧ argc + args.length < maxArgs ∧
            ∀ rs ws, ret.map (text s) = wrap rs (.exec ws) →
              ret.map (text s) = wrap (rs ++ args.flatMap Prod.snd)
                (.exec (ws ++ args.map Prod.fst)) :=
      fun j hj kept => ⟨hj, id, [], by simp [kept, argToks], by simpa using room,
        fun rs ws built => by simpa using built⟩
    refine Ends.bind (Ends.of_run (peek_run nul (by decide) i) ?_)
    refine Ends.ite (fun _ => Ends.pure (done _ hq same)) fun _ => ?_
    cases tokens : lex (s.drop i) with
    | nil =>
      refine Ends.bind (Ends.of_run (gettoken_run_nil (same.trans tokens)) ?_)
      dsimp only
      rw [if_pos rfl]
      rw [tokens] at done
      exact Ends.pure (done _ (scan_le isSpace hq) (by rw [lex_drop_scan_space, same, tokens]))
    | cons tk rest =>
      obtain ⟨q, eq, j, ran, hj, after, word⟩ := gettoken_run_cons nul hq (same.trans tokens)
      refine Ends.bind (Ends.of_run ran ?_)
      dsimp only
      rw [if_neg (code_ne_zero tk)]
      refine Ends.ite (fun _ => Ends.throw (stops_of_ne (by decide))) fun good => ?_
      obtain ⟨w, rfl⟩ := eq_word_of_code (by simpa using good)
      obtain ⟨stops, read⟩ := word w rfl
      refine Ends.ite (fun _ => Ends.bind (Ends.throw (stops_of_ne (by decide)))) fun fits => ?_
      have more : argc + 1 < maxArgs := by omega
      refine Ends.bind ((parseredirs_sound nul fuel _ j hj).weaken (fun e stop none => ?_) ?_)
      · have := stop none
        rw [after] at this
        simp only [List.length_cons]
        omega
      rintro c1 j1 ⟨hj1, words1, rs1, toks1, built1⟩
      have fewer : (lex (s.drop j1)).length ≤ rest.length := by
        rw [← after]
        exact length_le_of_eq_append toks1
      refine (parseexecLoop_sound fuel (argc + 1) c1 j1 hj1 more).weaken
        (fun e stop none => ?_) ?_
      · have := stop none
        simp only [List.length_cons]
        omega
      rintro c j' ⟨hj', words, args, toks, count, built⟩
      refine ⟨hj', fun ok => words (words1 (ok.addArg stops)), (w, rs1) :: args, ?_, ?_, ?_⟩
      · rw [← after, toks1, toks]
        simp [argToks]
      · simp only [List.length_cons]
        omega
      · intro rs ws ready
        rw [built (rs ++ rs1) (ws ++ [w])]
        · simp
        · rw [built1, Cmd.map_addArg, ready, addArg_wrap, read, wrap_append]
          rfl

section Steps

variable {fuel : Nat}

/-- A turn of `parseline`, from the same of `parsepipe` and `parseline` with less fuel. -/
theorem parseline_sound
    (pipe : ∀ i, i ≤ s.length →
      Parses s .pipe (parsepipe s fuel) fuel (4 * (lex (s.drop i)).length + 3) i)
    (line : ∀ i, i ≤ s.length →
      Parses s .line (parseline s fuel) fuel (4 * (lex (s.drop i)).length + 4) i)
    {i : Nat} (hi : i ≤ s.length) :
    Parses s .line (parseline s (fuel + 1)) (fuel + 1) (4 * (lex (s.drop i)).length + 4) i := by
  unfold Parses
  rw [parseline]
  refine Ends.bind ((pipe i hi).weaken (fun e stop none => by have := stop none; omega) ?_)
  rintro p j1 ⟨hj1, words, ts, tokens1, derives⟩
  have le1 := length_le_of_eq_append tokens1
  refine Ends.bind ((parselineLoop_sound nul fuel p j1 hj1).weaken
    (fun e stop none => by have := stop none; omega) ?_)
  rintro c j2 ⟨hj2, k, tokens2, rfl⟩
  have same := lex_drop_scan_space (s := s) j2
  have wordsBack : WordsOk s (backs k p) := by
    unfold WordsOk
    rwa [strings_backs]
  refine Ends.bind (Ends.of_run (peek_run nul (by decide) j2) ?_)
  refine Ends.ite (fun next => ?_) fun _ => Ends.pure ⟨scan_le isSpace hj2, wordsBack,
    ts ++ List.replicate k .amp, by rw [same, tokens1, tokens2, List.append_assoc],
    by rw [map_backs]; exact Derives.line k derives⟩
  -- `;`: a list, with the line after it
  obtain ⟨rest, tokens3⟩ := eq_of_nextIn_sym .semi (by decide) next
  obtain ⟨q, eq, j3, ran, hj3, after, -⟩ :=
    gettoken_run_cons nul (scan_le isSpace hj2) (same.trans tokens3)
  refine Ends.bind (Ends.of_run ran ?_)
  have fewer : (lex (s.drop j3)).length < (lex (s.drop i)).length := by
    have := length_le_of_eq_append tokens2
    rw [tokens3, ← after] at this
    simp only [List.length_cons] at this
    omega
  refine Ends.bind ((line j3 hj3).weaken (fun e stop none => by have := stop none; omega) ?_)
  rintro u j4 ⟨hj4, wordsLine, us, tokens4, derivesLine⟩
  refine Ends.pure ⟨hj4, ?_, ts ++ List.replicate k .amp ++ .semi :: us, ?_, ?_⟩
  · intro x mem
    simp only [Cmd.strings, List.mem_append] at mem
    exact mem.elim (wordsBack x) (wordsLine x)
  · rw [tokens1, tokens2, tokens3, ← after, tokens4]
    simp
  · rw [Cmd.map, map_backs]
    exact Derives.list k derives derivesLine

/-- A turn of `parsepipe`, from the same of `parseexec` and `parsepipe` with less fuel. -/
theorem parsepipe_sound
    (exec : ∀ i, i ≤ s.length →
      Parses s .exec (parseexec s fuel) fuel (4 * (lex (s.drop i)).length + 2) i)
    (pipe : ∀ i, i ≤ s.length →
      Parses s .pipe (parsepipe s fuel) fuel (4 * (lex (s.drop i)).length + 3) i)
    {i : Nat} (hi : i ≤ s.length) :
    Parses s .pipe (parsepipe s (fuel + 1)) (fuel + 1) (4 * (lex (s.drop i)).length + 3) i := by
  unfold Parses
  rw [parsepipe]
  refine Ends.bind ((exec i hi).weaken (fun e stop none => by have := stop none; omega) ?_)
  rintro c j1 ⟨hj1, words, ts, tokens1, derives⟩
  have same := lex_drop_scan_space (s := s) j1
  refine Ends.bind (Ends.of_run (peek_run nul (by decide) j1) ?_)
  refine Ends.ite (fun next => ?_) fun _ => Ends.pure ⟨scan_le isSpace hj1, words, ts,
    by rw [same, tokens1], Derives.pipe derives⟩
  -- `|`: a pipe, with the pipeline after it
  obtain ⟨rest, tokens2⟩ := eq_of_nextIn_sym .bar (by decide) next
  obtain ⟨q, eq, j2, ran, hj2, after, -⟩ :=
    gettoken_run_cons nul (scan_le isSpace hj1) (same.trans tokens2)
  refine Ends.bind (Ends.of_run ran ?_)
  have fewer : (lex (s.drop j2)).length < (lex (s.drop i)).length := by
    have := length_le_of_eq_append tokens1
    rw [tokens2, ← after] at this
    simp only [List.length_cons] at this
    omega
  refine Ends.bind ((pipe j2 hj2).weaken (fun e stop none => by have := stop none; omega) ?_)
  rintro u j3 ⟨hj3, wordsPipe, us, tokens3, derivesPipe⟩
  refine Ends.pure ⟨hj3, ?_, ts ++ .bar :: us, ?_, Derives.pipeBar derives derivesPipe⟩
  · intro x mem
    simp only [Cmd.strings, List.mem_append] at mem
    exact mem.elim (words x) (wordsPipe x)
  · rw [tokens1, tokens2, ← after, tokens3]
    simp

/-- A turn of `parseblock`, from the same of `parseline` with less fuel. -/
theorem parseblock_sound
    (line : ∀ i, i ≤ s.length →
      Parses s .line (parseline s fuel) fuel (4 * (lex (s.drop i)).length + 4) i)
    {i : Nat} (hi : i ≤ s.length) :
    Parses s .exec (parseblock s (fuel + 1)) (fuel + 1) (4 * (lex (s.drop i)).length + 1) i := by
  unfold Parses
  rw [parseblock]
  have same := lex_drop_scan_space (s := s) i
  refine Ends.bind (Ends.of_run (peek_run nul (by decide) i) ?_)
  dsimp only
  refine Ends.ite (fun _ => Ends.bind (Ends.throw (stops_of_ne (by decide)))) fun open_ => ?_
  obtain ⟨rest, tokens1⟩ := eq_of_nextIn_sym .lparen (by decide) (by simpa [Tok.code] using open_)
  obtain ⟨q, eq, j1, ran, hj1, after1, -⟩ :=
    gettoken_run_cons nul (scan_le isSpace hi) (same.trans tokens1)
  refine Ends.bind (Ends.of_run ran ?_)
  have fewer : (lex (s.drop j1)).length + 1 = (lex (s.drop i)).length := by
    rw [tokens1, after1]
    rfl
  refine Ends.bind ((line j1 hj1).weaken (fun e stop none => by have := stop none; omega) ?_)
  rintro t j2 ⟨hj2, words, ts, tokens2, derives⟩
  have same2 := lex_drop_scan_space (s := s) j2
  refine Ends.bind (Ends.of_run (peek_run nul (by decide) j2) ?_)
  refine Ends.ite (fun _ => Ends.bind (Ends.throw (stops_of_ne (by decide)))) fun close => ?_
  obtain ⟨rest2, tokens3⟩ := eq_of_nextIn_sym .rparen (by decide) (by simpa [Tok.code] using close)
  obtain ⟨q', eq', j3, ran', hj3, after3, -⟩ :=
    gettoken_run_cons nul (scan_le isSpace hj2) (same2.trans tokens3)
  refine Ends.bind (Ends.of_run ran' ?_)
  have fewer3 : (lex (s.drop j3)).length < (lex (s.drop i)).length := by
    have := length_le_of_eq_append tokens2
    rw [tokens3, ← after3] at this
    simp only [List.length_cons] at this
    omega
  refine (parseredirs_sound nul fuel t j3 hj3).weaken
    (fun e stop none => by have := stop none; omega) ?_
  rintro c j4 ⟨hj4, wordsRedirs, rs, tokens4, built⟩
  refine ⟨hj4, wordsRedirs words, .lparen :: ts ++ .rparen :: redirToks rs, ?_, ?_⟩
  · rw [tokens1, ← after1, tokens2, tokens3, ← after3, tokens4]
    simp
  · rw [built]
    exact Derives.block rs derives

/-- A turn of `parseexec`, from the same of `parseblock` with less fuel. -/
theorem parseexec_sound
    (block : ∀ i, i ≤ s.length →
      Parses s .exec (parseblock s fuel) fuel (4 * (lex (s.drop i)).length + 1) i)
    {i : Nat} (hi : i ≤ s.length) :
    Parses s .exec (parseexec s (fuel + 1)) (fuel + 1) (4 * (lex (s.drop i)).length + 2) i := by
  unfold Parses
  rw [parseexec]
  have hq := scan_le isSpace hi
  have same := lex_drop_scan_space (s := s) i
  refine Ends.bind (Ends.of_run (peek_run nul (by decide) i) ?_)
  refine Ends.ite (fun _ => ?_) fun _ => ?_
  · refine (block _ hq).weaken (fun e stop none => by have := stop none; rw [same] at this; omega) ?_
    rintro t j ⟨hj, words, ts, tokens, derives⟩
    exact ⟨hj, words, ts, by rw [← same, tokens], derives⟩
  -- a command of words and redirections
  refine Ends.bind ((parseredirs_sound nul fuel _ _ hq).weaken
    (fun e stop none => by have := stop none; rw [same] at this; omega) ?_)
  rintro c0 j0 ⟨hj0, words0, rs, tokens0, built0⟩
  have le0 := length_le_of_eq_append tokens0
  refine (parseexecLoop_sound nul fuel 0 c0 j0 hj0 (by decide)).weaken
    (fun e stop none => by have := stop none; rw [same] at le0; omega) ?_
  rintro c j ⟨hj, words, args, tokens, count, built⟩
  have empty : WordsOk s (Cmd.exec []) := fun _ mem => by simp [Cmd.strings] at mem
  refine ⟨hj, words (words0 empty), redirToks rs ++ argToks args, ?_, ?_⟩
  · rw [← same, tokens0, tokens, List.append_assoc]
  · rw [built rs [] (by rw [built0]; rfl), List.nil_append]
    exact Derives.simple rs args (by omega)

end Steps

/-- **The parse functions are sound and stop.** With `fuel` turns, each run is a derivation of
its nonterminal from the tokens it passes, and runs out of fuel only when the fuel is below
`4 * n + 4`, `+ 3`, `+ 2`, `+ 1` for `parseline`, `parsepipe`, `parseexec`, `parseblock` before
`n` tokens. The induction is on the fuel. -/
theorem parse_sound (fuel : Nat) : ∀ i, i ≤ s.length →
    Parses s .line (parseline s fuel) fuel (4 * (lex (s.drop i)).length + 4) i ∧
      Parses s .pipe (parsepipe s fuel) fuel (4 * (lex (s.drop i)).length + 3) i ∧
      Parses s .exec (parseexec s fuel) fuel (4 * (lex (s.drop i)).length + 2) i ∧
      Parses s .exec (parseblock s fuel) fuel (4 * (lex (s.drop i)).length + 1) i := by
  induction fuel with
  | zero =>
    intro i _
    refine ⟨?_, ?_, ?_, ?_⟩ <;> exact Ends.throw fun _ => by omega
  | succ fuel ih =>
    intro i hi
    exact ⟨parseline_sound nul (fun i hi => (ih i hi).2.1) (fun i hi => (ih i hi).1) hi,
      parsepipe_sound nul (fun i hi => (ih i hi).2.2.1) (fun i hi => (ih i hi).2.1) hi,
      parseexec_sound nul (fun i hi => (ih i hi).2.2.2) hi,
      parseblock_sound nul (fun i hi => (ih i hi).1) hi⟩

end Sound

end Xv6.Sh
