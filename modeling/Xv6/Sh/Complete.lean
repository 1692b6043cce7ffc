import Xv6.Sh.Sound

/-!
**The parser finds every derivation; `parsecmd` accepts exactly the language.**

Completeness is by induction on the derivation (`parse_complete`): before the tokens of an `X`
followed by tokens that may follow an `X` (`Follows`), the parse function of `X` with enough
fuel returns the tree of the derivation and stops right before what follows. The follow condition
is what makes each loop stop where the derivation does: `peek` sees no `&` after a line, no `|`
after a pipeline, and no `<` or `>` after the redirections of a command.

* `parsecmd_grammar` — for every line `s`, a C string: `parsecmd(s)` stops; it returns without a
  panic exactly when the tokens of `s` are a `line` of the grammar; and it returns the tree of the
  derivation, with each `argv[i]` and each file name, read after `nulterminate` as the string at
  its pointer, equal to its word.
-/

namespace Xv6.Sh

open Xv6.Lib

/-- The parse function of a nonterminal. -/
def parser (s : List Char) : Sym → Nat → ParseM (Cmd (Nat × Nat))
  | .line => parseline s
  | .pipe => parsepipe s
  | .exec => parseexec s

/-- The fuel a parse function needs before `n` tokens. -/
def need : Sym → Nat → Nat
  | .line, n => 4 * n + 4
  | .pipe, n => 4 * n + 3
  | .exec, n => 4 * n + 2

section Follow

variable {rest : List Tok}

theorem Follows.mono {X Y : Sym} (sub : ∀ tk ∈ follow X, tk ∈ follow Y) (follows : Follows X rest) :
    Follows Y rest := by
  cases rest with
  | nil => trivial
  | cons tk rest => exact sub tk follows

/-- `peek` looks for none of the tokens that may follow. -/
theorem nextIn_of_follows {X : Sym} {toks : List Char} (follows : Follows X rest)
    (none : ∀ tk ∈ follow X, tk.lead.any (· ∈ toks) = false) : nextIn toks rest = false := by
  cases rest with
  | nil => rfl
  | cons tk rest => exact none tk follows

theorem length_redirToks (rs : List (Redir × List Char)) : (redirToks rs).length = 2 * rs.length := by
  induction rs with
  | nil => rfl
  | cons r rs ih =>
    simp only [redirToks, List.flatMap_cons, List.length_append, List.length_cons,
      List.length_nil] at ih ⊢
    omega

/-- After the words of a command, no redirection. -/
theorem nextIn_argToks (follows : Follows .exec rest)
    (args : List (List Char × List (Redir × List Char))) :
    nextIn ['<', '>'] (argToks args ++ rest) = false := by
  cases args with
  | nil => exact nextIn_of_follows follows (by decide)
  | cons a args => rfl

/-- A command of words and redirections starts with no `(`. -/
theorem nextIn_simple (follows : Follows .exec rest) (rs : List (Redir × List Char))
    (args : List (List Char × List (Redir × List Char))) :
    nextIn ['('] (redirToks rs ++ argToks args ++ rest) = false := by
  cases rs with
  | cons r rs =>
    obtain ⟨r, w⟩ := r
    cases r <;> rfl
  | nil =>
    cases args with
    | nil => exact nextIn_of_follows follows (by decide)
    | cons a args => rfl

end Follow

section Complete

variable {s : List Char}

/-- Past the whitespace is the end of the line exactly when no token is left. -/
theorem scan_space_eq_length_iff {j : Nat} (hj : j ≤ s.length) :
    scan s isSpace j = s.length ↔ lex (s.drop j) = [] := by
  rw [← lex_drop_scan_space]
  constructor
  · intro at_end
    rw [at_end, List.drop_length, lex_nil]
  · intro none
    rcases drop_scan_space (s := s) j with at_end | ⟨c, cs, at_q, notSpace⟩
    · have := scan_le isSpace hj (s := s)
      rw [List.drop_eq_nil_iff] at at_end
      omega
    · rw [at_q] at none
      exact absurd none (lex_cons_ne_nil notSpace)

variable (nul : '\x00' ∉ s)
include nul

/-- **The loop of `parseredirs`** passes every redirection before a token that is none. -/
theorem parseredirs_complete : ∀ (rs : List (Redir × List Char)) (fuel : Nat)
    (cmd : Cmd (Nat × Nat)) (i : Nat) (rest : List Tok), i ≤ s.length →
    lex (s.drop i) = redirToks rs ++ rest → nextIn ['<', '>'] rest = false → rs.length < fuel →
    Ends (parseredirs s fuel cmd) i (fun _ => False) fun c j =>
      j ≤ s.length ∧ lex (s.drop j) = rest ∧ c.map (text s) = wrap rs (cmd.map (text s))
  | [], fuel + 1, cmd, i, rest, hi, tokens, stop, _ => by
    rw [parseredirs]
    refine Ends.bind (Ends.of_run (peek_run nul (by decide) i) ?_)
    refine Ends.ite (fun next => ?_) fun _ => Ends.pure ⟨scan_le isSpace hi,
      by rw [lex_drop_scan_space, tokens]; rfl, rfl⟩
    rw [tokens] at next
    exact absurd next (by simp [redirToks, stop])
  | (r, w) :: rs, fuel + 1, cmd, i, rest, hi, tokens, stop, few => by
    rw [parseredirs]
    have same := lex_drop_scan_space (s := s) i
    have next : nextIn ['<', '>'] (lex (s.drop i)) = true := by
      rw [tokens]
      cases r <;> rfl
    refine Ends.bind (Ends.of_run (peek_run nul (by decide) i) ?_)
    refine Ends.ite (fun _ => ?_) fun no => absurd next no
    obtain ⟨q1, eq1, j1, ran1, hj1, after1, -⟩ :=
      gettoken_run_cons nul (scan_le isSpace hi) (same.trans tokens)
    refine Ends.bind (Ends.of_run ran1 ?_)
    obtain ⟨q, eq, j, ran, hj, after, word⟩ := gettoken_run_cons nul hj1 after1
    obtain ⟨stops, read⟩ := word w rfl
    refine Ends.bind (Ends.of_run ran ?_)
    dsimp only
    refine Ends.ite (fun bad => absurd rfl bad) fun _ => ?_
    rw [redirFor_tok]
    refine (parseredirs_complete rs fuel _ j rest hj after stop (by simp at few; omega)).mono ?_
    rintro c j' ⟨hj', after', built⟩
    refine ⟨hj', after', ?_⟩
    rw [built, Cmd.map, read]
    rfl

/-- **The loop of `parseline`** passes every `&` before a token that is none. -/
theorem parselineLoop_complete : ∀ (k fuel : Nat) (cmd : Cmd (Nat × Nat)) (i : Nat)
    (rest : List Tok), i ≤ s.length → lex (s.drop i) = List.replicate k .amp ++ rest →
    nextIn ['&'] rest = false → k < fuel →
    Ends (parselineLoop s fuel cmd) i (fun _ => False) fun c j =>
      j ≤ s.length ∧ lex (s.drop j) = rest ∧ c = backs k cmd
  | 0, fuel + 1, cmd, i, rest, hi, tokens, stop, _ => by
    rw [parselineLoop]
    refine Ends.bind (Ends.of_run (peek_run nul (by decide) i) ?_)
    refine Ends.ite (fun next => ?_) fun _ => Ends.pure ⟨scan_le isSpace hi,
      by rw [lex_drop_scan_space, tokens]; rfl, rfl⟩
    rw [tokens] at next
    exact absurd next (by simp [stop])
  | k + 1, fuel + 1, cmd, i, rest, hi, tokens, stop, few => by
    rw [parselineLoop]
    have same := lex_drop_scan_space (s := s) i
    have next : nextIn ['&'] (lex (s.drop i)) = true := by
      rw [tokens]
      rfl
    refine Ends.bind (Ends.of_run (peek_run nul (by decide) i) ?_)
    refine Ends.ite (fun _ => ?_) fun no => absurd next no
    obtain ⟨q, eq, j, ran, hj, after, -⟩ :=
      gettoken_run_cons nul (scan_le isSpace hi) (same.trans tokens)
    refine Ends.bind (Ends.of_run ran ?_)
    exact (parselineLoop_complete k fuel (.back cmd) j rest hj after stop (by omega)).mono
      fun _ _ post => post

/-- **The loop of `parseexec`** passes every word with the redirections after it, up to a token
that may follow a command. -/
theorem parseexecLoop_complete : ∀ (args : List (List Char × List (Redir × List Char)))
    (fuel argc : Nat) (ret : Cmd (Nat × Nat)) (i : Nat) (rest : List Tok), i ≤ s.length →
    lex (s.drop i) = argToks args ++ rest → Follows .exec rest →
    argc + args.length < maxArgs → (argToks args).length < fuel →
    Ends (parseexecLoop s fuel argc ret) i (fun _ => False) fun c j =>
      j ≤ s.length ∧ lex (s.drop j) = rest ∧
        ∀ rs ws, ret.map (text s) = wrap rs (.exec ws) →
          c.map (text s) = wrap (rs ++ args.flatMap Prod.snd) (.exec (ws ++ args.map Prod.fst))
  | [], fuel + 1, argc, ret, i, rest, hi, tokens, follows, _, _ => by
    rw [parseexecLoop]
    have same := lex_drop_scan_space (s := s) i
    have kept : ∀ rs ws, ret.map (text s) = wrap rs (.exec ws) →
        ret.map (text s) = wrap (rs ++ ([] : List (List Char × List (Redir × List Char))).flatMap
          Prod.snd) (.exec (ws ++ ([] : List (List Char × List (Redir × List Char))).map Prod.fst)) :=
      fun rs ws built => by simpa using built
    refine Ends.bind (Ends.of_run (peek_run nul (by decide) i) ?_)
    refine Ends.ite (fun _ => Ends.pure ⟨scan_le isSpace hi,
      by rw [same, tokens]; rfl, kept⟩) fun ends => ?_
    -- no token follows: `gettoken` returns 0 and the loop breaks
    cases rest with
    | cons tk rest =>
      refine absurd ?_ ends
      rw [tokens]
      simp only [follow, Follows, List.mem_cons, List.not_mem_nil, or_false] at follows
      rcases follows with rfl | rfl | rfl | rfl <;> rfl
    | nil =>
      rw [tokens, argToks, List.flatMap_nil, List.nil_append] at same
      refine Ends.bind (Ends.of_run (gettoken_run_nil same) ?_)
      dsimp only
      rw [if_pos rfl]
      exact Ends.pure ⟨scan_le isSpace (scan_le isSpace hi), by rw [lex_drop_scan_space, same], kept⟩
  | (w, rs1) :: args, fuel + 1, argc, ret, i, rest, hi, tokens, follows, room, few => by
    rw [parseexecLoop]
    have same := lex_drop_scan_space (s := s) i
    have toks : lex (s.drop i) = .word w :: (redirToks rs1 ++ (argToks args ++ rest)) := by
      rw [tokens]
      simp [argToks]
    refine Ends.bind (Ends.of_run (peek_run nul (by decide) i) ?_)
    refine Ends.ite (fun word => absurd word (by rw [toks]; exact Bool.false_ne_true)) fun _ => ?_
    obtain ⟨q, eq, j, ran, hj, after, word⟩ :=
      gettoken_run_cons nul (scan_le isSpace hi) (same.trans toks)
    obtain ⟨stops, read⟩ := word w rfl
    refine Ends.bind (Ends.of_run ran ?_)
    dsimp only
    rw [if_neg (code_ne_zero _)]
    refine Ends.ite (fun bad => absurd rfl bad) fun _ => ?_
    simp only [List.length_cons] at room
    refine Ends.ite (fun full => absurd full (by omega)) fun _ => ?_
    have lengths := length_redirToks rs1
    simp only [argToks, List.flatMap_cons, List.length_cons, List.length_append] at few
    refine Ends.bind ((parseredirs_complete nul rs1 fuel _ j _ hj after
      (nextIn_argToks follows args) (by omega)).mono ?_)
    rintro c1 j1 ⟨hj1, after1, built1⟩
    refine (parseexecLoop_complete args fuel (argc + 1) c1 j1 rest hj1 after1 follows (by omega)
      (by simp only [argToks] at *; omega)).mono ?_
    rintro c j' ⟨hj', after', built⟩
    refine ⟨hj', after', fun rs ws ready => ?_⟩
    rw [built (rs ++ rs1) (ws ++ [w])]
    · simp
    · rw [built1, Cmd.map_addArg, ready, addArg_wrap, read, wrap_append]
      rfl

/-- **Completeness.** Before the tokens of a derivation of `X`, followed by tokens that may follow
an `X`, the parse function of `X` with the fuel it needs returns the tree of the derivation and
stops before what follows. The induction is on the derivation. -/
theorem parse_complete {X : Sym} {ts : List Tok} {T : Cmd (List Char)} (derives : Derives X ts T) :
    ∀ (fuel i : Nat) (rest : List Tok), i ≤ s.length → lex (s.drop i) = ts ++ rest →
      Follows X rest → need X (ts ++ rest).length ≤ fuel →
      Ends (parser s X fuel) i (fun _ => False) fun t j =>
        j ≤ s.length ∧ lex (s.drop j) = rest ∧ t.map (text s) = T := by
  induction derives with
  | line k pipe ih =>
    rename_i ts t
    intro fuel i rest hi tokens follows enough
    obtain ⟨fuel, rfl⟩ : ∃ f, fuel = f + 1 := ⟨fuel - 1, by simp [need] at enough; omega⟩
    simp only [need, List.length_append, List.length_replicate] at enough
    show Ends (parseline s (fuel + 1)) _ _ _
    rw [parseline]
    have follow : Follows .pipe (List.replicate k .amp ++ rest) := by
      cases k with
      | zero => exact follows.mono (by decide)
      | succ k => simp [Follows, follow, List.replicate_succ]
    refine Ends.bind ((ih fuel i _ hi (by rw [tokens, List.append_assoc]) follow
      (by simp only [need, List.length_append, List.length_replicate]; omega)).mono ?_)
    rintro p j1 ⟨hj1, after1, tree⟩
    refine Ends.bind ((parselineLoop_complete nul k fuel p j1 rest hj1 after1
      (nextIn_of_follows follows (by decide)) (by omega)).mono ?_)
    rintro c j2 ⟨hj2, after2, rfl⟩
    refine Ends.bind (Ends.of_run (peek_run nul (by decide) j2) ?_)
    refine Ends.ite (fun next => absurd next ?_) fun _ => Ends.pure ⟨scan_le isSpace hj2,
      by rw [lex_drop_scan_space, after2], by rw [map_backs, tree]⟩
    rw [after2, nextIn_of_follows follows (by decide)]
    decide
  | list k pipe line ihp ihl =>
    rename_i ts t us u
    intro fuel i rest hi tokens follows enough
    obtain ⟨fuel, rfl⟩ : ∃ f, fuel = f + 1 := ⟨fuel - 1, by simp [need] at enough; omega⟩
    simp only [need, List.length_append, List.length_replicate, List.length_cons] at enough
    show Ends (parseline s (fuel + 1)) _ _ _
    rw [parseline]
    have follow : Follows .pipe (List.replicate k .amp ++ .semi :: us ++ rest) := by
      cases k <;> simp [Follows, follow, List.replicate_succ]
    refine Ends.bind ((ihp fuel i _ hi (by rw [tokens]; simp) follow
      (by simp only [need, List.length_append, List.length_replicate, List.length_cons]; omega)).mono ?_)
    rintro p j1 ⟨hj1, after1, tree⟩
    refine Ends.bind ((parselineLoop_complete nul k fuel p j1 (.semi :: us ++ rest) hj1
      (by rw [after1]; simp) rfl (by omega)).mono ?_)
    rintro c j2 ⟨hj2, after2, rfl⟩
    have same := lex_drop_scan_space (s := s) j2
    refine Ends.bind (Ends.of_run (peek_run nul (by decide) j2) ?_)
    refine Ends.ite (fun _ => ?_) fun no => absurd (by rw [after2]; rfl) no
    obtain ⟨q, eq, j3, ran, hj3, after3, -⟩ :=
      gettoken_run_cons nul (scan_le isSpace hj2) (same.trans after2)
    refine Ends.bind (Ends.of_run ran ?_)
    refine Ends.bind ((ihl fuel j3 rest hj3 after3 follows
      (by simp only [need, List.length_append]; omega)).mono ?_)
    rintro u' j4 ⟨hj4, after4, tree'⟩
    exact Ends.pure ⟨hj4, after4, by rw [Cmd.map, map_backs, tree, tree']⟩
  | pipe exec ih =>
    rename_i ts t
    intro fuel i rest hi tokens follows enough
    obtain ⟨fuel, rfl⟩ : ∃ f, fuel = f + 1 := ⟨fuel - 1, by simp [need] at enough; omega⟩
    show Ends (parsepipe s (fuel + 1)) _ _ _
    rw [parsepipe]
    refine Ends.bind ((ih fuel i rest hi tokens (follows.mono (by decide))
      (by simp only [need] at enough ⊢; omega)).mono ?_)
    rintro c j1 ⟨hj1, after1, tree⟩
    refine Ends.bind (Ends.of_run (peek_run nul (by decide) j1) ?_)
    refine Ends.ite (fun next => absurd next ?_) fun _ => Ends.pure ⟨scan_le isSpace hj1,
      by rw [lex_drop_scan_space, after1], tree⟩
    rw [after1, nextIn_of_follows follows (by decide)]
    decide
  | pipeBar exec pipe ihe ihp =>
    rename_i ts t us u
    intro fuel i rest hi tokens follows enough
    obtain ⟨fuel, rfl⟩ : ∃ f, fuel = f + 1 := ⟨fuel - 1, by simp [need] at enough; omega⟩
    simp only [need, List.length_append, List.length_cons] at enough
    show Ends (parsepipe s (fuel + 1)) _ _ _
    rw [parsepipe]
    refine Ends.bind ((ihe fuel i (.bar :: us ++ rest) hi (by rw [tokens]; simp)
      (by simp [Follows, follow]) (by simp only [need, List.length_append, List.length_cons]; omega)).mono ?_)
    rintro c j1 ⟨hj1, after1, tree⟩
    have same := lex_drop_scan_space (s := s) j1
    refine Ends.bind (Ends.of_run (peek_run nul (by decide) j1) ?_)
    refine Ends.ite (fun _ => ?_) fun no => absurd (by rw [after1]; rfl) no
    obtain ⟨q, eq, j2, ran, hj2, after2, -⟩ :=
      gettoken_run_cons nul (scan_le isSpace hj1) (same.trans after1)
    refine Ends.bind (Ends.of_run ran ?_)
    refine Ends.bind ((ihp fuel j2 rest hj2 after2 follows
      (by simp only [need, List.length_append]; omega)).mono ?_)
    rintro c' j3 ⟨hj3, after3, tree'⟩
    exact Ends.pure ⟨hj3, after3, by rw [Cmd.map, tree, tree']⟩
  | block rs line ih =>
    rename_i ts t
    intro fuel i rest hi tokens follows enough
    obtain ⟨fuel, rfl⟩ : ∃ f, fuel = f + 2 :=
      ⟨fuel - 2, by simp [need, redirToks] at enough; omega⟩
    have lengths := length_redirToks rs
    simp only [need, List.length_append, List.length_cons, lengths] at enough
    show Ends (parseexec s (fuel + 1 + 1)) _ _ _
    rw [parseexec]
    have same := lex_drop_scan_space (s := s) i
    have opens : nextIn ['('] (lex (s.drop i)) = true := by
      rw [tokens]
      rfl
    refine Ends.bind (Ends.of_run (peek_run nul (by decide) i) ?_)
    refine Ends.ite (fun _ => ?_) fun no => absurd opens no
    rw [parseblock]
    refine Ends.bind (Ends.of_run (peek_run nul (by decide) _) ?_)
    dsimp only
    rw [same]
    refine Ends.ite (fun bad => absurd bad (by rw [opens]; decide)) fun _ => ?_
    obtain ⟨q, eq, j1, ran, hj1, after1, -⟩ :=
      gettoken_run_cons nul (scan_le isSpace (scan_le isSpace hi))
        (by rw [lex_drop_scan_space, same, tokens]; rfl)
    refine Ends.bind (Ends.of_run ran ?_)
    refine Ends.bind ((ih fuel j1 (.rparen :: redirToks rs ++ rest) hj1
      (by rw [after1]; simp) (by simp [Follows, follow])
      (by simp only [need, List.length_append, List.length_cons, lengths]; omega)).mono ?_)
    rintro c j2 ⟨hj2, after2, tree⟩
    have same2 := lex_drop_scan_space (s := s) j2
    refine Ends.bind (Ends.of_run (peek_run nul (by decide) j2) ?_)
    refine Ends.ite (fun bad => absurd bad (by rw [after2]; exact Bool.false_ne_true)) fun _ => ?_
    obtain ⟨q', eq', j3, ran', hj3, after3, -⟩ :=
      gettoken_run_cons nul (scan_le isSpace hj2) (same2.trans after2)
    refine Ends.bind (Ends.of_run ran' ?_)
    refine (parseredirs_complete nul rs fuel c j3 rest hj3 after3
      (nextIn_of_follows follows (by decide)) (by omega)).mono ?_
    rintro c' j4 ⟨hj4, after4, built⟩
    exact ⟨hj4, after4, by rw [built, tree]⟩
  | simple rs args count =>
    intro fuel i rest hi tokens follows enough
    obtain ⟨fuel, rfl⟩ : ∃ f, fuel = f + 1 := ⟨fuel - 1, by simp [need] at enough; omega⟩
    simp only [need, List.length_append] at enough
    show Ends (parseexec s (fuel + 1)) _ _ _
    rw [parseexec]
    refine Ends.bind (Ends.of_run (peek_run nul (by decide) i) ?_)
    refine Ends.ite (fun bad => absurd bad (by rw [tokens, nextIn_simple follows]; decide))
      fun _ => ?_
    have lengths := length_redirToks rs
    refine Ends.bind ((parseredirs_complete nul rs fuel _ _ (argToks args ++ rest)
      (scan_le isSpace hi) (by rw [lex_drop_scan_space, tokens, List.append_assoc])
      (nextIn_argToks follows args) (by omega)).mono ?_)
    rintro c0 j0 ⟨hj0, after0, built0⟩
    refine (parseexecLoop_complete nul args fuel 0 c0 j0 rest hj0 after0 follows
      (by omega) (by omega)).mono ?_
    rintro c j ⟨hj, after, built⟩
    refine ⟨hj, after, ?_⟩
    rw [built rs [] (by rw [built0]; rfl), List.nil_append]

end Complete

section Parsecmd

variable {s : List Char} (nul : '\x00' ∉ s)
include nul

/-- `parsecmd` after a parse of the line that returned: the tree, when no token is left. -/
theorem parsecmd_of_ok {t : Cmd (Nat × Nat)} {j : Nat}
    (ran : (parseline s (4 * s.length + 4)).run 0 = .ok (t, j)) (hj : j ≤ s.length) :
    parsecmd s = if lex (s.drop j) = [] then .ok (t, nulterminate t s) else .error "syntax" := by
  unfold parsecmd
  rw [ran]
  simp only [bind, Except.bind]
  rw [peek_run nul (by decide) j]
  by_cases none : lex (s.drop j) = []
  · have at_end := (scan_space_eq_length_iff hj).mpr none
    simp [at_end, none]
    rfl
  · have more : scan s isSpace j ≠ s.length := fun at_end =>
      none ((scan_space_eq_length_iff hj).mp at_end)
    simp [more, none]
    rfl

omit nul in
theorem parsecmd_of_error {e : String} (ran : (parseline s (4 * s.length + 4)).run 0 = .error e) :
    parsecmd s = .error e := by
  unfold parsecmd
  rw [ran]
  rfl

/-- What `parse_sound` says of the parse of the whole line that `parsecmd` starts. -/
theorem parseline_run_sound :
    Parses s .line (parseline s (4 * s.length + 4)) (4 * s.length + 4) (4 * (lex s).length + 4) 0 := by
  have sound := (parse_sound nul (4 * s.length + 4) 0 (Nat.zero_le _)).1
  rwa [List.drop_zero] at sound

/-- The parse of the whole line returns the tree of each derivation, with no token left after it. -/
theorem parseline_run_complete {T : Cmd (List Char)} (derives : Derives .line (lex s) T) :
    ∃ t j, (parseline s (4 * s.length + 4)).run 0 = .ok (t, j) ∧ j ≤ s.length ∧
      lex (s.drop j) = [] ∧ t.map (text s) = T := by
  have few := length_lex_le s
  obtain ⟨t, j, ran, hj, after, tree⟩ := (parse_complete nul derives (4 * s.length + 4) 0 []
    (Nat.zero_le _) (by simp) trivial (by simp [need]; omega)).exists_ok
  exact ⟨t, j, ran, hj, after, tree⟩

/-- The derivations of a line are the trees `parsecmd` returns, read through `nulterminate`. -/
theorem derives_iff_parsecmd (T : Cmd (List Char)) : Derives .line (lex s) T ↔
    ∃ t buf, parsecmd s = .ok (t, buf) ∧ t.map (cstring buf ·.1) = T := by
  have sound := parseline_run_sound nul
  constructor
  · intro derives
    obtain ⟨t, j, ran, hj, after, tree⟩ := parseline_run_complete nul derives
    obtain ⟨-, words, -⟩ := sound.run_ok ran
    refine ⟨t, nulterminate t s, by rw [parsecmd_of_ok nul ran hj, if_pos after], ?_⟩
    rw [map_cstring_nulterminate nul words, tree]
  · rintro ⟨t, buf, parsed, rfl⟩
    cases ran : (parseline s (4 * s.length + 4)).run 0 with
    | error e =>
      rw [parsecmd_of_error ran] at parsed
      cases parsed
    | ok result =>
      obtain ⟨t', j⟩ := result
      obtain ⟨hj, words, ts, tokens, derives⟩ := sound.run_ok ran
      rw [parsecmd_of_ok nul ran hj] at parsed
      split at parsed
      · next none =>
        cases parsed
        rw [map_cstring_nulterminate nul words, ← List.drop_zero (l := s), tokens, none, List.append_nil]
        exact derives
      · cases parsed

/-- `parsecmd` stops: fuel runs out only below what the tokens need. -/
theorem parsecmd_stops : parsecmd s ≠ .error noEnd := by
  intro stuck
  have sound := parseline_run_sound nul
  have few := length_lex_le s
  cases ran : (parseline s (4 * s.length + 4)).run 0 with
  | error e =>
    rw [parsecmd_of_error ran] at stuck
    cases stuck
    have := sound.run_error ran rfl
    omega
  | ok result =>
    obtain ⟨t, j⟩ := result
    obtain ⟨hj, -⟩ := sound.run_ok ran
    rw [parsecmd_of_ok nul ran hj] at stuck
    split at stuck
    · cases stuck
    · exact absurd (Except.error.inj stuck) (by decide)

end Parsecmd

/-- **`parsecmd` accepts exactly its grammar.** For every line `s` with no 0 in it: `parsecmd(s)`
stops (it never runs out of fuel); it returns without a panic exactly when the tokens of `s` are a
`line` of the grammar; and the trees it returns are the derivation trees, each `argv[i]` and each
file name read, after `nulterminate`, as the string at its pointer. -/
theorem parsecmd_grammar (s : List Char) (nul : '\x00' ∉ s) :
    parsecmd s ≠ .error noEnd ∧
      ((∃ r, parsecmd s = .ok r) ↔ ∃ T, Derives .line (lex s) T) ∧
      ∀ T, Derives .line (lex s) T ↔
        ∃ t buf, parsecmd s = .ok (t, buf) ∧ t.map (cstring buf ·.1) = T := by
  refine ⟨parsecmd_stops nul, ⟨?_, ?_⟩, derives_iff_parsecmd nul⟩
  · rintro ⟨⟨t, buf⟩, parsed⟩
    exact ⟨_, (derives_iff_parsecmd nul _).mpr ⟨t, buf, parsed, rfl⟩⟩
  · rintro ⟨T, derives⟩
    obtain ⟨t, buf, parsed, -⟩ := (derives_iff_parsecmd nul T).mp derives
    exact ⟨_, parsed⟩

/-- The line `ls < in | wc > out &`: a C string, and what `parsecmd_grammar` says of it. -/
theorem parsecmd_grammar_pipeline :
    '\x00' ∉ "ls < in | wc > out &".toList ∧
      (parsecmd "ls < in | wc > out &".toList ≠ .error noEnd ∧
        ((∃ r, parsecmd "ls < in | wc > out &".toList = .ok r) ↔
          ∃ T, Derives .line (lex "ls < in | wc > out &".toList) T) ∧
        ∀ T, Derives .line (lex "ls < in | wc > out &".toList) T ↔
          ∃ t buf, parsecmd "ls < in | wc > out &".toList = .ok (t, buf) ∧
            t.map (cstring buf ·.1) = T) :=
  ⟨by decide, parsecmd_grammar _ (by decide)⟩

end Xv6.Sh
