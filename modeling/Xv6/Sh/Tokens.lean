import Xv6.Sh.Grammar
import Xv6.Lib.Ends

/-!
**`gettoken` and `peek` read the tokens of the line.**

At a position `i` of a line with no 0 in it, the tokens still to come are `lex (s.drop i)`:

* `peek_run` — `peek(ps, es, toks)`, for symbols `toks`, answers `nextIn toks` of those tokens and
  moves past the whitespace, which leaves them as they are (`lex_drop_scan_space`);
* `gettoken_run_cons` — before the tokens `tk :: rest`, `gettoken` returns `tk.code` and moves to
  a position before `rest`; for a word it returns pointers `(q, eq)` around it, with `eq` where the
  run of word characters from `q` stops;
* `gettoken_run_nil` — at the end, it returns 0 and stays there.

Positions stay within the line (`scan_le`), and the text between two pointers is `text`.
-/

namespace Xv6.Sh

open Xv6.Lib

section Lists

variable {α : Type} (p : α → Bool) (l : List α)

theorem take_length_takeWhile : l.take (l.takeWhile p).length = l.takeWhile p := by
  have split := List.takeWhile_append_dropWhile (p := p) (l := l)
  calc l.take (l.takeWhile p).length
      = (l.takeWhile p ++ l.dropWhile p).take (l.takeWhile p).length := by rw [split]
    _ = l.takeWhile p := List.take_left

theorem drop_length_takeWhile : l.drop (l.takeWhile p).length = l.dropWhile p := by
  have split := List.takeWhile_append_dropWhile (p := p) (l := l)
  calc l.drop (l.takeWhile p).length
      = (l.takeWhile p ++ l.dropWhile p).drop (l.takeWhile p).length := by rw [split]
    _ = l.dropWhile p := List.drop_left

end Lists

section Scan

variable {s : List Char}

/-- The text between the pointers `x = (q, eq)`. -/
def text (s : List Char) (x : Nat × Nat) : List Char := (s.drop x.1).take (x.2 - x.1)

theorem drop_scan (p : Char → Bool) (i : Nat) : s.drop (scan s p i) = (s.drop i).dropWhile p := by
  rw [scan, ← List.drop_drop, drop_length_takeWhile]

theorem scan_le (p : Char → Bool) {i : Nat} (hi : i ≤ s.length) : scan s p i ≤ s.length := by
  have := (List.takeWhile_prefix p (l := s.drop i)).length_le
  rw [List.length_drop] at this
  rw [scan]
  omega

theorem charAt_eq_head (i : Nat) : charAt s i = ((s.drop i).head?).getD '\x00' := by
  rw [charAt, List.getD_eq_getElem?_getD, List.head?_drop]

/-- Whitespace skipped leaves the tokens as they are. -/
theorem lex_drop_scan_space (i : Nat) : lex (s.drop (scan s isSpace i)) = lex (s.drop i) := by
  rw [drop_scan, lex_dropWhile_space]

/-- Past the whitespace is the end of the line or a character that is not whitespace. -/
theorem drop_scan_space (i : Nat) :
    s.drop (scan s isSpace i) = [] ∨
      ∃ c cs, s.drop (scan s isSpace i) = c :: cs ∧ isSpace c = false := by
  rw [drop_scan]
  cases after : (s.drop i).dropWhile isSpace with
  | nil => exact .inl rfl
  | cons c cs =>
    have stop := List.head?_dropWhile_not isSpace (s.drop i)
    rw [after] at stop
    exact .inr ⟨c, cs, rfl, stop⟩

/-- A character that is not whitespace starts a token. -/
theorem lex_cons_ne_nil {c : Char} {cs : List Char} (notSpace : isSpace c = false) :
    lex (c :: cs) ≠ [] := by
  rcases char_cases c with space | word | rfl | ⟨tk, sym⟩
  · rw [notSpace] at space
    cases space
  · simp [lex_word word]
  · cases cs with
    | nil => simp [@lex_gt [] (by simp)]
    | cons d cs =>
      by_cases gtgt : d = '>'
      · simp [gtgt, lex_gtgt]
      · simp [@lex_gt (d :: cs) (by simpa using gtgt)]
  · simp [lex_sym sym]

/-- `gettoken` at the end of the line returns 0 and stays there. -/
theorem gettoken_run_nil {i : Nat} (none : lex (s.drop i) = []) :
    (gettoken s).run i =
      .ok (('\x00', scan s isSpace i, scan s isSpace i), scan s isSpace i) := by
  have at_end : s.drop (scan s isSpace i) = [] := by
    rcases drop_scan_space (s := s) i with at_end | ⟨c, cs, at_q, notSpace⟩
    · exact at_end
    · rw [← lex_drop_scan_space, at_q] at none
      exact absurd none (lex_cons_ne_nil notSpace)
  have zero : charAt s (scan s isSpace i) = '\x00' := by
    rw [charAt_eq_head, at_end]
    rfl
  have stays : scan s isSpace (scan s isSpace i) = scan s isSpace i := by
    rw [scan, at_end]
    rfl
  show Except.ok (((tokenAt s (scan s isSpace i)).1, scan s isSpace i,
    (tokenAt s (scan s isSpace i)).2), scan s isSpace (tokenAt s (scan s isSpace i)).2) = _
  rw [tokenAt, if_pos zero]
  simp only [stays]

end Scan

section Tokens

variable {s : List Char}

-- the line holds no 0: it is a C string
variable (nul : '\x00' ∉ s)
include nul

theorem charAt_of_drop {q : Nat} {c : Char} {cs : List Char} (at_q : s.drop q = c :: cs) :
    charAt s q = c ∧ c ≠ '\x00' := by
  have mem : c ∈ s := List.mem_of_mem_drop (by rw [at_q]; exact List.mem_cons_self)
  refine ⟨by rw [charAt_eq_head, at_q]; rfl, fun zero => nul (zero ▸ mem)⟩

/-- `peek` before the tokens of the line. -/
theorem peek_run {toks : List Char} (sub : toks.all (· ∈ symbols)) (i : Nat) :
    (peek s toks).run i = .ok (nextIn toks (lex (s.drop i)), scan s isSpace i) := by
  show Except.ok (decide (charAt s (scan s isSpace i) ≠ '\x00' ∧
    charAt s (scan s isSpace i) ∈ toks), scan s isSpace i) = _
  rw [← lex_drop_scan_space]
  rcases drop_scan_space (s := s) i with at_end | ⟨c, cs, at_q, notSpace⟩
  · rw [charAt_eq_head, at_end, lex_nil]
    rfl
  obtain ⟨read, nonzero⟩ := charAt_of_drop nul at_q
  rw [read, at_q]
  rcases char_cases c with space | word | rfl | ⟨tk, sym⟩
  · rw [notSpace] at space
    cases space
  · -- a word starts with no symbol, so with none of `toks`
    have notSym : c ∉ toks := fun mem => by
      simp only [isWordChar, decide_eq_true_eq] at word
      exact word.2 (of_decide_eq_true (List.all_eq_true.mp sub c mem))
    simp [lex_word word, nextIn, Tok.lead, notSym]
  · cases cs with
    | nil => simp [@lex_gt [] (by simp), nextIn, Tok.lead, Tok.code]
    | cons d cs =>
      by_cases gtgt : d = '>'
      · simp [gtgt, lex_gtgt, nextIn, Tok.lead]
      · simp [@lex_gt (d :: cs) (by simpa using gtgt), nextIn, Tok.lead, Tok.code]
  · have lead : tk.lead = some c := by
      unfold symTok at sym
      split_ifs at sym <;> (cases sym; rename_i same; subst same; rfl)
    simp [lex_sym sym, nextIn, lead, nonzero]

/-- `gettoken` before the tokens `tk :: rest`: it returns `tk.code` and moves before `rest`; a
word lies between the pointers it returns. -/
theorem gettoken_run_cons {i : Nat} (hi : i ≤ s.length) {tk : Tok} {rest : List Tok}
    (next : lex (s.drop i) = tk :: rest) :
    ∃ q eq j, (gettoken s).run i = .ok ((tk.code, q, eq), j) ∧ j ≤ s.length ∧
      lex (s.drop j) = rest ∧ ∀ w, tk = .word w → eq = scan s isWordChar q ∧ text s (q, eq) = w := by
  set q := scan s isSpace i with hq
  have qle : q ≤ s.length := scan_le isSpace hi
  obtain ⟨c, cs, at_q, notSpace⟩ : ∃ c cs, s.drop q = c :: cs ∧ isSpace c = false := by
    rcases drop_scan_space (s := s) i with at_end | found
    · rw [← lex_drop_scan_space, at_end, lex_nil] at next
      cases next
    · exact found
  obtain ⟨read, nonzero⟩ := charAt_of_drop nul at_q
  have tokens : lex (c :: cs) = tk :: rest := by
    rw [← at_q, lex_drop_scan_space, next]
  have qlt : q < s.length := by
    by_contra past
    rw [List.drop_eq_nil_of_le (by omega)] at at_q
    cases at_q
  have run : (gettoken s).run i =
      .ok (((tokenAt s q).1, q, (tokenAt s q).2), scan s isSpace (tokenAt s q).2) := rfl
  -- the token ends at `eq`; past it and the whitespace after it, `rest` is left
  have build : ∀ eq, tokenAt s q = (tk.code, eq) → eq ≤ s.length → lex (s.drop eq) = rest →
      (∀ w, tk = .word w → eq = scan s isWordChar q ∧ text s (q, eq) = w) →
      ∃ q eq j, (gettoken s).run i = .ok ((tk.code, q, eq), j) ∧ j ≤ s.length ∧
        lex (s.drop j) = rest ∧ ∀ w, tk = .word w → eq = scan s isWordChar q ∧ text s (q, eq) = w :=
    fun eq token le after words => ⟨q, eq, scan s isSpace eq, by rw [run, token],
      scan_le isSpace le, by rw [lex_drop_scan_space, after], words⟩
  rcases char_cases c with space | word | rfl | ⟨tk', sym⟩
  · rw [notSpace] at space
    cases space
  · -- a word: the longest run of word characters from `q`
    rw [lex_word word] at tokens
    obtain ⟨rfl, rfl⟩ := List.cons.inj tokens
    have notSym : c ∉ ['|', '(', ')', ';', '&', '<'] ∧ c ≠ '>' := by
      simp only [isWordChar, decide_eq_true_eq] at word
      have six : ['|', '(', ')', ';', '&', '<'].all (· ∈ symbols) := by decide
      exact ⟨fun mem => word.2 (of_decide_eq_true (List.all_eq_true.mp six c mem)),
        fun gt => word.2 (by rw [gt]; decide)⟩
    have token : tokenAt s q = ('a', scan s isWordChar q) := by
      rw [tokenAt, read, if_neg nonzero, if_neg notSym.1, if_neg notSym.2]
    have after : s.drop (scan s isWordChar q) = cs.dropWhile isWordChar := by
      rw [drop_scan, at_q, List.dropWhile_cons, if_pos word]
    have within : text s (q, scan s isWordChar q) = c :: cs.takeWhile isWordChar := by
      rw [text, scan, Nat.add_sub_cancel_left, take_length_takeWhile, at_q, List.takeWhile_cons,
        if_pos word]
    refine build _ token (scan_le isWordChar qle) (by rw [after]) fun w same => ?_
    cases same
    exact ⟨rfl, within⟩
  · -- `>`, or `>>` when another `>` follows at once
    have notSym : '>' ∉ ['|', '(', ')', ';', '&', '<'] := by decide
    by_cases gtgt : cs.head? = some '>'
    · obtain ⟨cs, rfl⟩ := List.head?_eq_some_iff.mp gtgt
      rw [lex_gtgt] at tokens
      obtain ⟨rfl, rfl⟩ := List.cons.inj tokens
      have double : charAt s (q + 1) = '>' := by
        rw [charAt_eq_head, ← List.drop_drop, at_q]
        rfl
      have token : tokenAt s q = ('+', q + 2) := by
        rw [tokenAt, read, if_neg nonzero, if_neg notSym, if_pos rfl, if_pos double]
      have two : s.drop (q + 2) = cs := by
        rw [← List.drop_drop, at_q]
        rfl
      refine build _ token ?_ (by rw [two]) fun w same => by cases same
      have := congrArg List.length at_q
      simp only [List.length_drop, List.length_cons] at this
      omega
    · rw [lex_gt gtgt] at tokens
      obtain ⟨rfl, rfl⟩ := List.cons.inj tokens
      have single : charAt s (q + 1) ≠ '>' := by
        rw [charAt_eq_head, ← List.drop_drop, at_q]
        cases cs with
        | nil => decide
        | cons d cs => simpa using gtgt
      have token : tokenAt s q = ('>', q + 1) := by
        rw [tokenAt, read, if_neg nonzero, if_neg notSym, if_pos rfl, if_neg single]
      have one : s.drop (q + 1) = cs := by
        rw [← List.drop_drop, at_q]
        rfl
      exact build _ token (by omega) (by rw [one]) fun w same => by cases same
  · -- another symbol: one character
    rw [lex_sym sym] at tokens
    obtain ⟨rfl, rfl⟩ := List.cons.inj tokens
    have listed : c ∈ ['|', '(', ')', ';', '&', '<'] ∧ tk'.code = c := by
      unfold symTok at sym
      split_ifs at sym <;> (cases sym; rename_i same; subst same; decide)
    have token : tokenAt s q = (tk'.code, q + 1) := by
      rw [tokenAt, read, if_neg nonzero, if_pos listed.1, listed.2]
    have one : s.drop (q + 1) = cs := by
      rw [← List.drop_drop, at_q]
      rfl
    refine build _ token (by omega) (by rw [one]) fun w same => ?_
    subst same
    unfold symTok at sym
    split_ifs at sym <;> cases sym

end Tokens

end Xv6.Sh
