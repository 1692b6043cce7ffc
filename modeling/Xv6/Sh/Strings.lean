import Xv6.Sh.Tokens

/-!
**The strings of a tree, and the line after `nulterminate`.**

The parser stores a string as the pointers `(q, eq)` around a word: `eq` is where the run of word
characters from `q` stops (`WordsOk`). `nulterminate` writes a 0 at every such `eq`, and none of
them lies inside another word, since the character at each is no word character. So the string
at `q` in the line after the writes, read up to its 0 (`cstring`), is the word:
`map_cstring_nulterminate`.

The lemmas on `Cmd.addArg`, `wrap` and `backs` say how the trees the parser builds read at the
level of their words.
-/

namespace Xv6.Sh

namespace Cmd

variable {α β : Type} (f : α → β)

/-- The strings of the tree, in the order `nulterminate` visits them. -/
def strings : Cmd α → List α
  | exec argv => argv
  | redir c file _ _ => c.strings ++ [file]
  | pipe l r => l.strings ++ r.strings
  | list l r => l.strings ++ r.strings
  | back c => c.strings

theorem map_addArg (a : α) (c : Cmd α) : (c.addArg a).map f = (c.map f).addArg (f a) := by
  induction c with
  | exec argv => simp [addArg, map]
  | redir c file mode fd ih => simp [addArg, map, ih]
  | pipe l r => rfl
  | list l r => rfl
  | back c => rfl

/-- Two maps that agree on the strings of a tree agree on the tree. -/
theorem map_congr {g : α → β} (c : Cmd α) (same : ∀ x ∈ c.strings, f x = g x) :
    c.map f = c.map g := by
  induction c with
  | exec argv => simpa [map, strings] using List.map_congr_left same
  | redir c file mode fd ih =>
    simp only [strings, List.mem_append, List.mem_singleton] at same
    simp [map, ih fun x mem => same x (.inl mem), same file (.inr rfl)]
  | pipe l r ihl ihr =>
    simp only [strings, List.mem_append] at same
    simp [map, ihl fun x mem => same x (.inl mem), ihr fun x mem => same x (.inr mem)]
  | list l r ihl ihr =>
    simp only [strings, List.mem_append] at same
    simp [map, ihl fun x mem => same x (.inl mem), ihr fun x mem => same x (.inr mem)]
  | back c ih => simp [map, ih same]

end Cmd

section Trees

variable {α β : Type}

theorem wrap_append (rs rs' : List (Redir × α)) (c : Cmd α) :
    wrap (rs ++ rs') c = wrap rs' (wrap rs c) := List.foldl_append

theorem wrap_cons (r : Redir × α) (rs : List (Redir × α)) (c : Cmd α) :
    wrap (r :: rs) c = wrap rs (.redir c r.2 r.1.mode r.1.fd) := rfl

/-- An argument goes through the redirections around a command. -/
theorem addArg_wrap (rs : List (Redir × α)) (c : Cmd α) (a : α) :
    (wrap rs c).addArg a = wrap rs (c.addArg a) := by
  induction rs generalizing c with
  | nil => rfl
  | cons r rs ih => rw [wrap_cons, ih, wrap_cons]; rfl

theorem map_backs (f : α → β) (k : Nat) (c : Cmd α) : (backs k c).map f = backs k (c.map f) := by
  induction k generalizing c with
  | zero => rfl
  | succ k ih => simp [backs, ih, Cmd.map]

theorem strings_backs (k : Nat) (c : Cmd α) : (backs k c).strings = c.strings := by
  induction k generalizing c with
  | zero => rfl
  | succ k ih => simp [backs, ih, Cmd.strings]

/-- The `switch` of `parseredirs` on the value of a redirection's token. -/
theorem redirFor_tok (r : Redir) (cmd : Cmd (Nat × Nat)) (file : Nat × Nat) :
    redirFor r.tok.code cmd file = .redir cmd file r.mode r.fd := by
  cases r <;> rfl

end Trees

section Words

variable {s : List Char}

/-- Each string of the tree lies around a word of the line: it ends where the run of word
characters from its start stops. -/
def WordsOk (s : List Char) (t : Cmd (Nat × Nat)) : Prop :=
  ∀ x ∈ t.strings, x.2 = scan s isWordChar x.1

/-- The string at `q` in a buffer, up to its first 0; the end of the buffer reads as 0. -/
def cstring (buf : List Char) (q : Nat) : List Char := (buf.drop q).takeWhile (· ≠ '\x00')

theorem nulterminate_eq (t : Cmd (Nat × Nat)) (buf : List Char) :
    nulterminate t buf = t.strings.foldl (fun b x => b.set x.2 '\x00') buf := by
  induction t generalizing buf with
  | exec argv => rfl
  | redir c file mode fd ih => simp [nulterminate, Cmd.strings, ih]
  | pipe l r ihl ihr => simp [nulterminate, Cmd.strings, ihl, ihr]
  | list l r ihl ihr => simp [nulterminate, Cmd.strings, ihl, ihr]
  | back c ih => simp [nulterminate, Cmd.strings, ih]

/-- A character of the buffer after 0s are written at the positions `xs.map Prod.snd`. -/
theorem getElem?_foldl_set (xs : List (Nat × Nat)) (b : List Char) (k : Nat) :
    (xs.foldl (fun b x => b.set x.2 '\x00') b)[k]? =
      if ∃ x ∈ xs, x.2 = k then b[k]?.map fun _ => '\x00' else b[k]? := by
  induction xs generalizing b with
  | nil => simp
  | cons x xs ih =>
    rw [List.foldl_cons, ih, List.getElem?_set]
    by_cases here : x.2 = k
    · subst here
      by_cases inside : x.2 < b.length <;> simp [inside]
    · by_cases later : ∃ y ∈ xs, y.2 = k <;> simp [here, later]

/-- The character where a run of word characters stops is no word character. -/
theorem getElem?_scan_word (i : Nat) {c : Char} (at_end : s[scan s isWordChar i]? = some c) :
    isWordChar c = false := by
  have stop := List.head?_dropWhile_not isWordChar (s.drop i)
  rw [← drop_scan, List.head?_drop, at_end] at stop
  exact stop

/-- Within a run of word characters, every character is one. -/
theorem getElem?_within_word {i k : Nat} (lo : i ≤ k) (hi : k < scan s isWordChar i) :
    ∃ c, s[k]? = some c ∧ isWordChar c := by
  have inRun : k - i < ((s.drop i).takeWhile isWordChar).length := by
    rw [scan] at hi
    omega
  have split := List.takeWhile_append_dropWhile (p := isWordChar) (l := s.drop i)
  have found : ((s.drop i).takeWhile isWordChar)[k - i]? =
      some ((s.drop i).takeWhile isWordChar)[k - i] := List.getElem?_eq_getElem inRun
  refine ⟨_, ?_, List.mem_takeWhile_imp (List.mem_of_getElem? found)⟩
  have same : (s.drop i)[k - i]? = ((s.drop i).takeWhile isWordChar)[k - i]? :=
    calc (s.drop i)[k - i]?
        = ((s.drop i).takeWhile isWordChar ++ (s.drop i).dropWhile isWordChar)[k - i]? := by
          rw [split]
      _ = ((s.drop i).takeWhile isWordChar)[k - i]? := List.getElem?_append_left inRun
  rw [← same, List.getElem?_drop, Nat.add_sub_cancel' lo] at found
  exact found

/-- A list read while `p` holds: its first `m` elements when they satisfy `p` and the next one
does not. -/
theorem takeWhile_eq_take {α : Type} (p : α → Bool) :
    ∀ (l : List α) (m : Nat), (∀ k < m, ∃ a, l[k]? = some a ∧ p a) →
      (∀ a, l[m]? = some a → p a = false) → l.takeWhile p = l.take m
  | [], _, _, _ => by simp
  | a :: l, 0, _, stop => by
    simp [stop a rfl]
  | a :: l, m + 1, all, stop => by
    obtain ⟨b, first, holds⟩ := all 0 (by omega)
    cases first
    rw [List.takeWhile_cons_of_pos holds, List.take_succ_cons,
      takeWhile_eq_take p l m (fun k lt => all (k + 1) (by omega)) (fun b at_m => stop b at_m)]

variable (nul : '\x00' ∉ s)
include nul

/-- **The strings after the writes.** When every string of `xs` lies around a word, the string at
the start of each, after a 0 is written at the end of every one, is its word. -/
theorem cstring_foldl_set {xs : List (Nat × Nat)} (words : ∀ x ∈ xs, x.2 = scan s isWordChar x.1)
    {x : Nat × Nat} (mem : x ∈ xs) :
    cstring (xs.foldl (fun b x => b.set x.2 '\x00') s) x.1 = text s x := by
  set buf := xs.foldl (fun b x => b.set x.2 '\x00') s
  have stops : x.2 = scan s isWordChar x.1 := words x mem
  -- no 0 is written inside a word: each lands where a run of word characters stops
  have kept : ∀ k, x.1 ≤ k → k < x.2 → buf[k]? = s[k]? := by
    intro k lo hi
    obtain ⟨c, at_k, word⟩ := getElem?_within_word lo (stops ▸ hi)
    have free : ¬∃ y ∈ xs, y.2 = k := by
      rintro ⟨y, mem_y, rfl⟩
      rw [words y mem_y] at at_k
      rw [getElem?_scan_word y.1 at_k] at word
      cases word
    rw [getElem?_foldl_set, if_neg free]
  have slice : ∀ k < x.2 - x.1, ∃ c, (buf.drop x.1)[k]? = some c ∧ decide (c ≠ '\x00') = true := by
    intro k lt
    have inside : x.1 + k < scan s isWordChar x.1 := by omega
    obtain ⟨c, at_k, -⟩ := getElem?_within_word (Nat.le_add_right x.1 k) inside
    refine ⟨c, by rw [List.getElem?_drop, kept _ (Nat.le_add_right _ _) (by omega), at_k], ?_⟩
    have inLine : c ∈ s := List.mem_of_getElem? at_k
    have nonzero : c ≠ '\x00' := fun zero => nul (zero ▸ inLine)
    simpa using nonzero
  have ends : ∀ c, (buf.drop x.1)[x.2 - x.1]? = some c → decide (c ≠ '\x00') = false := by
    intro c at_end
    have written : ∃ y ∈ xs, y.2 = x.2 := ⟨x, mem, rfl⟩
    have le : x.1 ≤ x.2 := by rw [stops, scan]; omega
    rw [List.getElem?_drop, Nat.add_sub_cancel' le, getElem?_foldl_set, if_pos written] at at_end
    obtain ⟨_, -, rfl⟩ := Option.map_eq_some_iff.mp at_end
    simp
  rw [cstring, takeWhile_eq_take _ _ _ slice ends, text]
  apply List.ext_getElem?
  intro k
  rw [List.getElem?_take, List.getElem?_take]
  split
  · rw [List.getElem?_drop, List.getElem?_drop, kept _ (Nat.le_add_right _ _) (by omega)]
  · rfl

/-- After `nulterminate`, each string of a tree over words reads as its word. -/
theorem map_cstring_nulterminate {t : Cmd (Nat × Nat)} (words : WordsOk s t) :
    t.map (cstring (nulterminate t s) ·.1) = t.map (text s) := by
  apply Cmd.map_congr
  intro x mem
  rw [nulterminate_eq]
  exact cstring_foldl_set nul words mem

end Words

end Xv6.Sh
