import Xv6.Grep.Match

/-!
**grep's loop over the lines of its input.**

`grep(pattern, fd)` reads into its 1024-byte buffer after the `m` bytes it holds, writes each
complete line that matches, and moves what follows the last newline to the front. The input comes
as the chunks `read` returns: a read returns at most what it was asked for, so a chunk longer than
the room left comes in pieces (`read`).

* `scanLines` — the inner loop, on the string at `p`; `scanLines_text` — on whole lines and then a
  tail with no newline, it writes the lines that match and moves `p` past the lines; the induction
  is on the lines;
* `grep_aligned` — when every read ends at the end of a line, grep writes exactly the lines that
  match, in order; the induction is on the chunks, each read leaving the buffer empty;
* `grep_split_line` — a read that ends inside a line, with no newline in the buffer: the
  `if(p == buf) m = 0` that is meant for a full buffer drops the start of the line.
-/

namespace Xv6.Grep

/-! ### The loops -/

section Loops

/-- `sizeof(buf)`. -/
def bufSize : Nat := 1024

/-- `read(fd, buf+m, space)` from the chunks still to come: the next chunk, or as much of it as
there is room for; nothing at the end of the input. -/
def read (chunks : List (List Char)) (space : Nat) : List Char × List (List Char) :=
  match chunks with
  | [] => ([], [])
  | c :: rest => if c.length ≤ space then (c, rest) else (c.take space, c.drop space :: rest)

/-- `strchr(s, c)`: the offset of the first `c` before the terminating `0`. -/
def strchr (s : List Char) (c : Char) : Option Nat :=
  match s with
  | [] => none
  | x :: s => if x = '\x00' then none else if x = c then some 0 else (strchr s c).map (· + 1)

/-- The inner loop `while((q = strchr(p, '\n')) != 0)` on the string at `p`, for `fuel` turns:
what it writes to fd 1, and how far it moves `p`. -/
def scanLines (pattern : List Char) : Nat → List Char → List Char × Nat
  | 0, _ => ([], 0)
  | fuel + 1, s =>
    match strchr s '\n' with
    | none => ([], 0)
    | some q =>
      -- `*q = 0`: the line is the string up to the newline
      let line := s.take q
      let rest := scanLines pattern fuel (s.drop (q + 1))
      ((if «match» pattern line then line ++ ['\n'] else []) ++ rest.1, q + 1 + rest.2)

/-- The outer loop `while((n = read(fd, buf+m, sizeof(buf)-m-1)) > 0)`, for `fuel` turns, from the
`m` bytes `buf`: what grep writes to fd 1. -/
def grepLoop (pattern : List Char) : Nat → List Char → List (List Char) → List Char
  | 0, _, _ => []
  | fuel + 1, buf, chunks =>
    let (data, chunks) := read chunks (bufSize - buf.length - 1)
    if data.length > 0 then
      let buf := buf ++ data
      -- each turn of the inner loop passes a newline, so the buffer's length bounds their number
      let (out, p) := scanLines pattern buf.length buf
      let m := if p = 0 then 0 else buf.length
      -- `m -= p - buf; memmove(buf, p, m)`
      out ++ grepLoop pattern fuel (if m > 0 then buf.drop p else []) chunks
    else []

/-- `grep(pattern, fd)` on an input that comes in `chunks`; each turn reads a byte at least, so
the length of the input bounds the number of turns. -/
def grep (pattern : List Char) (chunks : List (List Char)) : List Char :=
  grepLoop pattern ((chunks.map List.length).sum + 1) [] chunks

end Loops

/-! ### Whole lines -/

section Text

/-- The input made of the lines `ls`, each with its newline. -/
def text (ls : List (List Char)) : List Char := (ls.map (· ++ ['\n'])).flatten

/-- What grep should write: the lines that match, each with its newline, in order. -/
def matching (pattern : List Char) (ls : List (List Char)) : List Char :=
  text (ls.filter fun l => «match» pattern l)

/-- A line as grep reads it: no newline inside, and no `0`, which would end the string early. -/
def Line (l : List Char) : Prop := '\n' ∉ l ∧ '\x00' ∉ l

@[simp] theorem text_nil : text [] = [] := rfl

@[simp] theorem text_cons (l : List Char) (ls : List (List Char)) :
    text (l :: ls) = l ++ '\n' :: text ls := by
  simp [text]

theorem text_append (ls ls' : List (List Char)) : text (ls ++ ls') = text ls ++ text ls' := by
  simp [text]

theorem matching_cons (pattern l : List Char) (ls : List (List Char)) :
    matching pattern (l :: ls) =
      (if «match» pattern l then l ++ ['\n'] else []) ++ matching pattern ls := by
  unfold matching
  by_cases found : «match» pattern l <;> simp [found]

theorem length_lt_text {ls : List (List Char)} (nonempty : ls ≠ []) : 0 < (text ls).length := by
  cases ls with
  | nil => exact absurd rfl nonempty
  | cons l ls =>
    simp only [text_cons, List.length_append, List.length_cons]
    omega

/-- There are fewer lines than characters. -/
theorem length_lt_length_text (ls : List (List Char)) : ls.length ≤ (text ls).length := by
  induction ls with
  | nil => rfl
  | cons l ls ih => simp; omega

theorem strchr_line {line : List Char} (isLine : Line line) (rest : List Char) :
    strchr (line ++ '\n' :: rest) '\n' = some line.length := by
  induction line with
  | nil => simp [strchr]
  | cons x line ih =>
    have notNl : x ≠ '\n' := fun nl => isLine.1 (by simp [nl])
    have notNul : x ≠ '\x00' := fun nul => isLine.2 (by simp [nul])
    have rest : Line line := ⟨fun mem => isLine.1 (by simp [mem]), fun mem => isLine.2 (by simp [mem])⟩
    simp [strchr, notNl, notNul, ih rest]

theorem strchr_none {s : List Char} (noNl : '\n' ∉ s) : strchr s '\n' = none := by
  induction s with
  | nil => rfl
  | cons x s ih =>
    have notNl : x ≠ '\n' := fun nl => noNl (by simp [nl])
    simp [strchr, notNl, ih fun mem => noNl (by simp [mem])]

/-- **The inner loop on whole lines**: on lines and then a tail with no newline, it writes the
lines that match and moves `p` past the lines. The induction is on the lines. -/
theorem scanLines_text (pattern : List Char) {tail : List Char} (noNl : '\n' ∉ tail) :
    ∀ (ls : List (List Char)) (fuel : Nat), (∀ l ∈ ls, Line l) → ls.length ≤ fuel →
      scanLines pattern fuel (text ls ++ tail) = (matching pattern ls, (text ls).length)
  | [], 0, _, _ => by simp [scanLines, matching]
  | [], fuel + 1, _, _ => by simp [scanLines, strchr_none noNl, matching]
  | _ :: _, 0, _, enough => absurd enough (by simp)
  | l :: ls, fuel + 1, lines, enough => by
    have first : strchr (text (l :: ls) ++ tail) '\n' = some l.length := by
      simpa using strchr_line (lines l (by simp)) (text ls ++ tail)
    have after : (text (l :: ls) ++ tail).drop (l.length + 1) = text ls ++ tail := by simp
    have line : (text (l :: ls) ++ tail).take l.length = l := by simp
    have rest := scanLines_text pattern noNl ls fuel (fun l' mem => lines l' (by simp [mem]))
      (by simp at enough; omega)
    simp only [scanLines, first, line, after, rest, matching_cons, Prod.mk.injEq, true_and]
    simp only [text_cons, List.length_append, List.length_cons]
    omega

end Text

/-! ### Reads that end at the end of a line -/

section Aligned

variable (pattern : List Char)

/-- **When every read ends at the end of a line**, grep writes exactly the lines that match, in
order: each chunk is whole lines that fit in the empty buffer, and each turn leaves the buffer
empty. The induction is on the chunks. -/
theorem grepLoop_aligned : ∀ (cs : List (List (List Char))) (fuel : Nat),
    (∀ c ∈ cs, c ≠ [] ∧ (∀ l ∈ c, Line l) ∧ (text c).length < bufSize) → cs.length < fuel →
      grepLoop pattern fuel [] (cs.map text) = matching pattern cs.flatten
  | [], fuel + 1, _, _ => by simp [grepLoop, read, matching]
  | c :: cs, fuel + 1, chunks, enough => by
    obtain ⟨nonempty, lines, fits⟩ := chunks c (by simp)
    have whole : read (text c :: cs.map text) (bufSize - ([] : List Char).length - 1) =
        (text c, cs.map text) := by
      simp only [read, List.length_nil, if_pos (show (text c).length ≤ bufSize - 0 - 1 by omega)]
    have scanned := @scanLines_text pattern [] (by simp) c (text c).length lines
      (length_lt_length_text c)
    have moved : (text c).length ≠ 0 := (length_lt_text nonempty).ne'
    rw [List.append_nil] at scanned
    simp only [List.map_cons, grepLoop, whole, List.nil_append, scanned, moved, if_false,
      if_pos (length_lt_text nonempty), List.drop_length, List.flatten_cons]
    rw [grepLoop_aligned cs fuel (fun c' mem => chunks c' (by simp [mem])) (by simpa using enough)]
    simp [matching, List.filter_append, text_append]

/-- The grep of an input in chunks of whole lines: the lines that match. -/
theorem grep_aligned (cs : List (List (List Char)))
    (chunks : ∀ c ∈ cs, c ≠ [] ∧ (∀ l ∈ c, Line l) ∧ (text c).length < bufSize) :
    grep pattern (cs.map text) = matching pattern cs.flatten := by
  apply grepLoop_aligned pattern cs _ chunks
  -- each chunk has a character at least
  have : cs.length ≤ ((cs.map text).map List.length).sum := by
    induction cs with
    | nil => simp
    | cons c cs ih =>
      have := length_lt_text (chunks c (by simp)).1
      simp only [List.map_cons, List.sum_cons, List.length_cons]
      have := ih fun c' mem => chunks c' (by simp [mem])
      omega
  omega

end Aligned

/-! ### A read that ends inside a line -/

section Split

/-- The empty pattern matches every line. -/
theorem match_nil (text : List Char) : «match» [] text = true := by
  cases text <;> simp [«match», matchLoop, matchhere.eq_1]

/-- **A read that ends inside a line.** With the empty pattern, which every line matches, the
input `abc\n` read whole is written back; read as `ab` and then `c\n`, the first read brings no
newline, `if(p == buf) m = 0` drops `ab`, and grep writes the line `c`, which is not a line of the
input. -/
theorem grep_split_line :
    grep [] ["ab".toList, "c\n".toList] = "c\n".toList ∧ grep [] ["abc\n".toList] = "abc\n".toList := by
  simp [grep, grepLoop, read, scanLines, strchr, match_nil, bufSize]

end Split

end Xv6.Grep
