import Mathlib

/-!
**grep's matcher against the language of its pattern.**

`match`, `matchhere` and `matchstar` of `grep.c` (Kernighan and Pike's matcher) over the characters
of the two strings. The reference semantics reads a pattern as an optional leading `^`, a list of
items and an optional last `$`: a character followed by `*` is that atom starred, `.` is any
character, and every other character (a `^` not at the start, a `$` not at the end, a `*` with
nothing before it) is itself. An item list denotes a language (Mathlib's `Language`: concatenation,
Kleene star), and a text matches when some substring of it is in that language, at the start of
the text under `^` and at its end under `$`.

* `matchhere`, `matchstar` — mutually recursive, by a measure that falls with each call: twice the
  length of the pattern plus one for `matchhere` and two for `matchstar`, then the text; so both
  terminate on every input;
* `matchhere_spec` — `matchhere` finds the pattern's items at the start of the text, and
  `matchstar` a run of its atom and then the rest of the pattern; one induction for the two, on
  their own recursion (`matchhere.mutual_induct`);
* `match_eq_true` — `match` returns 1 exactly when some substring of the text matches.
-/

namespace Xv6.Grep

/-! ### Words of single characters -/

section Chars

variable {α : Type} (p : α → Prop)

/-- The words of one character that satisfies `p`. -/
def single : Language α := {w | ∃ t, p t ∧ w = [t]}

variable {p}

theorem mem_single {w : List α} : w ∈ single p ↔ ∃ t, p t ∧ w = [t] := Iff.rfl

/-- A word of the star of single characters is a word of characters that satisfy `p`. -/
theorem mem_kstar_single {w : List α} : w ∈ KStar.kstar (single p) ↔ ∀ t ∈ w, p t := by
  rw [Language.mem_kstar]
  constructor
  · rintro ⟨L, rfl, each⟩ t mem
    obtain ⟨piece, within, inPiece⟩ := List.mem_flatten.mp mem
    obtain ⟨t', accepted, rfl⟩ := each piece within
    rw [List.mem_singleton.mp inPiece]
    exact accepted
  · intro all
    have flat : w = (w.map fun t => [t]).flatten := by
      clear all
      induction w with
      | nil => rfl
      | cons t w ih => exact congrArg (t :: ·) ih
    refine ⟨w.map fun t => [t], flat, fun piece mem => ?_⟩
    obtain ⟨t, within, rfl⟩ := List.mem_map.mp mem
    exact ⟨t, all t within, rfl⟩

end Chars

/-! ### The reference semantics -/

section Semantics

/-- One pattern character: `.` any character, every other one itself. -/
inductive Atom
  | any
  | lit (c : Char)
  deriving DecidableEq, Repr

def Atom.ofChar (c : Char) : Atom := if c = '.' then .any else .lit c

def Atom.Accepts : Atom → Char → Prop
  | .any, _ => True
  | .lit c, t => t = c

/-- The comparison of `matchhere` and `matchstar`, `re[0]=='.' || re[0]==*text`. -/
theorem Atom.accepts_ofChar (c t : Char) : (Atom.ofChar c).Accepts t ↔ c = '.' ∨ c = t := by
  by_cases dot : c = '.'
  · simp [Atom.ofChar, Atom.Accepts, dot]
  · simp [Atom.ofChar, Atom.Accepts, dot, eq_comm]

/-- A pattern item: an atom, or an atom and `*`. -/
inductive Item
  | one (a : Atom)
  | star (a : Atom)
  deriving DecidableEq, Repr

def Item.lang : Item → Language Char
  | .one a => single a.Accepts
  | .star a => KStar.kstar (single a.Accepts)

/-- The words of the items in turn. -/
def lang (items : List Item) : Language Char := items.foldr (fun i l => i.lang * l) 1

/-- The items of a pattern after its optional `^`, and whether a last `$` anchors it at the end. -/
def parseBody : List Char → List Item × Bool
  | [] => ([], false)
  | c :: '*' :: re => (.star (.ofChar c) :: (parseBody re).1, (parseBody re).2)
  | ['$'] => ([], true)
  | c :: re => (.one (.ofChar c) :: (parseBody re).1, (parseBody re).2)

/-- A pattern read: anchored at the start, its items, anchored at the end. -/
structure Pattern where
  start : Bool
  items : List Item
  stop : Bool

def parse : List Char → Pattern
  | '^' :: re => ⟨true, (parseBody re).1, (parseBody re).2⟩
  | re => ⟨false, (parseBody re).1, (parseBody re).2⟩

/-- A prefix of `text` is a word of `items`, the whole of it when `stop`. -/
def PrefixMatch (items : List Item) (stop : Bool) (text : List Char) : Prop :=
  ∃ mid post, text = mid ++ post ∧ (stop = true → post = []) ∧ mid ∈ lang items

/-- **Some substring of `text` matches the pattern**: a word of its items, at the start of the
text when the pattern starts with `^`, at its end when it ends with `$`. -/
def Matches (p : Pattern) (text : List Char) : Prop :=
  ∃ pre rest, text = pre ++ rest ∧ (p.start = true → pre = []) ∧ PrefixMatch p.items p.stop rest

@[simp] theorem lang_nil : lang [] = 1 := rfl

@[simp] theorem lang_cons (i : Item) (items : List Item) : lang (i :: items) = i.lang * lang items :=
  rfl

/-- A character that starts no star and is not a last `$` is an atom of its own. -/
theorem parseBody_one {c : Char} {re : List Char} (notStar : re.head? ≠ some '*')
    (notEnd : ¬(c = '$' ∧ re = [])) :
    parseBody (c :: re) = (.one (.ofChar c) :: (parseBody re).1, (parseBody re).2) := by
  match re, notStar with
  | [], _ =>
    have : c ≠ '$' := fun dollar => notEnd ⟨dollar, rfl⟩
    simp [parseBody, this]
  | d :: re, notStar =>
    have : d ≠ '*' := fun star => notStar (by simp [star])
    simp [parseBody, this]

end Semantics

/-! ### The matcher -/

section Matcher

mutual

/-- `matchhere(re, text)`: search for `re` at the beginning of `text`. -/
def matchhere : List Char → List Char → Bool
  | [], _ => true
  | c :: re, text =>
    if re.head? = some '*' then matchstar c re.tail text
    else if c = '$' ∧ re = [] then text.isEmpty
    else match text with
      | t :: text => (c == '.' || c == t) && matchhere re text
      | [] => false
termination_by re text => (2 * re.length + 1, text.length)

/-- `matchstar(c, re, text)`: search for `c*re` at the beginning of `text`; the `do … while` tries
`re` before each character of the run. -/
def matchstar (c : Char) (re : List Char) : List Char → Bool
  | [] => matchhere re []
  | t :: text => matchhere re (t :: text) || ((t == c || c == '.') && matchstar c re text)
termination_by text => (2 * re.length + 2, text.length)

end

theorem matchhere_cons (c : Char) (re text : List Char) :
    matchhere (c :: re) text =
      if re.head? = some '*' then matchstar c re.tail text
      else if c = '$' ∧ re = [] then text.isEmpty
      else match text with
        | t :: text => (c == '.' || c == t) && matchhere re text
        | [] => false := by
  rw [matchhere.eq_def]

/-- The loop of `match`: `matchhere` at each suffix of `text`, the empty one last. -/
def matchLoop (re : List Char) : List Char → Bool
  | [] => matchhere re []
  | t :: text => matchhere re (t :: text) || matchLoop re text

/-- `match(re, text)`: anchored by a leading `^`, else tried at every position. -/
def «match» : List Char → List Char → Bool
  | '^' :: re, text => matchhere re text
  | re, text => matchLoop re text

end Matcher

/-! ### The matcher meets the semantics -/

section Spec

/-- A run of characters the atom `c` accepts, then what `re` matches at the start. -/
def StarMatch (c : Char) (re text : List Char) : Prop :=
  ∃ u rest, text = u ++ rest ∧ (∀ t ∈ u, (Atom.ofChar c).Accepts t) ∧
    PrefixMatch (parseBody re).1 (parseBody re).2 rest

theorem prefixMatch_nil (text : List Char) : PrefixMatch [] false text :=
  ⟨[], text, rfl, nofun, rfl⟩

/-- A starred item first: a run of its atom, then the rest of the items. -/
theorem prefixMatch_star (c : Char) (re text : List Char) :
    PrefixMatch (.star (.ofChar c) :: (parseBody re).1) (parseBody re).2 text ↔ StarMatch c re text := by
  simp only [PrefixMatch, StarMatch, lang_cons, Item.lang, Language.mem_mul, mem_kstar_single]
  constructor
  · rintro ⟨_, post, rfl, stops, u, run, mid, inItems, rfl⟩
    exact ⟨u, mid ++ post, by simp, run, mid, post, rfl, stops, inItems⟩
  · rintro ⟨u, _, rfl, run, mid, post, rfl, stops, inItems⟩
    exact ⟨u ++ mid, post, by simp, stops, u, run, mid, inItems, rfl⟩

/-- An atom first: a character it accepts, then the rest of the items. -/
theorem prefixMatch_one (c t : Char) (items : List Item) (stop : Bool) (text : List Char) :
    PrefixMatch (.one (.ofChar c) :: items) stop (t :: text) ↔
      (Atom.ofChar c).Accepts t ∧ PrefixMatch items stop text := by
  simp only [PrefixMatch, lang_cons, Item.lang, Language.mem_mul, mem_single]
  constructor
  · rintro ⟨_, post, same, stops, _, ⟨t', accepted, rfl⟩, mid, inItems, rfl⟩
    obtain ⟨rfl, rfl⟩ := List.cons_eq_cons.mp same
    exact ⟨accepted, mid, post, rfl, stops, inItems⟩
  · rintro ⟨accepted, mid, post, rfl, stops, inItems⟩
    exact ⟨t :: mid, post, rfl, stops, [t], ⟨t, accepted, rfl⟩, mid, inItems, rfl⟩

theorem not_prefixMatch_one (c : Char) (items : List Item) (stop : Bool) :
    ¬PrefixMatch (.one (.ofChar c) :: items) stop [] := by
  simp only [PrefixMatch, lang_cons, Item.lang, Language.mem_mul, mem_single]
  rintro ⟨_, _, same, -, _, ⟨t, -, rfl⟩, _, -, rfl⟩
  simp at same

theorem prefixMatch_end (text : List Char) : PrefixMatch [] true text ↔ text = [] := by
  simp only [PrefixMatch, lang_nil, Language.mem_one]
  constructor
  · rintro ⟨_, _, rfl, stops, rfl⟩
    simp [stops trivial]
  · rintro rfl
    exact ⟨[], [], rfl, fun _ => rfl, rfl⟩

/-- **`matchhere` and `matchstar` meet the semantics.** `matchhere re text` holds exactly when a
prefix of `text` matches `re`, and `matchstar c re text` when a run of `c` and then a match of
`re` start the text. The induction follows the two functions' own recursion. -/
theorem matchhere_spec :
    (∀ re text, matchhere re text = true ↔ PrefixMatch (parseBody re).1 (parseBody re).2 text) ∧
      ∀ c re text, matchstar c re text = true ↔ StarMatch c re text := by
  apply matchhere.mutual_induct
    (fun re text => matchhere re text = true ↔ PrefixMatch (parseBody re).1 (parseBody re).2 text)
    (fun c re text => matchstar c re text = true ↔ StarMatch c re text)
  case case1 =>
    intro text
    simpa [matchhere, parseBody] using prefixMatch_nil text
  case case2 =>
    -- `re[1] == '*'`: the starred atom and the rest of the pattern
    intro c re text star ih
    obtain ⟨rest, rfl⟩ : ∃ rest, re = '*' :: rest := by
      cases re with
      | nil => simp at star
      | cons d rest => simp at star; exact ⟨rest, by rw [star]⟩
    rw [matchhere_cons, if_pos star, ih]
    exact (prefixMatch_star c rest text).symm
  case case3 =>
    -- a last `$`: the end of the text
    rintro c re text - ⟨rfl, rfl⟩
    rw [matchhere_cons, if_neg (by simp), if_pos ⟨rfl, rfl⟩]
    simpa [parseBody] using (prefixMatch_end text).symm
  case case4 =>
    intro c re notStar notEnd t text ih
    rw [matchhere_cons, if_neg notStar, if_neg notEnd, parseBody_one notStar notEnd, prefixMatch_one,
      ← ih, Atom.accepts_ofChar]
    simp
  case case5 =>
    intro c re notStar notEnd
    rw [matchhere_cons, if_neg notStar, if_neg notEnd, parseBody_one notStar notEnd]
    simpa using not_prefixMatch_one c _ _
  case case6 =>
    intro c re ih
    rw [matchstar, ih]
    constructor
    · intro here
      exact ⟨[], [], rfl, by simp, here⟩
    · rintro ⟨u, rest, same, -, here⟩
      obtain ⟨rfl, rfl⟩ := List.append_eq_nil_iff.mp same.symm
      exact here
  case case7 =>
    -- either `re` here, or one more character of the run
    intro c re t text here star
    rw [matchstar, Bool.or_eq_true, here, Bool.and_eq_true, star]
    constructor
    · rintro (now | ⟨accepted, u, rest, rfl, run, later⟩)
      · exact ⟨[], t :: text, rfl, by simp, now⟩
      · refine ⟨t :: u, rest, rfl, ?_, later⟩
        simp only [List.mem_cons, forall_eq_or_imp]
        simp only [Bool.or_eq_true, beq_iff_eq] at accepted
        exact ⟨(Atom.accepts_ofChar c t).mpr (accepted.symm.imp_right Eq.symm), run⟩
    · rintro ⟨u, rest, same, run, later⟩
      cases u with
      | nil => exact .inl (by simpa using same ▸ later)
      | cons t' u =>
        obtain ⟨rfl, rfl⟩ := List.cons_eq_cons.mp same
        have accepted := (Atom.accepts_ofChar c t).mp (run t (by simp))
        refine .inr ⟨by simpa using accepted.symm.imp_left Eq.symm, u, rest, rfl,
          fun x mem => run x (by simp [mem]), later⟩

/-- The loop of `match` finds `re` at some position of `text`. -/
theorem matchLoop_eq_true (re : List Char) : ∀ text, matchLoop re text = true ↔
    ∃ pre rest, text = pre ++ rest ∧ matchhere re rest = true
  | [] => by simp [matchLoop]
  | t :: text => by
    rw [matchLoop, Bool.or_eq_true, matchLoop_eq_true re text]
    constructor
    · rintro (here | ⟨pre, rest, rfl, later⟩)
      · exact ⟨[], t :: text, rfl, here⟩
      · exact ⟨t :: pre, rest, rfl, later⟩
    · rintro ⟨pre, rest, same, found⟩
      cases pre with
      | nil => exact .inl (by simpa [same] using found)
      | cons t' pre =>
        obtain ⟨rfl, rfl⟩ := List.cons_eq_cons.mp same
        exact .inr ⟨pre, rest, rfl, found⟩

/-- Without a leading `^`, `match` is its loop, and the pattern is not anchored at the start. -/
theorem match_unanchored {re : List Char} (notCaret : re.head? ≠ some '^') (text : List Char) :
    «match» re text = matchLoop re text ∧ parse re = ⟨false, (parseBody re).1, (parseBody re).2⟩ := by
  match re, notCaret with
  | [], _ => exact ⟨rfl, rfl⟩
  | c :: re, notCaret =>
    have : c ≠ '^' := fun caret => notCaret (by simp [caret])
    simp [«match», parse, this]

/-- **grep's `match` is correct**: it returns 1 exactly when some substring of the text matches
the pattern. -/
theorem match_eq_true (re text : List Char) : «match» re text = true ↔ Matches (parse re) text := by
  have here := matchhere_spec.1
  by_cases caret : re.head? = some '^'
  · obtain ⟨re, rfl⟩ : ∃ rest, re = '^' :: rest := by
      cases re with
      | nil => simp at caret
      | cons c rest => simp at caret; exact ⟨rest, by rw [caret]⟩
    simp only [«match», parse, Matches, here, forall_const]
    constructor
    · intro found
      exact ⟨[], text, rfl, rfl, found⟩
    · rintro ⟨pre, rest, rfl, anchored, found⟩
      rw [anchored]
      exact found
  · obtain ⟨loop, unanchored⟩ := match_unanchored caret text
    rw [loop, matchLoop_eq_true, unanchored]
    simp only [Matches, here, Bool.false_eq_true, false_implies, true_and]

end Spec

end Xv6.Grep
