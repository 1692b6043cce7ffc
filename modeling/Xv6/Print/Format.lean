import Mathlib
import Xv6.Print.Digits

/-!
**The format loops of `printf` (`printf.c`) and `cprintf` (`console.c`).**

Both walk `fmt` a character at a time, print the characters outside `%` sequences, and for a `%`
look at the next character: `d`, `x` and `p` print the next word after `fmt` with `printint`, `s`
prints the string it points to (`"(null)"` for 0), `%` prints `%`, and any other character is
printed after a `%` to draw attention. They differ in three ways: `printf` keeps a `state`
across iterations where `cprintf` reads the character after `%` at once; `printf` also has `%c`;
and their `printint`s print hexadecimal digits in different cases. `cprintf` panics on a null
`fmt`.

The words after `fmt` and the strings in memory are `Varargs`. A format is read as its pieces
(`directives`); `format` prints pieces with a table of the conversions that read a word.

* `eq_format` — a loop that treats a plain character, a final `%` and a `%` sequence as `format`
  does prints `format` of the directives; `format_loops` applies it to the two loops of the source;
* `format_append` — the pieces of two formats print one after the other, the second from the word
  after those the first read; `printf_append` is `printf` of two formats;
* `printf_escape` — a string with its `%`s doubled prints as itself through both loops;
* `cprintf_eq_printf` — on formats with no `%c`, `%x` or `%p` the two loops print the same;
* `atoi_printf` — `atoi` of `ulib.c` reads back what `printf("%d")` prints for a non-negative
  `int`.
-/

namespace Xv6

namespace Print

/-- What a format reads besides its characters: the words on the stack after `fmt`, which `ap`
(`argp`) reads in turn, and the string at each address of memory, its characters before the NUL. -/
structure Varargs where
  word : Nat → UInt32
  str : UInt32 → List Char

/-- A piece of a format: a character printed as it is, or a `%` and the character after it. -/
inductive Directive
  | lit (c : Char)
  | conv (c : Char)
  deriving DecidableEq, Repr

/-- `fmt` read as its pieces. A `%` at the end of `fmt` is nothing: both loops stop there. -/
def directives : List Char → List Directive
  | [] => []
  | ['%'] => []
  | '%' :: c :: fmt => .conv c :: directives fmt
  | c :: fmt => .lit c :: directives fmt

/-- A `%` sequence with the letter `c`, then the rest of the format printed by `rest` from a word:
a letter of `table` prints the word `ap` with its entry and goes on from the next word; `%%` prints
`%`, and any other letter prints itself after a `%`. -/
def conversion (table : Char → Option (UInt32 → Option (List Char))) (word : Nat → UInt32)
    (c : Char) (rest : Nat → Option (List Char)) (ap : Nat) : Option (List Char) :=
  match table c with
  | some print => do
    let out ← print (word ap)
    let tail ← rest (ap + 1)
    pure (out ++ tail)
  | none => (rest ap).map ((if c = '%' then ['%'] else ['%', c]) ++ ·)

/-- What the pieces `ds` print, with the conversions of `table`, from the word `ap` on; `none`
where a conversion fails. -/
def format (table : Char → Option (UInt32 → Option (List Char))) (word : Nat → UInt32) :
    List Directive → Nat → Option (List Char)
  | [], _ => some []
  | .lit c :: ds, ap => (format table word ds ap).map (c :: ·)
  | .conv c :: ds, ap => conversion table word c (format table word ds) ap

/-- The words a list of pieces reads: one for each conversion in `table`. -/
def reads (table : Char → Option (UInt32 → Option (List Char))) : List Directive → Nat
  | [] => 0
  | .lit _ :: ds => reads table ds
  | .conv c :: ds => (if (table c).isSome then 1 else 0) + reads table ds

/-- `fmt` does not end inside a `%` sequence. -/
def complete : List Char → Bool
  | [] => true
  | ['%'] => false
  | '%' :: _ :: fmt => complete fmt
  | _ :: fmt => complete fmt

/-- `s` as a format that prints it: each `%` doubled. -/
def escape : List Char → List Char
  | [] => []
  | c :: s => if c = '%' then '%' :: '%' :: escape s else c :: escape s

/-! ### Reading a format -/

section Format

variable {table table' : Char → Option (UInt32 → Option (List Char))} {word : Nat → UInt32}

/-- **A format loop.** A loop over the characters of `fmt` that prints a character other than `%`
and goes on, stops at a final `%`, and treats a `%` and its letter as `conversion` does, prints
`format` of the directives of `fmt`. -/
theorem eq_format (loop : List Char → Nat → Option (List Char))
    (nil : ∀ ap, loop [] ap = some []) (last : ∀ ap, loop ['%'] ap = some [])
    (lit : ∀ c fmt ap, c ≠ '%' → loop (c :: fmt) ap = (loop fmt ap).map (c :: ·))
    (conv : ∀ c fmt ap, loop ('%' :: c :: fmt) ap = conversion table word c (loop fmt) ap)
    (fmt : List Char) : ∀ ap, loop fmt ap = format table word (directives fmt) ap := by
  induction fmt using directives.induct with
  | case1 => exact fun ap => by rw [nil, directives, format]
  | case2 => exact fun ap => by rw [last, directives, format]
  | case3 c fmt ih =>
    intro ap
    rw [conv, directives, format, funext ih]
  | case4 c fmt notLast notConv ih =>
    intro ap
    -- a character other than `%`: a `%` here would begin a sequence or end the format
    have plain : c ≠ '%' := by
      intro pct
      cases fmt with
      | nil => exact notLast pct rfl
      | cons c' fmt' => exact notConv c' fmt' pct rfl
    rw [lit c fmt ap plain, directives.eq_4 c fmt notLast notConv, format, ih]

/-- The directives of two formats, the first complete, are those of each. -/
theorem directives_append {f₁ : List Char} (f₂ : List Char) (done : complete f₁ = true) :
    directives (f₁ ++ f₂) = directives f₁ ++ directives f₂ := by
  induction f₁ using directives.induct with
  | case1 => rfl
  | case2 => cases done
  | case3 c fmt ih =>
    rw [List.cons_append, List.cons_append, directives, directives, ih done, List.cons_append]
  | case4 c fmt notLast notConv ih =>
    rw [complete.eq_4 c fmt notLast notConv] at done
    rw [List.cons_append, directives.eq_4 c (fmt ++ f₂), directives.eq_4 c fmt notLast notConv,
      ih done, List.cons_append]
    · intro pct empty
      obtain ⟨rfl, -⟩ := List.append_eq_nil_iff.mp empty
      exact notLast pct rfl
    · intro c' fmt' pct split
      cases fmt with
      | nil => exact notLast pct rfl
      | cons d fmt => exact notConv d fmt pct rfl

/-- **Formats compose.** The pieces `ds₁ ++ ds₂` print what `ds₁` prints, then what `ds₂` prints
from the word after those `ds₁` read. -/
theorem format_append (ds₁ ds₂ : List Directive) (ap : Nat) :
    format table word (ds₁ ++ ds₂) ap = (do
      let out ← format table word ds₁ ap
      let rest ← format table word ds₂ (ap + reads table ds₁)
      pure (out ++ rest)) := by
  induction ds₁ generalizing ap with
  | nil => simp [format, reads]
  | cons d ds ih =>
    cases d with
    | lit c =>
      rw [List.cons_append, format, format, ih, reads]
      cases format table word ds ap <;> simp
    | conv c =>
      rw [List.cons_append, format, format, reads, conversion, conversion]
      cases entry : table c with
      | some print =>
        simp only [Option.isSome_some, if_true, ih]
        cases print (word ap) <;> simp [Option.bind_assoc, Nat.add_assoc, Nat.add_comm 1]
      | none =>
        simp only [Option.isSome_none, ih]
        cases format table word ds ap <;> simp

/-- The words after the first `m`. -/
def Varargs.shift (args : Varargs) (m : Nat) : Varargs := ⟨fun i => args.word (i + m), args.str⟩

/-- Reading from the word `m` on is reading the words after the first `m` from 0. -/
theorem format_shift (ds : List Directive) (m ap : Nat) :
    format table (fun i => word (i + m)) ds ap = format table word ds (ap + m) := by
  induction ds generalizing ap with
  | nil => rfl
  | cons d ds ih =>
    cases d with
    | lit c => rw [format, format, ih]
    | conv c =>
      rw [format, format, conversion, conversion]
      cases table c with
      | some print => simp only [ih, Nat.add_right_comm ap 1 m]
      | none => simp only [ih]

/-- Two tables that agree on the letters of a format's conversions print it alike. -/
theorem format_congr (ds : List Directive) (agree : ∀ c, .conv c ∈ ds → table' c = table c)
    (ap : Nat) : format table' word ds ap = format table word ds ap := by
  induction ds generalizing ap with
  | nil => rfl
  | cons d ds ih =>
    have rest : ∀ c, .conv c ∈ ds → table' c = table c :=
      fun c mem => agree c (List.mem_cons_of_mem d mem)
    cases d with
    | lit c => rw [format, format, ih rest]
    | conv c =>
      rw [format, format, conversion, conversion, agree c List.mem_cons_self]
      simp only [ih rest]

/-- A string with its `%`s doubled reads as its characters, each `%` as `%%`. -/
theorem directives_escape (s : List Char) :
    directives (escape s) = s.map fun c => if c = '%' then .conv '%' else .lit c := by
  induction s with
  | nil => rfl
  | cons c s ih =>
    by_cases pct : c = '%'
    · rw [escape, if_pos pct, directives, ih, List.map_cons, if_pos pct]
    · rw [escape, if_neg pct, directives.eq_4 c (escape s) (fun p => absurd p pct)
        (fun _ _ p => absurd p pct), ih, List.map_cons, if_neg pct]

/-- `%%` and plain characters print themselves when `%` is no conversion of the table. -/
theorem format_escape (free : table '%' = none) (s : List Char) (ap : Nat) :
    format table word (s.map fun c => if c = '%' then .conv '%' else .lit c) ap = some s := by
  induction s with
  | nil => rfl
  | cons c s ih =>
    by_cases pct : c = '%'
    · subst pct
      simp [format, conversion, free, ih]
    · simp [format, pct, ih]

/-- A format prints when every conversion of its table prints. -/
theorem format_isSome (total : ∀ c print, table c = some print → ∀ w, (print w).isSome)
    (ds : List Directive) (ap : Nat) : (format table word ds ap).isSome := by
  induction ds generalizing ap with
  | nil => rfl
  | cons d ds ih =>
    cases d with
    | lit c => simpa [format] using ih ap
    | conv c =>
      rw [format, conversion]
      cases entry : table c with
      | some print =>
        obtain ⟨out, printed⟩ := Option.isSome_iff_exists.mp (total c print entry (word ap))
        obtain ⟨tail, rest⟩ := Option.isSome_iff_exists.mp (ih (ap + 1))
        simp [printed, rest]
      | none => simpa using ih ap

end Format

/-! ### Digits through two tables -/

theorem lt_of_mem_digitsOf {b n d : Nat} (hb : 1 < b) (mem : d ∈ digitsOf b n) : d < b := by
  rw [digitsOf] at mem
  split at mem
  · rw [List.mem_singleton.mp mem]
    omega
  · exact Nat.digits_lt_base hb mem

theorem ofDigits_digitsOf (b n : Nat) : Nat.ofDigits b (digitsOf b n) = n := by
  rw [digitsOf]
  split
  · simp [*]
  · exact Nat.ofDigits_digits b n

/-- Tables that agree below `b` show every number alike in base `b`. -/
theorem shown_congr {t t' : List Char} {b : Nat} (hb : 1 < b)
    (agree : ∀ d < b, t.getD d '\x00' = t'.getD d '\x00') (n : Nat) :
    shown t b n = shown t' b n := by
  unfold shown
  exact List.map_congr_left fun d mem => agree d (lt_of_mem_digitsOf hb (List.mem_reverse.mp mem))

/-- The two `printint`s print alike in base 10: their tables differ only in the letters. -/
theorem printint_decimal (xx sign : Int32) (buf : Buf) :
    Console.printint xx 10 sign buf = Printf.printint xx 10 sign buf := by
  have ten : (10 : Int32).toUInt32.toNat = 10 := by decide
  rw [console_printint_eq (by decide) (by decide), printf_printint_eq (by decide) (by decide),
    printed, printed, ten]
  -- the first ten entries of the two tables are the decimal digits
  have decimal : ∀ d < 10, Console.digits.getD d '\x00' = Printf.digits.getD d '\x00' := by
    decide
  rw [shown_congr (by decide) decimal, shown_congr (by decide) decimal]

end Print

/-! ### The two loops of the source -/

open Print

namespace Printf

/-- `state` of `printf`: 0, or `'%'` after a `%`. -/
inductive State
  | zero
  | percent
  deriving DecidableEq, Repr

/-- The loop `for(i = 0; fmt[i]; i++)` of `printf(fd, fmt, ...)` from `state`, with `ap` at the
word `ap`: the characters handed to `putc(fd, ·)`, or `none` where `printint` indexes out of
bounds. `buf` is what `printint`'s frame holds. -/
def printfLoop (args : Varargs) (buf : Buf) : List Char → State → Nat → Option (List Char)
  | [], _, _ => some []
  | c :: fmt, .zero, ap =>
    if c = '%' then printfLoop args buf fmt .percent ap
    else (printfLoop args buf fmt .zero ap).map (c :: ·)
  | c :: fmt, .percent, ap =>
    if c = 'd' then do
      let out ← printint (args.word ap).toInt32 10 1 buf
      let rest ← printfLoop args buf fmt .zero (ap + 1)
      pure (out ++ rest)
    else if c = 'x' ∨ c = 'p' then do
      let out ← printint (args.word ap).toInt32 16 0 buf
      let rest ← printfLoop args buf fmt .zero (ap + 1)
      pure (out ++ rest)
    else if c = 's' then
      -- `s = (char*)*ap; if(s == 0) s = "(null)";`
      let s := if args.word ap = 0 then "(null)".toList else args.str (args.word ap)
      (printfLoop args buf fmt .zero (ap + 1)).map (s ++ ·)
    else if c = 'c' then
      -- `putc(fd, *ap)` passes the word's low byte
      (printfLoop args buf fmt .zero (ap + 1)).map (Char.ofNat ((args.word ap).toNat % 256) :: ·)
    else if c = '%' then (printfLoop args buf fmt .zero ap).map (c :: ·)
    else (printfLoop args buf fmt .zero ap).map ('%' :: c :: ·)

/-- `printf(fd, fmt, ...)`: the characters it writes to `fd`. -/
def printf (args : Varargs) (buf : Buf) (fmt : List Char) : Option (List Char) :=
  printfLoop args buf fmt .zero 0

/-- The conversions of `printf` that read a word: `%d`, `%x`, `%p`, `%s` and `%c`. -/
def conversions (args : Varargs) (buf : Buf) : Char → Option (UInt32 → Option (List Char))
  | 'd' => some fun w => printint w.toInt32 10 1 buf
  | 'x' => some fun w => printint w.toInt32 16 0 buf
  | 'p' => some fun w => printint w.toInt32 16 0 buf
  | 's' => some fun w => some (if w = 0 then "(null)".toList else args.str w)
  | 'c' => some fun w => some [Char.ofNat (w.toNat % 256)]
  | _ => none

variable {args : Varargs} {buf : Buf}

/-- The letters of `printf` that read no word. -/
theorem conversions_of_ne {c : Char} (d : c ≠ 'd') (x : c ≠ 'x') (p : c ≠ 'p') (s : c ≠ 's')
    (cc : c ≠ 'c') : conversions args buf c = none := by
  unfold conversions
  split <;> simp_all

/-- After a `%`, `printf` prints the conversion of the next character and goes back to state 0. -/
theorem printfLoop_percent (c : Char) (fmt : List Char) (ap : Nat) :
    printfLoop args buf (c :: fmt) .percent ap =
      conversion (conversions args buf) args.word c (printfLoop args buf fmt .zero) ap := by
  rw [printfLoop.eq_3, conversion]
  by_cases d : c = 'd'
  · subst d; rfl
  by_cases x : c = 'x'
  · subst x; rfl
  by_cases p : c = 'p'
  · subst p; rfl
  by_cases s : c = 's'
  · subst s
    rw [if_neg d, if_neg (by tauto), if_pos rfl]
    simp only [conversions, Option.map_eq_bind]
    rfl
  by_cases cc : c = 'c'
  · subst cc
    rw [if_neg d, if_neg (by tauto), if_neg s, if_pos rfl]
    simp only [conversions, Option.map_eq_bind]
    rfl
  rw [if_neg d, if_neg (by tauto), if_neg s, if_neg cc, conversions_of_ne d x p s cc]
  by_cases pct : c = '%'
  · rw [if_pos pct, if_pos pct, pct]; rfl
  · rw [if_neg pct, if_neg pct]; rfl

theorem printfLoop_eq_format (fmt : List Char) (ap : Nat) :
    printfLoop args buf fmt .zero ap = format (conversions args buf) args.word (directives fmt) ap :=
  eq_format (fun fmt ap => printfLoop args buf fmt .zero ap) (fun _ => rfl)
    (fun _ => rfl) (fun c fmt ap plain => by rw [printfLoop, if_neg plain])
    (fun c fmt ap => by rw [printfLoop, if_pos rfl, printfLoop_percent]) fmt ap

/-- Every conversion of `printf` prints: `printint` stays inside `buf` and its table. -/
theorem conversions_total (c : Char) (print : UInt32 → Option (List Char))
    (entry : conversions args buf c = some print) (w : UInt32) : (print w).isSome := by
  have radix : ∀ base : Int32, base = 10 ∨ base = 16 → ∀ sgn,
      (printint w.toInt32 base sgn buf).isSome := by
    intro base radix sgn
    obtain ⟨lo, hi, -⟩ := radix_toNat radix
    rw [printf_printint_eq lo hi]
    rfl
  unfold conversions at entry
  split at entry <;> cases entry
  · exact radix 10 (.inl rfl) 1
  · exact radix 16 (.inr rfl) 0
  · exact radix 16 (.inr rfl) 0
  · rfl
  · rfl

theorem printfLoop_isSome (fmt : List Char) (ap : Nat) :
    (printfLoop args buf fmt .zero ap).isSome := by
  rw [printfLoop_eq_format]
  exact format_isSome conversions_total _ ap

end Printf

namespace Console

/-- The loop `for(i = 0; (c = fmt[i] & 0xff) != 0; i++)` of `cprintf(fmt, ...)`, with `argp` at
the word `argp`: the characters handed to `consputc`, or `none` where `printint` indexes out of
bounds. `buf` is what `printint`'s frame holds. -/
def cprintfLoop (args : Varargs) (buf : Buf) : List Char → Nat → Option (List Char)
  | [], _ => some []
  | c :: fmt, argp =>
    if c ≠ '%' then (cprintfLoop args buf fmt argp).map (c :: ·)
    else
      match fmt with
      -- `c = fmt[++i] & 0xff` is the NUL: `break`
      | [] => some []
      | c :: fmt =>
        match c with
        | 'd' => do
          let out ← printint (args.word argp).toInt32 10 1 buf
          let rest ← cprintfLoop args buf fmt (argp + 1)
          pure (out ++ rest)
        | 'x' | 'p' => do
          let out ← printint (args.word argp).toInt32 16 0 buf
          let rest ← cprintfLoop args buf fmt (argp + 1)
          pure (out ++ rest)
        | 's' =>
          let s := if args.word argp = 0 then "(null)".toList else args.str (args.word argp)
          (cprintfLoop args buf fmt (argp + 1)).map (s ++ ·)
        | '%' => (cprintfLoop args buf fmt argp).map ('%' :: ·)
        | c => (cprintfLoop args buf fmt argp).map ('%' :: c :: ·)

/-- `cprintf(fmt, ...)`: the panic on a null `fmt`, else the characters it prints. The console
lock it takes when `cons.locking` is set is left out. -/
def cprintf (args : Varargs) (buf : Buf) : Option (List Char) → Except String (Option (List Char))
  | none => .error "null fmt"
  | some fmt => .ok (cprintfLoop args buf fmt 0)

/-- The conversions of `cprintf` that read a word: `%d`, `%x`, `%p` and `%s`. -/
def conversions (args : Varargs) (buf : Buf) : Char → Option (UInt32 → Option (List Char))
  | 'd' => some fun w => printint w.toInt32 10 1 buf
  | 'x' => some fun w => printint w.toInt32 16 0 buf
  | 'p' => some fun w => printint w.toInt32 16 0 buf
  | 's' => some fun w => some (if w = 0 then "(null)".toList else args.str w)
  | _ => none

variable {args : Varargs} {buf : Buf}

/-- The letters of `cprintf` that read no word. -/
theorem conversions_of_ne {c : Char} (d : c ≠ 'd') (x : c ≠ 'x') (p : c ≠ 'p') (s : c ≠ 's') :
    conversions args buf c = none := by
  unfold conversions
  split <;> simp_all

/-- `cprintf` at a `%` and its letter prints the conversion of the letter. -/
theorem cprintfLoop_percent (c : Char) (fmt : List Char) (argp : Nat) :
    cprintfLoop args buf ('%' :: c :: fmt) argp =
      conversion (conversions args buf) args.word c (cprintfLoop args buf fmt) argp := by
  -- `fmt[i]` is `%`: the loop goes to the switch on the next character
  have pct : ¬('%' ≠ '%') := not_not.mpr rfl
  rw [conversion]
  by_cases d : c = 'd'
  · subst d; rw [cprintfLoop.eq_3, if_neg pct]; rfl
  by_cases x : c = 'x'
  · subst x; rw [cprintfLoop.eq_4, if_neg pct]; rfl
  by_cases p : c = 'p'
  · subst p; rw [cprintfLoop.eq_5, if_neg pct]; rfl
  by_cases s : c = 's'
  · subst s
    rw [cprintfLoop.eq_6, if_neg pct]
    simp only [conversions, Option.map_eq_bind]
    rfl
  rw [conversions_of_ne d x p s]
  by_cases twice : c = '%'
  · subst twice; rw [cprintfLoop.eq_7, if_neg pct, if_pos rfl]; rfl
  · rw [cprintfLoop.eq_8 args buf argp '%' c fmt d x p s twice, if_neg pct, if_neg twice]; rfl

theorem cprintf_eq_format (fmt : List Char) :
    cprintf args buf (some fmt) = .ok (format (conversions args buf) args.word (directives fmt) 0) :=
  congrArg Except.ok <| eq_format (cprintfLoop args buf) (fun _ => rfl) (fun _ => rfl)
    (fun c fmt ap plain => by rw [cprintfLoop.eq_def]; exact if_pos plain) cprintfLoop_percent fmt 0

/-- Outside `%c`, `%x` and `%p`, `cprintf` converts as `printf` does. -/
theorem conversions_eq {c : Char} (cc : c ≠ 'c') (x : c ≠ 'x') (p : c ≠ 'p') :
    conversions args buf c = Printf.conversions args buf c := by
  by_cases d : c = 'd'
  · subst d
    simp only [conversions, Printf.conversions, printint_decimal]
  by_cases s : c = 's'
  · subst s
    simp only [conversions, Printf.conversions]
  rw [conversions_of_ne d x p s, Printf.conversions_of_ne d x p s cc]

end Console

namespace Ulib

/-- The loop `while('0' <= *s && *s <= '9') n = n*10 + *s++ - '0';` of `atoi(s)`, in `int`. -/
def atoiLoop : List Char → Int32 → Int32
  | [], n => n
  | c :: s, n =>
    if '0' ≤ c ∧ c ≤ '9' then atoiLoop s (n * 10 + Int32.ofNat c.toNat - Int32.ofNat '0'.toNat)
    else n

/-- `atoi(s)` of `ulib.c`, over the characters of `s` before its NUL. -/
def atoi (s : List Char) : Int32 := atoiLoop s 0

/-- `atoi` stops at the first character that is not a digit. -/
theorem atoiLoop_append_stop {c : Char} (stop : ¬('0' ≤ c ∧ c ≤ '9')) (s t : List Char)
    (n : Int32) : atoiLoop (s ++ c :: t) n = atoiLoop s n := by
  induction s generalizing n with
  | nil => rw [List.nil_append, atoiLoop.eq_2, if_neg stop, atoiLoop.eq_1]
  | cons c' s ih =>
    rw [List.cons_append, atoiLoop, atoiLoop]
    split
    · exact ih _
    · rfl

/-- The loop over the characters of the decimal digits `ds`, from `m`, reads `m` followed by
`ds`, in `int`. -/
theorem atoiLoop_digits (ds : List Nat) (small : ∀ d ∈ ds, d < 10) (m : Nat) :
    atoiLoop (ds.map fun d => Printf.digits.getD d '\x00') (Int32.ofNat m) =
      Int32.ofNat (m * 10 ^ ds.length + Nat.ofDigits 10 ds.reverse) := by
  induction ds generalizing m with
  | nil => simp [atoiLoop]
  | cons d ds ih =>
    have digit : ∀ d < 10, '0' ≤ Printf.digits.getD d '\x00' ∧ Printf.digits.getD d '\x00' ≤ '9' ∧
        (Printf.digits.getD d '\x00').toNat = 48 + d := by
      decide
    obtain ⟨lo, hi, code⟩ := digit d (small d List.mem_cons_self)
    -- `n*10 + *s - '0'` wraps as `int` arithmetic does, and lands on `m*10 + d`
    have next : Int32.ofNat m * 10 + Int32.ofNat (48 + d) - Int32.ofNat '0'.toNat =
        Int32.ofNat (m * 10 + d) := by
      have ten : (10 : Int32) = Int32.ofNat 10 := rfl
      have zero : Int32.ofNat '0'.toNat = Int32.ofNat 48 := rfl
      rw [Int32.ofNat_add, Int32.ofNat_add, Int32.ofNat_mul, ten, zero]
      grind
    rw [List.map_cons, atoiLoop, if_pos ⟨lo, hi⟩, code, next,
      ih (fun d mem => small d (List.mem_cons_of_mem _ mem)), List.reverse_cons,
      Nat.ofDigits_append, List.length_cons, List.length_reverse]
    congr 1
    simp only [Nat.ofDigits_singleton, Nat.pow_succ]
    ring

/-- `atoi` reads back the decimal digits of `n`. -/
theorem atoi_shown (n : Nat) : atoi (shown Printf.digits 10 n) = Int32.ofNat n := by
  have small : ∀ d ∈ (digitsOf 10 n).reverse, d < 10 :=
    fun d mem => lt_of_mem_digitsOf (by decide) (List.mem_reverse.mp mem)
  rw [atoi, shown, show (0 : Int32) = Int32.ofNat 0 from rfl, atoiLoop_digits _ small,
    Nat.zero_mul, Nat.zero_add, List.reverse_reverse, ofDigits_digitsOf]

end Ulib

/-! ### What the two loops print -/

namespace Print

/-- Two words, 7 and 42, and `"ok"` at every address. -/
def sampleArgs : Varargs := ⟨fun i => if i = 0 then 7 else 42, fun _ => ['o', 'k']⟩

section Loops

variable (args : Varargs) (buf : Buf)

/-- **The two loops read a format alike.** `printf`, which carries a `state` from one character to
the next, and `cprintf`, which reads the character after a `%` at once, both print `format` of the
pieces of `fmt`, each through its own table of conversions. -/
theorem format_loops (fmt : List Char) :
    Printf.printf args buf fmt = format (Printf.conversions args buf) args.word (directives fmt) 0 ∧
      Console.cprintf args buf (some fmt) =
        .ok (format (Console.conversions args buf) args.word (directives fmt) 0) :=
  ⟨Printf.printfLoop_eq_format fmt 0, Console.cprintf_eq_format fmt⟩

/-- **`printf` composes.** A format that does not end inside a `%` sequence, followed by another,
prints what the first prints and then what the second prints from the word after those the first
read. -/
theorem printf_append {f₁ : List Char} (f₂ : List Char) (done : complete f₁ = true) :
    Printf.printf args buf (f₁ ++ f₂) = (do
      let out ← Printf.printf args buf f₁
      let rest ← Printf.printf
        (args.shift (reads (Printf.conversions args buf) (directives f₁))) buf f₂
      pure (out ++ rest)) := by
  -- the shifted words have the same strings, so the same conversions
  have same : ∀ m, Printf.conversions (args.shift m) buf = Printf.conversions args buf :=
    fun _ => rfl
  simp only [Printf.printf, Printf.printfLoop_eq_format, same]
  rw [directives_append f₂ done, format_append, Varargs.shift, format_shift, Nat.zero_add]

theorem printf_append_sample :
    complete ['n', '=', '%', 'd', ' '] = true ∧
      Printf.printf sampleArgs (Vector.replicate 16 '\x00') (['n', '=', '%', 'd', ' '] ++ ['%', 's']) =
        (do
          let out ← Printf.printf sampleArgs (Vector.replicate 16 '\x00') ['n', '=', '%', 'd', ' ']
          let rest ← Printf.printf (sampleArgs.shift (reads
            (Printf.conversions sampleArgs (Vector.replicate 16 '\x00'))
            (directives ['n', '=', '%', 'd', ' ']))) (Vector.replicate 16 '\x00') ['%', 's']
          pure (out ++ rest)) :=
  ⟨by decide, printf_append _ _ ['%', 's'] (by decide)⟩

/-- **Escaping round trip.** A string with each `%` doubled prints as the string itself, through
`printf` and through `cprintf`, whatever the arguments. -/
theorem printf_escape (s : List Char) :
    Printf.printf args buf (escape s) = some s ∧
      Console.cprintf args buf (some (escape s)) = .ok (some s) := by
  constructor
  · rw [Printf.printf, Printf.printfLoop_eq_format, directives_escape]
    exact format_escape rfl s 0
  · rw [Console.cprintf_eq_format, directives_escape, format_escape rfl s 0]

/-- **The kernel's and the user's loops agree** on every format with no `%c`, `%x` or `%p`: the
decimal digits of the two `printint` tables are the same, and `%s`, `%%` and an unknown letter are
printed alike. -/
theorem cprintf_eq_printf (fmt : List Char)
    (plain : ∀ d ∈ directives fmt, d ≠ .conv 'c' ∧ d ≠ .conv 'x' ∧ d ≠ .conv 'p') :
    Console.cprintf args buf (some fmt) = .ok (Printf.printf args buf fmt) := by
  have agree : ∀ c, .conv c ∈ directives fmt →
      Console.conversions args buf c = Printf.conversions args buf c := by
    intro c mem
    obtain ⟨cc, x, p⟩ := plain (.conv c) mem
    exact Console.conversions_eq (fun same => cc (by rw [same]))
      (fun same => x (by rw [same])) (fun same => p (by rw [same]))
  rw [Console.cprintf_eq_format, Printf.printf, Printf.printfLoop_eq_format, format_congr _ agree]

theorem cprintf_eq_printf_sample :
    (∀ d ∈ directives ['n', '=', '%', 'd', ' ', '%', 's'],
      d ≠ .conv 'c' ∧ d ≠ .conv 'x' ∧ d ≠ .conv 'p') ∧
      Console.cprintf sampleArgs (Vector.replicate 16 '\x00') (some ['n', '=', '%', 'd', ' ', '%', 's']) =
        .ok (Printf.printf sampleArgs (Vector.replicate 16 '\x00') ['n', '=', '%', 'd', ' ', '%', 's']) :=
  ⟨by decide, cprintf_eq_printf _ _ _ (by decide)⟩

/-- **`atoi` reads back what `printf("%d")` prints**, for every non-negative `int`, when what follows
the `%d` in the format starts with a character that is neither a digit nor a `%`. -/
theorem atoi_printf (rest : List Char) (nonneg : 0 ≤ (args.word 0).toInt32)
    (stop : ∀ c ∈ rest.head?, c ≠ '%' ∧ ¬('0' ≤ c ∧ c ≤ '9')) :
    (Printf.printf args buf ('%' :: 'd' :: rest)).map Ulib.atoi = some (args.word 0).toInt32 := by
  obtain ⟨tail, printed⟩ := Option.isSome_iff_exists.mp (@Printf.printfLoop_isSome args buf rest 1)
  -- `printf` prints the digits of the word, then what `rest` prints
  have digits : Printf.printint (args.word 0).toInt32 10 1 buf =
      some (shown Printf.digits 10 (args.word 0).toNat) := by
    rw [printf_printint_eq (by decide) (by decide), Print.printed,
      if_neg fun neg => absurd neg.2 (Int32.not_lt.mpr nonneg), UInt32.toUInt32_toInt32]
    rfl
  have output : Printf.printf args buf ('%' :: 'd' :: rest) =
      some (shown Printf.digits 10 (args.word 0).toNat ++ tail) := by
    rw [Printf.printf, Printf.printfLoop, if_pos rfl, Printf.printfLoop_percent, conversion]
    simp only [Printf.conversions, digits, printed]
    rfl
  -- and what `rest` prints starts with its first character, which `atoi` stops at
  have ends : tail = [] ∨ ∃ c more, tail = c :: more ∧ ¬('0' ≤ c ∧ c ≤ '9') := by
    cases rest with
    | nil =>
      rw [Printf.printfLoop] at printed
      exact .inl (Option.some.inj printed).symm
    | cons c fmt =>
      obtain ⟨plain, digit⟩ := stop c rfl
      rw [Printf.printfLoop, if_neg plain] at printed
      obtain ⟨more, -, rfl⟩ := Option.map_eq_some_iff.mp printed
      exact .inr ⟨c, more, rfl, digit⟩
  have bits : Int32.ofNat (args.word 0).toNat = (args.word 0).toInt32 := by
    apply Int32.toBitVec_inj.mp
    simp
  rw [output, Option.map_some, ← bits, ← Ulib.atoi_shown]
  rcases ends with rfl | ⟨c, more, rfl, digit⟩
  · rw [List.append_nil]
  · exact congrArg some (Ulib.atoiLoop_append_stop digit _ _ _)

theorem atoi_printf_sample :
    0 ≤ (sampleArgs.word 0).toInt32 ∧ (∀ c ∈ ['\n'].head?, c ≠ '%' ∧ ¬('0' ≤ c ∧ c ≤ '9')) ∧
      (Printf.printf sampleArgs (Vector.replicate 16 '\x00') ['%', 'd', '\n']).map Ulib.atoi =
        some (sampleArgs.word 0).toInt32 :=
  ⟨by decide, by simp, atoi_printf _ _ ['\n'] (by decide) (by simp)⟩

end Loops

end Print

end Xv6
