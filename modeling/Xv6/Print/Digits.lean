import Xv6.Print.Printint
import Mathlib.Data.Nat.Digits.Lemmas

/-!
**`printint` writes the digits of its value.**

* `digitsOf b n` — the digits of `n` in base `b`, least significant first, with one `0` for zero:
  what the do-while loop stores. It is Mathlib's `Nat.digits` but for zero, so its digits read
  back as `n`, lie below `b`, and the most significant is not 0 unless `n` is (`digitsOf_spec`).
* `printed table b xx sign` — what `printint` should write: `'-'` and the digits of `|xx|` when the
  sign flag is set and `xx < 0`, the digits of the unsigned value of `xx` otherwise, most
  significant first, through the digit table.
* `digitLoop_eq` — the loop stores `digitsOf base x` from the index `i` when they fit in `buf`;
  `emitLoop_eq` — the last loop writes the first `i` characters of `buf` backwards.
* `writeDigits_eq` — the part the two `printint`s share, in base 10 or more: at most 10 digits and
  a `'-'` fit in the 16 bytes of `buf`.
* `printint_digits` — both `printint`s write `printed`, and so never index `buf` or their digit
  table out of bounds.
-/

namespace Xv6.Print

/-! ### The digits of a number -/

section Digits

/-- The digits of `n` in base `b`, least significant first; one `0` for zero. -/
def digitsOf (b n : Nat) : List Nat := if n = 0 then [0] else Nat.digits b n

variable {b : Nat}

theorem digitsOf_ne_nil (n : Nat) : digitsOf b n ≠ [] := by
  unfold digitsOf
  split
  · exact List.cons_ne_nil 0 []
  · next pos => exact Nat.digits_ne_nil_iff_ne_zero.mpr pos

theorem digitsOf_of_lt {n : Nat} (lt : n < b) : digitsOf b n = [n] := by
  unfold digitsOf
  split
  · next zero => rw [zero]
  · next pos => exact Nat.digits_of_lt b n pos lt

theorem digitsOf_of_le (hb : 1 < b) {n : Nat} (le : b ≤ n) :
    digitsOf b n = n % b :: digitsOf b (n / b) := by
  have quot : n / b ≠ 0 := (Nat.div_pos le (by omega)).ne'
  rw [digitsOf, if_neg (by omega), Nat.digits_def' hb (by omega), digitsOf, if_neg quot]

/-- **The digits of `n`**: they read back as `n`, each is a digit of base `b`, and the most
significant one is not 0 unless `n` is 0. -/
theorem digitsOf_spec (hb : 1 < b) (n : Nat) :
    Nat.ofDigits b (digitsOf b n) = n ∧ (∀ d ∈ digitsOf b n, d < b) ∧
      ((digitsOf b n).getLast? = some 0 → n = 0) := by
  unfold digitsOf
  split
  · next zero => exact ⟨by rw [zero]; rfl, fun d mem => by simp at mem; omega, fun _ => zero⟩
  · next pos =>
    refine ⟨Nat.ofDigits_digits b n, fun d mem => Nat.digits_lt_base hb mem, fun last => ?_⟩
    have nonempty : Nat.digits b n ≠ [] := Nat.digits_ne_nil_iff_ne_zero.mpr pos
    rw [List.getLast?_eq_some_getLast nonempty, Option.some_inj] at last
    exact absurd last (Nat.getLast_digit_ne_zero b pos)

/-- A number below `2^32` has at most 10 digits in a base of 10 or more. -/
theorem length_digitsOf_le (hb : 10 ≤ b) {n : Nat} (lt : n < 2 ^ 32) :
    (digitsOf b n).length ≤ 10 := by
  unfold digitsOf
  split
  · simp
  · rw [Nat.digits_length_le_iff (by omega)]
    calc n < 2 ^ 32 := lt
      _ ≤ 10 ^ 10 := by norm_num
      _ ≤ b ^ 10 := Nat.pow_le_pow_left hb 10

/-- The digits of `n` in base `b` through `table`, most significant first. -/
def shown (table : List Char) (b n : Nat) : List Char :=
  (digitsOf b n).reverse.map fun d => table.getD d '\x00'

/-- What `printint` should write for `xx` with the sign flag `sign`: `'-'` and the digits of the
magnitude of `xx` when the flag is set and `xx` is negative, `INT_MIN` included, and the digits of
the unsigned value of `xx`'s bits otherwise. -/
def printed (table : List Char) (b : Nat) (xx sign : Int32) : List Char :=
  if sign ≠ 0 ∧ xx < 0 then '-' :: shown table b xx.toInt.natAbs else shown table b xx.toUInt32.toNat

end Digits

/-! ### The loops -/

section Loops

/-- The first `i + 1` characters of `buf` after `buf[i] = c`. -/
theorem take_set (buf : Buf) {i : Nat} (hi : i < 16) (c : Char) :
    (buf.set i c hi).toList.take (i + 1) = buf.toList.take i ++ [c] := by
  have length : i < buf.toList.length := by rw [Vector.length_toList]; exact hi
  rw [Vector.toList_set, List.take_set, List.take_add_one, List.getElem?_eq_getElem length,
    Option.toList_some, List.set_append, if_neg (by simp), List.length_take_of_le length.le,
    Nat.sub_self]
  rfl

theorem store_eq (buf : Buf) {i : Nat} (hi : i < 16) (c : Char) :
    store buf i c = some (buf.set i c hi) := by
  rw [store, dif_pos hi]

/-- **The loop at the end** writes the first `n` characters of `buf`, last first. -/
theorem emitLoop_eq (buf : Buf) : ∀ n ≤ 16, emitLoop buf n = some (buf.toList.take n).reverse := by
  intro n
  induction n with
  | zero => intro _; rfl
  | succ n ih =>
    intro le
    have hi : n < 16 := by omega
    have length : n < buf.toList.length := by rw [Vector.length_toList]; exact hi
    rw [emitLoop, dif_pos hi, ih (by omega), Option.map_some, List.take_add_one,
      List.getElem?_eq_getElem length, Option.toList_some, List.reverse_append,
      Vector.getElem_toList]
    rfl

variable {table : List Char} {base : UInt32}

/-- `digits[x % base]`: the table's entry for the last digit of `x`. -/
theorem getElem?_table (fits : base.toNat ≤ table.length) (hb : 0 < base.toNat) (x : UInt32) :
    table[(x % base).toNat]? = some (table.getD (x.toNat % base.toNat) '\x00') := by
  have lt : x.toNat % base.toNat < table.length :=
    Nat.lt_of_lt_of_le (Nat.mod_lt _ hb) fits
  rw [UInt32.toNat_mod, List.getD_eq_getElem?_getD, List.getElem?_eq_getElem lt]
  rfl

/-- **The digit loop** stores the digits of `x` from the index `i`, least significant first and
through the table, when they fit in `buf`. -/
theorem digitLoop_eq (hb : 1 < base.toNat) (fits : base.toNat ≤ table.length) :
    ∀ (x : UInt32) (i : Nat) (buf : Buf), i + (digitsOf base.toNat x.toNat).length ≤ 16 →
      ∃ buf', digitLoop table base x i buf = some (i + (digitsOf base.toNat x.toNat).length, buf') ∧
        buf'.toList.take (i + (digitsOf base.toNat x.toNat).length) =
          buf.toList.take i ++ (digitsOf base.toNat x.toNat).map fun d => table.getD d '\x00' := by
  -- by induction on the value of `x`, which the loop divides by `base`
  intro x
  induction hx : x.toNat using Nat.strong_induction_on generalizing x with
  | _ n ih =>
    intro i buf room
    subst hx
    have hi : i < 16 := by
      have := List.length_pos_iff.mpr (digitsOf_ne_nil (b := base.toNat) x.toNat)
      omega
    have quot : (x / base).toNat = x.toNat / base.toNat := UInt32.toNat_div x base
    rw [digitLoop, dif_pos hi, getElem?_table fits (by omega)]
    dsimp only
    by_cases more : x / base ≠ 0
    · -- another digit: `x` is at least `base`
      have le : base.toNat ≤ x.toNat := by
        by_contra lt
        apply more
        apply UInt32.toNat_inj.mp
        rw [quot, Nat.div_eq_of_lt (by omega)]
        rfl
      have step := digitsOf_of_le hb le
      obtain ⟨buf', ran, written⟩ := ih (x / base).toNat
        (by rw [quot]; exact Nat.div_lt_self (by omega) hb) (x / base) rfl (i + 1)
        (buf.set i (table.getD (x.toNat % base.toNat) '\x00') hi)
        (by rw [step, List.length_cons] at room; rw [quot]; omega)
      rw [quot] at ran written
      have length : i + (digitsOf base.toNat x.toNat).length =
          i + 1 + (digitsOf base.toNat (x.toNat / base.toNat)).length := by
        rw [step, List.length_cons]
        omega
      refine ⟨buf', ?_, ?_⟩
      · rw [if_pos more, ran, length]
      · rw [length, written, take_set, step, List.map_cons, List.append_assoc, List.singleton_append]
    · -- the last digit: `x` is below `base`
      have lt : x.toNat < base.toNat := by
        have zero : (x / base).toNat = 0 := by
          rw [Decidable.not_not.mp more]
          rfl
        rw [quot, Nat.div_eq_zero_iff] at zero
        omega
      have step := digitsOf_of_lt lt
      refine ⟨buf.set i (table.getD (x.toNat % base.toNat) '\x00') hi, ?_, ?_⟩
      · rw [if_neg more, step]
        rfl
      · rw [step, List.length_singleton, take_set, List.map_singleton, Nat.mod_eq_of_lt lt]

/-- **What both `printint`s do after the sign**: store the digits of `x` and, for a negative
value, a `'-'`, then write them out backwards. In a base of 10 or more the at most 10 digits and
the `'-'` fit in `buf`. -/
theorem writeDigits_eq (hb : 10 ≤ base.toNat) (fits : base.toNat ≤ table.length) (x : UInt32)
    (neg : Prop) [Decidable neg] (buf : Buf) :
    (do
      let (i, buf) ← digitLoop table base x 0 buf
      let (i, buf) ← if neg then (store buf i '-').map ((i + 1, ·)) else some (i, buf)
      emitLoop buf i) =
    some ((if neg then ['-'] else []) ++ shown table base.toNat x.toNat) := by
  have few := length_digitsOf_le hb x.toNat_lt
  obtain ⟨buf', ran, written⟩ := digitLoop_eq (by omega) fits x 0 buf (by omega)
  rw [Nat.zero_add] at ran written
  rw [List.take_zero, List.nil_append] at written
  have hk : (digitsOf base.toNat x.toNat).length < 16 := by omega
  rw [ran]
  by_cases n : neg
  · -- the `'-'` after the digits comes out first
    simp only [Option.bind_eq_bind, Option.bind_some, if_pos n, store_eq buf' hk, Option.map_some]
    rw [emitLoop_eq _ _ hk, take_set, written, List.reverse_append, shown, List.map_reverse]
    rfl
  · simp only [Option.bind_eq_bind, Option.bind_some, if_neg n]
    rw [emitLoop_eq _ _ hk.le, written, shown, List.map_reverse]
    rfl

end Loops

/-! ### The two `printint`s -/

section Printint

/-- The value of an `int` from its bits. -/
theorem toInt_eq_cond (xx : Int32) :
    xx.toInt = if 2 * xx.toUInt32.toNat < 2 ^ 32 then (xx.toUInt32.toNat : Int)
      else xx.toUInt32.toNat - 2 ^ 32 := by
  rw [← Int32.toInt_toBitVec, BitVec.toInt_eq_toNat_cond, Int32.toNat_toBitVec]
  rfl

/-- `x = -xx` for a negative `xx` is its magnitude, also for `INT_MIN`, whose negation wraps to
`INT_MIN` with the unsigned value `2^31`. -/
theorem toNat_toUInt32_neg {xx : Int32} (neg : xx < 0) :
    (-xx).toUInt32.toNat = xx.toInt.natAbs := by
  have lt : xx.toInt < 0 := Int32.lt_iff_toInt_lt.mp neg
  have bound := xx.toUInt32.toNat_lt
  rw [Int32.toUInt32_neg, UInt32.toNat_neg, UInt32.size]
  rw [toInt_eq_cond] at lt ⊢
  split at lt
  · omega
  · rw [if_neg (by assumption), Nat.mod_eq_of_lt (by omega)]
    omega

variable {base : Int32}

/-- The kernel's `printint` in a base from 10 to 16 writes `printed`. -/
theorem console_printint_eq (hb : 10 ≤ base.toUInt32.toNat) (fits : base.toUInt32.toNat ≤ 16)
    (xx sign : Int32) (buf : Buf) :
    Console.printint xx base sign buf = some (printed Console.digits base.toUInt32.toNat xx sign) := by
  have table : base.toUInt32.toNat ≤ Console.digits.length := by
    have : Console.digits.length = 17 := rfl
    omega
  unfold Console.printint printed
  -- the three ways through `if(sign && (sign = xx < 0))`
  by_cases n : sign ≠ 0 ∧ xx < 0
  · obtain ⟨s, neg⟩ := n
    rw [if_pos s]
    dsimp only
    rw [if_pos neg, if_pos (by decide : (1 : Int32) ≠ 0)]
    dsimp only
    rw [writeDigits_eq hb table, if_pos (by decide : (1 : Int32) ≠ 0), if_pos ⟨s, neg⟩,
      toNat_toUInt32_neg neg]
    rfl
  · rw [if_neg n]
    by_cases s : sign ≠ 0
    · -- `sign` is set to `xx < 0`, which is false
      have nonneg : ¬xx < 0 := fun neg => n ⟨s, neg⟩
      rw [if_pos s]
      dsimp only
      rw [if_neg nonneg, if_neg (by decide : ¬(0 : Int32) ≠ 0)]
      dsimp only
      rw [writeDigits_eq hb table, if_neg (by decide : ¬(0 : Int32) ≠ 0)]
      rfl
    · rw [if_neg s]
      dsimp only
      rw [writeDigits_eq hb table, if_neg s]
      rfl

/-- The user's `printint` in a base from 10 to 16 writes `printed`. -/
theorem printf_printint_eq (hb : 10 ≤ base.toUInt32.toNat) (fits : base.toUInt32.toNat ≤ 16)
    (xx sgn : Int32) (buf : Buf) :
    Printf.printint xx base sgn buf = some (printed Printf.digits base.toUInt32.toNat xx sgn) := by
  have table : base.toUInt32.toNat ≤ Printf.digits.length := by
    have : Printf.digits.length = 17 := rfl
    omega
  unfold Printf.printint printed
  by_cases n : sgn ≠ 0 ∧ xx < 0
  · rw [if_pos n]
    dsimp only
    rw [writeDigits_eq hb table, if_pos (by decide : (1 : Int32) ≠ 0), if_pos n,
      toNat_toUInt32_neg n.2]
    rfl
  · rw [if_neg n]
    dsimp only
    rw [writeDigits_eq hb table, if_neg (by decide : ¬(0 : Int32) ≠ 0), if_neg n]
    rfl

/-- The bases `cprintf` and `printf` pass, as the `uint` that divides `x`. -/
theorem radix_toNat (radix : base = 10 ∨ base = 16) :
    10 ≤ base.toUInt32.toNat ∧ base.toUInt32.toNat ≤ 16 ∧ base.toUInt32.toNat = base.toInt.toNat := by
  rcases radix with rfl | rfl
  · decide
  · decide

/-- **Integer printing.** For every `int` value, base 10 or 16 and sign flag, both `printint`s
write the digits of the value, most significant first with no leading zero (`digitsOf_spec`), after
a `'-'` for a negative value printed as signed. They return, so they index neither `buf` nor their
digit table out of bounds. -/
theorem printint_digits (xx base sign : Int32) (radix : base = 10 ∨ base = 16) (buf : Buf) :
    Console.printint xx base sign buf = some (printed Console.digits base.toInt.toNat xx sign) ∧
      Printf.printint xx base sign buf = some (printed Printf.digits base.toInt.toNat xx sign) := by
  obtain ⟨lo, hi, same⟩ := radix_toNat radix
  rw [← same]
  exact ⟨console_printint_eq lo hi xx sign buf, printf_printint_eq lo hi xx sign buf⟩

theorem digits_int_min : Nat.digits 10 2147483648 = [8, 4, 6, 3, 8, 4, 7, 4, 1, 2] := by
  norm_num

/-- `INT_MIN` printed as signed in base 10, through any table. -/
theorem printed_int_min (table : List Char) :
    printed table 10 Int32.minValue 1 =
      '-' :: [2, 1, 4, 7, 4, 8, 3, 6, 4, 8].map fun d => table.getD d '\x00' := by
  have neg : Int32.minValue < 0 := by decide
  have abs : Int32.minValue.toInt.natAbs = 2147483648 := by decide
  rw [printed, if_pos ⟨by decide, neg⟩, abs, shown, digitsOf, if_neg (by decide), digits_int_min]
  rfl

theorem printint_int_min :
    Console.printint Int32.minValue 10 1 (Vector.replicate 16 '\x00') = some "-2147483648".toList ∧
      Printf.printint Int32.minValue 10 1 (Vector.replicate 16 '\x00') =
        some "-2147483648".toList := by
  obtain ⟨console, user⟩ :=
    printint_digits Int32.minValue 10 1 (Or.inl rfl) (Vector.replicate 16 '\x00')
  have ten : (10 : Int32).toInt.toNat = 10 := by decide
  rw [ten, printed_int_min] at console user
  exact ⟨console, user⟩

end Printint

end Xv6.Print
