import Mathlib.Data.Vector.Basic

/-!
**`printint` of `console.c` and of `printf.c`.**

Both write the digits of `x` into `char buf[16]`, least significant first, by
`do{ buf[i++] = digits[x % base]; }while((x /= base) != 0);` (`digitLoop`), add a `'-'` after them
for a negative signed value, and write the buffer out backwards, `while(--i >= 0)` (`emitLoop`).
They differ in the case of their digit tables, and in how they keep the sign: the kernel's
`printint` reuses `sign` (`if(sign && (sign = xx < 0))`), the user's sets a flag `neg`.

`buf` is a `Vector Char 16` whose contents are what the stack held; a store or a load at an index
not below 16 is out of bounds, and so is a read of the 17-byte digit table past its end: the model
returns `none` there. `-xx` is the machine's two's-complement negation, `Int32` negation: for
`INT_MIN` it is `INT_MIN` again. The characters written are returned in order; the descriptor of
the user's `putc(fd, c)` is left out.
-/

namespace Xv6

namespace Print

/-- `char buf[16]`, as the stack left it. -/
abbrev Buf := Vector Char 16

/-- `buf[i] = c`; `none` when `i` is out of bounds. -/
def store (buf : Buf) (i : Nat) (c : Char) : Option Buf :=
  if hi : i < 16 then some (buf.set i c hi) else none

/-- The loop `do{ buf[i++] = digits[x % base]; }while((x /= base) != 0);` from the index `i`: the
index after it and the buffer, or `none` for an index out of bounds. -/
def digitLoop (digits : List Char) (base x : UInt32) (i : Nat) (buf : Buf) : Option (Nat × Buf) :=
  if hi : i < 16 then
    match digits[(x % base).toNat]? with
    | some c =>
      if x / base ≠ 0 then digitLoop digits base (x / base) (i + 1) (buf.set i c hi)
      else some (i + 1, buf.set i c hi)
    | none => none
  else none
termination_by 16 - i

/-- `while(--i >= 0)` writing `buf[i]`: the characters written, or `none` for an index out of
bounds. -/
def emitLoop (buf : Buf) : Nat → Option (List Char)
  | 0 => some []
  | i + 1 => if hi : i < 16 then (emitLoop buf i).map (buf[i] :: ·) else none

end Print

open Print

namespace Console

/-- `static char digits[] = "0123456789abcdef";`, with its NUL. -/
def digits : List Char := "0123456789abcdef".toList ++ ['\x00']

/-- `printint(xx, base, sign)` of `console.c`: the characters it hands to `consputc`. -/
def printint (xx base sign : Int32) (buf : Buf) : Option (List Char) := do
  -- `if(sign && (sign = xx < 0)) x = -xx; else x = xx;`
  let (sign, x) : Int32 × UInt32 :=
    if sign ≠ 0 then
      let sign : Int32 := if xx < 0 then 1 else 0
      if sign ≠ 0 then (sign, (-xx).toUInt32) else (sign, xx.toUInt32)
    else (sign, xx.toUInt32)
  let (i, buf) ← digitLoop digits base.toUInt32 x 0 buf
  let (i, buf) ← if sign ≠ 0 then (store buf i '-').map ((i + 1, ·)) else some (i, buf)
  emitLoop buf i

end Console

namespace Printf

/-- `static char digits[] = "0123456789ABCDEF";`, with its NUL. -/
def digits : List Char := "0123456789ABCDEF".toList ++ ['\x00']

/-- `printint(fd, xx, base, sgn)` of `printf.c`: the characters it hands to `putc(fd, ·)`. -/
def printint (xx base sgn : Int32) (buf : Buf) : Option (List Char) := do
  let (neg, x) : Int32 × UInt32 :=
    if sgn ≠ 0 ∧ xx < 0 then (1, (-xx).toUInt32) else (0, xx.toUInt32)
  let (i, buf) ← digitLoop digits base.toUInt32 x 0 buf
  let (i, buf) ← if neg ≠ 0 then (store buf i '-').map ((i + 1, ·)) else some (i, buf)
  emitLoop buf i

end Printf

end Xv6
