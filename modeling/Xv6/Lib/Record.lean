import Mathlib

/-!
**Little-endian numbers, and records of fixed-width fields.**

A C structure of integer fields, laid out by a little-endian machine (or put in that order, as
`xint` and `xshort` of `mkfs` do), is the concatenation of the bytes of its fields.

* `leBytes w n` — the `w` bytes of `n`, least significant first; `leValue` reads a number back,
  and `leValue_leBytes` — gives `n` modulo `256 ^ w`;
* `record fields` — the bytes of a list of `(width, value)` fields; `fieldsOf widths` reads the
  values back, and `fieldsOf_record` — each modulo its width.

Nothing here is specific to a particular program.
-/

namespace Xv6.Lib

section LittleEndian

/-- The `w` bytes of `n`, least significant first; the bits above `8 * w` are dropped. -/
def leBytes : Nat → Nat → List UInt8
  | 0, _ => []
  | w + 1, n => UInt8.ofNat (n % 256) :: leBytes w (n / 256)

/-- The number whose bytes, least significant first, are `l`. -/
def leValue : List UInt8 → Nat
  | [] => 0
  | b :: l => b.toNat + 256 * leValue l

@[simp] theorem length_leBytes (w n : Nat) : (leBytes w n).length = w := by
  induction w generalizing n with
  | zero => rfl
  | succ w ih => simp [leBytes, ih]

/-- Byte `k` of `n`: `n / 256 ^ k`, as a byte. -/
theorem leBytes_eq_map (w n : Nat) :
    leBytes w n = (List.range w).map fun k => UInt8.ofNat (n / 256 ^ k) := by
  induction w generalizing n with
  | zero => rfl
  | succ w ih =>
    have low : UInt8.ofNat (n % 256) = UInt8.ofNat n := UInt8.ofNat_mod_size
    rw [leBytes, ih, List.range_succ_eq_map, List.map_cons, List.map_map, low]
    simp [Function.comp_def, Nat.div_div_eq_div_mul, pow_succ']

theorem leValue_leBytes (w n : Nat) : leValue (leBytes w n) = n % 256 ^ w := by
  induction w generalizing n with
  | zero => simp [leBytes, leValue, Nat.mod_one]
  | succ w ih =>
    have low : (UInt8.ofNat (n % 256)).toNat = n % 256 := by simp
    rw [leBytes, leValue, ih, low, pow_succ', Nat.mod_mul]

theorem leValue_lt (l : List UInt8) : leValue l < 256 ^ l.length := by
  induction l with
  | nil => simp [leValue]
  | cons b l ih =>
    have byte : b.toNat < 256 := b.toNat_lt
    rw [leValue, List.length_cons, pow_succ']
    omega

end LittleEndian

section Record

/-- The bytes of the fields `(width, value)`, one after the other. -/
def record : List (Nat × Nat) → List UInt8
  | [] => []
  | (w, v) :: rest => leBytes w v ++ record rest

/-- The values of fields of the given widths, read from the front of `bytes`. -/
def fieldsOf : List Nat → List UInt8 → List Nat
  | [], _ => []
  | w :: ws, bytes => leValue (bytes.take w) :: fieldsOf ws (bytes.drop w)

@[simp] theorem length_record (fields : List (Nat × Nat)) :
    (record fields).length = (fields.map Prod.fst).sum := by
  induction fields with
  | nil => rfl
  | cons field rest ih =>
    obtain ⟨w, v⟩ := field
    simp [record, ih]

/-- **A record reads back**: each field modulo its width. -/
theorem fieldsOf_record (fields : List (Nat × Nat)) :
    fieldsOf (fields.map Prod.fst) (record fields) = fields.map fun f => f.2 % 256 ^ f.1 := by
  induction fields with
  | nil => rfl
  | cons field rest ih =>
    obtain ⟨w, v⟩ := field
    have front : (leBytes w v ++ record rest).take w = leBytes w v := by simp
    have back : (leBytes w v ++ record rest).drop w = record rest := by simp
    simp only [List.map_cons, record, fieldsOf, front, back, ih, leValue_leBytes]

end Record

end Xv6.Lib
