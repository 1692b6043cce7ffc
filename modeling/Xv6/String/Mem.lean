import Xv6.Lib.Place
import Xv6.Lib.Record
import Mathlib.Data.BitVec
import Mathlib.Tactic.IntervalCases

/-!
**`memset`, `memmove` and `memcpy` of `string.c`, and `memmove` of `ulib.c`.**

Memory is a map from addresses to bytes. Addresses are naturals: a region lies in the address
space, so `s + n` does not wrap.

* `copyForward`, `copyBackward` — the two loops of the kernel's `memmove`; `copyForward_eq`: the
  forward loop is a copy when the destination does not start inside the source after its start,
  `copyBackward_eq`: the backward loop is a copy when it starts at or after the source. The
  induction is on the count; the forward loop reads bytes it has not written, the backward loop
  writes the last byte first;
* `memmove_eq` — so the kernel's `memmove` is a copy through a temporary buffer, for every
  placement of the two regions (`memmove_copies`);
* `Ulib.memmove` — the user library's, the forward loop alone: a copy when the destination does
  not start inside the source after its start (`Ulib.memmove_eq_of_apart`), and not otherwise
  (`ulib_memmove_overlap`);
* `stosb`, `stosl` — `rep stosb` and `rep stosl`; `fillWord_byte` — every byte of `memset`'s word
  is the low byte of `c`, so both paths of `memset` write `n` copies of `(uchar)c`
  (`memset_fills`).
-/

namespace Xv6

open Lib

/-! ### `memmove` -/

section Memmove

/-- `while(n-- > 0) *d++ = *s++;` -/
def copyForward (m : Nat → UInt8) (d s : Nat) : Nat → Nat → UInt8
  | 0 => m
  | n + 1 => copyForward (Function.update m d (m s)) (d + 1) (s + 1) n

/-- `s += n; d += n; while(n-- > 0) *--d = *--s;`: the last byte first. -/
def copyBackward (m : Nat → UInt8) (d s : Nat) : Nat → Nat → UInt8
  | 0 => m
  | n + 1 => copyBackward (Function.update m (d + n) (m (s + n))) d s n

/-- `memmove(dst, src, n)` of `string.c`: backward when `dst` starts inside `[src, src + n)`
after `src`. -/
def memmove (m : Nat → UInt8) (dst src : Nat) (n : UInt32) : Nat → UInt8 :=
  if src < dst ∧ src + n.toNat > dst then copyBackward m dst src n.toNat
  else copyForward m dst src n.toNat

/-- `memcpy(dst, src, n)`: `memmove`. -/
def memcpy (m : Nat → UInt8) (dst src : Nat) (n : UInt32) : Nat → UInt8 := memmove m dst src n

/-- `memmove(vdst, vsrc, n)` of `ulib.c`: the forward loop alone, for an `int` count. -/
def Ulib.memmove (m : Nat → UInt8) (dst src : Nat) (n : Int32) : Nat → UInt8 :=
  copyForward m dst src n.toInt.toNat

variable {m : Nat → UInt8}

/-- **The forward loop copies** when the destination does not start inside the source after its
start: each byte is read before it is written. -/
theorem copyForward_eq : ∀ (n : Nat) (m : Nat → UInt8) (d s : Nat), d ≤ s ∨ s + n ≤ d →
    copyForward m d s n = place m d (window m s n)
  | 0, m, d, s, _ => by simp [copyForward, window]
  | n + 1, m, d, s, apart => by
    -- the store at `d` is outside what is still to be read
    have unread : window (Function.update m d (m s)) (s + 1) n = window m (s + 1) n :=
      window_congr fun j _ => Function.update_of_ne (by omega) _ _
    rw [copyForward, copyForward_eq n _ (d + 1) (s + 1) (by omega), unread, window_succ,
      place_cons]

/-- **The backward loop copies** when it starts at or after the source: each store is past every
byte still to be read. -/
theorem copyBackward_eq : ∀ (n : Nat) (m : Nat → UInt8) (d s : Nat), s ≤ d →
    copyBackward m d s n = place m d (window m s n)
  | 0, m, d, s, _ => by simp [copyBackward, window]
  | n + 1, m, d, s, after => by
    have unread : window (Function.update m (d + n) (m (s + n))) s n = window m s n :=
      window_congr fun j _ => Function.update_of_ne (by omega) _ _
    have last : place (Function.update m (d + n) (m (s + n))) d (window m s n) =
        place m d (window m s n ++ [m (s + n)]) := by
      have appended := place_append m d (window m s n) [m (s + n)]
      rw [length_window] at appended
      rw [place_update_comm _ (.inr (by simp)), ← place_singleton, appended]
    rw [copyBackward, copyBackward_eq n _ d s after, unread, last, window_concat]

/-- **`memmove` copies**, through a temporary buffer as it were, for every placement of the two
regions. -/
theorem memmove_eq (m : Nat → UInt8) (dst src : Nat) (n : UInt32) :
    memmove m dst src n = place m dst (window m src n.toNat) := by
  unfold memmove
  split
  next overlap => exact copyBackward_eq _ m dst src (Nat.le_of_lt overlap.1)
  next apart => exact copyForward_eq _ m dst src (by omega)

/-- The user library's `memmove` agrees with the kernel's when the destination does not start
inside the source after its start. -/
theorem Ulib.memmove_eq_of_apart (m : Nat → UInt8) (dst src : Nat) (n : Int32)
    (apart : dst ≤ src ∨ src + n.toInt.toNat ≤ dst) :
    Ulib.memmove m dst src n = place m dst (window m src n.toInt.toNat) :=
  copyForward_eq _ m dst src apart

/-- What a copy of `n` bytes from `src` to `dst` leaves: the bytes of the source as they were
before, at the destination, and every other byte as it was. -/
structure CopySpec (m m' : Nat → UInt8) (dst src n : Nat) : Prop where
  copied : ∀ i < n, m' (dst + i) = m (src + i)
  framed : ∀ a, a < dst ∨ dst + n ≤ a → m' a = m a

theorem copySpec_place (m : Nat → UInt8) (dst src n : Nat) :
    CopySpec m (place m dst (window m src n)) dst src n where
  copied i within := by
    rw [place_add (by simpa using within)]
    simp [window]
  framed a outside := by
    rcases outside with before | past
    · exact place_of_lt _ before
    · exact place_of_le (by simpa using past)

theorem memmove_copies (m : Nat → UInt8) (dst src : Nat) (n : UInt32) :
    CopySpec m (memmove m dst src n) dst src n.toNat ∧ memcpy m dst src n = memmove m dst src n :=
  ⟨memmove_eq m dst src n ▸ copySpec_place m dst src n.toNat, rfl⟩

/-- The bytes `0, 1, 2, …`: each address holds its own low byte. -/
def ramp : Nat → UInt8 := fun a => UInt8.ofNat a

/-- Moving two bytes one place up: the user library's `memmove` reads at address `1` the byte it
has just written there, and leaves `0` at address `2` where the kernel's leaves `1`. -/
theorem ulib_memmove_overlap :
    Ulib.memmove ramp 1 0 2 2 = 0 ∧ memmove ramp 1 0 2 2 = 1 ∧
      ¬CopySpec ramp (Ulib.memmove ramp 1 0 2) 1 0 2 :=
  ⟨by decide, by decide, fun spec => absurd (spec.copied 1 (by decide)) (by decide)⟩

end Memmove

/-! ### `memset` -/

section Memset

/-- The byte `rep stosb` stores: `AL`, the low byte of `data`. -/
def lowByte (data : Int32) : UInt8 := UInt8.ofNat data.toBitVec.toNat

/-- `stosb(addr, data, cnt)`: `cld; rep stosb`, the low byte of `data` at `addr`, `addr + 1`, …,
`cnt` times. -/
def stosb (m : Nat → UInt8) (addr : Nat) (data : Int32) : Nat → Nat → UInt8
  | 0 => m
  | cnt + 1 => stosb (Function.update m addr (lowByte data)) (addr + 1) data cnt

/-- `stosl(addr, data, cnt)`: `cld; rep stosl`, the 32 bits of `data`, least significant byte
first, at `addr`, `addr + 4`, …, `cnt` times. -/
def stosl (m : Nat → UInt8) (addr : Nat) (data : Int32) : Nat → Nat → UInt8
  | 0 => m
  | cnt + 1 => stosl (place m addr (leBytes 4 data.toBitVec.toNat)) (addr + 4) data cnt

/-- `c &= 0xFF;` then `(c<<24)|(c<<16)|(c<<8)|c`. -/
def fillWord (c : Int32) : Int32 :=
  let c := c &&& 0xFF
  (c <<< 24) ||| (c <<< 16) ||| (c <<< 8) ||| c

/-- `memset(dst, c, n)`: by words when `dst` and `n` are multiples of 4, else by bytes.
(`(int)dst%4 == 0` holds exactly when the address is a multiple of 4.) -/
def memset (m : Nat → UInt8) (dst : Nat) (c : Int32) (n : UInt32) : Nat → UInt8 :=
  if dst % 4 = 0 ∧ n % 4 = 0 then stosl m dst (fillWord c) (n / 4).toNat
  else stosb m dst c n.toNat

theorem stosb_eq : ∀ (cnt : Nat) (m : Nat → UInt8) (addr : Nat) (data : Int32),
    stosb m addr data cnt = place m addr (List.replicate cnt (lowByte data))
  | 0, m, addr, data => by simp [stosb]
  | cnt + 1, m, addr, data => by
    rw [stosb, stosb_eq cnt, List.replicate_succ, place_cons]

theorem stosl_eq : ∀ (cnt : Nat) (m : Nat → UInt8) (addr : Nat) (data : Int32),
    stosl m addr data cnt =
      place m addr (List.replicate cnt (leBytes 4 data.toBitVec.toNat)).flatten
  | 0, m, addr, data => by simp [stosl]
  | cnt + 1, m, addr, data => by
    rw [stosl, stosl_eq cnt, List.replicate_succ, List.flatten_cons, ← place_append,
      length_leBytes]

/-- Byte `k` of `memset`'s word, for `k < 4`: the low byte of `c`. Bit `j` of that byte is bit
`8 * k + j` of the word, which only the copy of `c & 0xFF` shifted by `8 * k` sets. -/
theorem fillWord_byte (c : Int32) {k : Nat} (within : k < 4) :
    ((fillWord c).toBitVec >>> (8 * k)).setWidth 8 = c.toBitVec.setWidth 8 := by
  simp only [fillWord, Int32.toBitVec_or, Int32.toBitVec_shiftLeft, Int32.toBitVec_and]
  ext j hj
  simp only [BitVec.getElem_setWidth, BitVec.getLsbD_ushiftRight, BitVec.getLsbD_or,
    BitVec.getLsbD_and]
  interval_cases k <;> interval_cases j <;> simp

/-- The bytes of `memset`'s word, least significant first: four copies of the low byte of `c`. -/
theorem leBytes_fillWord (c : Int32) :
    leBytes 4 (fillWord c).toBitVec.toNat = List.replicate 4 (lowByte c) := by
  have byte : ∀ k ∈ List.range 4,
      UInt8.ofNat ((fillWord c).toBitVec.toNat / 256 ^ k) = lowByte c := by
    intro k within
    have same := congrArg BitVec.toNat (fillWord_byte c (List.mem_range.mp within))
    have pow : (2 : Nat) ^ (8 * k) = 256 ^ k := by rw [pow_mul]; norm_num
    simp only [BitVec.toNat_setWidth, BitVec.toNat_ushiftRight, Nat.shiftRight_eq_div_pow,
      pow] at same
    rw [lowByte, ← UInt8.ofNat_mod_size, same, UInt8.ofNat_mod_size]
  rw [leBytes_eq_map, List.map_congr_left byte, List.map_const', List.length_range]

/-- `(uchar)c` is `c mod 256`. -/
theorem lowByte_toNat (c : Int32) : ((lowByte c).toNat : Int) = c.toInt % 256 := by
  have signed := BitVec.toInt_eq_toNat_cond c.toBitVec
  rw [lowByte, UInt8.toNat_ofNat', Int32.toInt]
  split at signed <;> omega

/-- **`memset` fills.** On `memset`'s word path (`dst` and `n` multiples of 4), `rep stosl` of
the word writes what `rep stosb` of `c` writes; either way `memset` sets exactly `dst[0..n)`, each
byte to `(uchar)c`, that is `c mod 256`. -/
theorem memset_fills (m : Nat → UInt8) (dst : Nat) (c : Int32) (n : UInt32) :
    (n % 4 = 0 → stosl m dst (fillWord c) (n / 4).toNat = stosb m dst c n.toNat) ∧
      ((lowByte c).toNat : Int) = c.toInt % 256 ∧
      memset m dst c n = place m dst (List.replicate n.toNat (lowByte c)) := by
  have words : n % 4 = 0 → stosl m dst (fillWord c) (n / 4).toNat = stosb m dst c n.toNat := by
    intro aligned
    have count : n.toNat = (n / 4).toNat * 4 := by
      have := congrArg UInt32.toNat aligned
      simp at this ⊢
      omega
    rw [stosl_eq, stosb_eq, leBytes_fillWord, List.flatten_replicate_replicate, count]
  refine ⟨words, lowByte_toNat c, ?_⟩
  unfold memset
  split
  next aligned => rw [words aligned.2, stosb_eq]
  next => rw [stosb_eq]

end Memset

end Xv6
