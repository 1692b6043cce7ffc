import Xv6.Param
import Xv6.Lib.Place
import Xv6.Lib.Record

/-!
**Fetching the arguments of a system call** (`syscall.c`, and the argument loop of `sys_exec`).

The arguments of a system call are words on the user stack above the `esp` saved in the trap
frame. A pointer argument is checked against the size `sz` of the process before the kernel
uses it, in `uint` arithmetic, where `addr + 4` and `(uint)i + size` could wrap. With
`sz ≤ KERNBASE` they do not let a range past `sz` through:

* `fetchint_isSome_iff` — `fetchint` succeeds exactly when the word lies below `sz`;
* `fetchstr_eq_some_iff` — `fetchstr` returns the distance to the first NUL in `[addr, sz)`;
* `argptr_within` — a pointer `argptr` accepts has a nonnegative size and its block below `sz`;
* `execArgv_reads` — the loop of `sys_exec` fetches at most `MAXARG` pointers;
* `fetch_within` — the four together.
-/

namespace Xv6.Syscall

open Lib

/-- What the fetches read of the current process: its size, the user stack pointer saved in its
trap frame, and its memory at the addresses the kernel reads. -/
structure Caller where
  sz : UInt32
  esp : UInt32
  mem : Nat → UInt8

/-- `fetchint(addr, ip)`: the `int` at `addr`. -/
def fetchint (p : Caller) (addr : UInt32) : Option Int32 :=
  if addr ≥ p.sz ∨ addr + 4 > p.sz then none
  else some (Int32.ofNat (leValue (window p.mem addr.toNat 4)))

/-- `fetchstr(addr, pp)`: the length of the string at `addr`, from the loop of `s` over
`[addr, sz)` that stops at the first NUL. -/
def fetchstr (p : Caller) (addr : UInt32) : Option Nat :=
  if addr ≥ p.sz then none
  else ((List.range' addr.toNat (p.sz.toNat - addr.toNat)).find? fun s => p.mem s = 0).map
    (· - addr.toNat)

/-- `argint(n, ip)`. -/
def argint (p : Caller) (n : Nat) : Option Int32 := fetchint p (p.esp + 4 + 4 * UInt32.ofNat n)

/-- `argptr(n, pp, size)`: the pointer. -/
def argptr (p : Caller) (n : Nat) (size : Int32) : Option UInt32 := do
  let i ← argint p n
  if size < 0 ∨ i.toUInt32 ≥ p.sz ∨ i.toUInt32 + size.toUInt32 > p.sz then none
  else some i.toUInt32

/-- `argstr(n, pp)`: the pointer and the length of the string. -/
def argstr (p : Caller) (n : Nat) : Option (UInt32 × Nat) := do
  let addr ← argint p n
  let len ← fetchstr p addr.toUInt32
  pure (addr.toUInt32, len)

/-- The loop of `sys_exec` over `uargv` from argument `i`: the addresses it fetches a pointer
from, and the pointers and lengths of the strings up to the null pointer, or `none` for
`return -1`. -/
def execArgv (p : Caller) (uargv : UInt32) (i : Nat) : List UInt32 × Option (List (UInt32 × Nat)) :=
  if maxArg ≤ i then ([], none)
  else
    let slot := uargv + 4 * UInt32.ofNat i
    match fetchint p slot with
    | none => ([slot], none)
    | some uarg =>
      if uarg.toUInt32 = 0 then ([slot], some [])
      else
        match fetchstr p uarg.toUInt32 with
        | none => ([slot], none)
        | some len =>
          let rest := execArgv p uargv (i + 1)
          (slot :: rest.1, rest.2.map ((uarg.toUInt32, len) :: ·))
termination_by maxArg - i

/-- The string at `addr` has length `len`: its NUL is at `addr + len`, below `sz`, and no byte
before it is NUL. -/
def NulWithin (p : Caller) (addr : UInt32) (len : Nat) : Prop :=
  addr.toNat + len < p.sz.toNat ∧ p.mem (addr.toNat + len) = 0 ∧ ∀ j < len, p.mem (addr.toNat + j) ≠ 0

section Fetch

variable {p : Caller}

/-- **`fetchint`** reads a word exactly when all of it lies below `sz`: with `sz ≤ KERNBASE`
the sum `addr + 4` does not wrap past the first test. -/
theorem fetchint_isSome_iff (below : p.sz.toNat ≤ kernBase) (addr : UInt32) :
    (fetchint p addr).isSome ↔ addr.toNat + 4 ≤ p.sz.toNat := by
  have sum : (addr + 4).toNat = (addr.toNat + 4) % 2 ^ 32 := UInt32.toNat_add addr 4
  unfold kernBase at below
  unfold fetchint
  split
  · next out =>
    simp only [Option.isSome_none, Bool.false_eq_true, false_iff]
    simp only [UInt32.le_iff_toNat_le, UInt32.lt_iff_toNat_lt, sum] at out
    omega
  · next within =>
    simp only [Option.isSome_some, true_iff]
    simp only [UInt32.le_iff_toNat_le, UInt32.lt_iff_toNat_lt, sum, not_or, not_le, not_lt] at within
    omega

/-- **`fetchstr`** returns the distance from `addr` to the first NUL before `sz`. -/
theorem fetchstr_eq_some_iff (addr : UInt32) (len : Nat) :
    fetchstr p addr = some len ↔ NulWithin p addr len := by
  unfold fetchstr NulWithin
  split
  · next out =>
    simp only [reduceCtorEq, false_iff]
    rw [ge_iff_le, UInt32.le_iff_toNat_le] at out
    omega
  · next within =>
    rw [Option.map_eq_some_iff]
    constructor
    · rintro ⟨s, found, rfl⟩
      rw [List.find?_range'_eq_some, List.mem_range'_1] at found
      obtain ⟨nul, ⟨first, last⟩, before⟩ := found
      refine ⟨by omega, by rw [Nat.add_sub_cancel' first]; simpa using nul, fun j early => ?_⟩
      have earlier := before (addr.toNat + j) (Nat.le_add_right _ _) (by omega)
      simpa using earlier
    · rintro ⟨last, nul, before⟩
      refine ⟨addr.toNat + len, ?_, by omega⟩
      rw [List.find?_range'_eq_some, List.mem_range'_1]
      refine ⟨by simpa using nul, ⟨Nat.le_add_right _ _, by omega⟩, fun j first early => ?_⟩
      have other := before (j - addr.toNat) (by omega)
      rw [Nat.add_sub_cancel' first] at other
      simpa using other

/-- **`argptr`** accepts a pointer only with a nonnegative size and the whole block, as
mathematical integers, below `sz`. -/
theorem argptr_within (below : p.sz.toNat ≤ kernBase) {n : Nat} {size : Int32} {ptr : UInt32}
    (accepted : argptr p n size = some ptr) :
    0 ≤ size.toInt ∧ ptr.toNat < p.sz.toNat ∧ (ptr.toNat : Int) + size.toInt ≤ p.sz.toNat := by
  unfold argptr at accepted
  cases fetched : argint p n with
  | none => simp [fetched] at accepted
  | some i =>
    rw [fetched] at accepted
    dsimp only [bind, Option.bind] at accepted
    split at accepted
    · cases accepted
    · next checks =>
      cases accepted
      simp only [not_or] at checks
      obtain ⟨nonneg, inside, last⟩ := checks
      have nonneg' : 0 ≤ size := Int32.not_lt.mp nonneg
      -- `(uint)size` is the size itself, below `2 ^ 31`, so `(uint)i + size` does not wrap
      have sizeNat : size.toUInt32.toNat = size.toNatClampNeg := Int32.toNat_toUInt32_of_le nonneg'
      have sizeInt : (size.toNatClampNeg : Int) = size.toInt :=
        Int.toNat_of_nonneg (by simpa using Int32.le_iff_toInt_le.mp nonneg')
      have small := Int32.toNatClampNeg_lt size
      have sum := UInt32.toNat_add i.toUInt32 size.toUInt32
      rw [ge_iff_le, UInt32.le_iff_toNat_le] at inside
      rw [gt_iff_lt, UInt32.lt_iff_toNat_lt, sum, sizeNat] at last
      unfold kernBase at below
      refine ⟨by omega, by omega, ?_⟩
      rw [← sizeInt]
      omega

theorem argstr_eq_some {n : Nat} {ptr : UInt32} {len : Nat} (found : argstr p n = some (ptr, len)) :
    ∃ addr, argint p n = some addr ∧ ptr = addr.toUInt32 ∧ fetchstr p ptr = some len := by
  unfold argstr at found
  cases fetched : argint p n with
  | none => simp [fetched] at found
  | some addr =>
    cases scanned : fetchstr p addr.toUInt32 with
    | none => simp [fetched, scanned] at found
    | some len' =>
      simp only [fetched, scanned, Option.bind_eq_bind, Option.bind_some, Option.pure_def,
        Option.some.injEq, Prod.mk.injEq] at found
      obtain ⟨rfl, rfl⟩ := found
      exact ⟨addr, rfl, rfl, scanned⟩

/-- **The loop of `sys_exec`** fetches the pointers of arguments `i` to `MAXARG - 1` only, each
from its word of `uargv`. -/
theorem execArgv_reads (uargv : UInt32) (i : Nat) :
    (execArgv p uargv i).1.length ≤ maxArg - i ∧
      ∀ slot ∈ (execArgv p uargv i).1, ∃ j, i ≤ j ∧ j < maxArg ∧ slot = uargv + 4 * UInt32.ofNat j := by
  fun_induction execArgv p uargv i with
  | case1 i past => simp
  | case2 i room slot fetched => simpa using ⟨by omega, i, Nat.le_refl _, by omega, rfl⟩
  | case3 i room slot uarg fetched null => simpa using ⟨by omega, i, Nat.le_refl _, by omega, rfl⟩
  | case4 i room slot uarg fetched live scanned =>
    simpa using ⟨by omega, i, Nat.le_refl _, by omega, rfl⟩
  | case5 i room slot uarg fetched live len scanned rest ih =>
    simp only [rest] at ih ⊢
    obtain ⟨count, later⟩ := ih
    refine ⟨by simp only [List.length_cons]; omega, fun a mem => ?_⟩
    rcases List.mem_cons.mp mem with rfl | mem
    · exact ⟨i, Nat.le_refl _, by omega, rfl⟩
    · obtain ⟨j, after, within, rfl⟩ := later a mem
      exact ⟨j, by omega, within, rfl⟩

end Fetch

/-- What the fetches of a system call guarantee in the process `p`. -/
structure FetchesWithin (p : Caller) : Prop where
  /-- `fetchint` reads a word only below `sz` -/
  fetchint : ∀ addr v, fetchint p addr = some v → addr.toNat + 4 ≤ p.sz.toNat
  /-- `argptr` accepts a block only with a nonnegative size, below `sz` -/
  argptr : ∀ n size ptr, argptr p n size = some ptr →
    0 ≤ size.toInt ∧ ptr.toNat < p.sz.toNat ∧ (ptr.toNat : Int) + size.toInt ≤ p.sz.toNat
  /-- `fetchstr` returns the distance to a NUL below `sz` -/
  fetchstr : ∀ addr len, fetchstr p addr = some len → NulWithin p addr len
  /-- and so does `argstr`, for the pointer it returns -/
  argstr : ∀ n ptr len, argstr p n = some (ptr, len) → NulWithin p ptr len
  /-- `sys_exec` fetches at most `MAXARG` pointers -/
  execArgv : ∀ uargv, (execArgv p uargv 0).1.length ≤ maxArg

/-- **The fetches stay inside user memory** for every process below `KERNBASE`, whatever its
stack pointer, its memory and the sizes it passes. -/
theorem fetch_within (p : Caller) (below : p.sz.toNat < kernBase) : FetchesWithin p where
  fetchint addr v fetched := (fetchint_isSome_iff below.le addr).mp (by rw [fetched]; rfl)
  argptr _ _ _ accepted := argptr_within below.le accepted
  fetchstr addr len scanned := (fetchstr_eq_some_iff addr len).mp scanned
  argstr n ptr len found := by
    obtain ⟨_, _, _, scanned⟩ := argstr_eq_some found
    exact (fetchstr_eq_some_iff ptr len).mp scanned
  execArgv uargv := (execArgv_reads uargv 0).1

/-- A process of one page. -/
def onePage : Caller := ⟨4096, 4000, fun _ => 0⟩

theorem fetch_within_onePage : onePage.sz.toNat < kernBase ∧ FetchesWithin onePage :=
  ⟨by decide, fetch_within onePage (by decide)⟩

end Xv6.Syscall
