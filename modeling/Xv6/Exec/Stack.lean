import Mathlib
import Xv6.Vm.Layout
import Xv6.Lib.Place
import Xv6.Lib.Record

/-!
**The user stack `exec` builds** (`exec.c`), **through `copyout` and `uva2ka`** (`vm.c`).

After loading the program, `exec` allocates two pages at the next page boundary `sz`, clears
`PTE_U` of the first, a guard page, and builds the stack of `main(argc, argv)` in the second from
`sp = sz` down: each argument string with its NUL at an address rounded down to a word, then
`ustack`: a fake return address, `argc`, the `argv` pointer, the addresses of the strings and a
null pointer. Both go through `copyout`, which copies a page at a time into the frame `uva2ka`
finds for the page.

The new page directory is seen through what `walkpgdir(pgdir, va, 0)` gives for each page: its
entry, or no page table. `uva2ka` dereferences the pointer `walkpgdir` returns without testing it
for 0; the kernel then reads address 0 of the address space it runs in, that of the process
calling `exec` (`Space.atZero`). Kernel memory is kept by byte.

* `setupStack_layout` — at most `MAXARG` arguments that fit in the stack page give the stack
  `main` expects (`Layout`), and nothing outside the stack page is written;
* `setupStack_fails` — more arguments, or more than fit, make `exec` fail, when the pushes do
  not wrap below address 0;
* `setupStack_wraps` — an argument 32 MB longer than `sz` wraps the stack pointer into the range
  the kernel leaves unmapped, where `uva2ka` takes the word at address 0 for an entry: `exec`
  fails, but has first overwritten the kernel page that word names with a page of the argument.
-/

namespace Xv6.Exec

open Vm Lib

/-- `DEVSPACE`: the first address of the devices mapped at the top of every address space. -/
def devSpace : Nat := 0xFE000000

/-- What `walkpgdir(pgdir, va, 0)` gives for each page `va` of the new page directory: the entry,
or `none` where the directory has no page table for it; and the word at address 0 of the address
space the kernel runs in. -/
structure Space where
  pte : Nat → Option UInt32
  atZero : UInt32

/-- `uva2ka(pgdir, uva)`: the kernel address of the frame of a present user page, or 0. -/
def uva2ka (s : Space) (uva : Nat) : Nat :=
  -- `*pte` with `pte` 0 reads address 0
  let e := ((s.pte uva).getD s.atZero).toNat
  if e &&& pteP = 0 then 0
  else if e &&& pteU = 0 then 0
  else p2v (pteAddr e)

theorem sub_pgRoundDown_lt (va : Nat) : va - pgRoundDown va < pgSize := by
  unfold pgRoundDown pgSize
  omega

/-- `copyout(pgdir, va, p, len)`, with `buf` the `len` bytes at `p`: 0 and kernel memory after the
copy, or -1 and memory as far as the copy got. -/
def copyout (s : Space) (mem : Nat → UInt8) (va : Nat) : List UInt8 → Int × (Nat → UInt8)
  | [] => (0, mem)
  | b :: bs =>
    let va0 := pgRoundDown va
    let pa0 := uva2ka s va0
    if pa0 = 0 then (-1, mem)
    else
      -- `n = PGSIZE - (va - va0)`, at most `len`
      let n := min (pgSize - (va - va0)) (bs.length + 1)
      copyout s (place mem (pa0 + (va - va0)) ((b :: bs).take n)) (u32 (va0 + pgSize))
        ((b :: bs).drop n)
termination_by buf => buf.length
decreasing_by
  have := sub_pgRoundDown_lt va
  simp only [List.length_drop, List.length_cons]
  omega

/-- The loop `for(argc = 0; argv[argc]; argc++)` of `exec` from `argc`, with `sp`: the stack
pointer after the strings and the addresses stored in `ustack[3+argc]` on, or `none` for
`goto bad`; with kernel memory either way. -/
def pushArgs (s : Space) :
    List (List UInt8) → Nat → Nat → (Nat → UInt8) → Option (Nat × List Nat) × (Nat → UInt8)
  | [], _, sp, mem => (some (sp, []), mem)
  | arg :: argv, argc, sp, mem =>
    if maxArg ≤ argc then (none, mem)
    else
      -- `sp = (sp - (strlen(argv[argc]) + 1)) & ~3`
      let sp := u32 (sp + 2 ^ 32 - u32 (arg.length + 1)) / 4 * 4
      match copyout s mem sp (arg ++ [0]) with
      | (r, mem) =>
        if r < 0 then (none, mem)
        else
          match pushArgs s argv (argc + 1) sp mem with
          | (pushed, mem) => (pushed.map fun (top, ptrs) => (top, sp :: ptrs), mem)

/-- The words of `ustack` for the strings pushed down to `sp` at the addresses `ptrs`: the fake
return PC, `argc`, the `argv` pointer, `argv[0..argc-1]` and the null pointer. -/
def ustack (sp : Nat) (ptrs : List Nat) : List Nat :=
  [0xffffffff, ptrs.length, u32 (sp + 2 ^ 32 - (ptrs.length + 1) * 4)] ++ ptrs ++ [0]

/-- The stack of `exec(path, argv)` from `sp = sz`: the loop pushing the strings, then `ustack`;
the `esp` of the new process, or `none` for `goto bad`, with kernel memory either way. -/
def setupStack (s : Space) (mem : Nat → UInt8) (sz : Nat) (argv : List (List UInt8)) :
    Option Nat × (Nat → UInt8) :=
  match pushArgs s argv 0 sz mem with
  | (none, mem) => (none, mem)
  | (some (sp, ptrs), mem) =>
    -- `sp -= (3+argc+1) * 4`
    let sp' := u32 (sp + 2 ^ 32 - (3 + ptrs.length + 1) * 4)
    match copyout s mem sp' (record ((ustack sp ptrs).map fun w => (4, w))) with
    | (r, mem) => if r < 0 then (none, mem) else (some sp', mem)

/-! ### `copyout` -/

section Copyout

variable {s : Space}

theorem pgRoundDown_of_mod {va : Nat} (aligned : va % pgSize = 0) : pgRoundDown va = va := by
  unfold pgRoundDown pgSize at *
  omega

theorem pgRoundDown_le (va : Nat) : pgRoundDown va ≤ va := Nat.div_mul_le_self _ _

theorem le_pgRoundDown {p va : Nat} (aligned : p % pgSize = 0) (le : p ≤ va) :
    p ≤ pgRoundDown va := by
  unfold pgRoundDown pgSize at *
  omega

/-- Two aligned pages, the second not below the address in the first, are a page apart. -/
theorem pgRoundDown_add_le {g va : Nat} (aligned : g % pgSize = 0) (below : va < g + pgSize)
    (apart : pgRoundDown va ≠ g) : pgRoundDown va + pgSize ≤ g := by
  unfold pgRoundDown pgSize at *
  omega

theorem copyout_nil (mem : Nat → UInt8) (va : Nat) : copyout s mem va [] = (0, mem) := by
  rw [copyout]

/-- A copy whose first page is not a present user page fails at once. -/
theorem copyout_of_zero {mem : Nat → UInt8} {va : Nat} {buf : List UInt8} (nonempty : buf ≠ [])
    (absent : uva2ka s (pgRoundDown va) = 0) : copyout s mem va buf = (-1, mem) := by
  cases buf with
  | nil => exact absurd rfl nonempty
  | cons b bs => rw [copyout, if_pos absent]

/-- A copy that ends on its first page, a present user page, is one write into its frame. -/
theorem copyout_within {mem : Nat → UInt8} {va pa0 : Nat} {buf : List UInt8}
    (present : uva2ka s (pgRoundDown va) = pa0) (nonzero : pa0 ≠ 0)
    (fits : va - pgRoundDown va + buf.length ≤ pgSize) :
    copyout s mem va buf = (0, place mem (pa0 + (va - pgRoundDown va)) buf) := by
  cases buf with
  | nil => rw [copyout_nil, place_nil]
  | cons b bs =>
    have whole : min (pgSize - (va - pgRoundDown va)) (bs.length + 1) = (b :: bs).length := by
      simp only [List.length_cons] at fits ⊢
      omega
    rw [copyout, if_neg (by rw [present]; exact nonzero)]
    simp only [present, whole, List.take_length, List.drop_length, copyout_nil]

/-- A copy that goes past its first page, a present user page, fills the rest of that page and
goes on from the next one. -/
theorem copyout_cross {mem : Nat → UInt8} {va pa0 : Nat} {buf : List UInt8}
    (present : uva2ka s (pgRoundDown va) = pa0) (nonzero : pa0 ≠ 0)
    (past : pgSize < va - pgRoundDown va + buf.length) :
    copyout s mem va buf =
      copyout s (place mem (pa0 + (va - pgRoundDown va)) (buf.take (pgSize - (va - pgRoundDown va))))
        (u32 (pgRoundDown va + pgSize)) (buf.drop (pgSize - (va - pgRoundDown va))) := by
  cases buf with
  | nil => simp only [List.length_nil] at past; have := sub_pgRoundDown_lt va; omega
  | cons b bs =>
    have part : min (pgSize - (va - pgRoundDown va)) (bs.length + 1) =
        pgSize - (va - pgRoundDown va) := by
      simp only [List.length_cons] at past
      omega
    rw [copyout, if_neg (by rw [present]; exact nonzero)]
    simp only [present, part]

/-- A copy that lies on one present user page is one write into its frame. -/
theorem copyout_page {mem : Nat → UInt8} {va base F : Nat} {buf : List UInt8}
    (page : uva2ka s base = F) (present : F ≠ 0) (aligned : base % pgSize = 0) (above : base ≤ va)
    (fits : va + buf.length ≤ base + pgSize) :
    copyout s mem va buf = (0, place mem (F + (va - base)) buf) := by
  cases buf with
  | nil => rw [copyout_nil, place_nil]
  | cons b bs =>
    simp only [List.length_cons] at fits
    have onPage : pgRoundDown va = base := by
      unfold pgRoundDown pgSize at *
      omega
    rw [copyout_within (by rw [onPage]; exact page) present
      (by rw [onPage, List.length_cons]; omega), onPage]

/-- **A copy that reaches a page no user access reaches fails**, whatever the pages below it map
to, when it does not wrap: it goes up a page at a time and stops at that page at the latest. -/
theorem copyout_fails {g : Nat} (aligned : g % pgSize = 0) (guard : uva2ka s g = 0)
    (word : g < 2 ^ 32) (n : Nat) :
    ∀ (mem : Nat → UInt8) (va : Nat) (buf : List UInt8), buf.length = n → buf ≠ [] →
      va < g + pgSize → g < va + buf.length → (copyout s mem va buf).1 = -1 := by
  induction n using Nat.strong_induction_on with
  | _ n ih =>
    intro mem va buf length nonempty below reaches
    by_cases absent : uva2ka s (pgRoundDown va) = 0
    · rw [copyout_of_zero nonempty absent]
    -- a present page below `g`: the copy fills it and goes on from the next page
    have lower : pgRoundDown va + pgSize ≤ g :=
      pgRoundDown_add_le aligned below fun same => absent (same ▸ guard)
    have within := sub_pgRoundDown_lt va
    have next : u32 (pgRoundDown va + pgSize) = pgRoundDown va + pgSize := u32_of_lt (by omega)
    rw [copyout_cross rfl absent (by unfold pgRoundDown at *; omega), next]
    refine ih _ ?_ _ _ _ rfl ?_ ?_ ?_
    · simp only [List.length_drop]
      omega
    · rw [Ne, List.drop_eq_nil_iff]
      unfold pgRoundDown at *
      omega
    · omega
    · simp only [List.length_drop]
      unfold pgRoundDown at *
      omega

/-- A copy through pages that all map to the frame `F`, up to a page `e` no user access reaches,
fails there; the frame is left holding the last page's worth of the buffer. -/
theorem copyout_hole {p e F : Nat} (start : p % pgSize = 0) (aligned : e % pgSize = 0)
    (word : e < 2 ^ 32) (stop : uva2ka s e = 0) (nonzero : F ≠ 0)
    (hole : ∀ va0, p ≤ va0 → va0 < e → uva2ka s va0 = F) (n : Nat) :
    ∀ (mem : Nat → UInt8) (va : Nat) (buf : List UInt8), buf.length = n → p ≤ va →
      va + pgSize ≤ e → e < va + buf.length →
      ∃ mem' k, copyout s mem va buf = (-1, mem') ∧ k + pgSize < buf.length ∧
        window mem' F pgSize = (buf.drop k).take pgSize := by
  induction n using Nat.strong_induction_on with
  | _ n ih =>
    intro mem va buf length inside below reaches
    have within := sub_pgRoundDown_lt va
    have down := pgRoundDown_le va
    have page : uva2ka s (pgRoundDown va) = F := hole _ (le_pgRoundDown start inside) (by omega)
    have next : u32 (pgRoundDown va + pgSize) = pgRoundDown va + pgSize := u32_of_lt (by omega)
    rw [copyout_cross page nonzero (by omega), next]
    by_cases last : pgRoundDown va + pgSize + pgSize ≤ e
    · -- more of the hole above: the frame ends with what the pages above leave in it
      obtain ⟨mem', k, copied, fits, frame⟩ :=
        ih (buf.drop (pgSize - (va - pgRoundDown va))).length
          (by simp only [List.length_drop]; omega) _ _ _ rfl
          (le_trans (le_pgRoundDown start inside) (Nat.le_add_right _ _)) last
          (by simp only [List.length_drop]; omega)
      refine ⟨mem', pgSize - (va - pgRoundDown va) + k, copied, ?_, ?_⟩
      · simp only [List.length_drop] at fits
        omega
      · rw [frame, List.drop_drop, Nat.add_comm]
    · -- the last page of the hole: `va` is its start, and the whole page is written
      have top : pgRoundDown va + pgSize = e := by
        have := pgRoundDown_mod va
        unfold pgSize at *
        omega
      have first : va - pgRoundDown va = 0 := by omega
      rw [top, first, copyout_of_zero (by rw [Ne, List.drop_eq_nil_iff]; omega)
        (by rw [pgRoundDown_of_mod aligned]; exact stop)]
      refine ⟨_, 0, rfl, by omega, ?_⟩
      have full : (buf.take pgSize).length = pgSize := by
        rw [List.length_take]
        omega
      have written := window_place_self mem F (buf.take pgSize)
      rw [full] at written
      rw [Nat.sub_zero, Nat.add_zero, List.drop_zero, written]

end Copyout

/-! ### The argument strings -/

/-- The bytes a string takes on the stack: its characters and NUL, rounded up to a word. -/
def slot (arg : List UInt8) : Nat := (arg.length + 4) / 4 * 4

/-- The addresses of the strings pushed from `top` down. -/
def tops : Nat → List (List UInt8) → List Nat
  | _, [] => []
  | top, arg :: argv => (top - slot arg) :: tops (top - slot arg) argv

/-- The bytes the stack of `argv` takes: the strings, and the words of `ustack`. -/
def stackSize (argv : List (List UInt8)) : Nat := (argv.map slot).sum + 4 * (argv.length + 4)

@[simp] theorem length_tops (top : Nat) (argv : List (List UInt8)) :
    (tops top argv).length = argv.length := by
  induction argv generalizing top with
  | nil => rfl
  | cons arg argv ih => simp [tops, ih]

theorem le_of_mem_tops {top p : Nat} {argv : List (List UInt8)} (mem : p ∈ tops top argv) :
    p ≤ top := by
  induction argv generalizing top with
  | nil => cases mem
  | cons arg argv ih =>
    rcases List.mem_cons.mp mem with rfl | rest
    · exact Nat.sub_le _ _
    · exact le_trans (ih rest) (Nat.sub_le _ _)

theorem length_lt_slot (arg : List UInt8) : arg.length < slot arg := by
  unfold slot
  omega

/-- `(sp - (strlen + 1)) & ~3` from a word-aligned `sp` that does not wrap. -/
theorem push_sp {top : Nat} (arg : List UInt8) (word : top % 4 = 0) (fits : slot arg ≤ top)
    (small : top < 2 ^ 32) : u32 (top + 2 ^ 32 - u32 (arg.length + 1)) / 4 * 4 = top - slot arg := by
  have len : u32 (arg.length + 1) = arg.length + 1 := u32_of_lt (by unfold slot at fits; omega)
  have wraps : top + 2 ^ 32 - (arg.length + 1) = top - (arg.length + 1) + 2 ^ 32 := by
    unfold slot at fits
    omega
  rw [len, u32, wraps, Nat.add_mod_right, Nat.mod_eq_of_lt (by omega)]
  unfold slot at *
  omega

section Push

variable {s : Space}

/-- **More than `MAXARG` strings make the loop fail**, whatever the pushes before them do. -/
theorem pushArgs_many :
    ∀ (argv : List (List UInt8)) (argc top : Nat) (mem : Nat → UInt8), argc ≤ maxArg →
      maxArg < argc + argv.length → (pushArgs s argv argc top mem).1 = none
  | [], argc, _, _, counted, many => absurd many (by simp only [List.length_nil]; omega)
  | arg :: argv, argc, top, mem, counted, many => by
    rw [pushArgs]
    split
    · rfl
    · dsimp only
      split
      · rfl
      · -- the next string is counted against `MAXARG` too
        rw [pushArgs_many argv (argc + 1) _ _ (by omega)
          (by simp only [List.length_cons] at many; omega)]
        rfl

variable {base F : Nat}

/-- **Strings that fit in the stack page are pushed**, each with its NUL at the address `tops`
gives, down from `top`; nothing else of kernel memory below the page's frame is written. -/
theorem pushArgs_fits (page : uva2ka s base = F) (present : F ≠ 0) (aligned : base % pgSize = 0)
    (word : base + pgSize < 2 ^ 32) :
    ∀ (argv : List (List UInt8)) (argc top : Nat) (mem : Nat → UInt8),
      argc + argv.length ≤ maxArg → top % 4 = 0 → top ≤ base + pgSize →
      base + (argv.map slot).sum ≤ top →
      ∃ mem', pushArgs s argv argc top mem =
          (some (top - (argv.map slot).sum, tops top argv), mem') ∧
        List.Forall₂ (fun p arg => top - (argv.map slot).sum ≤ p ∧ p + arg.length + 1 ≤ top ∧
          window mem' (F + (p - base)) (arg.length + 1) = arg ++ [0]) (tops top argv) argv ∧
        ∀ a, a < F + (top - (argv.map slot).sum - base) ∨ F + (top - base) ≤ a → mem' a = mem a
  | [], argc, top, mem, _, _, _, _ => ⟨mem, by simp [pushArgs, tops]⟩
  | arg :: argv, argc, top, mem, few, word4, under, room => by
    simp only [List.map_cons, List.sum_cons, List.length_cons] at few room ⊢
    have big := length_lt_slot arg
    have sp : u32 (top + 2 ^ 32 - u32 (arg.length + 1)) / 4 * 4 = top - slot arg :=
      push_sp arg word4 (by omega) (by omega)
    -- the string lies on the stack page, below `top`
    have copied : copyout s mem (top - slot arg) (arg ++ [0]) =
        (0, place mem (F + (top - slot arg - base)) (arg ++ [0])) :=
      copyout_page page present aligned (by omega)
        (by rw [List.length_append, List.length_singleton]; omega)
    obtain ⟨mem', pushed, strings, frame⟩ := pushArgs_fits page present aligned word argv
      (argc + 1) (top - slot arg) (place mem (F + (top - slot arg - base)) (arg ++ [0]))
      (by omega) (by unfold slot; omega) (by omega) (by omega)
    refine ⟨mem', ?_, ?_, ?_⟩
    · rw [pushArgs, if_neg (by omega)]
      dsimp only
      rw [sp, copied, if_neg (by omega), pushed, Nat.sub_sub]
      rfl
    · refine List.Forall₂.cons ⟨by omega, by omega, ?_⟩ ?_
      · -- the later strings lie below this one
        have first : window mem' (F + (top - slot arg - base)) (arg.length + 1) =
            window (place mem (F + (top - slot arg - base)) (arg ++ [0]))
              (F + (top - slot arg - base)) (arg.length + 1) :=
          window_congr fun j _ => frame _ (.inr (by omega))
        have written := window_place_self mem (F + (top - slot arg - base)) (arg ++ [0])
        rw [List.length_append, List.length_singleton] at written
        rw [first, written]
      · refine strings.imp fun {p a} facts => ?_
        obtain ⟨low, high, read⟩ := facts
        exact ⟨by omega, by omega, read⟩
    · intro a outside
      rw [frame a (by omega)]
      rcases outside with below | above
      · exact place_of_lt _ (by omega)
      · exact place_of_le (by simp only [List.length_append, List.length_singleton]; omega)

/-- **Strings that do not fit make the loop fail**: the first one that does not is copied from
below the stack page, up to the guard page, when no push wraps below 0. -/
theorem pushArgs_overflow (page : uva2ka s base = F) (present : F ≠ 0)
    (aligned : base % pgSize = 0) (word : base + pgSize < 2 ^ 32) (low : pgSize ≤ base)
    (guard : uva2ka s (base - pgSize) = 0) :
    ∀ (argv : List (List UInt8)) (argc top : Nat) (mem : Nat → UInt8),
      argc + argv.length ≤ maxArg → top % 4 = 0 → base ≤ top → top ≤ base + pgSize →
      (argv.map slot).sum ≤ top → top < base + (argv.map slot).sum →
      (pushArgs s argv argc top mem).1 = none
  | [], _, _, _, _, _, _, _, _, beyond => absurd beyond (by simp only [List.map_nil, List.sum_nil]; omega)
  | arg :: argv, argc, top, mem, few, word4, above, under, nowrap, beyond => by
    simp only [List.map_cons, List.sum_cons, List.length_cons] at few nowrap beyond
    have big := length_lt_slot arg
    have sp := push_sp arg word4 (by omega) (by omega)
    rw [pushArgs, if_neg (by omega)]
    dsimp only
    rw [sp]
    by_cases below : top - slot arg < base
    · -- this string starts below the stack page and reaches the guard page
      have failed : (copyout s mem (top - slot arg) (arg ++ [0])).1 = -1 :=
        copyout_fails (g := base - pgSize) (by unfold pgSize at *; omega) guard (by omega) _ mem
          _ (arg ++ [0]) rfl (by simp) (by omega)
          (by rw [List.length_append, List.length_singleton]; unfold slot pgSize at *; omega)
      rw [if_pos (by rw [failed]; decide)]
    · have copied : copyout s mem (top - slot arg) (arg ++ [0]) =
          (0, place mem (F + (top - slot arg - base)) (arg ++ [0])) :=
        copyout_page page present aligned (by omega)
          (by rw [List.length_append, List.length_singleton]; omega)
      rw [copied, if_neg (by simp), pushArgs_overflow page present aligned word low guard argv
        (argc + 1) _ _ (by omega) (by unfold slot; omega) (by omega) (by omega) (by omega)
        (by omega)]
      rfl

end Push

/-! ### The stack of `main` -/

/-- The two pages `exec` allocates at the top of the new image, as `clearpteu` leaves them: the
guard page, which no user access reaches, and the stack page, a user page whose frame the kernel
reaches at `f`. -/
structure Stack (s : Space) (sz f : Nat) : Prop where
  aligned : sz % pgSize = 0
  room : 2 * pgSize ≤ sz
  below : sz ≤ kernBase
  guard : uva2ka s (sz - 2 * pgSize) = 0
  stack : uva2ka s (sz - pgSize) = f
  present : f ≠ 0

/-- The byte the process reads at `va`, through its page table. -/
def user (s : Space) (mem : Nat → UInt8) (va : Nat) : UInt8 :=
  mem (uva2ka s (pgRoundDown va) + (va - pgRoundDown va))

/-- The stack `main(argc, argv)` starts on, at `sp`, with the strings `argv` at `ptrs`: `ustack`
(the fake return PC, `argc`, `argv` pointing just above it, the pointers and a null pointer),
and above it each string with its NUL, below `sz`. -/
structure Layout (read : Nat → UInt8) (sp sz : Nat) (argv : List (List UInt8)) (ptrs : List Nat) :
    Prop where
  ustack : fieldsOf (List.replicate (argv.length + 4) 4) (window read sp (4 * (argv.length + 4))) =
    [0xffffffff, argv.length, sp + 12] ++ ptrs ++ [0]
  strings : List.Forall₂ (fun p arg => sp + 4 * (argv.length + 4) ≤ p ∧ p + arg.length + 1 ≤ sz ∧
    window read p (arg.length + 1) = arg ++ [0]) ptrs argv

/-- A new image of three pages at `sz = 0x3000`: the program at 0, the guard page and the stack
page, whose frame is at physical `0x400000`; the kernel's map above; and a calling process whose
first instruction is `lea 4(%esp), %ecx`. -/
def sampleSpace : Space where
  pte va :=
    if va = 0x2000 then some 0x00400007
    else if p2v phyStop ≤ va ∧ va < devSpace then none
    else some 0x00000001
  atZero := 0x04244c8d

/-- `"hi"`. -/
def hiArgv : List (List UInt8) := [[104, 105]]

/-- Thirty-three empty arguments, one more than `MAXARG`. -/
def manyArgv : List (List UInt8) := List.replicate 33 []

section Setup

variable {s : Space} {sz f : Nat}

/-- On a present user page, the process reads the page's frame. -/
theorem window_user {mem : Nat → UInt8} {base F p n : Nat} (page : uva2ka s base = F)
    (aligned : base % pgSize = 0) (above : base ≤ p) (fits : p + n ≤ base + pgSize) :
    window (user s mem) p n = window mem (F + (p - base)) n := by
  apply window_eq_window
  intro j within
  have onPage : pgRoundDown (p + j) = base := by
    unfold pgRoundDown pgSize at *
    omega
  rw [user, onPage, page]
  congr 1
  omega

theorem Stack.base_aligned (st : Stack s sz f) : (sz - pgSize) % pgSize = 0 := by
  have := st.aligned
  have := st.room
  unfold pgSize at *
  omega

theorem Stack.word (st : Stack s sz f) : sz - pgSize + pgSize < 2 ^ 32 := by
  have := st.below
  have := st.room
  unfold kernBase pgSize at *
  omega

theorem Stack.guard_aligned (st : Stack s sz f) : (sz - pgSize - pgSize) % pgSize = 0 := by
  have := st.aligned
  have := st.room
  unfold pgSize at *
  omega

theorem Stack.guard_page (st : Stack s sz f) : uva2ka s (sz - pgSize - pgSize) = 0 := by
  rw [Nat.sub_sub, ← Nat.two_mul]
  exact st.guard

theorem length_ustack_record (sp : Nat) (ptrs : List Nat) :
    (record ((ustack sp ptrs).map fun w => (4, w))).length = 4 * (ptrs.length + 4) := by
  simp only [length_record, List.map_map, ustack]
  simp
  omega

/-- Every word of `ustack` is a `uint` when the pointers are. -/
theorem ustack_lt (sp : Nat) {ptrs : List Nat} (small : ∀ p ∈ ptrs, p < 2 ^ 32)
    (few : ptrs.length < 2 ^ 32) : ∀ w ∈ ustack sp ptrs, w < 2 ^ 32 := by
  intro w mem
  simp only [ustack, List.cons_append, List.mem_cons, List.mem_append, List.not_mem_nil,
    or_false, false_or] at mem
  rcases mem with rfl | rfl | rfl | inner | rfl
  · decide
  · exact few
  · exact u32_lt _
  · exact small w inner
  · decide

/-- **`ustack` reads back** from its bytes, a `uint` at a time. -/
theorem fieldsOf_ustack (sp : Nat) {ptrs : List Nat} (small : ∀ p ∈ ptrs, p < 2 ^ 32)
    (few : ptrs.length < 2 ^ 32) :
    fieldsOf (List.replicate (ptrs.length + 4) 4) (record ((ustack sp ptrs).map fun w => (4, w))) =
      ustack sp ptrs := by
  have widths : List.replicate (ptrs.length + 4) 4 = ((ustack sp ptrs).map fun w => (4, w)).map Prod.fst := by
    rw [List.map_map, Function.comp_def, List.map_const']
    congr 1
    simp only [ustack, List.length_append, List.length_cons, List.length_nil]
    omega
  rw [widths, fieldsOf_record, List.map_map]
  conv => rhs; rw [← List.map_id (ustack sp ptrs)]
  exact List.map_congr_left fun w mem => Nat.mod_eq_of_lt (ustack_lt sp small few w mem)

/-- `sp -= (3+argc+1) * 4` below the strings, when the whole stack lies above 0. -/
theorem ustack_sp (sz : Nat) (argv : List (List UInt8)) (nowrap : stackSize argv ≤ sz)
    (small : sz < 2 ^ 32) :
    u32 (sz - (argv.map slot).sum + 2 ^ 32 - (3 + (tops sz argv).length + 1) * 4) =
      sz - stackSize argv := by
  rw [length_tops, u32]
  unfold stackSize at *
  omega

theorem setupStack_of_none {mem : Nat → UInt8} {argv : List (List UInt8)}
    (failed : (pushArgs s argv 0 sz mem).1 = none) : (setupStack s mem sz argv).1 = none := by
  have pair : pushArgs s argv 0 sz mem = (none, (pushArgs s argv 0 sz mem).2) := Prod.ext failed rfl
  rw [setupStack, pair]

/-- What `exec` leaves when the strings are pushed: `ustack` is copied below them, or not. -/
theorem setupStack_of_pushed {mem mem' : Nat → UInt8} {argv : List (List UInt8)} {sp : Nat}
    {ptrs : List Nat} (pushed : pushArgs s argv 0 sz mem = (some (sp, ptrs), mem')) :
    setupStack s mem sz argv =
      let top := u32 (sp + 2 ^ 32 - (3 + ptrs.length + 1) * 4)
      let copied := copyout s mem' top (record ((ustack sp ptrs).map fun w => (4, w)))
      if copied.1 < 0 then (none, copied.2) else (some top, copied.2) := by
  rw [setupStack, pushed]

/-- **`exec` builds the stack `main` expects.** With at most `MAXARG` arguments that fit in the
stack page, the stack pointer of the new process is `sz - stackSize argv`; from there the process
reads `ustack` and, above it, each argument with its NUL; and the kernel wrote nothing outside the
part of the stack page's frame from that pointer up. -/
theorem setupStack_layout (st : Stack s sz f) (mem : Nat → UInt8) (argv : List (List UInt8))
    (few : argv.length ≤ maxArg) (fits : stackSize argv ≤ pgSize) :
    ∃ mem' ptrs, setupStack s mem sz argv = (some (sz - stackSize argv), mem') ∧
      Layout (user s mem') (sz - stackSize argv) sz argv ptrs ∧
      ∀ a, a < f + (pgSize - stackSize argv) ∨ f + pgSize ≤ a → mem' a = mem a := by
  have word := st.word
  have room := st.room
  have size : stackSize argv = (argv.map slot).sum + 4 * (argv.length + 4) := rfl
  -- the strings, from `sz` down
  obtain ⟨mem₁, pushed, strings, untouched⟩ := pushArgs_fits st.stack st.present st.base_aligned
    word argv 0 sz mem (by omega) (by have := st.aligned; unfold pgSize at *; omega) (by omega)
    (by omega)
  -- then `ustack`, just below them
  have top := ustack_sp sz argv (by omega) (by omega)
  set bytes := record ((ustack (sz - (argv.map slot).sum) (tops sz argv)).map fun w => (4, w))
    with bytes_def
  have length : bytes.length = 4 * (argv.length + 4) := by
    rw [bytes_def, length_ustack_record, length_tops]
  have copied : copyout s mem₁ (sz - stackSize argv) bytes =
      (0, place mem₁ (f + (sz - stackSize argv - (sz - pgSize))) bytes) :=
    copyout_page st.stack st.present st.base_aligned (by omega)
      (by rw [length]; omega)
  have argvp : u32 (sz - (argv.map slot).sum + 2 ^ 32 - ((tops sz argv).length + 1) * 4) =
      sz - stackSize argv + 12 := by
    rw [length_tops, stackSize, u32]
    omega
  have inside : ∀ p ∈ tops sz argv, p < 2 ^ 32 := fun p mem => by
    have := le_of_mem_tops mem
    have := st.below
    unfold kernBase at *
    omega
  have count : (tops sz argv).length < 2 ^ 32 := by
    rw [length_tops]
    unfold maxArg at few
    omega
  refine ⟨place mem₁ (f + (sz - stackSize argv - (sz - pgSize))) bytes, tops sz argv, ?_, ⟨?_, ?_⟩,
    ?_⟩
  · rw [setupStack_of_pushed pushed]
    dsimp only
    rw [top, copied, if_neg (by simp)]
  · -- `ustack`, read back through the stack page
    rw [window_user st.stack st.base_aligned (by omega) (by omega), ← length,
      window_place_self, ← length_tops sz argv, fieldsOf_ustack _ inside count, ustack, argvp,
      length_tops]
  · -- each string, where the loop left it, above `ustack`
    refine strings.imp fun {p arg} facts => ?_
    obtain ⟨low, high, read⟩ := facts
    refine ⟨by omega, high, ?_⟩
    rw [window_user st.stack st.base_aligned (by omega) (by omega), window_place_of_disjoint
      (.inr (by rw [length]; omega)), read]
  · intro a outside
    have written : place mem₁ (f + (sz - stackSize argv - (sz - pgSize))) bytes a = mem₁ a := by
      rcases outside with below | above
      · exact place_of_lt _ (by omega)
      · exact place_of_le (by rw [length]; omega)
    rw [written, untouched a (by omega)]

theorem sampleSpace_stack : Stack sampleSpace 0x3000 0x80400000 :=
  ⟨by decide, by decide, by decide, by decide, by decide, by decide⟩

theorem setupStack_layout_hi :
    Stack sampleSpace 0x3000 0x80400000 ∧ hiArgv.length ≤ maxArg ∧ stackSize hiArgv ≤ pgSize ∧
      ∃ mem' ptrs, setupStack sampleSpace (fun _ => 0) 0x3000 hiArgv =
          (some (0x3000 - stackSize hiArgv), mem') ∧
        Layout (user sampleSpace mem') (0x3000 - stackSize hiArgv) 0x3000 hiArgv ptrs ∧
        ∀ a, a < 0x80400000 + (pgSize - stackSize hiArgv) ∨ 0x80400000 + pgSize ≤ a → mem' a = 0 := by
  exact ⟨sampleSpace_stack, by decide, by decide,
    setupStack_layout sampleSpace_stack (fun _ => 0) hiArgv (by decide) (by decide)⟩

/-- **`exec` fails when the arguments do not fit**: more than `MAXARG` of them, or more bytes than
the stack page holds, when the pushes do not wrap below address 0. -/
theorem setupStack_fails (st : Stack s sz f) (mem : Nat → UInt8) (argv : List (List UInt8))
    (nowrap : stackSize argv ≤ sz) (beyond : maxArg < argv.length ∨ pgSize < stackSize argv) :
    (setupStack s mem sz argv).1 = none := by
  have word := st.word
  have room := st.room
  have size : stackSize argv = (argv.map slot).sum + 4 * (argv.length + 4) := rfl
  have aligned4 : sz % 4 = 0 := by
    have := st.aligned
    unfold pgSize at *
    omega
  by_cases failed : (pushArgs s argv 0 sz mem).1 = none
  · exact setupStack_of_none failed
  -- the loop pushed every string: at most `MAXARG` of them, on the stack page
  have few : argv.length ≤ maxArg := by
    by_contra many
    exact failed (pushArgs_many argv 0 sz mem (by decide) (by omega))
  have fit : sz - pgSize + (argv.map slot).sum ≤ sz := by
    by_contra spill
    exact failed (pushArgs_overflow st.stack st.present st.base_aligned word (by omega)
      st.guard_page argv 0 sz mem (by omega) aligned4 (by omega) (by omega) (by omega) (by omega))
  obtain ⟨mem₁, pushed, -, -⟩ := pushArgs_fits st.stack st.present st.base_aligned word argv 0 sz
    mem (by omega) aligned4 (by omega) fit
  -- so `ustack` is what does not fit: it is copied from below the stack page up to the strings
  have spill : pgSize < stackSize argv := by
    rcases beyond with many | spill
    · omega
    · exact spill
  have reaches : sz - pgSize - pgSize < sz - stackSize argv + 4 * (argv.length + 4) := by
    unfold pgSize at *
    omega
  have copyFails : (copyout s mem₁ (sz - stackSize argv)
      (record ((ustack (sz - (argv.map slot).sum) (tops sz argv)).map fun w => (4, w)))).1 = -1 :=
    copyout_fails st.guard_aligned st.guard_page (by omega) _ mem₁ (sz - stackSize argv) _ rfl
      (by rw [Ne, ← List.length_eq_zero_iff, length_ustack_record]; omega) (by omega)
      (by rw [length_ustack_record, length_tops]; exact reaches)
  rw [setupStack_of_pushed pushed]
  dsimp only
  rw [ustack_sp sz argv nowrap (by omega), if_pos (by rw [copyFails]; decide)]

theorem setupStack_fails_many :
    Stack sampleSpace 0x3000 0x80400000 ∧ stackSize manyArgv ≤ 0x3000 ∧
      (maxArg < manyArgv.length ∨ pgSize < stackSize manyArgv) ∧
      (setupStack sampleSpace (fun _ => 0) 0x3000 manyArgv).1 = none := by
  exact ⟨sampleSpace_stack, by decide, .inl (by decide),
    setupStack_fails sampleSpace_stack (fun _ => 0) manyArgv (by decide) (.inl (by decide))⟩

/-- What `setupkvm` puts in every page directory above the user part: no page table from
`P2V(PHYSTOP)` up to `DEVSPACE`, and the device pages from `DEVSPACE` on, which are not user
pages. -/
structure KernelMap (s : Space) : Prop where
  unmapped : ∀ va, p2v phyStop ≤ va → va < devSpace → s.pte va = none
  devices : uva2ka s devSpace = 0

/-- Where the directory has no page table, `uva2ka` reads the word at address 0 as the entry. -/
theorem uva2ka_of_none {va : Nat} (absent : s.pte va = none)
    (present : s.atZero.toNat &&& pteP ≠ 0) (userBit : s.atZero.toNat &&& pteU ≠ 0) :
    uva2ka s va = p2v (pteAddr s.atZero.toNat) := by
  rw [uva2ka, absent, Option.getD_none, if_neg present, if_neg userBit]

/-- **A long argument makes `exec` write a page of it into a kernel page it does not own.** When
the first argument is more than 32 MB longer than `sz`, `sp - (strlen + 1)` wraps to an address
between `P2V(PHYSTOP)` and `DEVSPACE`, where the new directory has no page table. `uva2ka` then
reads the word at address 0 of the calling process, its first word, as the page's entry; when it
has `PTE_P` and `PTE_U` set, every page of that range is copied into the one kernel page it
names. `copyout` stops at `DEVSPACE` and `exec` returns -1, but that page is left holding 4096
bytes of the argument. -/
theorem setupStack_wraps (st : Stack s sz f) (kmap : KernelMap s) (mem : Nat → UInt8)
    (arg : List UInt8) (argv : List (List UInt8)) (present : s.atZero.toNat &&& pteP ≠ 0)
    (userBit : s.atZero.toNat &&& pteU ≠ 0) (low : s.atZero.toNat < kernBase)
    (long : sz + (2 ^ 32 - devSpace) + pgSize ≤ arg.length + 1)
    (short : arg.length + 4 + p2v phyStop ≤ sz + 2 ^ 32) :
    ∃ mem' k, setupStack s mem sz (arg :: argv) = (none, mem') ∧ k + pgSize ≤ arg.length ∧
      window mem' (p2v (pteAddr s.atZero.toNat)) pgSize = (arg.drop k).take pgSize := by
  have phys : p2v phyStop = 0x8E000000 := by decide
  have frame : p2v (pteAddr s.atZero.toNat) = pteAddr s.atZero.toNat + kernBase :=
    p2v_of_lt (lt_of_le_of_lt (pteAddr_le _) low)
  have below := st.below
  unfold devSpace pgSize at long
  unfold kernBase at below
  rw [phys] at short
  -- the stack pointer wraps into the unmapped range
  have length : u32 (arg.length + 1) = arg.length + 1 := u32_of_lt (by omega)
  have sp : u32 (sz + 2 ^ 32 - u32 (arg.length + 1)) =
      sz + 2 ^ 32 - (arg.length + 1) := by
    rw [length]
    exact u32_of_lt (by omega)
  obtain ⟨mem', k, copied, fits, page⟩ := copyout_hole (p := p2v phyStop) (by rw [phys]; decide)
    (by decide) (by decide) kmap.devices (by rw [frame]; unfold kernBase; omega)
    (fun va0 above below => uva2ka_of_none (kmap.unmapped va0 above below) present userBit)
    _ mem ((sz + 2 ^ 32 - (arg.length + 1)) / 4 * 4) (arg ++ [0]) rfl (by omega)
    (by unfold devSpace pgSize; omega)
    (by rw [List.length_append, List.length_singleton]; unfold devSpace; omega)
  rw [List.length_append, List.length_singleton] at fits
  refine ⟨mem', k, ?_, by omega, ?_⟩
  · have pushed : pushArgs s (arg :: argv) 0 sz mem = (none, mem') := by
      rw [pushArgs, if_neg (by decide)]
      dsimp only
      rw [sp, copied, if_pos (by simp)]
    rw [setupStack, pushed]
  · -- the page holds bytes of the argument before its NUL
    rw [page, List.drop_append_of_le_length (by omega),
      List.take_append_of_le_length (by rw [List.length_drop]; omega)]

theorem sampleSpace_kernelMap : KernelMap sampleSpace where
  unmapped va above below := by
    have other : va ≠ 0x2000 := by
      have : p2v phyStop = 0x8E000000 := by decide
      omega
    simp only [sampleSpace, if_neg other, if_pos (And.intro above below)]
  devices := by decide

theorem setupStack_wraps_lea :
    Stack sampleSpace 0x3000 0x80400000 ∧ KernelMap sampleSpace ∧
      sampleSpace.atZero.toNat &&& pteP ≠ 0 ∧ sampleSpace.atZero.toNat &&& pteU ≠ 0 ∧
      sampleSpace.atZero.toNat < kernBase ∧
      0x3000 + (2 ^ 32 - devSpace) + pgSize ≤ (List.replicate 0x2004000 (0x61 : UInt8)).length + 1 ∧
      (List.replicate 0x2004000 (0x61 : UInt8)).length + 4 + p2v phyStop ≤ 0x3000 + 2 ^ 32 ∧
      ∃ mem' k, setupStack sampleSpace (fun _ => 0) 0x3000 [List.replicate 0x2004000 0x61] =
          (none, mem') ∧ k + pgSize ≤ (List.replicate 0x2004000 (0x61 : UInt8)).length ∧
        window mem' (p2v (pteAddr sampleSpace.atZero.toNat)) pgSize =
          ((List.replicate 0x2004000 0x61).drop k).take pgSize := by
  have long : 0x3000 + (2 ^ 32 - devSpace) + pgSize ≤
      (List.replicate 0x2004000 (0x61 : UInt8)).length + 1 := by
    rw [List.length_replicate]
    decide
  have short : (List.replicate 0x2004000 (0x61 : UInt8)).length + 4 + p2v phyStop ≤
      0x3000 + 2 ^ 32 := by
    rw [List.length_replicate]
    decide
  exact ⟨sampleSpace_stack, sampleSpace_kernelMap, by decide, by decide, by decide, long, short,
    setupStack_wraps sampleSpace_stack sampleSpace_kernelMap (fun _ => 0) (List.replicate 0x2004000 0x61) []
      (by decide) (by decide) (by decide) long short⟩

end Setup

end Xv6.Exec
