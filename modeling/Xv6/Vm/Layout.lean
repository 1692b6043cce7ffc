import Xv6.Param

/-!
**The memory layout and the x86 paging structures** (`memlayout.h`, `mmu.h`).

Addresses and entries are `uint`s: a `Nat` taken modulo `2 ^ 32` (`u32`) where the source's
arithmetic can wrap. Physical memory below `PHYSTOP` is mapped at `KERNBASE`: `P2V` and `V2P`
move between a physical address and the kernel's address of it.

An entry of a page directory or page table is a word: `*pde & PTE_P` is `e &&& pteP`, and
`PTE_ADDR` clears the low twelve bits. The lemmas read the fields of an entry built as
`pa | flags` (`pteAddr_or`, `present_or`) and of the addresses the walks compute.
-/

namespace Xv6.Vm

/-- `PGSIZE`: bytes mapped by a page. -/
def pgSize : Nat := 4096

/-- `NPDENTRIES`: the entries of a page directory (and of a page table). -/
def nPdEntries : Nat := 1024

/-- `PHYSTOP`: the top of physical memory. -/
def phyStop : Nat := 0xE000000

/-- `PTE_P`, `PTE_W`, `PTE_U`: present, writeable, user. -/
def pteP : Nat := 0x001

def pteW : Nat := 0x002

def pteU : Nat := 0x004

/-- A `uint` result: the value modulo `2 ^ 32`. -/
def u32 (x : Nat) : Nat := x % 2 ^ 32

/-- `PDX(va)`: the page-directory index, `(va >> 22) & 0x3FF`. -/
def pdx (va : Nat) : Nat := va / 2 ^ 22 % 1024

/-- `PTX(va)`: the page-table index, `(va >> 12) & 0x3FF`. -/
def ptx (va : Nat) : Nat := va / 2 ^ 12 % 1024

/-- `PGADDR(d, t, o)`, a `uint`. -/
def pgAddr (d t o : Nat) : Nat := u32 (d <<< 22 ||| t <<< 12 ||| o)

/-- `PGROUNDUP(sz)`, for a `uint` `sz`. -/
def pgRoundUp (sz : Nat) : Nat := u32 (sz + pgSize - 1) / pgSize * pgSize

/-- `PGROUNDDOWN(a)`. -/
def pgRoundDown (a : Nat) : Nat := a / pgSize * pgSize

/-- `PTE_ADDR(pte)`: `pte & ~0xFFF`. -/
def pteAddr (pte : Nat) : Nat := pte / pgSize * pgSize

/-- `V2P(a)`, a `uint`. -/
def v2p (a : Nat) : Nat := u32 (a + 2 ^ 32 - kernBase)

/-- `P2V(a)`: a 32-bit pointer. -/
def p2v (a : Nat) : Nat := u32 (a + kernBase)

theorem pgSize_eq : pgSize = 2 ^ 12 := rfl

theorem kernBase_eq : kernBase = 2 ^ 31 := rfl

section Addresses

theorem u32_of_lt {x : Nat} (small : x < 2 ^ 32) : u32 x = x := Nat.mod_eq_of_lt small

theorem u32_lt (x : Nat) : u32 x < 2 ^ 32 := Nat.mod_lt _ (by decide)

/-- Wrapping keeps the offset within a page. -/
theorem u32_mod_pgSize (x : Nat) : u32 x % pgSize = x % pgSize := by
  unfold u32 pgSize
  omega

theorem pgRoundUp_of_lt {sz : Nat} (small : sz + pgSize - 1 < 2 ^ 32) :
    pgRoundUp sz = (sz + pgSize - 1) / pgSize * pgSize := by
  rw [pgRoundUp, u32_of_lt small]

theorem pteAddr_mod (e : Nat) : pteAddr e % pgSize = 0 := Nat.mul_mod_left _ _

theorem pgRoundDown_mod (a : Nat) : pgRoundDown a % pgSize = 0 := Nat.mul_mod_left _ _

theorem pteAddr_le (e : Nat) : pteAddr e ≤ e := Nat.div_mul_le_self _ _

theorem p2v_mod {a : Nat} (aligned : a % pgSize = 0) : p2v a % pgSize = 0 := by
  rw [p2v, u32_mod_pgSize, kernBase_eq, pgSize_eq] at *
  omega

theorem p2v_of_lt {a : Nat} (low : a < kernBase) : p2v a = a + kernBase := by
  rw [p2v, u32_of_lt (by rw [kernBase_eq] at *; omega)]

theorem v2p_of_le {v : Nat} (high : kernBase ≤ v) (word : v < 2 ^ 32) : v2p v = v - kernBase := by
  rw [v2p, u32, kernBase_eq] at *
  omega

theorem p2v_v2p {v : Nat} (high : kernBase ≤ v) (word : v < 2 ^ 32) : p2v (v2p v) = v := by
  rw [v2p_of_le high word, p2v_of_lt (by rw [kernBase_eq] at *; omega), Nat.sub_add_cancel high]

/-- The page-directory index of an address below `KERNBASE` is in the lower half. -/
theorem pdx_lt_of_lt {va : Nat} (low : va < kernBase) : pdx va < 512 := by
  rw [pdx, kernBase_eq] at *
  omega

theorem pdx_lt (va : Nat) : pdx va < nPdEntries := Nat.mod_lt _ (by decide)

theorem ptx_lt (va : Nat) : ptx va < nPdEntries := Nat.mod_lt _ (by decide)

/-- Two addresses below `2 ^ 32` with one page directory and one page table index are in one
page. -/
theorem div_pgSize_eq {va va' : Nat} (word : va < 2 ^ 32) (word' : va' < 2 ^ 32)
    (dir : pdx va = pdx va') (table : ptx va = ptx va') : va / pgSize = va' / pgSize := by
  simp only [pdx, ptx, pgSize_eq, Nat.reducePow] at *
  omega

end Addresses

section Entries

/-- The low `n` bits of `a ||| f`, for `a` a multiple of `2 ^ n` and `f < 2 ^ n`, are `f`. -/
theorem or_mod_of_aligned {a f n : Nat} (aligned : a % 2 ^ n = 0) (low : f < 2 ^ n) :
    (a ||| f) % 2 ^ n = f := by
  rw [Nat.or_mod_two_pow, aligned, Nat.zero_or, Nat.mod_eq_of_lt low]

/-- Above the low `n` bits, `a ||| f` is `a`. -/
theorem or_div_of_aligned {a f n : Nat} (low : f < 2 ^ n) : (a ||| f) / 2 ^ n = a / 2 ^ n := by
  rw [← Nat.shiftRight_eq_div_pow, Nat.shiftRight_or_distrib, Nat.shiftRight_eq_div_pow,
    Nat.shiftRight_eq_div_pow, Nat.div_eq_of_lt low, Nat.or_zero]

/-- The present bit of an entry is its lowest bit. -/
theorem and_pteP (e : Nat) : e &&& pteP = e % 2 := Nat.and_one_is_mod e

/-- An entry `pa | flags`, with `pa` page aligned and the flags in the low twelve bits, points
at `pa`. -/
theorem pteAddr_or {pa f : Nat} (aligned : pa % pgSize = 0) (low : f < pgSize) :
    pteAddr (pa ||| f) = pa := by
  unfold pteAddr
  rw [pgSize_eq, or_div_of_aligned low]
  rw [pgSize_eq] at aligned
  omega

/-- An entry whose flags hold `PTE_P` is present. -/
theorem present_or (pa : Nat) {f : Nat} (flag : f % 2 = 1) : (pa ||| f) &&& pteP ≠ 0 := by
  rw [and_pteP, show (2 : Nat) = 2 ^ 1 from rfl, Nat.or_mod_two_pow]
  rw [show (2 : Nat) ^ 1 = 2 from rfl, flag]
  rcases Nat.mod_two_eq_zero_or_one pa with bit | bit <;> rw [bit] <;> decide

/-- An entry `pa | flags` of a page below `2 ^ 32` is a word. -/
theorem or_lt_word {pa f : Nat} (word : pa < 2 ^ 32) (low : f < pgSize) : pa ||| f < 2 ^ 32 :=
  Nat.or_lt_two_pow word (lt_trans low (by decide))

/-- The flags of `pa | perm | PTE_P`, for `perm` in the low twelve bits. -/
theorem perm_or_pteP_lt {perm : Nat} (low : perm < pgSize) : perm ||| pteP < pgSize := by
  rw [pgSize_eq] at *
  exact Nat.or_lt_two_pow low (by decide)

theorem perm_or_pteP_odd (perm : Nat) : (perm ||| pteP) % 2 = 1 := by
  rw [show (2 : Nat) = 2 ^ 1 from rfl, Nat.or_mod_two_pow, show (2 : Nat) ^ 1 = 2 from rfl]
  rcases Nat.mod_two_eq_zero_or_one perm with bit | bit <;> rw [bit] <;> decide

end Entries

end Xv6.Vm
