import Xv6.Vm.Layout

/-!
**The page allocator and the page tables of a process** (`kalloc.c`, `vm.c`, and `growproc` and
`sys_sbrk`).

The machine is the kernel's view of memory and the allocator's free list. Memory is kept as the
word at each kernel address: the functions here read and write whole `uint`s (entries of page
directories and page tables, the `next` field of a free page), and a `memset` of a page sets every
word of it. `kmem.freelist` is kept as the list of the pages it links, head first; `kfree` still
writes the `next` field into the page it frees.

The loops of `mappages`, `deallocuvm` and `allocuvm` step a page at a time, so `2 ^ 20` turns,
the pages of the address space, is their fuel; running out of it stands for a loop that does not
stop. `cprintf` and `switchuvm` are not modelled, nor the locks of `kmem`.

* `growproc_wraps` — `sz + n` is computed in 32 bits: a shrink past 0 wraps to a size above the
  old one, `deallocuvm` returns the old size, and `sbrk` succeeds without moving the break.
-/

namespace Xv6.Vm

/-- Memory, as the word at each kernel address, and `kmem.freelist`, as the pages it links. -/
structure Machine where
  mem : Nat → UInt32
  freelist : List Nat

/-- A computation of the kernel: it changes the machine or panics with a message. -/
abbrev VmM := StateT Machine (Except String)

/-- `*p = v` for a `uint *p`. -/
def store (p : Nat) (v : UInt32) : VmM Unit :=
  modify fun m => { m with mem := Function.update m.mem p v }

/-- `memset(v, c, PGSIZE)`: every word of the page is `w`, four copies of the byte `c`. -/
def fillPage (v : Nat) (w : UInt32) : VmM Unit :=
  modify fun m => { m with mem := fun a => if v ≤ a ∧ a < v + pgSize then w else m.mem a }

/-- `kalloc()`: the first free page, or `none` for 0. -/
def kalloc : VmM (Option Nat) := do
  match (← get).freelist with
  | [] => pure none
  | r :: rest =>
    modify fun m => { m with freelist := rest }
    pure (some r)

/-- `walkpgdir(pgdir, va, alloc)`: the address of the PTE of `va`, or `none` for 0. With `alloc`
a missing page table is allocated, zeroed and entered in the directory. -/
def walkpgdir (pgdir va : Nat) (alloc : Bool) : VmM (Option Nat) := do
  let pde := pgdir + 4 * pdx va
  let e := ((← get).mem pde).toNat
  if e &&& pteP ≠ 0 then
    pure (some (p2v (pteAddr e) + 4 * ptx va))
  else if !alloc then pure none
  else
    match ← kalloc with
    | none => pure none
    | some pgtab =>
      -- make sure all those `PTE_P` bits are zero
      fillPage pgtab 0
      store pde (UInt32.ofNat (v2p pgtab ||| pteP ||| pteW ||| pteU))
      pure (some (pgtab + 4 * ptx va))

/-- The loop of `mappages` from the page `a`, mapped to `pa`, up to the page `last`. -/
def mappagesLoop (pgdir last perm : Nat) : Nat → Nat → Nat → VmM Int
  | 0, _, _ => throw "mappages: no end"
  | fuel + 1, a, pa => do
    match ← walkpgdir pgdir a true with
    | none => pure (-1)
    | some pte =>
      if ((← get).mem pte).toNat &&& pteP ≠ 0 then throw "remap"
      store pte (UInt32.ofNat (pa ||| perm ||| pteP))
      if a = last then pure 0
      else mappagesLoop pgdir last perm fuel (u32 (a + pgSize)) (u32 (pa + pgSize))

/-- `mappages(pgdir, va, size, pa, perm)`: 0, or -1 when a page table cannot be allocated. -/
def mappages (pgdir va size pa perm : Nat) : VmM Int :=
  mappagesLoop pgdir (pgRoundDown (u32 (va + size + 2 ^ 32 - 1))) perm (2 ^ 20) (pgRoundDown va) pa

section Kernel

-- `end`, the first address after the kernel
variable (kend : Nat)

/-- `kfree(v)`. -/
def kfree (v : Nat) : VmM Unit := do
  if v % pgSize ≠ 0 ∨ v < kend ∨ v2p v ≥ phyStop then throw "kfree"
  -- fill with junk to catch dangling references
  fillPage v 0x01010101
  -- `r->next = kmem.freelist; kmem.freelist = r`
  store v (UInt32.ofNat ((← get).freelist.headD 0))
  modify fun m => { m with freelist := v :: m.freelist }

/-- The body of the loop of `deallocuvm` at a PTE it found: a present page is freed, after the
check that its address is not 0, and its entry cleared. -/
def freePte (pte : Nat) : VmM Unit := do
  let e := ((← get).mem pte).toNat
  if e &&& pteP ≠ 0 then
    let pa := pteAddr e
    if pa = 0 then throw "kfree"
    kfree kend (p2v pa)
    store pte 0

/-- The loop of `deallocuvm` from `a`. Where there is no page table, `a` moves to the last page
before the next entry of the directory. -/
def deallocLoop (pgdir oldsz : Nat) : Nat → Nat → VmM Unit
  | 0, _ => throw "deallocuvm: no end"
  | fuel + 1, a =>
    if a < oldsz then do
      let a ← do
        match ← walkpgdir pgdir a false with
        | none => pure (u32 (pgAddr (pdx a + 1) 0 0 + 2 ^ 32 - pgSize))
        | some pte =>
          freePte kend pte
          pure a
      deallocLoop pgdir oldsz fuel (u32 (a + pgSize))
    else pure ()

/-- `deallocuvm(pgdir, oldsz, newsz)`: the new size. -/
def deallocuvm (pgdir oldsz newsz : Nat) : VmM Nat :=
  if newsz ≥ oldsz then pure oldsz
  else do
    deallocLoop kend pgdir oldsz (2 ^ 20) (pgRoundUp newsz)
    pure newsz

/-- The loop of `allocuvm` from `a`: a zeroed page mapped at each page below `newsz`; when a page
cannot be had, the pages from `oldsz` on are given back. -/
def allocLoop (pgdir oldsz newsz : Nat) : Nat → Nat → VmM Nat
  | 0, _ => throw "allocuvm: no end"
  | fuel + 1, a =>
    if a < newsz then do
      match ← kalloc with
      | none =>
        let _ ← deallocuvm kend pgdir newsz oldsz
        pure 0
      | some mem =>
        fillPage mem 0
        if (← mappages pgdir a pgSize (v2p mem) (pteW ||| pteU)) < 0 then
          let _ ← deallocuvm kend pgdir newsz oldsz
          kfree kend mem
          pure 0
        else allocLoop pgdir oldsz newsz fuel (u32 (a + pgSize))
    else pure newsz

/-- `allocuvm(pgdir, oldsz, newsz)`: the new size, or 0. -/
def allocuvm (pgdir oldsz newsz : Nat) : VmM Nat :=
  if newsz ≥ kernBase then pure 0
  else if newsz < oldsz then pure oldsz
  else allocLoop kend pgdir oldsz newsz (2 ^ 20) (pgRoundUp oldsz)

/-- `growproc(n)` of a process with page directory `pgdir` and size `sz`: what it returns, and
`curproc->sz` after it. -/
def growproc (pgdir sz : Nat) (n : Int32) : VmM (Int × Nat) := do
  -- `sz + n`: the `int` is converted to a `uint`
  let target := u32 (sz + n.toBitVec.toNat)
  if 0 < n then
    let sz' ← allocuvm kend pgdir sz target
    if sz' = 0 then pure (-1, sz) else pure (0, sz')
  else if n < 0 then
    let sz' ← deallocuvm kend pgdir sz target
    if sz' = 0 then pure (-1, sz) else pure (0, sz')
  else pure (0, sz)

/-- `sys_sbrk()` with the argument `n`: what it returns, and the size after it. -/
def sysSbrk (pgdir sz : Nat) (n : Int32) : VmM (Int × Nat) := do
  -- `addr = myproc()->sz`, an `int`
  let addr := (Int32.ofNat sz).toInt
  let (r, sz') ← growproc kend pgdir sz n
  if r < 0 then pure (-1, sz') else pure (addr, sz')

end Kernel

end Xv6.Vm
