import Xv6.Param

/-!
**The user-space allocator of `umalloc.c`: `malloc`, `free` and `morecore`.**

Kernighan and Ritchie's allocator keeps the free blocks on a circular list through the static
header `base`, in address order. A block is a header (`s.ptr`, `s.size` in headers) and the
headers after it; `malloc` hands out the headers after a block's header.

The model keeps the headers as a map from addresses to headers (only the allocator writes them),
`freep`, and the process's size, which `sbrk` moves as `growproc` does (`allocuvm` refusing a size
at or above `KERNBASE`; physical memory is not modelled, so a growth below it succeeds). Addresses
are naturals; a header is 8 bytes, and `p + k` for a `Header *p` is `p + 8 * k`. The sizes and the
request are `uint`s. The loops of `free` and `malloc` run with fuel; they return `none` when it
runs out.

* `malloc_wraps` — `nunits = (nbytes + sizeof(Header) - 1)/sizeof(Header) + 1` is computed in 32
  bits: for `nbytes = 2^32 - 1` it is 1, and `malloc` returns a pointer at the process's break, to
  a block with no usable byte.
-/

namespace Xv6.Umalloc

/-- `sizeof(Header)`: a pointer and a `uint`. -/
def headerSize : Nat := 8

/-- `union header`: the next free block and the size of this one, in headers. -/
structure Header where
  ptr : Nat
  size : UInt32

/-- The allocator's state: the header at each address, `freep` (0 is null) and the process's
size. -/
structure Heap where
  hdr : Nat → Header
  freep : Nat
  sz : Nat

section Calls

-- the address of the static header `base`, in the data segment below the heap
variable (base : Nat)

/-- `sbrk(n)`, as `growproc(n)` moves the size: `allocuvm(pgdir, sz, sz + n)` fails at or above
`KERNBASE` and keeps a size that wrapped below `sz`; `deallocuvm(pgdir, sz, sz + n)` keeps a size
that wrapped above `sz`, and a new size of 0 makes `growproc` fail. The old size, or `none` for -1. -/
def sbrk (n : Int32) (h : Heap) : Option Nat × Heap :=
  let newsz := (h.sz + n.toBitVec.toNat) % 2 ^ 32
  if 0 < n then
    if kernBase ≤ newsz then (none, h)
    else if newsz < h.sz then (some h.sz, h)
    else (some h.sz, { h with sz := newsz })
  else if n < 0 then
    if h.sz ≤ newsz then (some h.sz, h)
    else if newsz = 0 then (none, h)
    else (some h.sz, { h with sz := newsz })
  else (some h.sz, h)

/-- The search of `free(ap)` from `p`: the free block after which `bp` goes, between two blocks or
at the wrap of the list. -/
def freeSearch (h : Heap) (bp : Nat) : Nat → Nat → Option Nat
  | 0, _ => none
  | fuel + 1, p =>
    let next := (h.hdr p).ptr
    if bp > p ∧ bp < next then some p
    else if p ≥ next ∧ (bp > p ∨ bp < next) then some p
    else freeSearch h bp fuel next

/-- Set one header. -/
def Heap.setHdr (h : Heap) (a : Nat) (x : Header) : Heap := { h with hdr := Function.update h.hdr a x }

/-- `free(ap)`: the block inserted after `p`, joined to the block after it and to `p` when they
touch; `freep` is then `p`. -/
def free (fuel : Nat) (h : Heap) (ap : Nat) : Option Heap := do
  let bp := ap - headerSize
  let p ← freeSearch h bp fuel h.freep
  -- `bp->s.ptr` and `bp->s.size`: joined to the upper neighbour when it starts where `bp` ends
  let h :=
    let b := h.hdr bp
    let next := (h.hdr p).ptr
    if bp + headerSize * b.size.toNat = next then
      h.setHdr bp ⟨(h.hdr next).ptr, b.size + (h.hdr next).size⟩
    else h.setHdr bp { b with ptr := next }
  -- `p->s.ptr` and `p->s.size`: joined to `bp` when `p` ends where it starts
  let h :=
    let q := h.hdr p
    if p + headerSize * q.size.toNat = bp then
      h.setHdr p ⟨(h.hdr bp).ptr, q.size + (h.hdr bp).size⟩
    else h.setHdr p { q with ptr := bp }
  return { h with freep := p }

/-- `morecore(nu)`: at least 4096 headers from `sbrk`, given to `free`; `freep`, or `none` for 0.
The outer `none` is a `free` that did not stop. -/
def morecore (fuel : Nat) (nu : UInt32) (h : Heap) : Option (Option Nat × Heap) := do
  let nu := if nu < 4096 then 4096 else nu
  match sbrk (nu * 8).toInt32 h with
  | (none, h) => return (none, h)
  | (some hp, h) =>
    let h := h.setHdr hp { h.hdr hp with size := nu }
    let h ← free fuel h (hp + headerSize)
    return (some h.freep, h)

/-- The loop of `malloc`, from `prevp` and `p`: the first block of `nunits` headers or more, cut
from its tail when larger; `morecore` when the scan comes round to `freep`. -/
def mallocLoop (nunits : UInt32) : Nat → Heap → Nat → Nat → Option (Nat × Heap)
  | 0, _, _, _ => none
  | fuel + 1, h, prevp, p =>
    let b := h.hdr p
    if b.size ≥ nunits then
      if b.size = nunits then
        some (p + headerSize, { h.setHdr prevp { h.hdr prevp with ptr := b.ptr } with freep := prevp })
      else
        -- `p->s.size -= nunits; p += p->s.size; p->s.size = nunits;`
        let h := h.setHdr p { b with size := b.size - nunits }
        let q := p + headerSize * (b.size - nunits).toNat
        let h := h.setHdr q { h.hdr q with size := nunits }
        some (q + headerSize, { h with freep := prevp })
    else if p = h.freep then
      match morecore fuel nunits h with
      | none => none
      | some (none, h) => some (0, h)
      | some (some p, h) => mallocLoop nunits fuel h p (h.hdr p).ptr
    else mallocLoop nunits fuel h p b.ptr

/-- `malloc(nbytes)`: the pointer returned (0 for none) and the heap after it. -/
def malloc (fuel : Nat) (h : Heap) (nbytes : UInt32) : Option (Nat × Heap) :=
  let nunits := (nbytes + 8 - 1) / 8 + 1
  -- the first call sets up the empty list: `base` alone, of size 0
  let h := if h.freep = 0 then { h.setHdr base ⟨base, 0⟩ with freep := base } else h
  mallocLoop nunits fuel h h.freep (h.hdr h.freep).ptr

end Calls

/-! ### A request that wraps -/

section Wrap

/-- A process of three pages whose `base` is in its second page, before any `malloc`. -/
def threePages : Heap := ⟨fun _ => ⟨0, 0⟩, 0, 0x3000⟩

/-- **`nunits` wraps.** `malloc(2^32 - 1)` computes `nunits = 1`: it takes 4096 headers from
`sbrk`, and returns a pointer at the new break, to a block of one header and no usable byte, so
the bytes it promises lie outside the process. -/
theorem malloc_wraps :
    ∃ h, malloc 0x1000 4 threePages 0xFFFFFFFF = some (0x3000 + 0x8000, h) ∧
      h.sz = 0x3000 + 0x8000 ∧ (h.hdr (0x3000 + 0x8000 - headerSize)).size = 1 := by
  refine ⟨_, rfl, rfl, rfl⟩

end Wrap

end Xv6.Umalloc
