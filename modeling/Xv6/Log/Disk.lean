import Mathlib.Data.List.GetD
import Xv6.Lib.Crash
import Xv6.Param

/-!
**The disk and the buffer cache, as the log sees them.**

`log.c` moves whole blocks between the disk, the buffer cache and the log, and reads and writes
the words of one header block. A block is therefore kept as its words (`Block`), and
`struct logheader` as a prefix of them (`headerWords`, `readHeader`, round trip
`readHeader_headerWords`).

`Storage` is the part of the kernel state that `log.c` reads and writes: the in-memory
`struct log`, the disk, the cached copies of blocks, and every `bwrite` issued so far. `bread`
returns the cached copy of a block when there is one, and `bwrite` is synchronous: it writes the
buffer to disk and records the write. A run of the log code is observed through the list of its
writes (`Lib.patch`), which is how crashes are modelled in `Xv6.Log.Crash`.
-/

namespace Xv6

open Xv6.Lib

/-- The contents of a disk block, as its 32-bit words. `struct logheader` is laid over the words
of the header block (`n` is word `0`, `block[i]` word `i + 1`); every other block is only copied
whole, so its words are never looked at. -/
abbrev Block := Nat → Int

/-- `struct logheader` in memory: `n` together with `block[0..n)`, kept as the list of the `n`
logged home block numbers. Entries past `n` are never read, so they are not kept. -/
structure LogHeader where
  block : List Nat

/-- `lh.n`. -/
def LogHeader.n (lh : LogHeader) : Nat := lh.block.length

/-- The empty header, `n = 0`. -/
def LogHeader.empty : LogHeader := ⟨[]⟩

@[simp] theorem LogHeader.n_empty : LogHeader.empty.n = 0 := rfl

/-- `struct log`, less its lock (modelled by the concurrent system of `Xv6.Log.Group`) and its
device number (there is one disk). -/
structure Log where
  start : Nat
  size : Nat
  outstanding : Int
  committing : Bool
  lh : LogHeader

/-- The words `write_head` stores into the header buffer `buf`: `hb->n = lh.n`, then
`hb->block[i] = lh.block[i]` for `i < n`. The words past `n` keep what the buffer held. -/
def headerWords (buf : Block) (lh : LogHeader) : Block :=
  patch buf ((0, (lh.n : Int)) :: (List.range lh.n).map fun i => (i + 1, (lh.block.getD i 0 : Int)))

/-- The header `read_head` finds in the header block: `n` from word `0`, then `block[i]` from
word `i + 1` for `i < n`. -/
def readHeader (buf : Block) : LogHeader :=
  ⟨(List.range (buf 0).toNat).map fun i => (buf (i + 1)).toNat⟩

theorem headerWords_zero (buf : Block) (lh : LogHeader) : headerWords buf lh 0 = lh.n := by
  unfold headerWords
  rw [patch_cons, patch_apply_of_forall_ne]
  · exact Function.update_self _ _ _
  · intro w mem
    obtain ⟨i, -, rfl⟩ := List.mem_map.mp mem
    exact Nat.succ_ne_zero i

/-- The word `i + 1` of the header written for `lh`, for `i < n`, is `block[i]`. -/
theorem headerWords_succ (buf : Block) (lh : LogHeader) {i : Nat} (lt : i < lh.n) :
    headerWords buf lh (i + 1) = lh.block.getD i 0 := by
  obtain ⟨rest, split⟩ : ∃ rest, lh.n = i + 1 + rest := ⟨lh.n - (i + 1), by omega⟩
  unfold headerWords
  rw [patch_cons, split, List.range_add, List.map_append, List.range_succ, List.map_append,
    List.map_singleton, patch_append, patch_apply_of_forall_ne, patch_concat_self]
  -- the entries after `i` write the words past `i + 1`
  intro w mem
  simp only [List.map_map, List.mem_map, List.mem_range, Function.comp_apply] at mem
  obtain ⟨j, -, rfl⟩ := mem
  show i + 1 + j + 1 ≠ i + 1
  omega

/-- **Round trip.** `read_head` recovers the header that `write_head` wrote. -/
theorem readHeader_headerWords (buf : Block) (lh : LogHeader) :
    readHeader (headerWords buf lh) = lh := by
  obtain ⟨block⟩ := lh
  show LogHeader.mk _ = LogHeader.mk block
  congr 1
  rw [headerWords_zero]
  apply List.ext_getElem
  · simp [LogHeader.n]
  · intro i lt inBlock
    simp only [List.getElem_map, List.getElem_range]
    have within : i < (LogHeader.mk block).n := inBlock
    rw [headerWords_succ buf _ within, List.getD_eq_getElem _ _ inBlock]
    simp

/-- What `log.c` reads and writes of the kernel state. -/
structure Storage where
  log : Log
  disk : Nat → Block
  cache : Nat → Option Block
  writes : List (Nat × Block)

/-- `bread`: the cached copy of a block if there is one, else the block on disk. (Filling the
cache on a miss is not modelled: the copy it makes equals the disk until the next `bwrite` of the
block, which replaces both.) -/
def bread (m : Storage) (blockno : Nat) : Block := (m.cache blockno).getD (m.disk blockno)

/-- `bwrite`: write a buffer's contents to disk, synchronously; the buffer stays cached. -/
def bwrite (m : Storage) (blockno : Nat) (data : Block) : Storage :=
  { m with
    disk := Function.update m.disk blockno data
    cache := Function.update m.cache blockno (some data)
    writes := m.writes ++ [(blockno, data)] }

@[simp] theorem bwrite_log (m : Storage) (blockno : Nat) (data : Block) :
    (bwrite m blockno data).log = m.log := rfl

@[simp] theorem bwrite_writes (m : Storage) (blockno : Nat) (data : Block) :
    (bwrite m blockno data).writes = m.writes ++ [(blockno, data)] := rfl

@[simp] theorem bwrite_disk (m : Storage) (blockno : Nat) (data : Block) :
    (bwrite m blockno data).disk = Function.update m.disk blockno data := rfl

/-- After a `bwrite`, `bread` sees the written contents at that block and nothing else moved. -/
theorem bread_bwrite (m : Storage) (blockno : Nat) (data : Block) :
    bread (bwrite m blockno data) = Function.update (bread m) blockno data := by
  funext b
  by_cases same : b = blockno
  · subst same
    simp [bread, bwrite]
  · simp [bread, bwrite, Function.update_of_ne same]

end Xv6
