import Xv6.Fs.BlockSafety
import Xv6.File.Offset
import Xv6.Mkfs.Image

/-!
**`bmap`, `readi` and `writei` down to the bytes of each block.**

A `ByteFs` is the disk of the block layer (`Fs.Block`) with the bytes of every block (`data`):
`blocks` reads each block as the `uint`s an indirect block holds, little-endian as `mkfs` writes
them (`Mkfs.entry`), and is the `BlockFs` the block layer's invariant (`BlockInv`) is about. The
functions are those of `fs.c` on these bytes: `balloc` zeroes the bytes of the block it takes,
`bmap` reads and writes the entries of the indirect block in its bytes, `readi` copies out of
each block with `memmove` and `writei` copies into it. `byteAt` and `InodeData` (`File.Write`)
read the bytes of a file by file block.

* `blocks_setData`, `blocks_setEntry` — each change of the bytes is, seen through `blocks`, the
  change the block layer makes;
* `fileData` — the bytes of every file block of every inode: those of the block its slot holds,
  `0`s where it holds none; `allocIfZero_data`, `bmap_data` — `bmap` keeps them all, whether it
  allocates or not: a fresh block is zeroed, and the indirect block is no file block;
* `writeLoop_data`, `writei_data` — `writei` of one inode is `InodeData.writei` on its data, and
  leaves every other inode's data as it was; `readi_data` — `readi` is `InodeData.readi`, fails
  never, and changes nothing.

### The theorem

`readi_writei_content`: for an allocated inode of a disk with the block structure, `readi`
returns `-1` exactly when `off > size` or `off + n` overflows, and otherwise the
`min(n, size - off)` bytes of the content from `off`; `writei` returns `-1` exactly when
`off > size`, `off + n` overflows or passes `MAXFILE*BSIZE`, and otherwise `n`, with the source
placed at `off` in the content and the size `max(size, off + n)`, unless `balloc` runs out of
blocks; a read of the bytes written returns them; and a `filewrite` over `writei` never reaches
"short filewrite".
-/

namespace Xv6

open Lib
open BlockFs (Slot fileSlot Keeps Grows refOf_of_allocated slotBlock keeps_setAddr keeps_setBlock)

namespace InodeData

variable {α : Type} {src : List α} {off : Nat}

/-- `readi(ip, dst, off, n)` of an inode that is not a device, on the data of the inode: its
result, and the bytes it copies to `dst`, those of the file from `off` up to `off + n` or to its
end. -/
def readi (ip : InodeData α) (off n : Nat) : Int × List α :=
  if ip.size < off ∨ UInt32.size ≤ off + n then (-1, [])
  else
    let n := if ip.size < off + n then ip.size - off else n
    (n, window ip.byte off n)

theorem readi_of_bad {ip : InodeData α} {off n : Nat} (bad : ip.size < off ∨ UInt32.size ≤ off + n) :
    ip.readi off n = (-1, []) := if_pos bad

theorem readi_of_within {ip : InodeData α} {off n : Nat}
    (within : ¬(ip.size < off ∨ UInt32.size ≤ off + n)) :
    ip.readi off n = (((if ip.size < off + n then ip.size - off else n : Nat) : Int),
      window ip.byte off (if ip.size < off + n then ip.size - off else n)) := if_neg within

theorem writei_of_bad {ip : InodeData α} {src : List α} {off : Nat}
    (bad : ip.size < off ∨ UInt32.size ≤ off + src.length) : ip.writei src off = (-1, ip) := if_pos bad

/-- The content of a file: its `size` bytes. -/
def content (ip : InodeData α) : List α := window ip.byte 0 ip.size

variable {ip : InodeData α}

theorem byte_eq (ip : InodeData α) : ip.byte = byteAt ip.blocks := rfl

/-- **What `readi` reads**: `-1` exactly when `off > size` or `off + n` overflows, and otherwise
`m = min(n, size - off)` bytes, those of the content from `off`. -/
theorem readi_spec (off n : Nat) :
    ((ip.readi off n).1 = -1 ↔ ip.size < off ∨ UInt32.size ≤ off + n) ∧
      ((ip.readi off n).1 ≠ -1 → (ip.readi off n).1 = (min n (ip.size - off) : Nat) ∧
        (ip.readi off n).2 = (ip.content.drop off).take (min n (ip.size - off))) := by
  by_cases bad : ip.size < off ∨ UInt32.size ≤ off + n
  · rw [readi_of_bad bad]
    exact ⟨iff_of_true rfl bad, fun neg => absurd rfl neg⟩
  · have m : (if ip.size < off + n then ip.size - off else n) = min n (ip.size - off) := by
      split <;> omega
    rw [readi_of_within bad, m]
    refine ⟨iff_of_false (by omega) bad, fun _ => ⟨rfl, ?_⟩⟩
    rw [content, window_drop, window_take, Nat.zero_add, Nat.min_eq_left (Nat.min_le_right _ _)]

/-- **What `writei` writes**, within the file and its largest size: the content before `off`,
`src`, and the content after it, up to the new size `max(size, off + n)`; `readi` reads `src`
back. -/
theorem writei_content (within : off ≤ ip.size) (fits : off + src.length ≤ maxFile * bsize) :
    (ip.writei src off).1 = src.length ∧ (ip.writei src off).2.size = max ip.size (off + src.length) ∧
      (ip.writei src off).2.content = ip.content.take off ++ src ++ ip.content.drop (off + src.length) ∧
      (ip.writei src off).2.readi off src.length = ((src.length : Int), src) := by
  rw [writei_of_fits within fits]
  have small : ¬(max ip.size (off + src.length) < off ∨ UInt32.size ≤ off + src.length) := by
    rw [maxFile_eq, bsize_eq] at fits
    simp only [UInt32.size]
    omega
  have whole : (if max ip.size (off + src.length) < off + src.length then
      max ip.size (off + src.length) - off else src.length) = src.length := by
    split <;> omega
  refine ⟨rfl, rfl, ?_, ?_⟩
  · rw [content, content, byte_eq, byteAt_writeLoop _ _ le_rfl, window_place, window_take,
      window_drop, Nat.zero_add, Nat.min_eq_left within, ← byte_eq]
  · rw [@readi_of_within _ ⟨max ip.size (off + src.length), _⟩ _ _ small, whole, byte_eq,
      byteAt_writeLoop _ _ le_rfl, window_place_self]

/-- `writei` returns `-1` exactly when `off > size`, `off + n` overflows or passes
`MAXFILE*BSIZE`. -/
theorem writei_failed_iff : (ip.writei src off).1 = -1 ↔
    ip.size < off ∨ UInt32.size ≤ off + src.length ∨ maxFile * bsize < off + src.length := by
  by_cases bad : ip.size < off ∨ UInt32.size ≤ off + src.length
  · rw [writei_of_bad bad]
    exact iff_of_true rfl (bad.elim .inl fun wraps => .inr (.inl wraps))
  by_cases past : maxFile * bsize < off + src.length
  · rw [writei_of_past past]
    exact iff_of_true rfl (.inr (.inr past))
  · rw [(writei_content (by omega) (by omega)).1]
    exact iff_of_false (by omega) (by omega)

/-- A `writei` that returns `-1` leaves the inode as it was. -/
theorem writei_failed (failed : (ip.writei src off).1 = -1) : (ip.writei src off).2 = ip := by
  by_cases bad : ip.size < off ∨ UInt32.size ≤ off + src.length
  · rw [writei_of_bad bad]
  by_cases past : maxFile * bsize < off + src.length
  · rw [writei_of_past past]
  · rw [(writei_content (by omega) (by omega)).1] at failed
    omega

end InodeData

/-- The disk as `readi` and `writei` see it. -/
structure ByteFs where
  sb : Superblock
  used : Nat → Bool
  /-- the bytes of each block, `bp->data` -/
  data : Nat → Nat → UInt8
  inodes : Nat → BInode

/-- A computation on the bytes of the disk: it changes them or panics with a message. -/
abbrev ByteM := StateT ByteFs (Except String)

namespace ByteFs

/-! ### The bytes, and the blocks they give -/

section Updates

variable (s : ByteFs)

/-- The disk as the block layer sees it: each block read as `(uint*)bp->data`. -/
def blocks : BlockFs where
  sb := s.sb
  used := s.used
  words b := Mkfs.entry (s.data b)
  inodes := s.inodes

def setUsed (b : Nat) (bit : Bool) : ByteFs := { s with used := Function.update s.used b bit }

def setData (b : Nat) (d : Nat → UInt8) : ByteFs := { s with data := Function.update s.data b d }

def modifyInode (ip : Nat) (f : BInode → BInode) : ByteFs :=
  { s with inodes := Function.update s.inodes ip (f (s.inodes ip)) }

/-- `ip->addrs[i] = a`. -/
def setAddr (ip i a : Nat) : ByteFs :=
  s.modifyInode ip fun d => { d with addrs := Function.update d.addrs i a }

@[simp] theorem setUsed_data (b : Nat) (bit : Bool) : (s.setUsed b bit).data = s.data := rfl
@[simp] theorem setData_data (b : Nat) (d : Nat → UInt8) :
    (s.setData b d).data = Function.update s.data b d := rfl
@[simp] theorem modifyInode_data (ip : Nat) (f : BInode → BInode) :
    (s.modifyInode ip f).data = s.data := rfl

theorem blocks_setUsed (b : Nat) (bit : Bool) : (s.setUsed b bit).blocks = s.blocks.setUsed b bit :=
  rfl

theorem blocks_modifyInode (ip : Nat) (f : BInode → BInode) :
    (s.modifyInode ip f).blocks = s.blocks.modifyInode ip f := rfl

theorem blocks_setAddr (ip i a : Nat) : (s.setAddr ip i a).blocks = s.blocks.setAddr ip i a := rfl

theorem blocks_setData (b : Nat) (d : Nat → UInt8) :
    (s.setData b d).blocks = s.blocks.setBlock b (Mkfs.entry d) := by
  refine BlockFs.ext rfl rfl (funext fun c => ?_) rfl
  by_cases here : c = b
  · subst here
    simp [blocks]
  · simp [blocks, Function.update_of_ne here]

/-- `a[j] = x` in the bytes of block `b` is the block layer's `a[j] = x`, for an `x` that fits a
`uint`. -/
theorem blocks_setEntry {b j x : Nat} (fits : x < 2 ^ 32) :
    (s.setData b (Mkfs.setEntry (s.data b) j x)).blocks = s.blocks.setWord b j x := by
  rw [blocks_setData, BlockFs.setWord]
  congr 1
  funext j'
  by_cases here : j' = j
  · subst here
    rw [Mkfs.entry_setEntry_self, Function.update_self, Nat.mod_eq_of_lt fits]
  · rw [Mkfs.entry_setEntry_of_ne _ here, Function.update_of_ne here]
    rfl

/-- A zeroed block is zeroed for the block layer. -/
theorem blocks_zero (b : Nat) :
    (s.setData b fun _ => 0).blocks = s.blocks.setBlock b fun _ => 0 := by
  have zero : Mkfs.entry (fun _ => (0 : UInt8)) = fun _ => 0 :=
    funext fun _ => Mkfs.entry_of_zero fun _ _ => rfl
  rw [blocks_setData, zero]

end Updates

/-! ### The functions of `fs.c` -/

/-- `bzero(dev, b)`. -/
def bzero (b : Nat) : ByteM Unit := modify (·.setData b fun _ => 0)

/-- `balloc(dev)`: the first block whose bit is clear, below `sb.size`, as the block layer
takes it (`BlockFs.balloc`). -/
def balloc : ByteM Nat := do
  let s ← get
  match (List.range s.sb.size).find? (fun b => !s.used b) with
  | some b =>
    set (s.setUsed b true)
    bzero b
    return b
  | none => throw "balloc: out of blocks"

/-- `if((addr = X) == 0) X = addr = balloc(dev); return addr;`, for the address `X` that `read`
reads and `write` writes. -/
def allocIfZero (read : ByteFs → Nat) (write : ByteFs → Nat → ByteFs) : ByteM Nat := do
  let addr := read (← get)
  if addr ≠ 0 then pure addr
  else do
    let addr ← balloc
    modify fun s => write s addr
    pure addr

/-- `bmap(ip, bn)`: `a = (uint*)bp->data` reads and writes entry `bn - NDIRECT` in the bytes of
the indirect block. -/
def bmap (ip bn : Nat) : ByteM Nat :=
  if bn < nDirect then allocIfZero (fun s => (s.inodes ip).addrs bn) (·.setAddr ip bn)
  else if bn - nDirect < nIndirect then do
    let ind ← allocIfZero (fun s => (s.inodes ip).addrs nDirect) (·.setAddr ip nDirect)
    allocIfZero (fun s => Mkfs.entry (s.data ind) (bn - nDirect))
      fun s a => s.setData ind (Mkfs.setEntry (s.data ind) (bn - nDirect) a)
  else throw "bmap: out of range"

/-- The loop `for(tot=0; tot<n; tot+=m, off+=m, dst+=m)` of `readi` at byte `off` with `rest`
bytes to go: `bmap` of the block of `off`, then `memmove(dst, bp->data + off%BSIZE, m)` with
`m = min(n - tot, BSIZE - off%BSIZE)`. It returns the bytes copied to `dst`, in order (`fuel`
bounds the turns: each copies a byte at least). -/
def readLoop (ip : Nat) : Nat → Nat → Nat → ByteM (List UInt8)
  | 0, _, _ => pure []
  | fuel + 1, off, rest =>
    if rest = 0 then pure []
    else do
      let addr ← bmap ip (off / bsize)
      let m := min rest (bsize - off % bsize)
      let copied := window ((← get).data addr) (off % bsize) m
      let more ← readLoop ip fuel (off + m) (rest - m)
      pure (copied ++ more)

/-- `readi(ip, dst, off, n)` of an inode that is not a device: its result, and the bytes it
copies to `dst`. `UInt32.size ≤ off + n` is the unsigned `off + n < off`. -/
def readi (ip off n : Nat) : ByteM (Int × List UInt8) := do
  let size := ((← get).inodes ip).size
  if size < off ∨ UInt32.size ≤ off + n then pure (-1, [])
  else do
    let n := if size < off + n then size - off else n
    let dst ← readLoop ip n off n
    pure (n, dst)

/-- The loop `for(tot=0; tot<n; tot+=m, off+=m, src+=m)` of `writei` at byte `off` with the bytes
`src` to go: `bmap` of the block of `off`, then `memmove(bp->data + off%BSIZE, src, m)`. -/
def writeLoop (ip : Nat) : Nat → Nat → List UInt8 → ByteM Unit
  | 0, _, _ => pure ()
  | fuel + 1, off, src =>
    if 0 < src.length then do
      let addr ← bmap ip (off / bsize)
      let m := min src.length (bsize - off % bsize)
      modify fun s => s.setData addr (place (s.data addr) (off % bsize) (src.take m))
      writeLoop ip fuel (off + m) (src.drop m)
    else pure ()

/-- `writei(ip, src, off, n)` of an inode that is not a device, with `n` the length of `src`.
After the loop `off` is the end of the bytes written: `if(n > 0 && off > ip->size)` tests
`off + n`. -/
def writei (ip : Nat) (src : List UInt8) (off : Nat) : ByteM Int := do
  let n := src.length
  if ((← get).inodes ip).size < off ∨ UInt32.size ≤ off + n then pure (-1)
  else if maxFile * bsize < off + n then pure (-1)
  else do
    writeLoop ip n off src
    if 0 < n ∧ ((← get).inodes ip).size < off + n then
      modify (·.modifyInode ip fun d => { d with size := off + n })
    else pure ()
    pure n

/-! ### The bytes of the files -/

section Files

variable (s : ByteFs)

/-- The bytes slot `o` gives its file: those of the block it holds, `0`s where it holds none. -/
def slotData (o : Nat × Slot) : Nat → UInt8 :=
  if s.blocks.refOf o = 0 then fun _ => 0 else s.data (s.blocks.refOf o)

/-- Byte `j` of file block `bn` of inode `ip`. -/
def fileData (ip bn : Nat) : Nat → UInt8 := s.slotData (ip, fileSlot bn)

/-- The data of inode `ip` as `readi` and `writei` reach it through `bmap`. -/
def inodeData (ip : Nat) : InodeData UInt8 where
  size := (s.inodes ip).size
  blocks bn j := s.fileData ip bn j.val

end Files

/-! ### `bmap` keeps the bytes of every file -/

section Bmap

variable {s : ByteFs}

/-- `balloc` takes a block whose bit is clear, sets the bit and zeroes the block's bytes. -/
theorem balloc_ends (s : ByteFs) :
    Ends balloc s (· = "balloc: out of blocks") fun b s' =>
      s.used b = false ∧ b < s.sb.size ∧ s' = (s.setUsed b true).setData b fun _ => 0 := by
  unfold balloc
  refine Ends.bind (Ends.get ?_)
  cases found : (List.range s.sb.size).find? (fun b => !s.used b) with
  | none => exact Ends.throw rfl
  | some b =>
    have clear : s.used b = false := by simpa using List.find?_some found
    have below : b < s.sb.size := List.mem_range.mp (List.mem_of_find?_eq_some found)
    exact Ends.bind (Ends.set (Ends.bind (Ends.modify (Ends.pure ⟨clear, below, rfl⟩))))

/-- The state `balloc` leaves, seen by the block layer. -/
theorem blocks_alloc (b : Nat) :
    ((s.setUsed b true).setData b fun _ => 0).blocks = (s.blocks.setUsed b true).setBlock b fun _ => 0 := by
  rw [blocks_zero, blocks_setUsed]

theorem slotData_congr {s' : ByteFs} {o : Nat × Slot} (same : s'.blocks.refOf o = s.blocks.refOf o)
    (data : s.blocks.refOf o ≠ 0 → s'.data (s.blocks.refOf o) = s.data (s.blocks.refOf o)) :
    s'.slotData o = s.slotData o := by
  unfold slotData
  rw [same]
  split
  · rfl
  · next held => rw [data held]

/-- A file block that is mapped reads the bytes of its block. -/
theorem fileData_of_held {ip bn : Nat} (held : s.blocks.refOf (ip, fileSlot bn) ≠ 0) :
    s.fileData ip bn = s.data (s.blocks.refOf (ip, fileSlot bn)) := by
  rw [fileData, slotData, if_neg held]

/-- `balloc` changes the bytes of no file: the block it zeroes is no file's. -/
theorem fileData_alloc (inv : s.blocks.BlockInv) {b : Nat} (clear : s.used b = false) :
    ((s.setUsed b true).setData b fun _ => 0).fileData = s.fileData := by
  have same := (inv.alloc clear).2
  rw [← blocks_alloc] at same
  funext ip bn
  refine slotData_congr (by rw [same]) fun _ => ?_
  rw [setData_data, setUsed_data, Function.update_of_ne (inv.fresh_of_clear clear _)]

/-- **A zeroed block in an empty slot.** Filling slot `o` with the block `b`, zeroed, changes the
bytes of no file, when the bytes change only at blocks no file slot holds. -/
theorem fileData_fill {s₁ s' : ByteFs} {o : Nat × Slot} {b : Nat} (empty : s₁.blocks.refOf o = 0)
    (zeroed : s₁.data b = fun _ => 0)
    (filled : s'.blocks.refOf = Function.update s₁.blocks.refOf o b)
    (data : ∀ c, c = b ∨ (∃ q bn, s₁.blocks.refOf (q, fileSlot bn) = c) → s'.data c = s₁.data c) :
    s'.fileData = s₁.fileData := by
  funext q bn
  by_cases here : (q, fileSlot bn) = o
  · -- the slot filled reads `0`s before and after
    unfold fileData slotData
    rw [here, filled, Function.update_self, empty, if_pos rfl]
    split
    · rfl
    · rw [data b (.inl rfl), zeroed]
  · refine slotData_congr (by rw [filled, Function.update_of_ne here]) fun _ => ?_
    exact data _ (.inr ⟨q, bn, rfl⟩)

/-- **`if((addr = X) == 0) X = addr = balloc(dev)`** on the address `X` of a slot `o`, as
`BlockFs.allocIfZero_ends` has it for the blocks, and keeping the bytes of every file. `write`
must set that slot only, and change bytes only of the new block's neighbours that no file slot
holds. -/
theorem allocIfZero_data (inv : s.blocks.BlockInv) {read : ByteFs → Nat}
    {write : ByteFs → Nat → ByteFs} {o : Nat × Slot} (reads : read s = s.blocks.refOf o)
    (writes : read s = 0 → ∀ b, s.used b = false → b < s.sb.size →
      Keeps ((s.setUsed b true).setData b fun _ => 0).blocks
          (write ((s.setUsed b true).setData b fun _ => 0) b).blocks ∧
        (write ((s.setUsed b true).setData b fun _ => 0) b).used =
          ((s.setUsed b true).setData b fun _ => 0).used ∧
        (write ((s.setUsed b true).setData b fun _ => 0) b).blocks.refOf =
          Function.update ((s.setUsed b true).setData b fun _ => 0).blocks.refOf o b ∧
        ∀ c, c = b ∨ (∃ q bn, ((s.setUsed b true).setData b fun _ => 0).blocks.refOf
            (q, fileSlot bn) = c) →
          (write ((s.setUsed b true).setData b fun _ => 0) b).data c =
            ((s.setUsed b true).setData b fun _ => 0).data c) :
    Ends (allocIfZero read write) s (· = "balloc: out of blocks") fun a s' =>
      s'.blocks.BlockInv ∧ Grows s.blocks s'.blocks ∧ a ≠ 0 ∧ s'.blocks.refOf o = a ∧
        s'.fileData = s.fileData := by
  unfold allocIfZero
  refine Ends.bind (Ends.get ?_)
  refine Ends.ite (fun held => Ends.pure ⟨inv, Grows.refl _, held, reads.symm, rfl⟩) fun none => ?_
  have empty : read s = 0 := not_not.mp none
  refine Ends.bind ((balloc_ends s).mono ?_)
  rintro b _ ⟨clear, below, rfl⟩
  obtain ⟨keeps, bits, filled, data⟩ := writes empty b clear below
  obtain ⟨inv₁, same⟩ := inv.alloc clear
  rw [← blocks_alloc] at inv₁ same
  have emptied : ((s.setUsed b true).setData b fun _ => 0).blocks.refOf o = 0 := by
    rw [same, ← reads, empty]
  obtain ⟨inv', grows⟩ := inv₁.fill keeps bits emptied (by rw [same]; exact inv.fresh_of_clear clear)
    (inv.data_of_clear clear) below (show Function.update s.used b true b = true by simp) filled
  have positive : b ≠ 0 := by
    have := inv.boot
    have := inv.data_of_clear clear
    omega
  refine Ends.bind (Ends.modify (Ends.pure ⟨inv', ?_, positive, ?_, ?_⟩))
  · have grows₁ : Grows s.blocks ((s.setUsed b true).setData b fun _ => 0).blocks :=
      Grows.of_refOf ⟨rfl, fun _ => rfl, fun _ => rfl⟩ same
    exact grows₁.trans grows
  · rw [filled, Function.update_self]
  · rw [fileData_fill emptied (by simp) filled data, fileData_alloc inv clear]

/-- **`bmap`** of a file block in range, as `BlockFs.bmap_ends` has it for the blocks, keeping
the bytes of every file. Entries fit a `uint` for a disk of at most `2^32` blocks. -/
theorem bmap_data (inv : s.blocks.BlockInv) {ip bn : Nat} (alloc : s.blocks.Allocated ip)
    (inRange : bn < maxFile) (small : s.sb.size ≤ 2 ^ 32) :
    Ends (bmap ip bn) s (· = "balloc: out of blocks") fun a s' =>
      s'.blocks.BlockInv ∧ Grows s.blocks s'.blocks ∧ a ≠ 0 ∧
        s'.blocks.refOf (ip, fileSlot bn) = a ∧ s'.fileData = s.fileData := by
  unfold bmap
  refine Ends.ite (fun direct => ?_) fun indirect => Ends.ite (fun entry => ?_) fun out => ?_
  · rw [fileSlot, if_pos direct]
    refine allocIfZero_data inv (by rw [refOf_of_allocated alloc, slotBlock, if_pos direct.le]; rfl)
      fun _ b _ _ => ⟨keeps_setAddr _ _ _, rfl, ?_, fun _ _ => rfl⟩
    exact BlockFs.refOf_setAddr (s := ((s.setUsed b true).setData b fun _ => 0).blocks) alloc direct b
  · rw [fileSlot, if_neg indirect]
    -- the indirect block first, then its entry
    refine Ends.bind ((allocIfZero_data (o := (ip, .addr nDirect)) inv
      (by rw [refOf_of_allocated alloc, slotBlock, if_pos le_rfl]; rfl)
      fun empty b _ _ => ⟨keeps_setAddr _ _ _, rfl, ?_, fun _ _ => rfl⟩).mono ?_)
    · exact BlockFs.refOf_setIndirect (s := ((s.setUsed b true).setData b fun _ => 0).blocks) alloc
        empty (by rw [blocks_alloc]; simp)
    rintro ind s₂ ⟨inv₂, grows₂, positive, pointer, data₂⟩
    have alloc₂ : s₂.blocks.Allocated ip := (grows₂.allocated_iff ip).mpr alloc
    have pointer' : (s₂.inodes ip).addrs nDirect = ind := by
      rw [← pointer, refOf_of_allocated alloc₂, slotBlock, if_pos le_rfl]
      rfl
    have small₂ : s₂.sb.size ≤ 2 ^ 32 := by
      have := grows₂.sb
      simp only [blocks] at this
      rwa [this]
    refine (allocIfZero_data (o := (ip, .entry (bn - nDirect))) inv₂ ?_
      fun _ b clear below => ?_).mono ?_
    · rw [refOf_of_allocated alloc₂, slotBlock, if_pos ⟨entry, show (s₂.inodes ip).addrs nDirect ≠ 0 by rw [pointer']; exact positive⟩]
      simp only [blocks, pointer']
    · -- the entry is written in the bytes of the indirect block, which no file slot holds
      have fits : b < 2 ^ 32 := by omega
      obtain ⟨inv₃, same₃⟩ := inv₂.alloc clear
      rw [← blocks_alloc] at inv₃ same₃
      have ind₃ : (((s₂.setUsed b true).setData b fun _ => 0).blocks.inodes ip).addrs nDirect = ind :=
        pointer'
      have written := BlockFs.refOf_setWord inv₃.unique (j := bn - nDirect) (x := b) alloc₂
        (by rw [ind₃]; exact positive) entry
      rw [ind₃] at written
      refine ⟨by rw [blocks_setEntry _ fits]; exact keeps_setBlock _ _, rfl,
        by rw [blocks_setEntry _ fits, written], fun c which => ?_⟩
      have indHeld : s₂.blocks.refOf (ip, .addr nDirect) ≠ 0 := by rw [pointer]; exact positive
      have apart : c ≠ ind := by
        intro same
        rcases which with fresh | ⟨q, bn', held⟩
        · -- the new block was clear, and the indirect block is marked
          have marked := inv₂.marked _ indHeld
          rw [pointer, ← same, fresh] at marked
          exact absurd marked (by simp [blocks, clear])
        · have other : (ip, Slot.addr nDirect) ≠ (q, fileSlot bn') :=
            fun eq => BlockFs.fileSlot_ne_indirect bn' (Prod.ext_iff.mp eq).2.symm
          rw [same₃, same, ← pointer] at held
          exact BlockFs.held_ne inv₂.unique _ _ other indHeld held.symm
      rw [setData_data, Function.update_of_ne apart]
    · rintro a s' ⟨inv', grows', positive', slot, data'⟩
      exact ⟨inv', grows₂.trans grows', positive', slot, data'.trans data₂⟩
  · exfalso
    unfold maxFile at inRange
    omega

end Bmap

/-! ### Reading and writing the bytes of a file -/

section Files

variable {s : ByteFs}

@[simp] theorem inodeData_size (ip : Nat) : (s.inodeData ip).size = (s.inodes ip).size := rfl

@[simp] theorem inodeData_blocks (ip bn : Nat) (j : Fin bsize) :
    (s.inodeData ip).blocks bn j = s.fileData ip bn j.val := rfl

/-- Two file blocks have one slot only if they are one. -/
theorem fileSlot_inj {bn bn' : Nat} (same : fileSlot bn = fileSlot bn') : bn = bn' := by
  unfold fileSlot at same
  split at same <;> split at same <;> simp only [Slot.addr.injEq, Slot.entry.injEq, reduceCtorEq] at same <;> omega

/-- Byte `off + j` of a file, within the block of `off`, is in the bytes of that block. -/
theorem byte_of_held {ip off j : Nat} (held : s.blocks.refOf (ip, fileSlot (off / bsize)) ≠ 0)
    (within : off % bsize + j < bsize) :
    (s.inodeData ip).byte (off + j) = s.data (s.blocks.refOf (ip, fileSlot (off / bsize))) (off % bsize + j) := by
  have block : (off + j) / bsize = off / bsize := by
    rw [bsize_eq] at *
    omega
  have place : (off + j) % bsize = off % bsize + j := by
    rw [bsize_eq] at *
    omega
  simp only [InodeData.byte, byteAt, inodeData_blocks, block, place]
  rw [fileData_of_held held]

/-- **A data write.** New bytes for the block of file block `bn` of `ip` keep the block structure
and every slot, and change that file block only. -/
theorem setData_held (inv : s.blocks.BlockInv) {ip bn a : Nat}
    (slot : s.blocks.refOf (ip, fileSlot bn) = a) (positive : a ≠ 0) (d : Nat → UInt8) :
    (s.setData a d).blocks.BlockInv ∧ (s.setData a d).blocks.refOf = s.blocks.refOf ∧
      (s.setData a d).fileData = Function.update s.fileData ip (Function.update (s.fileData ip) bn d) := by
  obtain ⟨inv', same⟩ := inv.setBlock_held (slot ▸ positive : s.blocks.refOf (ip, fileSlot bn) ≠ 0)
    (Mkfs.entry d)
  rw [slot, ← blocks_setData] at inv' same
  refine ⟨inv', same, funext fun q => funext fun bn' => ?_⟩
  by_cases here : q = ip ∧ bn' = bn
  · obtain ⟨rfl, rfl⟩ := here
    rw [Function.update_self, Function.update_self, fileData, slotData, same, slot, if_neg positive,
      setData_data, Function.update_self]
  · -- another file block: its slot is another, and holds another block
    have other : (q, fileSlot bn') ≠ (ip, fileSlot bn) := fun eq =>
      here ⟨(Prod.ext_iff.mp eq).1, fileSlot_inj (Prod.ext_iff.mp eq).2⟩
    have unchanged : (s.setData a d).fileData q bn' = s.fileData q bn' := by
      refine slotData_congr (by rw [same]) fun held => ?_
      have apart := BlockFs.held_ne inv.unique _ _ other held
      rw [slot] at apart
      rw [setData_data, Function.update_of_ne apart]
    rw [unchanged]
    by_cases same_ip : q = ip
    · subst same_ip
      have block : bn' ≠ bn := fun eq => here ⟨rfl, eq⟩
      rw [Function.update_self, Function.update_of_ne block]
    · rw [Function.update_of_ne same_ip]

/-- `memmove(bp->data + off%BSIZE, src, m)` into the block of `off` is `memmoveBlock` of the
file's data. -/
theorem blocks_memmove {ip off a : Nat} (slot : s.blocks.refOf (ip, fileSlot (off / bsize)) = a)
    (positive : a ≠ 0) (chunk : List UInt8) :
    (fun bn (j : Fin bsize) => Function.update (s.fileData ip) (off / bsize)
        (place (s.data a) (off % bsize) chunk) bn j.val) =
      memmoveBlock (s.inodeData ip).blocks off chunk := by
  funext bn j
  by_cases here : bn = off / bsize
  · subst here
    have held : s.fileData ip (off / bsize) = s.data a := by
      rw [fileData_of_held (slot ▸ positive), slot]
    simp only [Function.update_self, memmoveBlock, inodeData_blocks, held, place]
  · simp only [Function.update_of_ne here, memmoveBlock, inodeData_blocks]

end Files

/-! ### The loops of `readi` and `writei` -/

section Loops

/-- `allocIfZero` of an address that is set returns it and changes nothing. -/
theorem allocIfZero_held {s : ByteFs} {read : ByteFs → Nat} {write : ByteFs → Nat → ByteFs}
    {E : String → Prop} (held : read s ≠ 0) :
    Ends (allocIfZero read write) s E fun a s' => s' = s ∧ a = read s := by
  unfold allocIfZero
  exact Ends.bind (Ends.get (Ends.ite (fun _ => Ends.pure ⟨rfl, rfl⟩) fun none => absurd held none))

/-- `bmap` of a file block that is mapped returns its block and changes nothing. -/
theorem bmap_held {s : ByteFs} {ip bn : Nat} {E : String → Prop} (alloc : s.blocks.Allocated ip)
    (held : s.blocks.refOf (ip, fileSlot bn) ≠ 0) :
    Ends (bmap ip bn) s E fun a s' => s' = s ∧ a = s.blocks.refOf (ip, fileSlot bn) := by
  unfold bmap
  rw [refOf_of_allocated alloc, fileSlot] at *
  refine Ends.ite (fun direct => ?_) fun indirect => Ends.ite (fun entry => ?_) fun out => ?_
  · rw [if_pos direct, slotBlock, if_pos direct.le] at *
    exact allocIfZero_held held
  · rw [if_neg indirect, slotBlock] at *
    by_cases inside : bn - nDirect < nIndirect ∧ (s.blocks.inodes ip).addrs nDirect ≠ 0
    · rw [if_pos inside] at *
      refine Ends.bind ((allocIfZero_held inside.2).mono ?_)
      rintro ind _ ⟨rfl, rfl⟩
      exact allocIfZero_held held
    · rw [if_neg inside] at held
      exact absurd rfl held
  · rw [if_neg indirect, slotBlock, if_neg fun inside => out inside.1] at held
    exact absurd rfl held

/-- **The loop of `readi`.** Over bytes whose blocks are all mapped, it copies the bytes of the
file from `off` and changes nothing. -/
theorem readLoop_data {s : ByteFs} {ip : Nat} (alloc : s.blocks.Allocated ip) :
    ∀ (fuel off rest : Nat), rest ≤ fuel →
      (∀ bn, bn * bsize < off + rest → s.blocks.refOf (ip, fileSlot bn) ≠ 0) →
      Ends (readLoop ip fuel off rest) s (fun _ => False) fun dst s' =>
        s' = s ∧ dst = window (s.inodeData ip).byte off rest := by
  intro fuel
  induction fuel with
  | zero =>
    intro off rest none _
    rw [Nat.le_zero.mp none]
    exact Ends.pure ⟨rfl, rfl⟩
  | succ fuel ih =>
    intro off rest enough mapped
    rw [readLoop]
    refine Ends.ite (fun done => Ends.pure ⟨rfl, by rw [done]; rfl⟩) fun going => ?_
    have held := mapped (off / bsize) (by rw [bsize_eq]; omega)
    refine Ends.bind ((bmap_held alloc held).mono ?_)
    rintro _ s' ⟨same, rfl⟩
    subst s'
    -- this turn copies `m` bytes, to the end of the block or of the bytes
    have left : 0 < bsize - off % bsize := Nat.sub_pos_of_lt (Nat.mod_lt _ (by decide))
    generalize turn : min rest (bsize - off % bsize) = m
    have room : off % bsize + m ≤ bsize := by
      rw [← turn, bsize_eq]
      omega
    refine Ends.bind (Ends.get (Ends.bind ((ih (off + m) (rest - m) (by omega) fun bn below =>
      mapped bn (by omega)).mono ?_)))
    rintro more s' ⟨same, rfl⟩
    subst s'
    refine Ends.pure ⟨rfl, ?_⟩
    have split : rest = m + (rest - m) := by omega
    have copied : window (s.data (s.blocks.refOf (ip, fileSlot (off / bsize)))) (off % bsize) m =
        window (s.inodeData ip).byte off m :=
      window_eq_window fun j within => (byte_of_held held (by omega)).symm
    rw [copied, split, window_add, Nat.add_sub_cancel_left]

/-- **The loop of `writei`**, from a state with the block structure, the blocks below `off`
mapped: `writeLoop` of the file's data, as `File.Write` has it, with every block it wrote mapped;
every other inode's bytes as they were; it panics only when `balloc` runs out of blocks. -/
theorem writeLoop_data {ip : Nat} :
    ∀ (fuel off : Nat) (src : List UInt8) (s : ByteFs), s.blocks.BlockInv → s.blocks.Allocated ip →
      s.sb.size ≤ 2 ^ 32 → off + src.length ≤ maxFile * bsize → src.length ≤ fuel →
      (∀ bn, bn * bsize < off → s.blocks.refOf (ip, fileSlot bn) ≠ 0) →
      Ends (writeLoop ip fuel off src) s (· = "balloc: out of blocks") fun _ s' =>
        s'.blocks.BlockInv ∧ Grows s.blocks s'.blocks ∧
          (∀ bn, bn * bsize < off + src.length → s'.blocks.refOf (ip, fileSlot bn) ≠ 0) ∧
          (s'.inodeData ip).blocks = Xv6.writeLoop fuel (s.inodeData ip).blocks off src ∧
          ∀ q ≠ ip, s'.fileData q = s.fileData q := by
  intro fuel
  induction fuel with
  | zero =>
    intro off src s inv _ _ _ none mapped
    rw [List.length_eq_zero_iff.mp (Nat.le_zero.mp none)]
    exact Ends.pure ⟨inv, Grows.refl _, by simpa using mapped, rfl, fun _ _ => rfl⟩
  | succ fuel ih =>
    intro off src s inv alloc small fits enough mapped
    rw [writeLoop]
    refine Ends.ite (fun more => ?_) fun done => ?_
    · have inRange : off / bsize < maxFile := by
        rw [bsize_eq, maxFile_eq] at *
        omega
      refine Ends.bind ((bmap_data inv alloc inRange small).mono ?_)
      rintro a s₁ ⟨inv₁, grows₁, positive, slot, data₁⟩
      have left : 0 < bsize - off % bsize := Nat.sub_pos_of_lt (Nat.mod_lt _ (by decide))
      generalize turn : min src.length (bsize - off % bsize) = m
      have room : off % bsize + m ≤ bsize := by
        rw [← turn, bsize_eq]
        omega
      obtain ⟨inv₂, same₂, data₂⟩ := setData_held inv₁ slot positive
        (place (s₁.data a) (off % bsize) (src.take m))
      have grows₂ : Grows s.blocks
          (s₁.setData a (place (s₁.data a) (off % bsize) (src.take m))).blocks :=
        grows₁.trans (Grows.of_refOf ⟨rfl, fun _ => rfl, fun _ => rfl⟩ same₂)
      have alloc₂ := (grows₂.allocated_iff ip).mpr alloc
      have sb₂ : (s₁.setData a (place (s₁.data a) (off % bsize) (src.take m))).sb = s.sb := grows₂.sb
      -- the blocks below the end of this turn: those below `off`, and the block of `off`
      have mapped₂ : ∀ bn, bn * bsize < off + m →
          (s₁.setData a (place (s₁.data a) (off % bsize) (src.take m))).blocks.refOf
            (ip, fileSlot bn) ≠ 0 := by
        intro bn below
        rw [same₂]
        by_cases before : bn * bsize < off
        · rw [grows₁.held _ (mapped bn before)]
          exact mapped bn before
        · have this_block : bn = off / bsize := by
            rw [bsize_eq] at *
            omega
          rw [this_block, slot]
          exact positive
      refine Ends.bind (Ends.modify ((ih (off + m) (src.drop m) _ inv₂ alloc₂ (by rwa [sb₂])
        (by simp only [List.length_drop]; omega) (by simp only [List.length_drop]; omega)
        mapped₂).mono ?_))
      rintro _ s' ⟨inv', grows', mapped', blocks', others'⟩
      have memmoved : ((s₁.setData a (place (s₁.data a) (off % bsize) (src.take m))).inodeData ip).blocks =
          memmoveBlock (s.inodeData ip).blocks off (src.take m) := by
        have blocks₁ : (s₁.inodeData ip).blocks = (s.inodeData ip).blocks := by
          funext bn j
          simp only [inodeData_blocks, data₁]
        rw [← blocks₁, ← blocks_memmove slot positive]
        funext bn j
        rw [inodeData_blocks, data₂, Function.update_self]
      refine ⟨inv', grows₂.trans grows', fun bn below => mapped' bn ?_, ?_, fun q other => ?_⟩
      · simp only [List.length_drop]
        omega
      · rw [blocks', memmoved, Xv6.writeLoop, if_pos more]
        simp only [turn]
      · rw [others' q other, data₂, Function.update_of_ne other, data₁]
    · have empty : src = [] := List.length_eq_zero_iff.mp (Nat.eq_zero_of_not_pos done)
      subst empty
      exact Ends.pure ⟨inv, Grows.refl _, by simpa using mapped, rfl, fun _ _ => rfl⟩

end Loops

/-! ### `readi` and `writei` -/

section Calls

variable {s : ByteFs}

/-- A new size changes the bytes of no file. -/
theorem fileData_setSize (ip size : Nat) :
    (s.modifyInode ip fun d => { d with size := size }).fileData = s.fileData := by
  funext q bn
  exact slotData_congr (by rw [blocks_modifyInode, BlockFs.refOf_setSize]) fun _ => rfl

/-- The data of an inode is its size and the bytes of its file blocks. -/
theorem inodeData_eq (ip : Nat) :
    s.inodeData ip = ⟨(s.inodes ip).size, (s.inodeData ip).blocks⟩ := rfl

/-- **`writei`** of an allocated inode is `InodeData.writei` on its data: its result, and the
inode's size and bytes after it. It keeps the block structure, leaves the data of every other
inode, and panics only when `balloc` runs out of blocks. -/
theorem writei_data (inv : s.blocks.BlockInv) {ip : Nat} (alloc : s.blocks.Allocated ip)
    (small : s.sb.size ≤ 2 ^ 32) (src : List UInt8) (off : Nat) :
    Ends (writei ip src off) s (· = "balloc: out of blocks") fun r s' =>
      s'.blocks.BlockInv ∧ s'.blocks.Allocated ip ∧
        (r, s'.inodeData ip) = (s.inodeData ip).writei src off ∧
        ∀ q ≠ ip, s'.inodeData q = s.inodeData q := by
  unfold writei
  refine Ends.bind (Ends.get ?_)
  refine Ends.ite (fun bad => Ends.pure ⟨inv, alloc, ?_, fun _ _ => rfl⟩) fun inside =>
    Ends.ite (fun past => Ends.pure ⟨inv, alloc, ?_, fun _ _ => rfl⟩) fun fits => ?_
  · rw [InodeData.writei_of_bad bad]
  · rw [InodeData.writei_of_past past]
  have fits' : off + src.length ≤ maxFile * bsize := by omega
  have within : off ≤ (s.inodes ip).size := by omega
  have start : ∀ bn, bn * bsize < off → s.blocks.refOf (ip, fileSlot bn) ≠ 0 :=
    fun bn below => inv.holeFree ip alloc bn (by simp only [blocks]; omega)
  refine Ends.bind ((writeLoop_data src.length off src s inv alloc small fits' le_rfl start).mono ?_)
  rintro _ s₁ ⟨inv₁, grows₁, mapped₁, blocks₁, others₁⟩
  have size₁ : (s₁.inodes ip).size = (s.inodes ip).size := grows₁.size ip
  have others : ∀ q ≠ ip, s₁.inodeData q = s.inodeData q := by
    intro q other
    rw [inodeData_eq, inodeData_eq q]
    have files : (s₁.inodeData q).blocks = (s.inodeData q).blocks := by
      funext bn j
      simp only [inodeData_blocks, others₁ q other]
    rw [files, show (s₁.inodes q).size = (s.inodes q).size from grows₁.size q]
    rfl
  rw [InodeData.writei_of_fits within fits', inodeData_size]
  refine Ends.bind (Ends.get ?_)
  dsimp only
  have files : ∀ q, ((s₁.modifyInode ip fun d => { d with size := off + src.length }).inodeData q).blocks =
      (s₁.inodeData q).blocks := by
    intro q
    funext bn j
    simp only [inodeData_blocks, fileData_setSize]
  have alloc₁ := (grows₁.allocated_iff ip).mpr alloc
  refine Ends.ite (fun grown => Ends.bind (Ends.modify (Ends.pure ⟨?_, ?_, ?_, fun q other => ?_⟩)))
    fun kept => Ends.pure ⟨inv₁, alloc₁, ?_, others⟩
  · -- the size grows to the end of the bytes written, all of whose blocks are mapped
    rw [blocks_modifyInode]
    exact inv₁.setSize fits' mapped₁
  · -- a new size keeps the type
    simpa [BlockFs.Allocated, blocks, modifyInode] using alloc₁
  · have size₂ : ((s₁.modifyInode ip fun d => { d with size := off + src.length }).inodes ip).size =
        max (s.inodes ip).size (off + src.length) := by
      simp only [modifyInode, Function.update_self]
      omega
    rw [inodeData_eq, files, blocks₁, size₂]
  · have size₂ : ((s₁.modifyInode ip fun d => { d with size := off + src.length }).inodes q).size =
        (s₁.inodes q).size := by
      simp only [modifyInode, Function.update_of_ne other]
    rw [inodeData_eq, files, size₂, ← others q other]
    rfl
  · have size₂ : max (s.inodes ip).size (off + src.length) = (s.inodes ip).size := by
      rw [size₁] at kept
      omega
    rw [inodeData_eq, blocks₁, size₁, size₂]

/-- **`readi`** of an allocated inode is `InodeData.readi` on its data: it reads blocks below the
size only, which are mapped, so it allocates nothing, changes nothing and does not fail. -/
theorem readi_data (inv : s.blocks.BlockInv) {ip : Nat} (alloc : s.blocks.Allocated ip)
    (off n : Nat) :
    Ends (readi ip off n) s (fun _ => False) fun res s' =>
      res = (s.inodeData ip).readi off n ∧ s' = s := by
  unfold readi
  refine Ends.bind (Ends.get ?_)
  refine Ends.ite (fun bad => Ends.pure ⟨?_, rfl⟩) fun inside => ?_
  · rw [InodeData.readi_of_bad bad]
  refine Ends.bind ((readLoop_data alloc _ off _ le_rfl fun bn below =>
    inv.holeFree ip alloc bn ?_).mono ?_)
  · -- the bytes read end at the size at the latest
    simp only [blocks]
    split at below <;> omega
  · rintro dst s' ⟨same, rfl⟩
    subst s'
    refine Ends.pure ⟨?_, rfl⟩
    rw [@InodeData.readi_of_within _ (s.inodeData ip) _ _ inside]
    rfl

end Calls

/-! ### The theorem -/

section Claim

/-- The content of inode `ip`: the `size` bytes of its file, read through `bmap`. -/
def content (s : ByteFs) (ip : Nat) : List UInt8 := (s.inodeData ip).content

/-- What `readi` and `writei` do to the content of inode `ip`. -/
structure ContentSpec (s : ByteFs) (ip : Nat) : Prop where
  /-- `readi` does not fail and changes nothing: `-1` exactly when `off > size` or `off + n`
  overflows, and otherwise `m = min(n, size - off)` bytes, `content[off..off+m)` -/
  readi : ∀ off n, Ends (readi ip off n) s (fun _ => False) fun res s' => s' = s ∧
    (res.1 = -1 ↔ (s.inodes ip).size < off ∨ UInt32.size ≤ off + n) ∧
    (res.1 ≠ -1 → res.1 = (min n ((s.inodes ip).size - off) : Nat) ∧
      res.2 = ((s.content ip).drop off).take (min n ((s.inodes ip).size - off)))
  /-- `writei` fails only when `balloc` runs out of blocks. It returns `-1` exactly when
  `off > size`, `off + n` overflows or passes `MAXFILE*BSIZE`, with the inode as it was;
  otherwise `n`, with the size `max(size, off + n)` and the content
  `content[0..off) ++ src ++ content[off+n..size)`, from which `readi` reads `src` back. No other
  inode's data changes. -/
  writei : ∀ src off, Ends (writei ip src off) s (· = "balloc: out of blocks") fun r s' =>
    (r = -1 ↔ (s.inodes ip).size < off ∨ UInt32.size ≤ off + src.length ∨
      maxFile * bsize < off + src.length) ∧
    (r = -1 → s'.inodeData ip = s.inodeData ip) ∧
    (r ≠ -1 → r = src.length ∧ (s'.inodes ip).size = max (s.inodes ip).size (off + src.length) ∧
      s'.content ip = (s.content ip).take off ++ src ++ (s.content ip).drop (off + src.length) ∧
      Ends (ByteFs.readi ip off src.length) s' (fun _ => False) fun res _ =>
        res = ((src.length : Int), src)) ∧
    ∀ q ≠ ip, s'.inodeData q = s.inodeData q

theorem readi_writei_content {s : ByteFs} {ip : Nat} (inv : s.blocks.BlockInv)
    (alloc : s.blocks.Allocated ip) (small : s.sb.size ≤ 2 ^ 32) :
    ContentSpec s ip ∧ ∀ (k : Nat) (s₀ t : SharedFile UInt8 k), s₀.Initial → s₀.Reachable t →
      t.halted ≠ some "short filewrite" := by
  refine ⟨⟨fun off n => ?_, fun src off => ?_⟩, fun k s₀ t start reach => ?_⟩
  · refine (readi_data inv alloc off n).mono ?_
    rintro res s' ⟨rfl, same⟩
    exact ⟨same, InodeData.readi_spec off n⟩
  · refine (writei_data inv alloc small src off).mono ?_
    rintro r s' ⟨inv', alloc', result, others⟩
    have returned : r = ((s.inodeData ip).writei src off).1 := congrArg Prod.fst result
    have data : s'.inodeData ip = ((s.inodeData ip).writei src off).2 := congrArg Prod.snd result
    refine ⟨by rw [returned]; exact InodeData.writei_failed_iff, fun failed => ?_, fun wrote => ?_,
      others⟩
    · rw [returned] at failed
      rw [data, InodeData.writei_failed failed]
    · -- a write that returned: within the file and its largest size
      rw [returned] at wrote
      have within := mt InodeData.writei_failed_iff.2 wrote
      obtain ⟨length, size, written, back⟩ :=
        @InodeData.writei_content _ src off (s.inodeData ip) (by omega) (by omega)
      refine ⟨returned.trans length, ?_, ?_, (readi_data inv' alloc' off src.length).mono ?_⟩
      · rw [← inodeData_size, data, size, inodeData_size]
      · rw [content, content, data, written]
      · rintro res _ ⟨read, -⟩
        rw [read, data, back]
  · -- the invariant of `File.Offset`: no step of `filewrite` panics
    intro panicked
    rw [(reach.serial start).running] at panicked
    cases panicked

/-- A disk on which no inode holds a block, with the blocks before the data marked, has the block
structure. -/
theorem blockInv_of_empty {s : ByteFs} (boot : 0 < s.sb.dataStart)
    (metadata : ∀ b < s.sb.dataStart, s.used b = true) (empty : ∀ ip i, (s.inodes ip).addrs i = 0)
    (sized : ∀ ip, (s.inodes ip).size = 0) : s.blocks.BlockInv := by
  have none : ∀ o, s.blocks.refOf o = 0 := by
    rintro ⟨ip, σ⟩
    unfold BlockFs.refOf
    split
    · cases σ <;> simp [slotBlock, blocks, empty]
    · rfl
  refine ⟨boot, metadata, fun o held => absurd (none o) held, fun o held => absurd (none o) held,
    fun o held _ _ _ => absurd (none o) held, fun ip _ => ?_, fun ip _ bn below => ?_⟩
  · simp [blocks, sized]
  · simp [blocks, sized] at below

/-- Ten blocks, the five before the data marked, and inode `1` an empty file. -/
def emptyFile : ByteFs where
  sb := ⟨10, 5, 2⟩
  used b := decide (b < 5)
  data _ _ := 0
  inodes ip := ⟨if ip = 1 then .file else .free, 0, fun _ => 0⟩

theorem emptyFile_blockInv : emptyFile.blocks.BlockInv :=
  blockInv_of_empty (by decide) (fun b before => decide_eq_true (show b < 5 from before))
    (fun _ _ => rfl) fun _ => rfl

theorem readi_writei_content_emptyFile :
    emptyFile.blocks.BlockInv ∧ emptyFile.blocks.Allocated 1 ∧ emptyFile.sb.size ≤ 2 ^ 32 ∧
      ContentSpec emptyFile 1 ∧ ∀ (k : Nat) (s₀ t : SharedFile UInt8 k), s₀.Initial →
        s₀.Reachable t → t.halted ≠ some "short filewrite" :=
  ⟨emptyFile_blockInv, by decide, by decide,
    readi_writei_content emptyFile_blockInv (by decide) (by decide)⟩

/-- Every block of `emptyFile` marked: a disk with no free block. -/
def fullDisk : ByteFs := { emptyFile with used := fun _ => true }

/-- **`writei` panics on a full disk**: one byte at offset `0` of the empty file, within its size
and `MAXFILE*BSIZE`, needs a block, and `balloc` finds none. -/
theorem writei_full_disk : fullDisk.blocks.BlockInv ∧ fullDisk.blocks.Allocated 1 ∧
    (writei 1 [7] 0).run fullDisk = .error "balloc: out of blocks" :=
  ⟨blockInv_of_empty (by decide) (fun _ _ => rfl) (fun _ _ => rfl) fun _ => rfl, by decide, rfl⟩

end Claim

end ByteFs

end Xv6
