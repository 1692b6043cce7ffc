import Xv6.Fs.Inode
import Xv6.Lib.Ends

/-!
**The block layer of `fs.c`: the bitmap, the block map of an inode, and truncation.**

A `BlockFs` is the disk as these functions see it: the bitmap (one bit a block, `used`), the
content of each block read as the `uint`s an indirect block holds (`words`), and the fields of
each disk inode that hold blocks (`type`, `size`, `addrs`). The superblock never changes.

* `balloc` takes the first block whose bit is clear, below `sb.size`, sets the bit and zeroes
  the block; `bfree` clears a set bit, and panics "freeing free block" on a clear one.
* `bmap(ip, bn)` returns the block of file block `bn`, allocating it (and the indirect block)
  where the address is `0`: the idiom `if((addr = X) == 0) X = addr = balloc(dev)`, which
  `allocIfZero` models once for the three addresses it is applied to.
* `itrunc` frees the direct blocks, the blocks the indirect block lists, then the indirect
  block, and sets the size to `0`; `iputFree` is the last `iput` of an inode with no links.
* `readi` and `writei` run the same loop over the blocks of `[off, off + n)` (`blockLoop`);
  `writei` writes each block and then extends the size.

The inode cache is write-through (`iupdate` after every change), so the fields here are those
of the disk inode. The bytes of a data block are not modelled: a write gives the block new
content, any content. Every function runs under the sleep-lock of the inode it is given, and
the bitmap is read and changed under the lock of its buffer, so each function is atomic here.
Devices are not here: `readi` and `writei` of a `T_DEV` inode go to its driver.
-/

namespace Xv6

/-- `struct superblock`: the fields the block layer reads. -/
structure Superblock where
  /-- blocks of the image -/
  size : Nat
  /-- data blocks: the last ones of the image -/
  nblocks : Nat
  ninodes : Nat
  deriving DecidableEq, Repr

/-- The first data block (`nmeta` of `mkfs`): the boot block, the superblock, the log, the
inodes and the bitmap come before it. -/
def Superblock.dataStart (sb : Superblock) : Nat := sb.size - sb.nblocks

/-- The fields of `struct dinode` that hold blocks. -/
@[ext] structure BInode where
  type : InodeType
  size : Nat
  /-- `addrs[NDIRECT+1]`: the direct blocks, then the indirect block; `0` for none -/
  addrs : Nat → Nat

/-- The disk as the block layer sees it. -/
@[ext] structure BlockFs where
  sb : Superblock
  /-- the bit of each block in the bitmap -/
  used : Nat → Bool
  /-- the content of each block, as `(uint*)bp->data` -/
  words : Nat → Nat → Nat
  inodes : Nat → BInode

/-- A computation of the block layer: it changes the disk or panics with a message. -/
abbrev BlockM := StateT BlockFs (Except String)

namespace BlockFs

/-! ### Updates of the disk -/

section Updates

variable (s : BlockFs)

def setUsed (b : Nat) (bit : Bool) : BlockFs := { s with used := Function.update s.used b bit }

def setBlock (b : Nat) (content : Nat → Nat) : BlockFs :=
  { s with words := Function.update s.words b content }

/-- `a[j] = x` in the block `b`. -/
def setWord (b j x : Nat) : BlockFs := s.setBlock b (Function.update (s.words b) j x)

def modifyInode (ip : Nat) (f : BInode → BInode) : BlockFs :=
  { s with inodes := Function.update s.inodes ip (f (s.inodes ip)) }

/-- `ip->addrs[i] = a`. -/
def setAddr (ip i a : Nat) : BlockFs :=
  s.modifyInode ip fun d => { d with addrs := Function.update d.addrs i a }

@[simp] theorem setUsed_sb (b : Nat) (bit : Bool) : (s.setUsed b bit).sb = s.sb := rfl
@[simp] theorem setUsed_used (b : Nat) (bit : Bool) :
    (s.setUsed b bit).used = Function.update s.used b bit := rfl
@[simp] theorem setUsed_words (b : Nat) (bit : Bool) : (s.setUsed b bit).words = s.words := rfl
@[simp] theorem setUsed_inodes (b : Nat) (bit : Bool) : (s.setUsed b bit).inodes = s.inodes := rfl
@[simp] theorem setBlock_sb (b : Nat) (c : Nat → Nat) : (s.setBlock b c).sb = s.sb := rfl
@[simp] theorem setBlock_used (b : Nat) (c : Nat → Nat) : (s.setBlock b c).used = s.used := rfl
@[simp] theorem setBlock_words (b : Nat) (c : Nat → Nat) :
    (s.setBlock b c).words = Function.update s.words b c := rfl
@[simp] theorem setBlock_inodes (b : Nat) (c : Nat → Nat) : (s.setBlock b c).inodes = s.inodes :=
  rfl
@[simp] theorem modifyInode_sb (ip : Nat) (f : BInode → BInode) : (s.modifyInode ip f).sb = s.sb :=
  rfl
@[simp] theorem modifyInode_used (ip : Nat) (f : BInode → BInode) :
    (s.modifyInode ip f).used = s.used := rfl
@[simp] theorem modifyInode_words (ip : Nat) (f : BInode → BInode) :
    (s.modifyInode ip f).words = s.words := rfl
@[simp] theorem modifyInode_inodes (ip : Nat) (f : BInode → BInode) :
    (s.modifyInode ip f).inodes = Function.update s.inodes ip (f (s.inodes ip)) := rfl

/-- An inode that `ialloc` has given a type and that is not free again. -/
def Allocated (ip : Nat) : Prop := 0 < ip ∧ ip < s.sb.ninodes ∧ (s.inodes ip).type ≠ .free

instance (ip : Nat) : Decidable (s.Allocated ip) := inferInstanceAs (Decidable (_ ∧ _ ∧ _))

end Updates

/-! ### Blocks -/

/-- `bzero(dev, b)`. -/
def bzero (b : Nat) : BlockM Unit := modify (·.setBlock b fun _ => 0)

/-- `balloc(dev)`: the first block whose bit is clear, scanned bitmap block by bitmap block,
below `sb.size`. -/
def balloc : BlockM Nat := do
  let s ← get
  match (List.range s.sb.size).find? (fun b => !s.used b) with
  | some b =>
    set (s.setUsed b true)
    bzero b
    return b
  | none => throw "balloc: out of blocks"

/-- `bfree(dev, b)`. -/
def bfree (b : Nat) : BlockM Unit := do
  let s ← get
  if s.used b = false then throw "freeing free block"
  else set (s.setUsed b false)

/-- `if((addr = X) == 0) X = addr = balloc(dev); return addr;`, for the address `X` that `read`
reads and `write` writes. -/
def allocIfZero (read : BlockFs → Nat) (write : BlockFs → Nat → BlockFs) : BlockM Nat := do
  let addr := read (← get)
  if addr ≠ 0 then pure addr
  else do
    let addr ← balloc
    modify fun s => write s addr
    pure addr

/-- `bmap(ip, bn)`: the block of file block `bn`, allocated if there is none. -/
def bmap (ip bn : Nat) : BlockM Nat :=
  if bn < nDirect then allocIfZero (fun s => (s.inodes ip).addrs bn) (·.setAddr ip bn)
  else if bn - nDirect < nIndirect then do
    -- load the indirect block, allocating if necessary
    let ind ← allocIfZero (fun s => (s.inodes ip).addrs nDirect) (·.setAddr ip nDirect)
    allocIfZero (fun s => s.words ind (bn - nDirect)) (·.setWord ind (bn - nDirect))
  else throw "bmap: out of range"

/-- One turn of `itrunc`'s first loop: free the direct block `i`, if there is one. -/
def itruncDirect (ip i : Nat) : BlockM Unit := do
  let addr := ((← get).inodes ip).addrs i
  if addr ≠ 0 then do
    bfree addr
    modify (·.setAddr ip i 0)
  else pure ()

/-- `itrunc(ip)`: free every block of the inode, and set its size to `0`. -/
def itrunc (ip : Nat) : BlockM Unit := do
  (List.range nDirect).forM (itruncDirect ip)
  let ind := ((← get).inodes ip).addrs nDirect
  if ind ≠ 0 then do
    -- `a` is the indirect block as `bread` returns it
    let a := (← get).words ind
    (List.range nIndirect).forM fun j => if a j ≠ 0 then bfree (a j) else pure ()
    bfree ind
    modify (·.setAddr ip nDirect 0)
  else pure ()
  modify (·.modifyInode ip fun d => { d with size := 0 })

/-- The end of the last `iput` of an inode with no links: `itrunc(ip); ip->type = 0;`. -/
def iputFree (ip : Nat) : BlockM Unit := do
  itrunc ip
  modify (·.modifyInode ip fun d => { d with type := .free })

/-- `ialloc(dev, type)`: the first free inode from `1`, zeroed and given `type`. -/
def ialloc (type : InodeType) : BlockM Nat := do
  let s ← get
  match (List.range' 1 (s.sb.ninodes - 1)).find? (fun inum => (s.inodes inum).type = .free) with
  | some inum =>
    set (s.modifyInode inum fun _ => ⟨type, 0, fun _ => 0⟩)
    pure inum
  | none => throw "ialloc: no inodes"

/-- The loop of `readi` and `writei` at byte `off` with `rest` bytes to go: `bmap` of the block
of `off`, `touch` of that file block and its address, then on from the end of the block or of
the bytes (`fuel` bounds the turns: each takes a byte at least). -/
def blockLoop (ip : Nat) (touch : Nat → Nat → BlockM Unit) : Nat → Nat → Nat → BlockM Unit
  | 0, _, _ => pure ()
  | fuel + 1, off, rest =>
    if rest = 0 then pure ()
    else do
      let addr ← bmap ip (off / bsize)
      touch (off / bsize) addr
      let m := min rest (bsize - off % bsize)
      blockLoop ip touch fuel (off + m) (rest - m)

/-- `readi(ip, dst, off, n)` of an inode that is not a device: the bytes are not modelled, only
the blocks the loop maps. `UInt32.size ≤ off + n` is the unsigned `off + n < off`. -/
def readi (ip off n : Nat) : BlockM Int := do
  let size := ((← get).inodes ip).size
  if size < off ∨ UInt32.size ≤ off + n then pure (-1)
  else do
    let n := if size < off + n then size - off else n
    blockLoop ip (fun _ _ => pure ()) n off n
    pure n

/-- `writei(ip, src, off, n)` of an inode that is not a device; `src bn` is the content of file
block `bn` after the write. -/
def writei (ip off n : Nat) (src : Nat → Nat → Nat) : BlockM Int := do
  if ((← get).inodes ip).size < off ∨ UInt32.size ≤ off + n then pure (-1)
  else if maxFile * bsize < off + n then pure (-1)
  else do
    blockLoop ip (fun bn addr => modify (·.setBlock addr (src bn))) n off n
    if 0 < n ∧ ((← get).inodes ip).size < off + n then
      modify (·.modifyInode ip fun d => { d with size := off + n })
    else pure ()
    pure n


/-! ### What the functions do -/

section Specs

open Lib

variable {s : BlockFs}

/-- `balloc` takes a block whose bit is clear, sets the bit and zeroes the block. -/
theorem balloc_ends (s : BlockFs) :
    Ends balloc s (· = "balloc: out of blocks") fun b s' =>
      s.used b = false ∧ b < s.sb.size ∧ s' = (s.setUsed b true).setBlock b fun _ => 0 := by
  unfold balloc
  refine Ends.bind (Ends.get ?_)
  cases found : (List.range s.sb.size).find? (fun b => !s.used b) with
  | none => exact Ends.throw rfl
  | some b =>
    have clear : s.used b = false := by simpa using List.find?_some found
    have below : b < s.sb.size := List.mem_range.mp (List.mem_of_find?_eq_some found)
    exact Ends.bind (Ends.set (Ends.bind (Ends.modify (Ends.pure ⟨clear, below, rfl⟩))))


theorem bfree_ends {b : Nat} {E : String → Prop} (marked : s.used b = true) :
    Ends (bfree b) s E fun _ s' => s' = s.setUsed b false := by
  unfold bfree
  refine Ends.bind (Ends.get ?_)
  rw [if_neg (by simp [marked])]
  exact Ends.set rfl

/-- `s` with the bits of the blocks `p` names cleared. -/
def release (s : BlockFs) (p : Nat → Bool) : BlockFs := { s with used := fun c => s.used c && !p c }

/-- `s` with the addresses `p` names of inode `ip` set to `0`. -/
def clearAddrs (s : BlockFs) (ip : Nat) (p : Nat → Bool) : BlockFs :=
  s.modifyInode ip fun d => { d with addrs := fun i => if p i then 0 else d.addrs i }

theorem release_release (p q : Nat → Bool) :
    (s.release p).release q = s.release fun c => p c || q c :=
  BlockFs.ext rfl (funext fun c => by simp [release, Bool.and_assoc]) rfl rfl

theorem setUsed_false_eq_release (b : Nat) :
    s.setUsed b false = s.release fun c => decide (c = b) :=
  BlockFs.ext rfl (funext fun c => by by_cases here : c = b <;> simp [release, here]) rfl rfl

theorem release_false : (s.release fun _ => false) = s :=
  BlockFs.ext rfl (funext fun c => by simp [release]) rfl rfl

theorem release_clearAddrs (ip : Nat) (p q : Nat → Bool) :
    (s.clearAddrs ip p).release q = (s.release q).clearAddrs ip p := rfl

theorem clearAddrs_clearAddrs (ip : Nat) (p q : Nat → Bool) :
    (s.clearAddrs ip p).clearAddrs ip q = s.clearAddrs ip fun i => p i || q i := by
  refine BlockFs.ext rfl rfl rfl (funext fun q' => ?_)
  by_cases same : q' = ip
  · subst same
    refine BInode.ext (by simp [clearAddrs]) (by simp [clearAddrs]) (funext fun i => ?_)
    by_cases first : p i <;> by_cases second : q i <;> simp [clearAddrs, first, second]
  · simp [clearAddrs, Function.update_of_ne same]

theorem setAddr_zero_eq_clearAddrs (ip i : Nat) :
    s.setAddr ip i 0 = s.clearAddrs ip fun i' => decide (i' = i) := by
  refine BlockFs.ext rfl rfl rfl (funext fun q => ?_)
  by_cases same : q = ip
  · subst same
    refine BInode.ext (by simp [setAddr, clearAddrs]) (by simp [setAddr, clearAddrs])
      (funext fun i' => ?_)
    by_cases here : i' = i <;> simp [setAddr, clearAddrs, here]
  · simp [setAddr, clearAddrs, Function.update_of_ne same]

theorem clearAddrs_of_zero {ip : Nat} {p : Nat → Bool} (zero : ∀ i, p i = true → (s.inodes ip).addrs i = 0) :
    s.clearAddrs ip p = s := by
  refine BlockFs.ext rfl rfl rfl (funext fun q => ?_)
  by_cases same : q = ip
  · subst same
    refine BInode.ext (by simp [clearAddrs]) (by simp [clearAddrs]) (funext fun i => ?_)
    by_cases named : p i
    · simp [clearAddrs, named, zero i named]
    · simp [clearAddrs, named]
  · simp [clearAddrs, Function.update_of_ne same]

/-- `itrunc`'s loop over the indirect block: `bfree` of every address set in it, each marked
and none twice. -/
theorem freeEach_ends (a : Nat → Nat) :
    ∀ (js : List Nat) (s : BlockFs), js.Nodup → (∀ j ∈ js, a j ≠ 0 → s.used (a j) = true) →
      (∀ i ∈ js, ∀ j ∈ js, a i = a j → a i ≠ 0 → i = j) →
      Ends (js.forM fun j => if a j ≠ 0 then bfree (a j) else pure ()) s (fun _ => False)
        fun _ s' => s' = s.release fun c => decide (c ≠ 0 ∧ ∃ j ∈ js, a j = c) := by
  intro js
  induction js with
  | nil =>
    intro s _ _ _
    exact Ends.pure (by simp [release_false])
  | cons j rest ih =>
    intro s nodup marked distinct
    change Ends ((if a j ≠ 0 then bfree (a j) else pure ()) >>= fun _ => rest.forM _) s _ _
    have head : Ends (if a j ≠ 0 then bfree (a j) else pure ()) s (fun _ => False)
        fun _ s₁ => s₁ = s.release fun c => decide (c ≠ 0 ∧ a j = c) := by
      refine Ends.ite (fun set => (bfree_ends (marked j (by simp) set)).mono ?_) fun zero => ?_
      · rintro _ _ rfl
        rw [setUsed_false_eq_release]
        congr 1
        funext c
        by_cases here : c = a j
        · simp [here, set]
        · simp [here, Ne.symm here]
      · have zero : a j = 0 := not_not.mp zero
        refine Ends.pure (Eq.symm ((congrArg s.release (funext fun c => ?_)).trans release_false))
        simp only [zero, decide_eq_false_iff_not]
        omega
    refine Ends.bind (head.mono ?_)
    rintro _ _ rfl
    obtain ⟨fresh, nodup⟩ := List.nodup_cons.mp nodup
    refine (ih _ nodup (fun i mem set => ?_) (fun i mem i' mem' => distinct i (by simp [mem]) i' (by simp [mem']))).mono ?_
    · have apart : a j ≠ a i := by
        intro same
        exact fresh (distinct j (by simp) i (by simp [mem]) same (by rwa [same]) ▸ mem)
      simp [release, marked i (by simp [mem]) set, apart]
    · rintro _ _ rfl
      rw [release_release]
      congr 1
      funext c
      simp only [List.mem_cons, exists_eq_or_imp]
      by_cases zero : c = 0 <;> simp [zero]


@[simp] theorem release_inodes (p : Nat → Bool) : (s.release p).inodes = s.inodes := rfl

theorem clearAddrs_addrs (ip : Nat) (p : Nat → Bool) (i : Nat) :
    ((s.clearAddrs ip p).inodes ip).addrs i = if p i then 0 else (s.inodes ip).addrs i := by
  simp [clearAddrs]

/-- One turn of `itrunc`'s first loop. -/
theorem itruncDirect_ends {ip x : Nat}
    (marked : (s.inodes ip).addrs x ≠ 0 → s.used ((s.inodes ip).addrs x) = true) :
    Ends (itruncDirect ip x) s (fun _ => False) fun _ s' =>
      s' = (s.release fun c => decide (c ≠ 0 ∧ (s.inodes ip).addrs x = c)).clearAddrs ip
        fun i => decide (i = x) := by
  unfold itruncDirect
  refine Ends.bind (Ends.get (Ends.ite (fun set => Ends.bind ((bfree_ends (marked set)).mono ?_))
    fun zero => Ends.pure ?_))
  · rintro _ _ rfl
    refine Ends.modify ?_
    rw [setUsed_false_eq_release, setAddr_zero_eq_clearAddrs]
    congr 2
    funext c
    by_cases here : c = (s.inodes ip).addrs x
    · simp [here, set]
    · simp [here, Ne.symm here]
  · have zero : (s.inodes ip).addrs x = 0 := not_not.mp zero
    have none : (fun c => decide (c ≠ 0 ∧ (s.inodes ip).addrs x = c)) = fun _ => false := by
      funext c
      simp only [zero, decide_eq_false_iff_not]
      omega
    rw [none, release_false, clearAddrs_of_zero]
    intro i named
    rw [of_decide_eq_true named, zero]

/-- **`itrunc`'s first loop**, over direct blocks `xs`: `bfree` of every address that is set,
each marked and none twice, and the address set to `0`. -/
theorem truncDirect_ends {ip : Nat} :
    ∀ (xs : List Nat) (s : BlockFs), xs.Nodup →
      (∀ x ∈ xs, (s.inodes ip).addrs x ≠ 0 → s.used ((s.inodes ip).addrs x) = true) →
      (∀ x ∈ xs, ∀ y ∈ xs, (s.inodes ip).addrs x = (s.inodes ip).addrs y →
        (s.inodes ip).addrs x ≠ 0 → x = y) →
      Ends (xs.forM (itruncDirect ip)) s (fun _ => False) fun _ s' =>
        s' = (s.release fun c => decide (c ≠ 0 ∧ ∃ x ∈ xs, (s.inodes ip).addrs x = c)).clearAddrs ip
          fun i => decide (i ∈ xs) := by
  intro xs
  induction xs with
  | nil =>
    intro s _ _ _
    refine Ends.pure ?_
    simp only [List.not_mem_nil, false_and, exists_false, and_false, decide_false]
    rw [release_false, clearAddrs_of_zero (fun i named => by cases named)]
  | cons x rest ih =>
    intro s nodup marked distinct
    obtain ⟨fresh, nodup⟩ := List.nodup_cons.mp nodup
    change Ends (itruncDirect ip x >>= fun _ => rest.forM _) s _ _
    refine Ends.bind ((itruncDirect_ends (marked x (by simp))).mono ?_)
    rintro _ _ rfl
    -- the addresses of `rest` are those of `s`
    have kept : ∀ y ∈ rest, (((s.release fun c => decide (c ≠ 0 ∧ (s.inodes ip).addrs x = c)).clearAddrs
        ip fun i => decide (i = x)).inodes ip).addrs y = (s.inodes ip).addrs y := by
      intro y mem
      have apart : y ≠ x := fun same => fresh (same ▸ mem)
      simp [clearAddrs_addrs, apart]
    have apart : ∀ y ∈ rest, (s.inodes ip).addrs y ≠ 0 → (s.inodes ip).addrs x ≠ (s.inodes ip).addrs y := by
      intro y mem set same
      exact fresh (distinct x (by simp) y (by simp [mem]) same (by rwa [same]) ▸ mem)
    refine (ih _ nodup (fun y mem set => ?_) (fun y mem y' mem' => ?_)).mono ?_
    · rw [kept y mem] at *
      simp [release, clearAddrs, marked y (by simp [mem]) set, apart y mem set]
    · rw [kept y mem, kept y' mem']
      exact distinct y (by simp [mem]) y' (by simp [mem'])
    · rintro _ _ rfl
      rw [release_clearAddrs, release_release, clearAddrs_clearAddrs]
      congr 2
      · funext c
        have named : (∃ y ∈ rest, (((s.release fun c => decide (c ≠ 0 ∧ (s.inodes ip).addrs x = c)).clearAddrs
            ip fun i => decide (i = x)).inodes ip).addrs y = c) ↔ ∃ y ∈ rest, (s.inodes ip).addrs y = c :=
          ⟨fun ⟨y, mem, eq⟩ => ⟨y, mem, (kept y mem) ▸ eq⟩, fun ⟨y, mem, eq⟩ => ⟨y, mem, (kept y mem).symm ▸ eq⟩⟩
        simp only [named, List.mem_cons, exists_eq_or_imp]
        by_cases zero : c = 0 <;> simp [zero]
      · funext i
        simp

end Specs

end BlockFs

/-- An operation of the block layer, with its arguments. -/
inductive BlockEvent
  /-- `ialloc(dev, type)`, from `create` -/
  | ialloc (type : InodeType)
  /-- `writei(ip, src, off, n)`, from `filewrite`, `dirlink` and `sys_unlink` -/
  | writei (ip off n : Nat) (src : Nat → Nat → Nat)
  /-- `readi(ip, dst, off, n)` -/
  | readi (ip off n : Nat)
  /-- the last `iput` of an inode with no links -/
  | iputFree (ip : Nat)

namespace BlockEvent

/-- The operation, its result dropped. -/
def run : BlockEvent → BlockM Unit
  | .ialloc type => do let _ ← BlockFs.ialloc type
  | .writei ip off n src => do let _ ← BlockFs.writei ip off n src
  | .readi ip off n => do let _ ← BlockFs.readi ip off n
  | .iputFree ip => BlockFs.iputFree ip

/-- What the caller holds: a type for `ialloc`; otherwise a locked inode, which is allocated
(`ilock` panics on a free one), and not a device for `readi` and `writei`. -/
def Enabled (s : BlockFs) : BlockEvent → Prop
  | .ialloc type => type ≠ .free
  | .writei ip _ _ _ => s.Allocated ip ∧ (s.inodes ip).type ≠ .dev
  | .readi ip _ _ => s.Allocated ip ∧ (s.inodes ip).type ≠ .dev
  | .iputFree ip => s.Allocated ip

instance (s : BlockFs) (e : BlockEvent) : Decidable (e.Enabled s) :=
  match e with
  | .ialloc type => inferInstanceAs (Decidable (type ≠ .free))
  | .writei ip _ _ _ => inferInstanceAs (Decidable (s.Allocated ip ∧ _))
  | .readi ip _ _ => inferInstanceAs (Decidable (s.Allocated ip ∧ _))
  | .iputFree ip => inferInstanceAs (Decidable (s.Allocated ip))

end BlockEvent

namespace BlockFs

/-- One operation, if its caller can make it and it does not panic. -/
def step (s : BlockFs) (e : BlockEvent) : Option BlockFs :=
  if e.Enabled s then
    match e.run.run s with
    | .ok (_, s') => some s'
    | .error _ => none
  else none

end BlockFs

end Xv6
