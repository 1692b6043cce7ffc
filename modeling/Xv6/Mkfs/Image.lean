import Xv6.Fs.BlockInv
import Xv6.Lib.Place
import Xv6.Lib.Record

/-!
**`mkfs.c`: the image of an empty file system, with the given files in its root directory.**

`mkfs fs.img files...` lays out `fs.img`, `FSSIZE` blocks of `BSIZE` bytes,

  [ boot block | superblock | log | inode blocks | bitmap | data blocks ]

and copies each file into a new inode with an entry in the root directory. The image is the
bytes of each sector and the length of the file in sectors (`State`); `wsect` writes one sector
and `rsect` reads one, failing with "read" past the end of the file, where `read` returns short.
The structures on disk are records of little-endian fields (`Lib.record`): `Dinode.toBytes`,
`dirent`, `superblock`; `xint` and `xshort` are the identity on a little-endian machine, so a
field in memory holds the value its bytes give.

The functions are those of `mkfs.c` under their names (`winode`, `rinode`, `ialloc`, `balloc`,
`iappend`, `main`), with `fileBlock` for the lines of `iappend` that find the block of a file
block, and `appendFile` for the loop of `main` that reads a file `BSIZE` bytes at a time. A
failed assertion is an error with the text it asserts. A file is its name as `argv` gives it (a
C string, without its terminating `0`) and its bytes; the usage and `open` errors and what
`mkfs` prints are not modelled.

The spec lemmas say what each function does to the state: `State.putSector` for `wsect`,
`State.putInode` for `winode`, `State.inode` for what `rinode` reads.
-/

namespace Xv6.Mkfs

open Lib

/-! ### The layout -/

/-- `FSSIZE`: the blocks of the image. -/
def fsSize : Nat := 1000

/-- `sizeof(struct dinode)`. -/
def dinodeSize : Nat := 64

/-- `IPB`: the inodes of a block. -/
def ipb : Nat := bsize / dinodeSize

def nbitmap : Nat := fsSize / (bsize * 8) + 1

def ninodeblocks : Nat := nInodes / ipb + 1

def nlog : Nat := logSize

/-- The blocks before the first data block: the boot block, the superblock, the log, the inode
blocks and the bitmap. -/
def nmeta : Nat := 2 + nlog + ninodeblocks + nbitmap

def nblocks : Nat := fsSize - nmeta

def inodestart : Nat := 2 + nlog

def bmapstart : Nat := 2 + nlog + ninodeblocks

/-- `IBLOCK(i, sb)`: the block of inode `inum`. -/
def iblock (inum : Nat) : Nat := inum / ipb + inodestart

/-- The offset of inode `inum` in its block. -/
def slotOf (inum : Nat) : Nat := inum % ipb * dinodeSize

theorem nmeta_eq : nmeta = 59 := rfl

theorem bmapstart_eq : bmapstart = 58 := rfl

theorem iblock_eq (inum : Nat) : iblock inum = inum / 8 + 32 := rfl

theorem slotOf_eq (inum : Nat) : slotOf inum = inum % 8 * 64 := rfl

/-- `T_DIR`. -/
def tDir : UInt16 := 1

/-- `T_FILE`. -/
def tFile : UInt16 := 2

/-! ### Structures on disk -/

/-- `struct dinode`. -/
@[ext] structure Dinode where
  type : UInt16
  major : UInt16
  minor : UInt16
  nlink : UInt16
  size : UInt32
  /-- `addrs[NDIRECT+1]`: the direct blocks, then the indirect block; `0` for none -/
  addrs : Fin (nDirect + 1) → UInt32

namespace Dinode

/-- The fields with their widths, in the order of the structure. -/
def fields (d : Dinode) : List (Nat × Nat) :=
  [(2, d.type.toNat), (2, d.major.toNat), (2, d.minor.toNat), (2, d.nlink.toNat),
    (4, d.size.toNat)] ++ List.ofFn fun j => (4, (d.addrs j).toNat)

/-- The widths of the fields. -/
def widths : List Nat := [2, 2, 2, 2, 4] ++ List.replicate (nDirect + 1) 4

/-- The `64` bytes of the structure. -/
def toBytes (d : Dinode) : List UInt8 := record d.fields

/-- The structure `*ip = *dip` copies out of its bytes. -/
def ofBytes (bytes : List UInt8) : Dinode :=
  let v := fieldsOf widths bytes
  { type := UInt16.ofNat (v.getD 0 0), major := UInt16.ofNat (v.getD 1 0),
    minor := UInt16.ofNat (v.getD 2 0), nlink := UInt16.ofNat (v.getD 3 0),
    size := UInt32.ofNat (v.getD 4 0), addrs := fun j => UInt32.ofNat (v.getD (j + 5) 0) }

/-- `din.addrs[j] = xint(v)`. -/
def setAddr (d : Dinode) (j : Fin (nDirect + 1)) (v : Nat) : Dinode :=
  { d with addrs := Function.update d.addrs j (UInt32.ofNat v) }

theorem map_fields (d : Dinode) : d.fields.map Prod.fst = widths := by
  simp [fields, widths, List.map_ofFn, Function.comp_def, List.ofFn_const, List.replicate_succ]

@[simp] theorem length_toBytes (d : Dinode) : d.toBytes.length = dinodeSize := by
  rw [toBytes, length_record, map_fields]
  rfl

/-- **A dinode reads back** from its bytes. -/
@[simp] theorem ofBytes_toBytes (d : Dinode) : ofBytes d.toBytes = d := by
  have short (x : UInt16) : x.toNat % 256 ^ 2 = x.toNat := Nat.mod_eq_of_lt x.toNat_lt
  have long (x : UInt32) : x.toNat % 256 ^ 4 = x.toNat := Nat.mod_eq_of_lt x.toNat_lt
  have values : fieldsOf widths d.toBytes = [d.type.toNat, d.major.toNat, d.minor.toNat,
      d.nlink.toNat, d.size.toNat] ++ List.ofFn fun j => (d.addrs j).toNat := by
    rw [toBytes, ← map_fields d, fieldsOf_record]
    simp only [fields, List.map_append, List.map_cons, List.map_nil, List.map_ofFn,
      Function.comp_def, short, long]
  ext j
  case addrs =>
    have within : (j : Nat) ≤ nDirect := Nat.le_of_lt_succ j.isLt
    simp [ofBytes, values, List.getD_eq_getElem?_getD, -List.ofFn_succ, within]
  all_goals simp [ofBytes, values]

end Dinode

/-- `strncpy(dst, src, n)` into zeroed memory: the characters of `src`, at most `n`, then `0`s
up to `n`. -/
def strncpy (src : List UInt8) (n : Nat) : List UInt8 :=
  src.take n ++ List.replicate (n - src.length) 0

/-- `struct dirent` as `main` fills it: `bzero`, `de.inum = xshort(inum)` and the name
(`strcpy` of `"."` and `".."` into zeroed memory is `strncpy`). -/
def dirent (inum : Nat) (name : List UInt8) : List UInt8 := leBytes 2 inum ++ strncpy name dirSiz

@[simp] theorem length_strncpy (src : List UInt8) (n : Nat) : (strncpy src n).length = n := by
  simp only [strncpy, List.length_append, List.length_take, List.length_replicate]
  omega

/-- A directory entry is `sizeof(de) = 16` bytes. -/
@[simp] theorem length_dirent (inum : Nat) (name : List UInt8) : (dirent inum name).length = 16 := by
  simp [dirent, dirSiz]

/-- `struct superblock` as `main` fills it. -/
def superblock : List UInt8 :=
  record [(4, fsSize), (4, nblocks), (4, nInodes), (4, nlog), (4, 2), (4, inodestart),
    (4, bmapstart)]

/-- The bytes of a C string literal. -/
def cstr (s : String) : List UInt8 := s.toList.map Char.toUInt8

/-- `uint` `k` of a block read into memory, as `indirect[k]` reads it. -/
def entry (block : Nat → UInt8) (k : Nat) : Nat := leValue (window block (4 * k) 4)

/-- `indirect[k] = xint(v)`. -/
def setEntry (block : Nat → UInt8) (k v : Nat) : Nat → UInt8 := place block (4 * k) (leBytes 4 v)

/-- The bitmap `balloc` writes: bit `i % 8` of byte `i / 8` set for each `i < used`. -/
def bitmap (used : Nat) : Nat → UInt8 :=
  (List.range used).foldl
    (fun buf i => Function.update buf (i / 8) (buf (i / 8) ||| (1 <<< (i % 8).toUInt8)))
    fun _ => 0

/-! ### The state and the functions of `mkfs.c` -/

/-- The image and the globals `freeinode` and `freeblock`. -/
structure State where
  /-- the bytes of each sector of `fs.img` -/
  img : Nat → Nat → UInt8
  /-- the length of `fs.img` in sectors: every write is one whole sector -/
  sectors : Nat
  freeinode : Nat
  freeblock : Nat

/-- A computation of `mkfs`: it changes the image or fails with a message. -/
abbrev MkfsM := StateT State (Except String)

namespace State

/-- Sector `sec` with the first `BSIZE` bytes of `buf`. -/
def putSector (s : State) (sec : Nat) (buf : Nat → UInt8) : State :=
  { s with
    img := Function.update s.img sec fun i => if i < bsize then buf i else 0
    sectors := max s.sectors (sec + 1) }

/-- Inode `inum` as the image holds it. -/
def inode (s : State) (inum : Nat) : Dinode :=
  Dinode.ofBytes (window (s.img (iblock inum)) (slotOf inum) dinodeSize)

/-- The image with `din` in the slot of inode `inum`. -/
def putInode (s : State) (inum : Nat) (din : Dinode) : State :=
  s.putSector (iblock inum) (place (s.img (iblock inum)) (slotOf inum) din.toBytes)

end State

/-- The image `open(argv[1], O_RDWR|O_CREAT|O_TRUNC, 0666)` starts from: an empty file. -/
def initial : State where
  img _ _ := 0
  sectors := 0
  freeinode := 1
  freeblock := 0

/-- `wsect(sec, buf)`. -/
def wsect (sec : Nat) (buf : Nat → UInt8) : MkfsM Unit := modify (·.putSector sec buf)

/-- `rsect(sec, buf)`: the bytes of sector `sec`. -/
def rsect (sec : Nat) : MkfsM (Nat → UInt8) := do
  let s ← get
  if sec < s.sectors then return s.img sec else throw "read"

/-- `winode(inum, ip)`. -/
def winode (inum : Nat) (din : Dinode) : MkfsM Unit := do
  let bn := iblock inum
  let buf ← rsect bn
  wsect bn (place buf (slotOf inum) din.toBytes)

/-- `rinode(inum, ip)`. -/
def rinode (inum : Nat) : MkfsM Dinode := do
  let buf ← rsect (iblock inum)
  return Dinode.ofBytes (window buf (slotOf inum) dinodeSize)

/-- `ialloc(type)`. -/
def ialloc (type : UInt16) : MkfsM Nat := do
  let inum := (← get).freeinode
  modify fun s => { s with freeinode := s.freeinode + 1 }
  winode inum { type, major := 0, minor := 0, nlink := 1, size := 0, addrs := fun _ => 0 }
  return inum

/-- `balloc(used)`. -/
def balloc (used : Nat) : MkfsM Unit := do
  if ¬used < bsize * 8 then throw "assert: used < BSIZE*8"
  wsect bmapstart (bitmap used)

/-- `xint(freeblock++)`. -/
def takeBlock : MkfsM Nat :=
  modifyGet fun s => (s.freeblock, { s with freeblock := s.freeblock + 1 })

/-- The block of file block `fbn` as the loop of `iappend` finds it, a direct block or an entry
of the indirect block; an address that is `0` is first given `freeblock++`, and the indirect
block is written back. -/
def fileBlock (din : Dinode) (fbn : Nat) : MkfsM (Dinode × Nat) := do
  if direct : fbn < nDirect then
    let j : Fin (nDirect + 1) := ⟨fbn, by omega⟩
    let din ← if din.addrs j = 0 then do
        let b ← takeBlock
        pure (din.setAddr j b)
      else pure din
    return (din, (din.addrs j).toNat)
  else
    let din ← if din.addrs (Fin.last nDirect) = 0 then do
        let b ← takeBlock
        pure (din.setAddr (Fin.last nDirect) b)
      else pure din
    let ind := (din.addrs (Fin.last nDirect)).toNat
    let indirect ← rsect ind
    let indirect ← if entry indirect (fbn - nDirect) = 0 then do
        let b ← takeBlock
        let indirect := setEntry indirect (fbn - nDirect) b
        wsect ind indirect
        pure indirect
      else pure indirect
    return (din, entry indirect (fbn - nDirect))

/-- The loop of `iappend(inum, p, n)`, from the inode `din` in memory at offset `off`: each
turn copies into the block of `off` as much of `p` as fits. It returns the inode and the
offset at the end. -/
def iappendLoop (din : Dinode) (off : Nat) : List UInt8 → MkfsM (Dinode × Nat)
  | [] => return (din, off)
  | b :: rest => do
    let fbn := off / bsize
    if ¬fbn < maxFile then throw "assert: fbn < MAXFILE"
    let (din, x) ← fileBlock din fbn
    let n1 := min (b :: rest).length ((fbn + 1) * bsize - off)
    let buf ← rsect x
    wsect x (place buf (off - fbn * bsize) ((b :: rest).take n1))
    iappendLoop din (off + n1) ((b :: rest).drop n1)
termination_by p => p.length
decreasing_by
  have inBlock : off < (off / bsize + 1) * bsize := by rw [bsize_eq]; omega
  simp only [List.length_drop, List.length_cons]
  omega

/-- `iappend(inum, p, n)`. -/
def iappend (inum : Nat) (p : List UInt8) : MkfsM Unit := do
  let din ← rinode inum
  let (din, off) ← iappendLoop din din.size.toNat p
  winode inum { din with size := UInt32.ofNat off }

/-- `while((cc = read(fd, buf, sizeof(buf))) > 0) iappend(inum, buf, cc);` over the bytes of
a file. -/
def appendFile (inum : Nat) : List UInt8 → MkfsM Unit
  | [] => pure ()
  | b :: rest => do
    iappend inum ((b :: rest).take bsize)
    appendFile inum ((b :: rest).drop bsize)
termination_by content => content.length
decreasing_by
  simp only [List.length_drop, List.length_cons, bsize_eq]
  omega

/-- One turn of the loop of `main` over the files: the name is checked for `/` and loses a
leading `_`; the file gets a new inode and an entry in the root directory. -/
def addFile (rootino : Nat) (file : List UInt8 × List UInt8) : MkfsM Unit := do
  if '/'.toUInt8 ∈ file.1 then throw "assert: index(argv[i], \x27/\x27) == 0"
  let name := if file.1.head? = some '_'.toUInt8 then file.1.tail else file.1
  let inum ← ialloc tFile
  iappend rootino (dirent inum name)
  appendFile inum file.2

/-- `main(argc, argv)` with the files `argv[2..]`. -/
def main (files : List (List UInt8 × List UInt8)) : MkfsM Unit := do
  modify fun s => { s with freeblock := nmeta }
  (List.range fsSize).forM fun i => wsect i fun _ => 0
  wsect 1 (place (fun _ => 0) 0 superblock)
  let rootino ← ialloc tDir
  if rootino ≠ rootIno then throw "assert: rootino == ROOTINO"
  iappend rootino (dirent rootino (cstr "."))
  iappend rootino (dirent rootino (cstr ".."))
  files.forM (addFile rootino)
  -- fix size of root inode dir
  let din ← rinode rootino
  let off := din.size.toNat
  let off := (off / bsize + 1) * bsize
  winode rootino { din with size := UInt32.ofNat off }
  balloc (← get).freeblock

/-! ### Reading back what was written -/

section Image

variable {s : State}

@[simp] theorem putSector_freeblock (sec : Nat) (buf : Nat → UInt8) :
    (s.putSector sec buf).freeblock = s.freeblock := rfl

@[simp] theorem putSector_freeinode (sec : Nat) (buf : Nat → UInt8) :
    (s.putSector sec buf).freeinode = s.freeinode := rfl

@[simp] theorem putSector_sectors (sec : Nat) (buf : Nat → UInt8) :
    (s.putSector sec buf).sectors = max s.sectors (sec + 1) := rfl

theorem putSector_img_self {sec i : Nat} (buf : Nat → UInt8) (within : i < bsize) :
    (s.putSector sec buf).img sec i = buf i := by
  simp [State.putSector, within]

theorem putSector_img_of_ne {sec b : Nat} (buf : Nat → UInt8) (other : b ≠ sec) :
    (s.putSector sec buf).img b = s.img b := by
  simp [State.putSector, other]

/-- A write of another sector leaves an inode. -/
theorem putSector_inode {sec inum : Nat} (buf : Nat → UInt8) (other : iblock inum ≠ sec) :
    (s.putSector sec buf).inode inum = s.inode inum := by
  simp only [State.inode, putSector_img_of_ne buf other]

/-- The slot of an inode lies inside its block. -/
theorem slotOf_add_le (inum : Nat) : slotOf inum + dinodeSize ≤ bsize := by
  rw [slotOf_eq, bsize_eq, dinodeSize]
  omega

/-- **`winode` then `rinode`** reads back the inode written. -/
@[simp] theorem putInode_inode_self (inum : Nat) (din : Dinode) :
    (s.putInode inum din).inode inum = din := by
  have kept : window ((s.putInode inum din).img (iblock inum)) (slotOf inum) dinodeSize =
      window (place (s.img (iblock inum)) (slotOf inum) din.toBytes) (slotOf inum)
        din.toBytes.length := by
    rw [Dinode.length_toBytes]
    refine window_congr fun j within => ?_
    exact putSector_img_self _ (by have := slotOf_add_le inum; omega)
  rw [State.inode, kept, window_place_self, Dinode.ofBytes_toBytes]

/-- `winode` leaves every other inode: another block, or another slot of the same block. -/
theorem putInode_inode_of_ne {inum i : Nat} (din : Dinode) (other : i ≠ inum) :
    (s.putInode inum din).inode i = s.inode i := by
  by_cases same : iblock i = iblock inum
  · have apart : slotOf i + dinodeSize ≤ slotOf inum ∨ slotOf inum + dinodeSize ≤ slotOf i := by
      rw [iblock_eq, iblock_eq] at same
      rw [slotOf_eq, slotOf_eq, dinodeSize]
      omega
    have kept : window ((s.putInode inum din).img (iblock i)) (slotOf i) dinodeSize =
        window (place (s.img (iblock inum)) (slotOf inum) din.toBytes) (slotOf i) dinodeSize :=
      window_congr fun j within => by
        rw [same]
        exact putSector_img_self _ (by have := slotOf_add_le i; omega)
    rw [State.inode, State.inode, kept, window_place_of_disjoint (by simpa using apart), same]
  · exact putSector_inode _ same

theorem putInode_img_of_ne {inum b : Nat} (din : Dinode) (other : b ≠ iblock inum) :
    (s.putInode inum din).img b = s.img b :=
  putSector_img_of_ne _ other

@[simp] theorem putInode_freeblock (inum : Nat) (din : Dinode) :
    (s.putInode inum din).freeblock = s.freeblock := rfl

@[simp] theorem putInode_freeinode (inum : Nat) (din : Dinode) :
    (s.putInode inum din).freeinode = s.freeinode := rfl

@[simp] theorem putInode_sectors (inum : Nat) (din : Dinode) :
    (s.putInode inum din).sectors = max s.sectors (iblock inum + 1) := rfl

end Image

section Entries

variable {block : Nat → UInt8}

theorem entry_lt (block : Nat → UInt8) (k : Nat) : entry block k < 2 ^ 32 := by
  have := leValue_lt (window block (4 * k) 4)
  simpa [entry] using this

/-- An entry reads back what was stored, as a `uint`. -/
theorem entry_setEntry_self (k v : Nat) : entry (setEntry block k v) k = v % 2 ^ 32 := by
  have read := window_place_self block (4 * k) (leBytes 4 v)
  rw [length_leBytes] at read
  rw [entry, setEntry, read, leValue_leBytes]
  rfl

theorem entry_setEntry_of_ne {k k' : Nat} (v : Nat) (other : k' ≠ k) :
    entry (setEntry block k v) k' = entry block k' := by
  rw [entry, setEntry, window_place_of_disjoint (by simp; omega), entry]

/-- The entries of a block are read from its first `BSIZE` bytes. -/
theorem entry_congr {block' : Nat → UInt8} {k : Nat} (entryIn : k < nIndirect)
    (agree : ∀ i < bsize, block i = block' i) : entry block k = entry block' k := by
  rw [entry, entry, window_congr fun j within => agree _ ?_]
  unfold nIndirect at entryIn
  rw [bsize_eq] at entryIn ⊢
  omega

/-- The entries of a zeroed block are `0`. -/
theorem entry_of_zero {k : Nat} (zero : ∀ j < 4, block (4 * k + j) = 0) : entry block k = 0 := by
  rw [entry, window_congr (g := fun _ => 0) zero]
  rfl

end Entries

/-! ### What each function does -/

section Specs

variable {s : State} {E : String → Prop} {α : Type}

theorem wsect_ends {sec : Nat} {buf : Nat → UInt8} {P : Unit → State → Prop}
    (holds : P () (s.putSector sec buf)) : Ends (wsect sec buf) s E P :=
  Ends.modify holds

theorem rsect_ends {sec : Nat} {P : (Nat → UInt8) → State → Prop} (readable : sec < s.sectors)
    (holds : P (s.img sec) s) : Ends (rsect sec) s E P := by
  unfold rsect
  exact Ends.bind (Ends.get (Ends.ite (fun _ => Ends.pure holds) fun unreadable =>
    absurd readable unreadable))

theorem rsect_fails {sec : Nat} {P : (Nat → UInt8) → State → Prop} (past : s.sectors ≤ sec)
    (read : E "read") : Ends (rsect sec) s E P := by
  unfold rsect
  exact Ends.bind (Ends.get (Ends.ite (fun readable => absurd past (Nat.not_le.mpr readable))
    fun _ => Ends.throw read))

theorem winode_ends {inum : Nat} {din : Dinode} {P : Unit → State → Prop}
    (readable : iblock inum < s.sectors) (holds : P () (s.putInode inum din)) :
    Ends (winode inum din) s E P := by
  unfold winode
  exact Ends.bind (rsect_ends readable (wsect_ends holds))

theorem rinode_ends {inum : Nat} {P : Dinode → State → Prop} (readable : iblock inum < s.sectors)
    (holds : P (s.inode inum) s) : Ends (rinode inum) s E P := by
  unfold rinode
  exact Ends.bind (rsect_ends readable (Ends.pure holds))

theorem takeBlock_ends {P : Nat → State → Prop}
    (holds : P s.freeblock { s with freeblock := s.freeblock + 1 }) :
    Ends takeBlock s E P :=
  Ends.modifyGet holds

/-- The inode `ialloc(type)` writes. -/
def Dinode.fresh (type : UInt16) : Dinode :=
  { type, major := 0, minor := 0, nlink := 1, size := 0, addrs := fun _ => 0 }

/-- **`ialloc`** writes a zeroed inode of the type at `freeinode` and returns it. -/
theorem ialloc_ends {type : UInt16} {P : Nat → State → Prop}
    (readable : iblock s.freeinode < s.sectors)
    (holds : P s.freeinode
      ({ s with freeinode := s.freeinode + 1 }.putInode s.freeinode (Dinode.fresh type))) :
    Ends (ialloc type) s E P := by
  unfold ialloc
  exact Ends.bind (Ends.get (Ends.bind (Ends.modify (Ends.bind (winode_ends readable
    (Ends.pure holds))))))

/-- **`balloc(used)`** with fewer blocks than the bits of one bitmap block writes the bitmap. -/
theorem balloc_ends {used : Nat} {P : Unit → State → Prop} (fits : used < bsize * 8)
    (holds : P () (s.putSector bmapstart (bitmap used))) : Ends (balloc used) s E P := by
  unfold balloc
  exact Ends.ite (fun out => absurd fits out) fun _ => wsect_ends holds

end Specs

end Xv6.Mkfs
