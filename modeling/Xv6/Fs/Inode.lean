import Xv6.Param
import Mathlib.Data.List.Basic

/-!
**Inodes and directories: the logical layer of `fs.c`.**

A disk inode (`Dinode`) has a type, a link count and, for a directory, its entries: one
`struct dirent` per 16 bytes, so the size of a directory is `16` times its number of entries.
The blocks that hold them are not modelled (`bmap` and `balloc` always succeed here). The inode
cache keeps, for each inode number, the reference count `ref` and the flag `valid` of its
entry; the fields it caches are those of the disk inode, which `iupdate` writes through after
every change.

Each function runs in `FsM`: state passing, and a `panic` as an error with its message. A
system call runs alone (it holds the locks it takes until it returns), so the sleep-locks of the
inodes and `begin_op`/`end_op` are not modelled.
-/

namespace Xv6

/-- The `type` of a disk inode: `0` for a free one, `T_DIR`, `T_FILE` or `T_DEV`. -/
inductive InodeType
  | free
  | dir
  | file
  | dev
  deriving DecidableEq, Repr

/-- `struct dirent`: an inode number, a `ushort` that is `0` for a free slot, and a name of at most
`DIRSIZ` characters. -/
structure Dirent where
  inum : Nat
  name : List Char
  deriving DecidableEq, Repr

/-- `struct dinode`, with the entries of a directory as its content. -/
structure Dinode where
  type : InodeType
  nlink : Int16
  dirents : List Dirent
  deriving DecidableEq, Repr

/-- The size of a `struct dirent` in bytes. -/
def direntSize : Nat := 16

/-- `NINODES` of `mkfs`: the inodes of the disk, numbered from `0`; `0` is never used. -/
def nInodes : Nat := 200

/-- The disk inodes and the inode cache, and the current directory of each of `k`
processes. -/
structure FsState (k : Nat) where
  disk : Nat → Dinode
  /-- `ref` of the cache entry of each inode number, `0` when it has none -/
  ref : Nat → Nat
  /-- `valid` of the cache entry of each inode number -/
  valid : Nat → Bool
  cwd : Fin k → Nat

/-- A computation of the file system: it changes the state or panics with a message. -/
abbrev FsM (k : Nat) := StateT (FsState k) (Except String)

/-- `namecmp(s, t) == 0`: the names agree on their first `DIRSIZ` characters. -/
def namecmp (s t : List Char) : Bool := s.take dirSiz == t.take dirSiz

namespace FsState

variable {k : Nat}

/-- Change one disk inode (and, through `iupdate`, its cached copy). -/
def modifyInode (s : FsState k) (inum : Nat) (f : Dinode → Dinode) : FsState k :=
  { s with disk := Function.update s.disk inum (f (s.disk inum)) }

end FsState

section Layer

variable {k : Nat}

/-- `iget(dev, inum)`: take a reference to the cache entry of `inum`, or recycle a free entry
for it, which then holds nothing valid. -/
def iget (inum : Nat) : FsM k Unit := do
  let s ← get
  if 0 < s.ref inum then set { s with ref := Function.update s.ref inum (s.ref inum + 1) }
  else if nInode ≤ ((List.range nInodes).filter fun i => 0 < s.ref i).length then
    throw "iget: no inodes"
  else
    set { s with ref := Function.update s.ref inum 1, valid := Function.update s.valid inum false }

/-- `idup(ip)`. -/
def idup (inum : Nat) : FsM k Unit :=
  modify fun s => { s with ref := Function.update s.ref inum (s.ref inum + 1) }

/-- `ilock(ip)`: read the inode from the disk if its entry holds nothing valid. -/
def ilock (inum : Nat) : FsM k Unit := do
  let s ← get
  if s.ref inum < 1 then throw "ilock"
  if !s.valid inum then
    set { s with valid := Function.update s.valid inum true }
    if (s.disk inum).type = .free then throw "ilock: no type"

/-- `iput(ip)`: drop a reference; the last reference to an inode with no links frees it
(`itrunc`, `type = 0`). -/
def iput (inum : Nat) : FsM k Unit :=
  modify fun s =>
    let s :=
      if s.valid inum = true ∧ (s.disk inum).nlink = 0 ∧ s.ref inum = 1 then
        { s.modifyInode inum (fun d => { d with type := .free, dirents := [] }) with
          valid := Function.update s.valid inum false }
      else s
    { s with ref := Function.update s.ref inum (s.ref inum - 1) }

/-- `ialloc(dev, type)`: the first free inode from `1`, zeroed and given `type`. -/
def ialloc (type : InodeType) : FsM k Nat := do
  let s ← get
  match (List.range' 1 (nInodes - 1)).find? (fun inum => (s.disk inum).type = .free) with
  | some inum =>
    set (s.modifyInode inum fun _ => ⟨type, 0, []⟩)
    iget inum
    return inum
  | none => throw "ialloc: no inodes"

/-- `ip->nlink += delta; iupdate(ip)`, in the 16 bits of a `short`. -/
def addLink (inum : Nat) (delta : Int16) : FsM k Unit :=
  modify fun s => s.modifyInode inum fun d => { d with nlink := d.nlink + delta }

/-- `dirlookup(dp, name, &off)`: the first entry in use with the name, as its inode, now
referenced, and its slot. -/
def dirlookup (dp : Nat) (name : List Char) : FsM k (Option (Nat × Nat)) := do
  let s ← get
  if (s.disk dp).type ≠ .dir then throw "dirlookup not DIR"
  match (s.disk dp).dirents.zipIdx.find? (fun e => e.1.inum ≠ 0 ∧ namecmp name e.1.name) with
  | some (de, off) =>
    iget de.inum
    return some (de.inum, off)
  | none => return none

/-- `writei(dp, &de, off, sizeof(de))` of one entry at slot `off`, which is in the directory
or just past its end: `-1` past `MAXFILE` blocks. -/
def writeDirent (dp off : Nat) (de : Dirent) : FsM k Int := do
  let s ← get
  let dirents := (s.disk dp).dirents
  if dirents.length < off then return -1
  if maxFile * bsize < direntSize * off + direntSize then return -1
  set (s.modifyInode dp fun d =>
    { d with dirents := if off < dirents.length then dirents.set off de else dirents ++ [de] })
  return direntSize

/-- `dirlink(dp, name, inum)`: `-1` if the name is there; else the entry goes to the first
free slot, or past the end. -/
def dirlink (dp : Nat) (name : List Char) (inum : Nat) : FsM k Int := do
  match ← dirlookup dp name with
  | some (ip, _) =>
    iput ip
    return -1
  | none =>
    let dirents := ((← get).disk dp).dirents
    let off := (dirents.findIdx? fun de => de.inum = 0).getD dirents.length
    -- `de.inum = inum` keeps the low 16 bits
    if (← writeDirent dp off ⟨inum % 65536, name.take dirSiz⟩) ≠ direntSize then throw "dirlink"
    return 0

/-- `skipelem(path, name)`: the next element of the path, cut to `DIRSIZ` characters, and what
follows it with its slashes skipped. -/
def skipelem (path : List Char) : Option (List Char × List Char) :=
  match path.dropWhile (· = '/') with
  | [] => none
  | path =>
    some ((path.takeWhile (· ≠ '/')).take dirSiz, (path.dropWhile (· ≠ '/')).dropWhile (· = '/'))

/-- The elements `namex`'s loop takes from a path, one `skipelem` each (each takes a character
at least, so the length of the path bounds their number). -/
def pathElems (path : List Char) : List (List Char) :=
  go path.length path
where
  go : Nat → List Char → List (List Char)
    | 0, _ => []
    | fuel + 1, path =>
      match skipelem path with
      | none => []
      | some (name, rest) => name :: go fuel rest

/-- `namex`'s loop from inode `ip` over the elements left: the inode reached, or with
`nameiparent` its parent and the last element. -/
def namexLoop (nameiparent : Bool) : Nat → List (List Char) → FsM k (Option (Nat × List Char))
  | ip, [] => do
    if nameiparent then
      iput ip
      return none
    return some (ip, [])
  | ip, name :: rest => do
    ilock ip
    if ((← get).disk ip).type ≠ .dir then
      iput ip
      return none
    if nameiparent ∧ rest = [] then return some (ip, name)
    match ← dirlookup ip name with
    | none =>
      iput ip
      return none
    | some (next, _) =>
      iput ip
      namexLoop nameiparent next rest

/-- `namex(path, nameiparent, name)` for process `p`: from the root for an absolute path, else
from its current directory. -/
def namex (p : Fin k) (path : List Char) (nameiparent : Bool) : FsM k (Option (Nat × List Char)) := do
  let start ← if path.head? = some '/' then do iget rootIno; pure rootIno
    else do
      let cwd := (← get).cwd p
      idup cwd
      pure cwd
  namexLoop nameiparent start (pathElems path)

end Layer

end Xv6
