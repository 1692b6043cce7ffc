import Mathlib

/-!
**Kernel parameters.**

The constants of `param.h`, `fs.h` and `memlayout.h` that the models use, under their source names in this
project's case convention (`MAXOPBLOCKS` is `maxOpBlocks`, `LOGSIZE` is `logSize`, and so on).
-/

namespace Xv6

/-- `NPROC`: the maximum number of processes. -/
def nproc : Nat := 64

/-- `NCPU`: the maximum number of CPUs. -/
def ncpu : Nat := 8

/-- `NOFILE`: the open files of a process. -/
def nofile : Nat := 16

/-- `NFILE`: the open files of the system. -/
def nfile : Nat := 100

instance : NeZero nofile := ⟨by decide⟩

instance : NeZero nfile := ⟨by decide⟩

/-- `MAXOPBLOCKS`: the most blocks any FS operation writes. -/
def maxOpBlocks : Nat := 10

/-- `LOGSIZE`: the most data blocks in the on-disk log. -/
def logSize : Nat := maxOpBlocks * 3

/-- `BSIZE`: the block size in bytes. -/
def bsize : Nat := 512

/-- `NINODE`: the number of entries of the inode cache. -/
def nInode : Nat := 50

/-- `NDIRECT`: the direct block addresses of an inode. -/
def nDirect : Nat := 12

/-- `NINDIRECT`: the addresses in the indirect block, `BSIZE / sizeof(uint)`. -/
def nIndirect : Nat := bsize / 4

/-- `MAXFILE`: the most blocks of a file. -/
def maxFile : Nat := nDirect + nIndirect

/-- `DIRSIZ`: the length of a name in a directory entry. -/
def dirSiz : Nat := 14

/-- `ROOTINO`: the inode number of the root directory. -/
def rootIno : Nat := 1

/-- `MAXARG`: the most arguments of `exec`. -/
def maxArg : Nat := 32

/-- `KERNBASE`: the first kernel virtual address. -/
def kernBase : Nat := 0x80000000

theorem bsize_eq : bsize = 512 := rfl

theorem maxFile_eq : maxFile = 140 := rfl

end Xv6
