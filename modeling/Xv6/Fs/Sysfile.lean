import Xv6.Fs.Inode

/-!
**The directory system calls of `sysfile.c`, and the image `mkfs` writes.**

`create`, `sys_mkdir`, `sys_mknod`, `sys_chdir`, `sys_unlink` and `sys_link` over the inode layer
of `Xv6.Fs.Inode`, each returning what the call returns (`0` or `-1`), or panicking. `mkfs`
builds the root directory with `.`, `..` and one entry per file, its size rounded up to the
next block; every inode it makes has one link. `runCalls` runs system calls one after another
from a state.
-/

namespace Xv6

section Calls

variable {k : Nat}

/-- `create(path, type, major, minor)`: the inode, referenced and locked, or none. -/
def create (p : Fin k) (path : List Char) (type : InodeType) : FsM k (Option Nat) := do
  let some (dp, name) ← namex p path true | return none
  ilock dp
  match ← dirlookup dp name with
  | some (ip, _) =>
    iput dp
    ilock ip
    if type = .file ∧ ((← get).disk ip).type = .file then return some ip
    iput ip
    return none
  | none =>
    -- `ialloc` panics itself when no inode is free, so "create: ialloc" cannot be reached
    let ip ← ialloc type
    ilock ip
    modify fun s => s.modifyInode ip fun d => { d with nlink := 1 }
    if type = .dir then
      -- for "..", but no `ip->nlink++` for ".": avoid a cyclic count
      addLink dp 1
      if (← dirlink ip ".".toList ip) < 0 then throw "create dots"
      if (← dirlink ip "..".toList dp) < 0 then throw "create dots"
    if (← dirlink dp name ip) < 0 then throw "create: dirlink"
    iput dp
    return some ip

/-- `sys_mkdir(path)`. -/
def sysMkdir (p : Fin k) (path : List Char) : FsM k Int := do
  let some ip ← create p path .dir | return -1
  iput ip
  return 0

/-- `sys_mknod(path, major, minor)`. -/
def sysMknod (p : Fin k) (path : List Char) : FsM k Int := do
  let some ip ← create p path .dev | return -1
  iput ip
  return 0

/-- `sys_chdir(path)`. -/
def sysChdir (p : Fin k) (path : List Char) : FsM k Int := do
  let some (ip, _) ← namex p path false | return -1
  ilock ip
  if ((← get).disk ip).type ≠ .dir then
    iput ip
    return -1
  iput ((← get).cwd p)
  modify fun s => { s with cwd := Function.update s.cwd p ip }
  return 0

/-- `isdirempty(dp)`: no entry in use past `.` and `..`. -/
def isdirempty (d : Dinode) : Bool := (d.dirents.drop 2).all fun de => de.inum = 0

/-- `sys_unlink(path)`: clear the entry, and take a link off the inode (and off its parent for a
directory, for its `..`). -/
def sysUnlink (p : Fin k) (path : List Char) : FsM k Int := do
  let some (dp, name) ← namex p path true | return -1
  ilock dp
  -- cannot unlink "." or ".."
  if namecmp name ".".toList ∨ namecmp name "..".toList then
    iput dp
    return -1
  let some (ip, off) ← dirlookup dp name
    | do
      iput dp
      return -1
  ilock ip
  let d := (← get).disk ip
  if d.nlink < 1 then throw "unlink: nlink < 1"
  if d.type = .dir ∧ !isdirempty d then
    iput ip
    iput dp
    return -1
  if (← writeDirent dp off ⟨0, []⟩) ≠ direntSize then throw "unlink: writei"
  if d.type = .dir then addLink dp (-1)
  iput dp
  addLink ip (-1)
  iput ip
  return 0

/-- `sys_link(old, new)`: the link count goes up before the entry is made, and back down if it
cannot be. -/
def sysLink (p : Fin k) (old new : List Char) : FsM k Int := do
  let some (ip, _) ← namex p old false | return -1
  ilock ip
  if ((← get).disk ip).type = .dir then
    iput ip
    return -1
  addLink ip 1
  let bad : FsM k Int := do
    ilock ip
    addLink ip (-1)
    iput ip
    return -1
  let some (dp, name) ← namex p new true | bad
  ilock dp
  if (← dirlink dp name ip) < 0 then
    iput dp
    bad
  else
    iput dp
    iput ip
    return 0

/-- The system calls on directories. -/
inductive FsCall
  | mkdir (path : List Char)
  | mknod (path : List Char)
  | chdir (path : List Char)
  | unlink (path : List Char)
  | link (old new : List Char)
  deriving DecidableEq, Repr

/-- One system call by process `p`. -/
def FsCall.run (p : Fin k) : FsCall → FsM k Int
  | .mkdir path => sysMkdir p path
  | .mknod path => sysMknod p path
  | .chdir path => sysChdir p path
  | .unlink path => sysUnlink p path
  | .link old new => sysLink p old new

/-- The state after the calls, one after another, or the first panic. -/
def runCalls (s : FsState k) : List (Fin k × FsCall) → Except String (FsState k)
  | [] => .ok s
  | (p, call) :: calls =>
    match (call.run p).run s with
    | .ok (_, s') => runCalls s' calls
    | .error message => .error message

/-- The panic a run ended with, if any. -/
def panicOf : Except String (FsState k) → Option String
  | .ok _ => none
  | .error message => some message

/-- A run that computes to a state with a decidable property reaches such a state. -/
theorem runCalls_exists {s : FsState k} {calls : List (Fin k × FsCall)} {P : FsState k → Prop}
    [DecidablePred P]
    (ends : (match runCalls s calls with
      | .ok s' => decide (P s')
      | .error _ => false) = true) :
    ∃ s', runCalls s calls = .ok s' ∧ P s' := by
  cases ran : runCalls s calls with
  | error =>
    rw [ran] at ends
    cases ends
  | ok s' =>
    rw [ran] at ends
    exact ⟨s', rfl, of_decide_eq_true ends⟩

end Calls

/-! ### The image of `mkfs` -/

/-- The root directory `mkfs` writes: `.`, `..` and an entry for each file, at inodes from `2`
on, then free slots up to the next block. -/
def mkfsRoot (files : List (List Char)) : List Dirent :=
  let entries := ⟨rootIno, ".".toList⟩ :: ⟨rootIno, "..".toList⟩ ::
    files.zipIdx.map fun (name, i) => ⟨i + 2, name.take dirSiz⟩
  let slots := bsize / direntSize
  entries ++ List.replicate ((entries.length / slots + 1) * slots - entries.length) ⟨0, []⟩

/-- The file system `mkfs` makes from `files` (the leading `_` of each already dropped), with
`k` processes in the root directory, as `userinit` and `fork` leave them. -/
def mkfs (k : Nat) (files : List (List Char)) : FsState k where
  disk inum :=
    if inum = rootIno then ⟨.dir, 1, mkfsRoot files⟩
    else if 2 ≤ inum ∧ inum < files.length + 2 then ⟨.file, 1, []⟩
    else ⟨.free, 0, []⟩
  ref inum := if inum = rootIno then k else 0
  valid _ := false
  cwd _ := rootIno

/-- The files of `fs.img`: `README` and the user programs of the `Makefile`. -/
def fsImgFiles : List (List Char) :=
  ["README", "cat", "echo", "forktest", "grep", "init", "kill", "ln", "ls", "mkdir", "rm", "sh",
    "stressfs", "usertests", "wc", "zombie"].map String.toList

end Xv6
