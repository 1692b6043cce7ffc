import Xv6.File.Table
import Xv6.Fs.Sysfile
import Xv6.Lib.Ends

/-!
**`sys_open` over the file system.**

The state of `Xv6.Fs` with `ftable` and the descriptors `ofile` of each process. `sys_open`
resolves or creates the inode, then takes a file (`filealloc`) and a descriptor (`fdalloc`);
when either fails it closes the file and drops the inode (`iunlockput`), and returns `-1`. The
inode `create` made is then left in the directory. System calls run one at a time, as in
`Xv6.Fs`, so each is a computation of `FileM`.

* `open_fails_after_create` — from the `mkfs` image, a process that has opened `README`
  `NOFILE` times calls `open("x", O_CREATE | O_RDWR)`: it returns `-1` with no descriptor
  taken, and the root directory now has an entry `x` for a new `T_FILE` inode.
-/

namespace Xv6

/-- `O_RDONLY` of `fcntl.h`. -/
def oRdonly : Nat := 0x000

/-- `O_WRONLY`. -/
def oWronly : Nat := 0x001

/-- `O_RDWR`. -/
def oRdwr : Nat := 0x002

/-- `O_CREATE`. -/
def oCreate : Nat := 0x200

/-- The file system, `ftable`, and the descriptors of each of `k` processes. -/
structure FileState (k : Nat) where
  fs : FsState k
  ftable : Fin nfile → File
  ofile : Fin k → Fin nofile → Option (Fin nfile)

/-- A system call on files: it changes the state or panics with a message. -/
abbrev FileM (k : Nat) := StateT (FileState k) (Except String)

section Open

variable {k : Nat} {α : Type}

/-- A computation of the inode layer, on the file system part of the state. -/
def liftFs (m : FsM k α) : FileM k α := fun s => do
  let (a, fs) ← m.run s.fs
  pure (a, { s with fs })

/-- `fileclose(f)`: the critical section, then the release of what the last reference held:
`iput` of its inode, in a transaction of its own. No call of this model makes a pipe, so a file
of type `FD_PIPE` has no pipe here to close. -/
def fileclose (f : Fin nfile) : FileM k Unit := do
  let s ← get
  match filecloseLocked s.ftable f with
  | .error message => throw message
  | .ok (ff, ftable) =>
    set { s with ftable }
    if let some ff := ff then
      if ff.type = .inode then liftFs (iput ff.ip)

/-- `sys_open(path, omode)` by process `p`. -/
def sysOpen (p : Fin k) (path : List Char) (omode : Nat) : FileM k Int := do
  let found ← liftFs do
    if omode &&& oCreate ≠ 0 then create p path .file
    else
      let some (ip, _) ← namex p path false | return none
      ilock ip
      if ((← get).disk ip).type = .dir ∧ omode ≠ oRdonly then
        iput ip
        return none
      return some ip
  let some ip := found | return -1
  match filealloc (← get).ftable with
  | none =>
    liftFs (iput ip)
    return -1
  | some (f, ftable) =>
    modify fun s => { s with ftable }
    match fdalloc ((← get).ofile p) f with
    | none =>
      fileclose f
      liftFs (iput ip)
      return -1
    | some (fd, ofile) =>
      -- `iunlock(ip)`: the reference `namei` or `create` took goes to the file
      modify fun s =>
        { s with
          ofile := Function.update s.ofile p ofile
          ftable := Function.update s.ftable f
            { s.ftable f with
              type := .inode
              ip
              off := 0
              readable := omode &&& oWronly = 0
              writable := omode &&& oWronly ≠ 0 ∨ omode &&& oRdwr ≠ 0 } }
      return fd

/-- The system calls of this model. -/
inductive FileCall
  | dir (call : FsCall)
  | open (path : List Char) (omode : Nat)
  deriving DecidableEq, Repr

/-- One system call by process `p`. -/
def FileCall.run (p : Fin k) : FileCall → FileM k Int
  | .dir call => liftFs (call.run p)
  | .open path omode => sysOpen p path omode

/-- What the calls return, one after another, and the state after them; or the first panic. -/
def runFileCalls (s : FileState k) : List (Fin k × FileCall) → Except String (List Int × FileState k)
  | [] => .ok ([], s)
  | (p, call) :: calls =>
    match (call.run p).run s with
    | .ok (r, s') =>
      match runFileCalls s' calls with
      | .ok (rs, s'') => .ok (r :: rs, s'')
      | .error message => .error message
    | .error message => .error message

end Open

/-- The image of `mkfs`, with the zeroed `ftable` and no descriptor in use. -/
def fileInit (k : Nat) (files : List (List Char)) : FileState k where
  fs := mkfs k files
  ftable _ := File.zero
  ofile _ _ := none

/-- The first process of the `mkfs` image opens `README` `NOFILE` times. -/
def readmeOpened : Except String (List Int × FileState 1) :=
  runFileCalls (fileInit 1 fsImgFiles) (List.replicate nofile (0, .open "README".toList oRdonly))

/-- **`sys_open` fails after `create`.** Every descriptor of the process is in use, so `fdalloc`
fails after `create` has made `x`: the call returns `-1` and takes no descriptor, but the root
directory, which had no `x`, names a new `T_FILE` inode `x`. -/
theorem open_fails_after_create :
    ∃ s s', readmeOpened = .ok ((List.range nofile).map Nat.cast, s) ∧
      (sysOpen 0 "x".toList (oCreate ||| oRdwr)).run s = .ok (-1, s') ∧
      (∀ de ∈ (s.fs.disk rootIno).dirents, de.name ≠ "x".toList) ∧
      (∃ de ∈ (s'.fs.disk rootIno).dirents,
        de.name = "x".toList ∧ (s'.fs.disk de.inum).type = .file ∧ (s.fs.disk de.inum).type = .free) ∧
      s'.ofile = s.ofile := by
  obtain ⟨⟨rets, s⟩, ran, counted, absent, later⟩ := Lib.exists_of_okWith (x := readmeOpened)
    (P := fun r => r.1 = (List.range nofile).map Nat.cast ∧
      (∀ de ∈ (r.2.fs.disk rootIno).dirents, de.name ≠ "x".toList) ∧
      -- the failing call, checked from the state it starts in
      Lib.okWith (fun r' : Int × FileState 1 => r'.1 = -1 ∧
        (∃ de ∈ (r'.2.fs.disk rootIno).dirents,
          de.name = "x".toList ∧ (r'.2.fs.disk de.inum).type = .file ∧
            (r.2.fs.disk de.inum).type = .free) ∧
        r'.2.ofile = r.2.ofile)
        ((sysOpen 0 "x".toList (oCreate ||| oRdwr)).run r.2) = true)
    (by decide +kernel)
  obtain ⟨⟨ret, s'⟩, opened, failed, created, kept⟩ := Lib.exists_of_okWith later
  exact ⟨s, s', by rw [ran, show rets = _ from counted], by rw [opened, show ret = -1 from failed],
    absent, created, kept⟩

end Xv6
