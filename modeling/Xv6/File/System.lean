import Xv6.File.Table
import Xv6.File.Open

/-!
**Processes and the file table.**

`k` processes open, share and close the files of `ftable` (`nf` files, `nd` descriptors each):
`sys_open`, `sys_pipe` with `pipealloc`, `sys_dup`, `sys_close`, and the loops over `ofile` of
`fork` and `exit`. Each `ftable.lock` critical section is one step, and so is each release that
`fileclose` makes after it, `pipeclose` or an `iput` in its own transaction, during which other
processes run. A store of a process to its own `ofile`, which no other process reads, is made in
the step of the critical section next to it; `exit` clears `ofile[fd]` only after `fileclose`
has returned, release included, so that store is a step of its own.

The inode of `sys_open` is the one `namei` or `create` gave (those failing, the call returns
`-1` before it takes a file); `exec` changes no descriptor. A process that `exit`s gives its slot
back at once (`wait` is not modelled), and `fork` takes the first slot not in use. Three fields
are ghosts: `gen`, how many times each file has been allocated; `released`, each file whose pipe
end or inode was released, with the allocation it was; `pipes`, the pipes made.
-/

namespace Xv6

/-- A file whose last reference `fileclose` dropped: the copy `ff` it then releases, and (ghost)
which file of `ftable` it was and which allocation of it. -/
structure Dropped (nf : Nat) where
  ff : File
  file : Fin nf
  gen : Nat
  deriving DecidableEq, Repr

/-- Where a process is in its calls on files. -/
inductive FilePc (nf nd k : Nat)
  /-- outside the calls -/
  | idle
  /-- the child of a `fork` in progress, not yet `RUNNABLE` -/
  | embryo
  /-- `sys_open`, after `filealloc` gave `f`; `fdalloc` next -/
  | opened (f : Fin nf) (ip omode : Nat)
  /-- `pipealloc`, after its first `filealloc` -/
  | piped (rf : Fin nf)
  /-- `pipealloc`, after its second: `kalloc` of the pipe next -/
  | pipedBoth (rf wf : Fin nf)
  /-- `sys_pipe`, after `pipealloc` returned `0`: `fdalloc` of both ends next -/
  | pipeMade (rf wf : Fin nf)
  /-- `fileclose` of each of `files` in turn, references the call holds -/
  | closing (files : List (Fin nf))
  /-- `fileclose` dropped the last reference: release `d`, then close `files` -/
  | releasing (d : Dropped nf) (files : List (Fin nf))
  /-- `fork`'s loop at descriptor `fd`, copying into `child` -/
  | forking (child : Fin k) (fd : Nat)
  /-- `exit`'s loop at descriptor `fd` -/
  | exiting (fd : Nat)
  /-- `exit`'s loop: `fileclose(ofile[fd])` returned from its critical section; the release of
  `d`, if the reference was the last, then `ofile[fd] = 0` -/
  | exitClosed (fd : Fin nd) (d : Option (Dropped nf))
  deriving DecidableEq, Repr

/-- What a process goes on with after `fileclose`'s critical section, when `files` are still to
close. -/
def FilePc.afterClose {nf nd k : Nat} (files : List (Fin nf)) :
    Option (Dropped nf) → FilePc nf nd k
  | some d => .releasing d files
  | none => .closing files

/-- A slot of the process table, as the file calls see it: in use or not, `ofile`, and where it
is in its calls. -/
structure FileProc (nf nd k : Nat) where
  used : Bool
  ofile : Fin nd → Option (Fin nf)
  pc : FilePc nf nd k

/-- `ftable`, the processes, the ghosts, and the panic a step ended in, if any. -/
structure FileSystem (nf nd k : Nat) where
  ftable : Fin nf → File
  procs : Fin k → FileProc nf nd k
  /-- (ghost) how many times each file has been allocated -/
  gen : Fin nf → Nat
  /-- (ghost) each file whose pipe end or inode was released, with its allocation -/
  released : List (Fin nf × Nat)
  /-- (ghost) the pipes made -/
  pipes : Nat
  halted : Option String

/-- The steps. -/
inductive FileEvent (nf nd k : Nat)
  /-- `sys_open(path, omode)` once `namei` or `create` gave `ip`: `filealloc` -/
  | open (p : Fin k) (ip omode : Nat)
  /-- `sys_pipe`: the first `filealloc` of `pipealloc` -/
  | pipe (p : Fin k)
  /-- `sys_dup(fd)`: `fdalloc`, then `filedup` -/
  | dup (p : Fin k) (fd : Fin nd)
  /-- `sys_close(fd)`: `ofile[fd] = 0`, then `fileclose`'s critical section -/
  | close (p : Fin k) (fd : Fin nd)
  /-- `fork`, once `allocproc` and `copyuvm` succeeded -/
  | fork (p : Fin k)
  | exit (p : Fin k)
  /-- `pipealloc`: `kalloc` of the pipe succeeds or returns `0` -/
  | kalloc (p : Fin k) (ok : Bool)
  /-- the next step of the call process `p` is in -/
  | next (p : Fin k)

namespace FileSystem

variable {nf nd k : Nat}

/-- Change one process. -/
def setProc (s : FileSystem nf nd k) (p : Fin k) (f : FileProc nf nd k → FileProc nf nd k) :
    FileSystem nf nd k :=
  { s with procs := Function.update s.procs p (f (s.procs p)) }

def setPc (s : FileSystem nf nd k) (p : Fin k) (pc : FilePc nf nd k) : FileSystem nf nd k :=
  s.setProc p fun q => { q with pc }

def setOfile (s : FileSystem nf nd k) (p : Fin k) (ofile : Fin nd → Option (Fin nf)) :
    FileSystem nf nd k :=
  s.setProc p fun q => { q with ofile }

/-- Change one file. -/
def setFile (s : FileSystem nf nd k) (f : Fin nf) (g : File → File) : FileSystem nf nd k :=
  { s with ftable := Function.update s.ftable f (g (s.ftable f)) }

/-- The table `filealloc` left, which allocated `f` once more. -/
def alloc (s : FileSystem nf nd k) (f : Fin nf) (ftable : Fin nf → File) : FileSystem nf nd k :=
  { s with ftable, gen := Function.update s.gen f (s.gen f + 1) }

/-- `fileclose(f)`'s critical section by process `p`, which goes on with `next` of the file to
release, if the reference was the last. -/
def closeSection (s : FileSystem nf nd k) (p : Fin k) (f : Fin nf)
    (next : Option (Dropped nf) → FilePc nf nd k) : FileSystem nf nd k :=
  match filecloseLocked s.ftable f with
  | .error message => { s with halted := some message }
  | .ok (ff, ftable) => { s with ftable }.setPc p (next (ff.map fun ff => ⟨ff, f, s.gen f⟩))

/-- The end of `fileclose`: `pipeclose(ff.pipe, ff.writable)` for a pipe end, `iput(ff.ip)` for
an inode, nothing for `FD_NONE`. -/
def release (s : FileSystem nf nd k) (d : Dropped nf) : FileSystem nf nd k :=
  if d.ff.type = .none then s else { s with released := s.released ++ [(d.file, d.gen)] }

/-- `pipealloc` after `kalloc` gave the pipe: `rf` its read end, `wf` its write end. -/
def makePipe (s : FileSystem nf nd k) (rf wf : Fin nf) : FileSystem nf nd k :=
  { (s.setFile rf fun file =>
        { file with type := .pipe, readable := true, writable := false, pipe := s.pipes }).setFile
      wf fun file => { file with type := .pipe, readable := false, writable := true, pipe := s.pipes } with
    pipes := s.pipes + 1 }

/-- A step of process `p` from outside the calls. -/
def whenIdle (s : FileSystem nf nd k) (p : Fin k) (f : FileProc nf nd k → FileSystem nf nd k) :
    Option (FileSystem nf nd k) :=
  if s.halted = none ∧ (s.procs p).used = true ∧ (s.procs p).pc = .idle then some (f (s.procs p))
  else none

/-- The next step of the call process `p` is in. -/
def next (s : FileSystem nf nd k) (p : Fin k) : Option (FileSystem nf nd k) :=
  let q := s.procs p
  match q.pc with
  | .idle | .embryo | .pipedBoth _ _ => none
  | .opened f ip omode =>
    match fdalloc q.ofile f with
    | some (_, ofile) =>
      some (((s.setOfile p ofile).setFile f fun file =>
        { file with
          type := .inode
          ip
          off := 0
          readable := omode &&& oWronly = 0
          writable := omode &&& oWronly ≠ 0 ∨ omode &&& oRdwr ≠ 0 }).setPc p .idle)
    | none => some (s.setPc p (.closing [f]))
  | .piped rf =>
    match filealloc s.ftable with
    | some (wf, ftable) => some ((s.alloc wf ftable).setPc p (.pipedBoth rf wf))
    | none => some (s.setPc p (.closing [rf]))
  | .pipeMade rf wf =>
    match fdalloc q.ofile rf with
    | none => some (s.setPc p (.closing [rf, wf]))
    | some (_, ofile) =>
      match fdalloc ofile wf with
      -- `myproc()->ofile[fd0] = 0` gives back the descriptors as they were
      | none => some (s.setPc p (.closing [rf, wf]))
      | some (_, ofile) => some ((s.setOfile p ofile).setPc p .idle)
  | .closing [] => some (s.setPc p .idle)
  | .closing (f :: files) => some (s.closeSection p f (FilePc.afterClose files))
  | .releasing d files => some ((s.release d).setPc p (.closing files))
  | .forking child fd =>
    if h : fd < nd then
      match q.ofile ⟨fd, h⟩ with
      | none => some (s.setPc p (.forking child (fd + 1)))
      | some f =>
        match filedup s.ftable f with
        | .error message => some { s with halted := some message }
        | .ok ftable =>
          some (({ s with ftable }.setProc child fun c =>
            { c with ofile := Function.update c.ofile ⟨fd, h⟩ (some f) }).setPc p
              (.forking child (fd + 1)))
    -- `np->state = RUNNABLE`
    else some ((s.setPc child .idle).setPc p .idle)
  | .exiting fd =>
    if h : fd < nd then
      match q.ofile ⟨fd, h⟩ with
      | none => some (s.setPc p (.exiting (fd + 1)))
      | some f => some (s.closeSection p f (.exitClosed ⟨fd, h⟩))
    -- the rest of `exit`, and `wait` frees the slot
    else some (s.setProc p fun q => { q with used := false, pc := .idle })
  | .exitClosed fd d =>
    some (((d.elim s s.release).setOfile p (Function.update q.ofile fd none)).setPc p
      (.exiting (fd.val + 1)))

/-- One step, if it is enabled. -/
def step (s : FileSystem nf nd k) : FileEvent nf nd k → Option (FileSystem nf nd k)
  | .open p ip omode =>
    s.whenIdle p fun _ =>
      match filealloc s.ftable with
      | some (f, ftable) => (s.alloc f ftable).setPc p (.opened f ip omode)
      | none => s
  | .pipe p =>
    s.whenIdle p fun _ =>
      match filealloc s.ftable with
      | some (f, ftable) => (s.alloc f ftable).setPc p (.piped f)
      | none => s
  | .dup p fd =>
    s.whenIdle p fun q =>
      match q.ofile fd with
      | none => s
      | some f =>
        match fdalloc q.ofile f with
        | none => s
        | some (_, ofile) =>
          match filedup s.ftable f with
          | .error message => { s with halted := some message }
          | .ok ftable => { s with ftable }.setOfile p ofile
  | .close p fd =>
    s.whenIdle p fun q =>
      match q.ofile fd with
      | none => s
      | some f => (s.setOfile p (Function.update q.ofile fd none)).closeSection p f
        (FilePc.afterClose [])
  | .fork p =>
    s.whenIdle p fun _ =>
      match (List.finRange k).find? fun c => !(s.procs c).used with
      | none => s
      | some child =>
        (s.setProc child fun c => { c with used := true, pc := .embryo }).setPc p
          (.forking child 0)
  | .exit p => s.whenIdle p fun _ => s.setPc p (.exiting 0)
  | .kalloc p ok =>
    if s.halted = none ∧ (s.procs p).used = true then
      match (s.procs p).pc with
      | .pipedBoth rf wf =>
        some (if ok then (s.makePipe rf wf).setPc p (.pipeMade rf wf)
          else s.setPc p (.closing [rf, wf]))
      | _ => none
    else none
  | .next p => if s.halted = none ∧ (s.procs p).used = true then s.next p else none

/-- The zeroed `ftable`, no process inside a call and no descriptor in use. -/
def Initial (s : FileSystem nf nd k) : Prop :=
  (∀ f, s.ftable f = File.zero) ∧ (∀ p, (s.procs p).pc = .idle ∧ ∀ fd, (s.procs p).ofile fd = none) ∧
    (∀ f, s.gen f = 0) ∧ s.released = [] ∧ s.pipes = 0 ∧ s.halted = none

def Reachable (s : FileSystem nf nd k) : Prop := Lib.Reachable Initial step s

/-- The kernel as `main` leaves it, with the processes in `running` in use. -/
def boot (running : Fin k → Bool) : FileSystem nf nd k where
  ftable _ := File.zero
  procs p := ⟨running p, fun _ => none, .idle⟩
  gen _ := 0
  released := []
  pipes := 0
  halted := none

theorem boot_initial (running : Fin k → Bool) : (boot running : FileSystem nf nd k).Initial :=
  ⟨fun _ => rfl, fun _ => ⟨rfl, fun _ => rfl⟩, fun _ => rfl, rfl, rfl, rfl⟩

/-! ### Field lemmas -/

section Fields

variable (s : FileSystem nf nd k) (p : Fin k)

@[simp] theorem setProc_ftable (g : FileProc nf nd k → FileProc nf nd k) :
    (s.setProc p g).ftable = s.ftable := rfl
@[simp] theorem setProc_procs (g : FileProc nf nd k → FileProc nf nd k) :
    (s.setProc p g).procs = Function.update s.procs p (g (s.procs p)) := rfl
@[simp] theorem setProc_gen (g : FileProc nf nd k → FileProc nf nd k) :
    (s.setProc p g).gen = s.gen := rfl
@[simp] theorem setProc_released (g : FileProc nf nd k → FileProc nf nd k) :
    (s.setProc p g).released = s.released := rfl
@[simp] theorem setProc_halted (g : FileProc nf nd k → FileProc nf nd k) :
    (s.setProc p g).halted = s.halted := rfl

@[simp] theorem setProc_setProc (g g' : FileProc nf nd k → FileProc nf nd k) :
    (s.setProc p g).setProc p g' = s.setProc p fun q => g' (g q) := by
  simp only [setProc, Function.update_idem, Function.update_self]

@[simp] theorem setPc_eq (pc : FilePc nf nd k) : s.setPc p pc = s.setProc p fun q => { q with pc } :=
  rfl
@[simp] theorem setOfile_eq (ofile : Fin nd → Option (Fin nf)) :
    s.setOfile p ofile = s.setProc p fun q => { q with ofile } := rfl

@[simp] theorem setFile_ftable (f : Fin nf) (g : File → File) :
    (s.setFile f g).ftable = Function.update s.ftable f (g (s.ftable f)) := rfl
@[simp] theorem setFile_procs (f : Fin nf) (g : File → File) : (s.setFile f g).procs = s.procs :=
  rfl
@[simp] theorem setFile_gen (f : Fin nf) (g : File → File) : (s.setFile f g).gen = s.gen := rfl
@[simp] theorem setFile_released (f : Fin nf) (g : File → File) :
    (s.setFile f g).released = s.released := rfl
@[simp] theorem setFile_halted (f : Fin nf) (g : File → File) : (s.setFile f g).halted = s.halted :=
  rfl

/-- A change of a file that keeps its count. -/
theorem setFile_ref {f : Fin nf} {h : File → File} (keeps : ∀ file, (h file).ref = file.ref)
    (g : Fin nf) : ((s.setFile f h).ftable g).ref = (s.ftable g).ref := by
  by_cases same : g = f
  · subst same
    simp [keeps]
  · simp [Function.update_of_ne same]

theorem setFile_setProc (f : Fin nf) (h : File → File) (g : FileProc nf nd k → FileProc nf nd k) :
    (s.setProc p g).setFile f h = (s.setFile f h).setProc p g := rfl

@[simp] theorem alloc_ftable (f : Fin nf) (ftable : Fin nf → File) : (s.alloc f ftable).ftable = ftable :=
  rfl
@[simp] theorem alloc_procs (f : Fin nf) (ftable : Fin nf → File) : (s.alloc f ftable).procs = s.procs :=
  rfl
@[simp] theorem alloc_gen (f : Fin nf) (ftable : Fin nf → File) :
    (s.alloc f ftable).gen = Function.update s.gen f (s.gen f + 1) := rfl
@[simp] theorem alloc_released (f : Fin nf) (ftable : Fin nf → File) :
    (s.alloc f ftable).released = s.released := rfl
@[simp] theorem alloc_halted (f : Fin nf) (ftable : Fin nf → File) :
    (s.alloc f ftable).halted = s.halted := rfl

@[simp] theorem makePipe_procs (rf wf : Fin nf) : (s.makePipe rf wf).procs = s.procs := rfl
@[simp] theorem makePipe_gen (rf wf : Fin nf) : (s.makePipe rf wf).gen = s.gen := rfl
@[simp] theorem makePipe_released (rf wf : Fin nf) : (s.makePipe rf wf).released = s.released := rfl
@[simp] theorem makePipe_halted (rf wf : Fin nf) : (s.makePipe rf wf).halted = s.halted := rfl

/-- Making the pipe sets the type and the ends of its two files, not their counts. -/
@[simp] theorem makePipe_ref (rf wf f : Fin nf) :
    ((s.makePipe rf wf).ftable f).ref = (s.ftable f).ref := by
  simp only [makePipe, setFile_ftable, Function.update_apply]
  split_ifs <;> subst_vars <;> rfl

@[simp] theorem release_procs (d : Dropped nf) : (s.release d).procs = s.procs := by
  unfold release
  split <;> rfl
@[simp] theorem release_ftable (d : Dropped nf) : (s.release d).ftable = s.ftable := by
  unfold release
  split <;> rfl
@[simp] theorem release_gen (d : Dropped nf) : (s.release d).gen = s.gen := by
  unfold release
  split <;> rfl
@[simp] theorem release_halted (d : Dropped nf) : (s.release d).halted = s.halted := by
  unfold release
  split <;> rfl

end Fields

/-! ### What a step can do -/

section Steps

variable {s s' : FileSystem nf nd k} {p : Fin k}

/-- **`fileclose`'s critical section** on a file with a reference: one reference less, and the
last one leaves the file `FD_NONE` for the caller to release. -/
theorem closeSection_eq {f : Fin nf} (held : 1 ≤ (s.ftable f).ref)
    (next : Option (Dropped nf) → FilePc nf nd k) :
    s.closeSection p f next =
      ({ s with
          ftable := Function.update s.ftable f
            { s.ftable f with
              ref := (s.ftable f).ref - 1
              type := if (s.ftable f).ref = 1 then .none else (s.ftable f).type } }).setPc p
        (next (if (s.ftable f).ref = 1 then some ⟨{ s.ftable f with ref := 0 }, f, s.gen f⟩
          else none)) := by
  unfold closeSection
  cases closed : filecloseLocked s.ftable f with
  | error message =>
    unfold filecloseLocked at closed
    rw [if_neg (by omega)] at closed
    split at closed <;> cases closed
  | ok result =>
    obtain ⟨ff, ftable⟩ := result
    have spec := filecloseLocked_eq_ok closed
    dsimp only
    rw [spec.2.1, spec.2.2]
    split <;> rfl

/-- `fileclose` of a file with no reference panics. -/
theorem closeSection_of_free {f : Fin nf} (free : (s.ftable f).ref = 0)
    (next : Option (Dropped nf) → FilePc nf nd k) :
    s.closeSection p f next = { s with halted := some "fileclose" } := by
  simp [closeSection, filecloseLocked, free]

/-- What `fileclose`'s critical section drops when the reference is the last: a copy of the
file, which it then releases, and which allocation of the file it was. -/
def dropped (s : FileSystem nf nd k) (f : Fin nf) : Option (Dropped nf) :=
  if (s.ftable f).ref = 1 then some ⟨{ s.ftable f with ref := 0 }, f, s.gen f⟩ else none

section Close

variable {f : Fin nf} (held : 1 ≤ (s.ftable f).ref) (next : Option (Dropped nf) → FilePc nf nd k)
include held

theorem closeSection_procs :
    (s.closeSection p f next).procs =
      Function.update s.procs p { s.procs p with pc := next (s.dropped f) } := by
  rw [closeSection_eq held]
  rfl

theorem closeSection_ftable :
    (s.closeSection p f next).ftable = Function.update s.ftable f
      { s.ftable f with
        ref := (s.ftable f).ref - 1
        type := if (s.ftable f).ref = 1 then .none else (s.ftable f).type } := by
  rw [closeSection_eq held]
  rfl

theorem closeSection_halted : (s.closeSection p f next).halted = s.halted := by
  rw [closeSection_eq held]
  rfl

end Close

@[simp] theorem closeSection_gen (f : Fin nf) (next : Option (Dropped nf) → FilePc nf nd k) :
    (s.closeSection p f next).gen = s.gen := by
  unfold closeSection
  split <;> rfl

@[simp] theorem closeSection_released (f : Fin nf) (next : Option (Dropped nf) → FilePc nf nd k) :
    (s.closeSection p f next).released = s.released := by
  unfold closeSection
  split <;> rfl

@[simp] theorem dropped_setProc (g : FileProc nf nd k → FileProc nf nd k) (f : Fin nf) :
    (s.setProc p g).dropped f = s.dropped f := rfl

/-- `fileclose`'s critical section panics or changes the table and the caller's call. -/
theorem closeSection_cases (f : Fin nf) (next : Option (Dropped nf) → FilePc nf nd k) :
    s.closeSection p f next = { s with halted := some "fileclose" } ∨
      ∃ ftable d, s.closeSection p f next = ({ s with ftable }).setPc p (next d) := by
  by_cases free : (s.ftable f).ref = 0
  · exact .inl (closeSection_of_free free next)
  · exact .inr ⟨_, _, closeSection_eq (by omega) next⟩

theorem whenIdle_eq_some {g : FileProc nf nd k → FileSystem nf nd k} :
    s.whenIdle p g = some s' ↔
      s.halted = none ∧ (s.procs p).used = true ∧ (s.procs p).pc = .idle ∧ g (s.procs p) = s' := by
  unfold whenIdle
  split <;> simp_all

theorem step_next_eq_some :
    s.step (.next p) = some s' ↔
      s.halted = none ∧ (s.procs p).used = true ∧ s.next p = some s' := by
  simp only [step]
  split <;> simp_all

theorem step_kalloc_eq_some {ok : Bool} :
    s.step (.kalloc p ok) = some s' ↔
      s.halted = none ∧ (s.procs p).used = true ∧ ∃ rf wf, (s.procs p).pc = .pipedBoth rf wf ∧
        (if ok then (s.makePipe rf wf).setPc p (.pipeMade rf wf)
          else s.setPc p (.closing [rf, wf])) = s' := by
  simp only [step]
  split
  case isTrue enabled =>
    split
    case h_1 rf wf made => simp [enabled, made]
    case h_2 other => simp_all
  case isFalse disabled =>
    simp only [reduceCtorEq, false_iff, not_and, not_exists]
    exact fun halted used => (disabled ⟨halted, used⟩).elim

/-! ### The inversion of `step` -/

/-- What one step does: a constructor for each path of the calls, with the tests that chose it
and the state it leaves. -/
inductive Move (s : FileSystem nf nd k) : FileSystem nf nd k → Prop
  /-- a call that changes nothing: `filealloc` finds no free file, `sys_dup` or `sys_close` of a
  descriptor that is not open, `fdalloc` of `sys_dup` finds no free descriptor, `allocproc` no
  free slot -/
  | same : Move s s
  /-- `sys_open`: `filealloc` -/
  | «open» {p : Fin k} {f : Fin nf} {ftable : Fin nf → File} (ip omode : Nat)
      (used : (s.procs p).used = true)
      (idle : (s.procs p).pc = .idle) (alloc : filealloc s.ftable = some (f, ftable)) :
      Move s ((s.alloc f ftable).setPc p (.opened f ip omode))
  /-- `sys_pipe`: the first `filealloc` of `pipealloc` -/
  | pipe {p : Fin k} {f : Fin nf} {ftable : Fin nf → File} (used : (s.procs p).used = true)
      (idle : (s.procs p).pc = .idle)
      (alloc : filealloc s.ftable = some (f, ftable)) :
      Move s ((s.alloc f ftable).setPc p (.piped f))
  /-- `sys_dup`: `fdalloc`, then `filedup` -/
  | dup {p : Fin k} {fd : Fin nd} {f : Fin nf} {fd' : Fin nd} {ofile : Fin nd → Option (Fin nf)}
      {ftable : Fin nf → File} (used : (s.procs p).used = true) (idle : (s.procs p).pc = .idle)
      (opened : (s.procs p).ofile fd = some f)
      (free : fdalloc (s.procs p).ofile f = some (fd', ofile))
      (dup : filedup s.ftable f = .ok ftable) :
      Move s ({ s with ftable }.setOfile p ofile)
  /-- `sys_dup`: `filedup` panics -/
  | dupPanic {p : Fin k} {fd : Fin nd} {f : Fin nf} {fd' : Fin nd}
      {ofile : Fin nd → Option (Fin nf)} {message : String} (used : (s.procs p).used = true)
      (idle : (s.procs p).pc = .idle) (opened : (s.procs p).ofile fd = some f)
      (free : fdalloc (s.procs p).ofile f = some (fd', ofile))
      (dup : filedup s.ftable f = .error message) :
      Move s { s with halted := some message }
  /-- `sys_close`: `ofile[fd] = 0`, then `fileclose`'s critical section -/
  | close {p : Fin k} {fd : Fin nd} {f : Fin nf} (used : (s.procs p).used = true)
      (idle : (s.procs p).pc = .idle)
      (opened : (s.procs p).ofile fd = some f) :
      Move s ((s.setOfile p (Function.update (s.procs p).ofile fd none)).closeSection p f
        (FilePc.afterClose []))
  /-- `fork`: `allocproc` takes slot `child` -/
  | fork {p child : Fin k} (used : (s.procs p).used = true)
      (idle : (s.procs p).pc = .idle)
      (free : (List.finRange k).find? (fun c => !(s.procs c).used) = some child) :
      Move s ((s.setProc child fun c => { c with used := true, pc := .embryo }).setPc p
        (.forking child 0))
  /-- `exit` starts its loop over `ofile` -/
  | exit {p : Fin k} (used : (s.procs p).used = true) (idle : (s.procs p).pc = .idle) :
      Move s (s.setPc p (.exiting 0))
  /-- `pipealloc`: `kalloc` gives the pipe -/
  | kalloc {p : Fin k} {rf wf : Fin nf} (used : (s.procs p).used = true)
      (both : (s.procs p).pc = .pipedBoth rf wf) :
      Move s ((s.makePipe rf wf).setPc p (.pipeMade rf wf))
  /-- `pipealloc`: `kalloc` returns `0` -/
  | kallocFail {p : Fin k} {rf wf : Fin nf} (used : (s.procs p).used = true)
      (both : (s.procs p).pc = .pipedBoth rf wf) :
      Move s (s.setPc p (.closing [rf, wf]))
  /-- `sys_open`: `fdalloc` gives a descriptor -/
  | install {p : Fin k} {f : Fin nf} {ip omode : Nat} {fd : Fin nd}
      {ofile : Fin nd → Option (Fin nf)} (used : (s.procs p).used = true)
      (opened : (s.procs p).pc = .opened f ip omode)
      (free : fdalloc (s.procs p).ofile f = some (fd, ofile)) :
      Move s (((s.setOfile p ofile).setFile f fun file =>
        { file with
          type := .inode
          ip
          off := 0
          readable := omode &&& oWronly = 0
          writable := omode &&& oWronly ≠ 0 ∨ omode &&& oRdwr ≠ 0 }).setPc p .idle)
  /-- `sys_open`: `fdalloc` finds no descriptor -/
  | installFail {p : Fin k} {f : Fin nf} {ip omode : Nat} (used : (s.procs p).used = true)
      (opened : (s.procs p).pc = .opened f ip omode) (full : fdalloc (s.procs p).ofile f = none) :
      Move s (s.setPc p (.closing [f]))
  /-- `pipealloc`: the second `filealloc` -/
  | allocWrite {p : Fin k} {rf wf : Fin nf} {ftable : Fin nf → File}
      (used : (s.procs p).used = true)
      (piped : (s.procs p).pc = .piped rf) (alloc : filealloc s.ftable = some (wf, ftable)) :
      Move s ((s.alloc wf ftable).setPc p (.pipedBoth rf wf))
  /-- `pipealloc`: the second `filealloc` finds no free file -/
  | allocWriteFail {p : Fin k} {rf : Fin nf} (used : (s.procs p).used = true)
      (piped : (s.procs p).pc = .piped rf)
      (full : filealloc s.ftable = none) :
      Move s (s.setPc p (.closing [rf]))
  /-- `sys_pipe`: `fdalloc` of both ends -/
  | installPipe {p : Fin k} {rf wf : Fin nf} {fd0 : Fin nd}
      {ofile : Fin nd → Option (Fin nf)} {fd1 : Fin nd} {ofile' : Fin nd → Option (Fin nf)}
      (used : (s.procs p).used = true)
      (made : (s.procs p).pc = .pipeMade rf wf)
      (first : fdalloc (s.procs p).ofile rf = some (fd0, ofile))
      (second : fdalloc ofile wf = some (fd1, ofile')) :
      Move s ((s.setOfile p ofile').setPc p .idle)
  /-- `sys_pipe`: `fdalloc` finds no descriptor for one of the ends -/
  | installPipeFail {p : Fin k} {rf wf : Fin nf} (used : (s.procs p).used = true)
      (made : (s.procs p).pc = .pipeMade rf wf) :
      Move s (s.setPc p (.closing [rf, wf]))
  /-- every file the call held is closed -/
  | closed {p : Fin k} (used : (s.procs p).used = true) (done : (s.procs p).pc = .closing []) :
      Move s (s.setPc p .idle)
  /-- `fileclose`'s critical section, for a file the call holds -/
  | closeNext {p : Fin k} {f : Fin nf} {files : List (Fin nf)} (used : (s.procs p).used = true)
      (closing : (s.procs p).pc = .closing (f :: files)) :
      Move s (s.closeSection p f (FilePc.afterClose files))
  /-- the release that ends `fileclose` -/
  | release {p : Fin k} {d : Dropped nf} {files : List (Fin nf)} (used : (s.procs p).used = true)
      (releasing : (s.procs p).pc = .releasing d files) :
      Move s ((s.release d).setPc p (.closing files))
  /-- `fork`'s loop passes a descriptor that is not open -/
  | forkSkip {p child : Fin k} {fd : Nat} (used : (s.procs p).used = true)
      (forking : (s.procs p).pc = .forking child fd) (h : fd < nd)
      (unopened : (s.procs p).ofile ⟨fd, h⟩ = none) :
      Move s (s.setPc p (.forking child (fd + 1)))
  /-- `fork`'s loop: `np->ofile[fd] = filedup(f)` -/
  | forkCopy {p child : Fin k} {fd : Nat} {f : Fin nf} {ftable : Fin nf → File}
      (used : (s.procs p).used = true)
      (forking : (s.procs p).pc = .forking child fd) (h : fd < nd)
      (opened : (s.procs p).ofile ⟨fd, h⟩ = some f) (dup : filedup s.ftable f = .ok ftable) :
      Move s (({ s with ftable }.setProc child fun c =>
        { c with ofile := Function.update c.ofile ⟨fd, h⟩ (some f) }).setPc p
          (.forking child (fd + 1)))
  /-- `fork`'s loop: `filedup` panics -/
  | forkPanic {p child : Fin k} {fd : Nat} {f : Fin nf} {message : String}
      (used : (s.procs p).used = true)
      (forking : (s.procs p).pc = .forking child fd) (h : fd < nd)
      (opened : (s.procs p).ofile ⟨fd, h⟩ = some f) (dup : filedup s.ftable f = .error message) :
      Move s { s with halted := some message }
  /-- `fork` ends: the child is `RUNNABLE` -/
  | forkDone {p child : Fin k} {fd : Nat} (used : (s.procs p).used = true)
      (forking : (s.procs p).pc = .forking child fd) (past : ¬fd < nd) :
      Move s ((s.setPc child .idle).setPc p .idle)
  /-- `exit`'s loop passes a descriptor that is not open -/
  | exitSkip {p : Fin k} {fd : Nat} (used : (s.procs p).used = true)
      (exiting : (s.procs p).pc = .exiting fd)
      (h : fd < nd) (unopened : (s.procs p).ofile ⟨fd, h⟩ = none) :
      Move s (s.setPc p (.exiting (fd + 1)))
  /-- `exit`'s loop: `fileclose`'s critical section -/
  | exitClose {p : Fin k} {fd : Nat} {f : Fin nf} (used : (s.procs p).used = true)
      (exiting : (s.procs p).pc = .exiting fd)
      (h : fd < nd) (opened : (s.procs p).ofile ⟨fd, h⟩ = some f) :
      Move s (s.closeSection p f (.exitClosed ⟨fd, h⟩))
  /-- `exit` has closed every descriptor; `wait` frees the slot -/
  | exitDone {p : Fin k} {fd : Nat} (used : (s.procs p).used = true)
      (exiting : (s.procs p).pc = .exiting fd)
      (past : ¬fd < nd) :
      Move s (s.setProc p fun q => { q with used := false, pc := .idle })
  /-- `exit`'s loop: the release, if any, then `ofile[fd] = 0` -/
  | exitClear {p : Fin k} {fd : Fin nd} {d : Option (Dropped nf)} (used : (s.procs p).used = true)
      (closed : (s.procs p).pc = .exitClosed fd d) :
      Move s (((d.elim s s.release).setOfile p (Function.update (s.procs p).ofile fd none)).setPc p
        (.exiting (fd.val + 1)))

variable {s s' : FileSystem nf nd k} {p : Fin k}

/-- The step of a process inside a call, path by path. -/
theorem move_of_next (used : (s.procs p).used = true) (moved : s.next p = some s') :
    s.Move s' := by
  unfold FileSystem.next at moved
  dsimp only at moved
  split at moved
  case h_1 | h_2 | h_3 => cases moved
  case h_4 f ip omode opened =>
    split at moved <;> cases moved
    case h_1 fd ofile free => exact .install used opened free
    case h_2 full => exact .installFail used opened full
  case h_5 rf piped =>
    split at moved <;> cases moved
    case h_1 wf ftable alloc => exact .allocWrite used piped alloc
    case h_2 full => exact .allocWriteFail used piped full
  case h_6 rf wf made =>
    split at moved
    · cases moved
      exact .installPipeFail used made
    · split at moved <;> cases moved
      · exact .installPipeFail used made
      · exact .installPipe used made ‹_› ‹_›
  case h_7 done =>
    cases moved
    exact .closed used done
  case h_8 f files closing =>
    cases moved
    exact .closeNext used closing
  case h_9 d files releasing =>
    cases moved
    exact .release used releasing
  case h_10 child fd forking =>
    split at moved
    case isTrue h =>
      split at moved
      · cases moved
        next unopened => exact .forkSkip used forking h unopened
      · split at moved <;> cases moved
        · exact .forkPanic used forking h ‹_› ‹_›
        · exact .forkCopy used forking h ‹_› ‹_›
    case isFalse past =>
      cases moved
      exact .forkDone used forking past
  case h_11 fd exiting =>
    split at moved
    case isTrue h =>
      split at moved <;> cases moved
      case h_1 unopened => exact .exitSkip used exiting h unopened
      case h_2 f opened => exact .exitClose used exiting h opened
    case isFalse past =>
      cases moved
      exact .exitDone used exiting past
  case h_12 fd d closed =>
    cases moved
    exact .exitClear used closed

/-- **What a step can do**: from a state that has not panicked, one of the moves. -/
theorem move_of_step {e : FileEvent nf nd k} (stepped : s.step e = some s') :
    s.halted = none ∧ s.Move s' := by
  cases e with
  | «open» p ip omode =>
    rw [step] at stepped
    obtain ⟨running, used, idle, rfl⟩ := whenIdle_eq_some.1 stepped
    refine ⟨running, ?_⟩
    split
    · next alloc => exact .open ip omode used idle alloc
    · exact .same
  | pipe p =>
    rw [step] at stepped
    obtain ⟨running, used, idle, rfl⟩ := whenIdle_eq_some.1 stepped
    refine ⟨running, ?_⟩
    split
    · next alloc => exact .pipe used idle alloc
    · exact .same
  | dup p fd =>
    rw [step] at stepped
    obtain ⟨running, used, idle, rfl⟩ := whenIdle_eq_some.1 stepped
    refine ⟨running, ?_⟩
    split
    · exact .same
    · split
      · exact .same
      · split
        · exact .dupPanic used idle ‹_› ‹_› ‹_›
        · exact .dup used idle ‹_› ‹_› ‹_›
  | close p fd =>
    rw [step] at stepped
    obtain ⟨running, used, idle, rfl⟩ := whenIdle_eq_some.1 stepped
    refine ⟨running, ?_⟩
    split
    · exact .same
    · next opened => exact .close used idle opened
  | fork p =>
    rw [step] at stepped
    obtain ⟨running, used, idle, rfl⟩ := whenIdle_eq_some.1 stepped
    refine ⟨running, ?_⟩
    split
    · exact .same
    · next free => exact .fork used idle free
  | exit p =>
    rw [step] at stepped
    obtain ⟨running, used, idle, rfl⟩ := whenIdle_eq_some.1 stepped
    exact ⟨running, .exit used idle⟩
  | kalloc p ok =>
    obtain ⟨running, used, rf, wf, both, rfl⟩ := step_kalloc_eq_some.1 stepped
    refine ⟨running, ?_⟩
    cases ok
    · rw [if_neg Bool.false_ne_true]
      exact .kallocFail used both
    · rw [if_pos rfl]
      exact .kalloc used both
  | next p =>
    obtain ⟨running, used, moved⟩ := step_next_eq_some.1 stepped
    exact ⟨running, move_of_next used moved⟩

end Steps

end FileSystem

end Xv6
