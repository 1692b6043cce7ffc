import Xv6.Pipe.Buffer
import Xv6.Lib.Transition

/-!
**Readers and writers on one pipe.**

Any number of threads call `pipewrite`, `piperead` and `pipeclose` on one pipe. Each `p->lock`
critical section is one step: a call runs from `acquire` to its `release` or to a `sleep`,
which gives up the lock; a woken thread takes the lock again in a later step (`resume`) and
goes on with the loop where it slept. Every `wakeup` on `&p->nread` or `&p->nwrite` is made
with `p->lock` held, and `sleep` gives up `p->lock` only once it holds `ptable.lock`, so marking
the thread asleep and releasing the lock is one step too. `kill` sets `killed` and wakes a
sleeper.

A new call needs its end open: a thread can call `pipewrite` only through a file of the write
end, which `pipeclose` has not closed yet. Two fields are ghosts that record the run:
`appended`, every byte stored by `pipewrite`, in order; `returned`, every byte returned by
`piperead`, in the order of the returns.
-/

namespace Xv6

/-- The channels of the pipe: `&p->nread` and `&p->nwrite`. -/
inductive PipeChan
  | nread
  | nwrite
  deriving DecidableEq, Repr

/-- Where a thread is in its pipe calls. -/
inductive PipePc
  /-- outside `pipewrite` and `piperead` -/
  | idle
  /-- in `pipewrite(p, addr, n)` at byte `i`, asleep on `&p->nwrite` or woken -/
  | writing (addr : List UInt8) (i : Nat) (asleep : Bool)
  /-- in `piperead(p, addr, n)`, asleep on `&p->nread` or woken -/
  | reading (n : Nat) (asleep : Bool)
  deriving DecidableEq, Repr

/-- `wakeup(chan)` seen from one thread. -/
def PipePc.wake : PipeChan → PipePc → PipePc
  | .nwrite, .writing addr i _ => .writing addr i false
  | .nread, .reading n _ => .reading n false
  | _, pc => pc

/-- A thread, with the results of its last call. -/
structure PipeThread where
  pc : PipePc
  killed : Bool
  /-- what its last `pipewrite` or `piperead` returned -/
  ret : Int
  /-- the bytes its last `piperead` copied to `addr` -/
  got : List UInt8
  /-- (ghost) how many bytes had been stored when its current `pipewrite` began -/
  start : Nat

/-- The pipe and `k` threads. -/
structure PipeSystem (k : Nat) where
  pipe : Pipe
  threads : Fin k → PipeThread
  /-- (ghost) every byte `pipewrite` stored, in order -/
  appended : List UInt8
  /-- (ghost) every byte `piperead` returned, in the order of the returns -/
  returned : List UInt8

/-- The steps. -/
inductive PipeEvent (k : Nat)
  /-- thread `t` calls `pipewrite(p, addr, n)` and runs until it returns or sleeps -/
  | write (t : Fin k) (addr : List UInt8)
  /-- thread `t` calls `piperead(p, addr, n)` and runs until it returns or sleeps -/
  | read (t : Fin k) (n : Nat)
  /-- woken thread `t` takes `p->lock` again and goes on with its call -/
  | resume (t : Fin k)
  /-- `pipeclose(p, writable)` by the last file of that end -/
  | close (writable : Bool)
  /-- `kill` of thread `t` -/
  | kill (t : Fin k)

namespace PipeSystem

variable {k : Nat}

/-- Change one thread. -/
def setThread (s : PipeSystem k) (t : Fin k) (f : PipeThread → PipeThread) : PipeSystem k :=
  { s with threads := Function.update s.threads t (f (s.threads t)) }

/-- `wakeup(chan)`. -/
def wakeup (s : PipeSystem k) (chan : PipeChan) : PipeSystem k :=
  { s with threads := fun t => { s.threads t with pc := (s.threads t).pc.wake chan } }

/-- A critical section of `pipewrite(p, addr, n)` by thread `t`, from byte `i`. -/
def writeSection (s : PipeSystem k) (t : Fin k) (addr : List UInt8) (i : Nat) : PipeSystem k :=
  let after := Pipe.writeLoop (s.threads t).killed s.pipe (addr.drop i)
  let s' := { s with pipe := after.1, appended := s.appended ++ (addr.drop i).take after.2.1 }
  match after.2.2 with
  | .done => (s'.wakeup .nread).setThread t fun th => { th with pc := .idle, ret := addr.length }
  | .fail => s'.setThread t fun th => { th with pc := .idle, ret := -1 }
  | .sleep =>
    (s'.wakeup .nread).setThread t fun th => { th with pc := .writing addr (i + after.2.1) true }

/-- A critical section of `piperead(p, addr, n)` by thread `t`: sleep on an empty pipe whose
write end is open, else copy what there is. -/
def readSection (s : PipeSystem k) (t : Fin k) (n : Nat) : PipeSystem k :=
  if s.pipe.nread = s.pipe.nwrite ∧ s.pipe.writeopen = true then
    if (s.threads t).killed then s.setThread t fun th => { th with pc := .idle, ret := -1 }
    else s.setThread t fun th => { th with pc := .reading n true }
  else
    let after := Pipe.readLoop s.pipe n
    ({ s with pipe := after.1, returned := s.returned ++ after.2 }.wakeup .nwrite).setThread t
      fun th => { th with pc := .idle, ret := after.2.length, got := after.2 }

/-- `pipeclose(p, writable)`, before the `kfree` of a pipe with both ends closed. -/
def pipeclose (s : PipeSystem k) (writable : Bool) : PipeSystem k :=
  if writable then { s with pipe := { s.pipe with writeopen := false } }.wakeup .nread
  else { s with pipe := { s.pipe with readopen := false } }.wakeup .nwrite

/-- One step, if it is enabled. -/
def step (s : PipeSystem k) : PipeEvent k → Option (PipeSystem k)
  | .write t addr =>
    if (s.threads t).pc = .idle ∧ s.pipe.writeopen = true then
      some ((s.setThread t fun th => { th with start := s.appended.length }).writeSection t addr 0)
    else none
  | .read t n =>
    if (s.threads t).pc = .idle ∧ s.pipe.readopen = true then some (s.readSection t n) else none
  | .resume t =>
    match (s.threads t).pc with
    | .writing addr i false => some (s.writeSection t addr i)
    | .reading n false => some (s.readSection t n)
    | _ => none
  | .close writable =>
    if (if writable then s.pipe.writeopen else s.pipe.readopen) = true then
      some (s.pipeclose writable)
    else none
  | .kill t =>
    some (s.setThread t fun th => { th with killed := true, pc := (th.pc.wake .nread).wake .nwrite })

/-- An empty pipe with both ends open, as `pipealloc` leaves it (there with the counters at `0`),
and every thread outside the pipe calls. -/
def Initial (s : PipeSystem k) : Prop :=
  s.pipe.nread = s.pipe.nwrite ∧ s.pipe.readopen = true ∧ s.pipe.writeopen = true ∧
    (∀ t, (s.threads t).pc = .idle) ∧ s.appended = [] ∧ s.returned = []

def Reachable (s : PipeSystem k) : Prop := Lib.Reachable Initial step s

/-- The pipe of a successful `pipealloc`, whose `data` is what the page held, and `k` threads
outside the pipe calls. -/
def pipealloc (data : Fin pipeSize → UInt8) : PipeSystem k :=
  { pipe := { data, nread := 0, nwrite := 0, readopen := true, writeopen := true }
    threads := fun _ => { pc := .idle, killed := false, ret := 0, got := [], start := 0 }
    appended := []
    returned := [] }

theorem pipealloc_initial (data : Fin pipeSize → UInt8) : (pipealloc data : PipeSystem k).Initial :=
  ⟨rfl, rfl, rfl, fun _ => rfl, rfl, rfl⟩

/-! ### Field lemmas -/

section Fields

variable (s : PipeSystem k)

@[simp] theorem setThread_pipe (t : Fin k) (f : PipeThread → PipeThread) :
    (s.setThread t f).pipe = s.pipe := rfl
@[simp] theorem setThread_appended (t : Fin k) (f : PipeThread → PipeThread) :
    (s.setThread t f).appended = s.appended := rfl
@[simp] theorem setThread_returned (t : Fin k) (f : PipeThread → PipeThread) :
    (s.setThread t f).returned = s.returned := rfl
@[simp] theorem setThread_threads (t : Fin k) (f : PipeThread → PipeThread) :
    (s.setThread t f).threads = Function.update s.threads t (f (s.threads t)) := rfl
@[simp] theorem wakeup_pipe (chan : PipeChan) : (s.wakeup chan).pipe = s.pipe := rfl
@[simp] theorem wakeup_appended (chan : PipeChan) : (s.wakeup chan).appended = s.appended := rfl
@[simp] theorem wakeup_returned (chan : PipeChan) : (s.wakeup chan).returned = s.returned := rfl
@[simp] theorem wakeup_threads (chan : PipeChan) (t : Fin k) :
    (s.wakeup chan).threads t = { s.threads t with pc := (s.threads t).pc.wake chan } := rfl

end Fields

/-! ### What a step can do -/

section Steps

variable {s s' : PipeSystem k} {t : Fin k}

theorem step_write_eq_some {addr : List UInt8} :
    s.step (.write t addr) = some s' ↔
      (s.threads t).pc = .idle ∧ s.pipe.writeopen = true ∧
        (s.setThread t fun th => { th with start := s.appended.length }).writeSection t addr 0 = s' := by
  simp only [step]
  split <;> simp_all

theorem step_read_eq_some {n : Nat} :
    s.step (.read t n) = some s' ↔
      (s.threads t).pc = .idle ∧ s.pipe.readopen = true ∧ s.readSection t n = s' := by
  simp only [step]
  split <;> simp_all

theorem step_resume_eq_some :
    s.step (.resume t) = some s' ↔
      (∃ addr i, (s.threads t).pc = .writing addr i false ∧ s.writeSection t addr i = s') ∨
        ∃ n, (s.threads t).pc = .reading n false ∧ s.readSection t n = s' := by
  simp only [step]
  split <;> simp_all

theorem step_close_eq_some {writable : Bool} :
    s.step (.close writable) = some s' ↔
      (if writable then s.pipe.writeopen else s.pipe.readopen) = true ∧
        s.pipeclose writable = s' := by
  simp only [step]
  split <;> simp_all

end Steps

/-- A woken writer was the same writer. -/
theorem PipePc.wake_eq_writing {pc : PipePc} {chan : PipeChan} {addr : List UInt8} {i : Nat}
    {asleep : Bool} (woken : pc.wake chan = .writing addr i asleep) :
    ∃ asleep', pc = .writing addr i asleep' := by
  cases chan <;> cases pc <;> simp_all [PipePc.wake]

end PipeSystem

end Xv6
