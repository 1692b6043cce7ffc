import Xv6.Log.Commit
import Xv6.Lib.Transition
import Xv6.Proc.Sleep

/-!
**Group commit: `begin_op`, `log_write` and `end_op` on any number of threads.**

Each kernel thread runs FS operations: `begin_op`, any number of `log_write`s, `end_op`. The
`log.lock` critical sections are atomic steps, enabled when the lock is free; a step that must
also take `ptable.lock` (the `sleep` in `begin_op`, the `wakeup(&log)` in `end_op`) holds
`log.lock` until it gets it. The sleep itself follows `proc.c` phase by phase (`SleepPhase`).
`commit()` runs with no lock held, and is the `commit` of `Xv6.Log.Commit`.

A panic halts the system; `halted` records its message.
-/

namespace Xv6

/-- Where a kernel thread is in the log's code. -/
inductive OpPc
  /-- outside any FS operation -/
  | idle
  /-- inside the `sleep` of `begin_op`'s loop -/
  | beginSleep (phase : SleepPhase)
  /-- returned from `begin_op`, not yet called `end_op` -/
  | inOp
  /-- in `log_write` past its checks, acquiring `log.lock` -/
  | logWriting (blockno : Nat)
  /-- in `end_op` with operations still outstanding: holds `log.lock`, calling `wakeup(&log)` -/
  | endWaking
  /-- in `end_op`, the last operation out: running `commit()` with no lock -/
  | committing
  /-- in `end_op` after `commit()`: acquiring `log.lock` -/
  | commitEnding
  /-- in `end_op`: holds `log.lock`, `committing = 0`, calling `wakeup(&log)` -/
  | commitWaking
  deriving DecidableEq, Repr

/-- `wakeup1(&log)` seen from one thread. -/
def OpPc.wake : OpPc → OpPc
  | .beginSleep phase => .beginSleep phase.wake
  | pc => pc

/-- The group-commit system on `n` threads. -/
structure LogSystem (n : Nat) where
  store : Storage
  logLock : Option (Fin n)
  ptLock : Option (Fin n)
  pc : Fin n → OpPc
  halted : Option String

/-- The steps of one thread. -/
inductive LogEvent (n : Nat)
  /-- acquire `log.lock` (in `begin_op`, or at the end of its `sleep`) and run the loop once -/
  | beginOp (t : Fin n)
  /-- `sleep`: acquire `ptable.lock`, release `log.lock` -/
  | sleepLock (t : Fin n)
  /-- `sleep`: mark `SLEEPING` on `&log` and switch to the scheduler, which releases
  `ptable.lock` -/
  | sleepSched (t : Fin n)
  /-- `kill` of the sleeping thread -/
  | kill (t : Fin n)
  /-- the scheduler takes `ptable.lock` and switches back to the thread -/
  | resume (t : Fin n)
  /-- `sleep`: clear `chan` and release `ptable.lock` -/
  | sleepReturn (t : Fin n)
  /-- `log_write(b)`'s checks, before it takes the lock -/
  | logWrite (t : Fin n) (blockno : Nat)
  /-- `log_write`'s critical section -/
  | logWriteLocked (t : Fin n)
  /-- `end_op`'s first critical section -/
  | endOp (t : Fin n)
  /-- `end_op`: `wakeup(&log)`, then release `log.lock` -/
  | endWakeup (t : Fin n)
  /-- `end_op`: `commit()` -/
  | commit (t : Fin n)
  /-- `end_op`: acquire `log.lock`, `committing = 0` -/
  | commitEnd (t : Fin n)
  /-- `end_op`: `wakeup(&log)`, then release `log.lock` -/
  | commitWakeup (t : Fin n)

/-- One pass of `begin_op`'s loop lets the operation in: no commit is running and the log has
room for `MAXOPBLOCKS` more blocks per outstanding operation. -/
def beginOpAdmits (log : Log) : Bool :=
  !log.committing && decide ((log.lh.n : Int) + (log.outstanding + 1) * maxOpBlocks ≤ logSize)

/-- The checks `log_write` makes before taking the lock: the panic they raise, if any. -/
def logWriteCheck (log : Log) : Option String :=
  if logSize ≤ log.lh.n ∨ (log.size : Int) - 1 ≤ log.lh.n then some "too big a transaction"
  else if log.outstanding < 1 then some "log_write outside of trans"
  else none

/-- `log_write`'s critical section: log absorption, or a new entry at the end. -/
def LogHeader.absorb (lh : LogHeader) (blockno : Nat) : LogHeader :=
  if blockno ∈ lh.block then lh else ⟨lh.block ++ [blockno]⟩

namespace LogSystem

variable {n : Nat}

/-- Move thread `t` to `pc`. -/
def setPc (s : LogSystem n) (t : Fin n) (pc : OpPc) : LogSystem n :=
  { s with pc := Function.update s.pc t pc }

/-- Change the in-memory `struct log`. -/
def modifyLog (s : LogSystem n) (f : Log → Log) : LogSystem n :=
  { s with store := { s.store with log := f s.store.log } }

/-- `wakeup(&log)` by thread `t`, which then releases `log.lock` and leaves `end_op`. -/
def wakeAndLeave (s : LogSystem n) (t : Fin n) : LogSystem n :=
  { s with pc := Function.update (fun u => (s.pc u).wake) t .idle, logLock := none }

/-- `end_op`'s first critical section, after the counter went down. -/
def endOpLocked (s : LogSystem n) (t : Fin n) : LogSystem n :=
  if s.store.log.committing then { s with halted := some "log.committing" }
  else if s.store.log.outstanding = 0 then
    (s.modifyLog fun log => { log with committing := true }).setPc t .committing
  else { s.setPc t .endWaking with logLock := some t }

/-- One step of thread `t`, if it is enabled. -/
def step (s : LogSystem n) : LogEvent n → Option (LogSystem n)
  | .beginOp t =>
    if s.halted = none ∧ s.logLock = none ∧
        (s.pc t = .idle ∨ s.pc t = .beginSleep .reacquiring) then
      if beginOpAdmits s.store.log then
        some ((s.modifyLog fun log => { log with outstanding := log.outstanding + 1 }).setPc t .inOp)
      else some { s.setPc t (.beginSleep .locking) with logLock := some t }
    else none
  | .sleepLock t =>
    if s.halted = none ∧ s.pc t = .beginSleep .locking ∧ s.ptLock = none then
      some { s.setPc t (.beginSleep .setting) with ptLock := some t, logLock := none }
    else none
  | .sleepSched t =>
    if s.halted = none ∧ s.pc t = .beginSleep .setting then
      some { s.setPc t (.beginSleep .asleep) with ptLock := none }
    else none
  | .kill t =>
    if s.halted = none ∧ s.pc t = .beginSleep .asleep ∧ s.ptLock = none then
      some (s.setPc t (.beginSleep .woken))
    else none
  | .resume t =>
    if s.halted = none ∧ s.pc t = .beginSleep .woken ∧ s.ptLock = none then
      some { s.setPc t (.beginSleep .returning) with ptLock := some t }
    else none
  | .sleepReturn t =>
    if s.halted = none ∧ s.pc t = .beginSleep .returning then
      some { s.setPc t (.beginSleep .reacquiring) with ptLock := none }
    else none
  | .logWrite t blockno =>
    if s.halted = none ∧ s.pc t = .inOp then
      match logWriteCheck s.store.log with
      | some message => some { s with halted := some message }
      | none => some (s.setPc t (.logWriting blockno))
    else none
  | .logWriteLocked t =>
    match s.pc t with
    | .logWriting blockno =>
      if s.halted = none ∧ s.logLock = none then
        some ((s.modifyLog fun log => { log with lh := log.lh.absorb blockno }).setPc t .inOp)
      else none
    | _ => none
  | .endOp t =>
    if s.halted = none ∧ s.pc t = .inOp ∧ s.logLock = none then
      some ((s.modifyLog fun log => { log with outstanding := log.outstanding - 1 }).endOpLocked t)
    else none
  | .endWakeup t =>
    if s.halted = none ∧ s.pc t = .endWaking ∧ s.ptLock = none then some (s.wakeAndLeave t)
    else none
  | .commit t =>
    if s.halted = none ∧ s.pc t = .committing then
      some { s.setPc t .commitEnding with store := Xv6.commit s.store }
    else none
  | .commitEnd t =>
    if s.halted = none ∧ s.pc t = .commitEnding ∧ s.logLock = none then
      some { (s.modifyLog fun log => { log with committing := false }).setPc t .commitWaking with
        logLock := some t }
    else none
  | .commitWakeup t =>
    if s.halted = none ∧ s.pc t = .commitWaking ∧ s.ptLock = none then some (s.wakeAndLeave t)
    else none

@[simp] theorem setPc_pc (s : LogSystem n) (t : Fin n) (pc : OpPc) :
    (s.setPc t pc).pc = Function.update s.pc t pc := rfl
@[simp] theorem setPc_store (s : LogSystem n) (t : Fin n) (pc : OpPc) :
    (s.setPc t pc).store = s.store := rfl
@[simp] theorem setPc_logLock (s : LogSystem n) (t : Fin n) (pc : OpPc) :
    (s.setPc t pc).logLock = s.logLock := rfl
@[simp] theorem setPc_ptLock (s : LogSystem n) (t : Fin n) (pc : OpPc) :
    (s.setPc t pc).ptLock = s.ptLock := rfl
@[simp] theorem setPc_halted (s : LogSystem n) (t : Fin n) (pc : OpPc) :
    (s.setPc t pc).halted = s.halted := rfl
@[simp] theorem modifyLog_log (s : LogSystem n) (f : Log → Log) :
    (s.modifyLog f).store.log = f s.store.log := rfl
@[simp] theorem modifyLog_pc (s : LogSystem n) (f : Log → Log) : (s.modifyLog f).pc = s.pc := rfl
@[simp] theorem modifyLog_logLock (s : LogSystem n) (f : Log → Log) :
    (s.modifyLog f).logLock = s.logLock := rfl
@[simp] theorem modifyLog_ptLock (s : LogSystem n) (f : Log → Log) :
    (s.modifyLog f).ptLock = s.ptLock := rfl
@[simp] theorem modifyLog_halted (s : LogSystem n) (f : Log → Log) :
    (s.modifyLog f).halted = s.halted := rfl
@[simp] theorem wakeAndLeave_pc (s : LogSystem n) (t : Fin n) :
    (s.wakeAndLeave t).pc = Function.update (fun u => (s.pc u).wake) t .idle := rfl
@[simp] theorem wakeAndLeave_store (s : LogSystem n) (t : Fin n) :
    (s.wakeAndLeave t).store = s.store := rfl
@[simp] theorem wakeAndLeave_logLock (s : LogSystem n) (t : Fin n) :
    (s.wakeAndLeave t).logLock = none := rfl
@[simp] theorem wakeAndLeave_ptLock (s : LogSystem n) (t : Fin n) :
    (s.wakeAndLeave t).ptLock = s.ptLock := rfl
@[simp] theorem wakeAndLeave_halted (s : LogSystem n) (t : Fin n) :
    (s.wakeAndLeave t).halted = s.halted := rfl

/-- The system after `initlog`: every thread idle, no lock held. -/
def init (store : Storage) : LogSystem n :=
  { store, logLock := none, ptLock := none, pc := fun _ => .idle, halted := none }

/-- The initial states: any disk, after `initlog`. -/
def Initial (s : LogSystem n) : Prop := ∃ start size d, s = init (initlog start size d)

/-- The reachable states of the group-commit system. -/
def Reachable (s : LogSystem n) : Prop := Lib.Reachable Initial step s

end LogSystem

end Xv6
