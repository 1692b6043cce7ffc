import Xv6.Proc.Table
import Xv6.Lib.Transition

/-!
**Processes on CPUs.**

`m` CPUs run the kernel threads of the `n` process slots and their own scheduler threads. Each
`ptable.lock` critical section is one step. `swtch` hands the held lock from the thread switching
out to the thread switching in: `sched` leaves the CPU to its scheduler with the lock held, and
the scheduler leaves it to the process it picked, which continues after its own `sched` (or in
`forkret`) with the lock held.

* `ProcSystem.step`: `scheduler`'s loop, the continuation of a process switched back in, and the
  steps of the process running on a CPU: `yield`, `sleep`, `exit`, `wait`, `kill`, `wakeup` and
  the stages of `fork` (`allocproc`, its kernel stack, `copyuvm`, `RUNNABLE`), with the failure
  paths of `kalloc` and `copyuvm`.
* `ProcSystem.Initial`: after `userinit`, before any scheduler runs.
* `step_cases`: what a step can do, one case per event, for the invariant proofs.

`reaped` is a ghost: the pids `wait` has returned, oldest first.
-/

namespace Xv6

/-- Where `sched` switched a process out: what its kernel thread does when the scheduler
switches back to it. -/
inductive SwitchPoint
  /-- a new process: `forkret` releases `ptable.lock` -/
  | forkret
  /-- `yield` releases `ptable.lock` -/
  | yield
  /-- `sleep(chan, lk)` for `lk` other than `ptable.lock`: clear `chan`, release `ptable.lock` -/
  | sleep
  /-- `sleep(curproc, &ptable.lock)` in `wait`: clear `chan`, scan again with the lock held -/
  | waitSleep
  /-- `exit`'s `sched`, which must not return -/
  | exit
  deriving DecidableEq, Repr

/-- How far `fork` has got with its child, outside `ptable.lock`. -/
inductive ForkStage
  /-- `allocproc` took the slot; next the kernel stack -/
  | kstack
  /-- next `copyuvm` -/
  | copy
  /-- next the critical section that makes the child `RUNNABLE` -/
  | publish
  deriving DecidableEq, Repr

/-- A process's kernel thread: where it was switched out, and the `fork` it is inside. -/
structure KThread (n : Nat) where
  switchPoint : SwitchPoint
  forking : Option (Fin n × ForkStage)
  deriving DecidableEq, Repr

/-- `struct cpu`: `c->proc`; the thread executing on the CPU, a process's or (`none`) the CPU's
scheduler; the slot at which the scheduler's loop is switched out (`none` at the top of the
loop). -/
structure Cpu (n : Nat) where
  proc : Option (Fin n)
  exec : Option (Fin n)
  loop : Option (Fin n)
  deriving DecidableEq, Repr

/-- The value of the C `int` that has been counted up to `x` from a positive start: `x` while it
is at most `INT_MAX`. One more `nextpid++` overflows, which C leaves undefined; the compiled
increment wraps, in two's complement. -/
def cInt (x : Int) : Int := x.bmod (2 ^ 32)

theorem cInt_of_lt {x : Int} (positive : 0 < x) (fits : x < 2 ^ 31) : cInt x = x :=
  Int.bmod_eq_of_le_mul_two (by omega) (by omega)

/-- The process table, the kernel threads, the CPUs, `ptable.lock` (the CPU holding it),
`nextpid` and `initproc`. `nextpid` counts the pids handed out without bound; the `int` of the
kernel holds `cInt nextpid`, which is what `allocproc` assigns. -/
structure ProcSystem (n m : Nat) where
  procs : Fin n → Proc n
  threads : Fin n → KThread n
  cpus : Fin m → Cpu n
  lock : Option (Fin m)
  nextpid : Int
  initproc : Fin n
  reaped : List Int
  halted : Option String

/-- The atomic steps, each on a CPU. -/
inductive ProcEvent (n m : Nat)
  /-- `scheduler`: from the top of the loop, or back from a process, to the next switch or to
  the release at the end of the table -/
  | scheduler (c : Fin m)
  /-- the process the scheduler switched to continues where `sched` switched it out -/
  | switchIn (c : Fin m)
  /-- `yield`, from a timer interrupt -/
  | yield (c : Fin m)
  /-- `sleep` on a channel other than a process, for a lock other than `ptable.lock` -/
  | sleep (c : Fin m) (addr : Nat)
  | exit (c : Fin m)
  | wait (c : Fin m)
  | kill (c : Fin m) (pid : Int)
  /-- `wakeup`, from a system call or an interrupt -/
  | wakeup (c : Fin m) (chan : Chan n)
  /-- `fork`: `allocproc`'s critical section -/
  | fork (c : Fin m)
  /-- `allocproc`: `kalloc` of the kernel stack succeeds or returns `0` -/
  | forkKstack (c : Fin m) (allocated : Bool)
  /-- `fork`: `copyuvm` succeeds or returns `0` -/
  | forkCopy (c : Fin m) (copied : Bool)
  /-- `fork`: the critical section that makes the child `RUNNABLE` -/
  | forkPublish (c : Fin m)

namespace ProcSystem

variable {n m : Nat}

/-- Change one slot of the table. -/
def modifyProc (s : ProcSystem n m) (p : Fin n) (f : Proc n → Proc n) : ProcSystem n m :=
  { s with procs := Function.update s.procs p (f (s.procs p)) }

/-- Change one kernel thread. -/
def modifyThread (s : ProcSystem n m) (p : Fin n) (f : KThread n → KThread n) : ProcSystem n m :=
  { s with threads := Function.update s.threads p (f (s.threads p)) }

/-- `sched()` by process `p` on CPU `c`, which holds `ptable.lock`: switch to the CPU's
scheduler, to come back at `point`. -/
def switchOut (s : ProcSystem n m) (c : Fin m) (p : Fin n) (point : SwitchPoint) :
    ProcSystem n m :=
  { s.modifyThread p (fun t => { t with switchPoint := point }) with
    cpus := Function.update s.cpus c { s.cpus c with exec := none }
    lock := some c }

/-- `scheduler`'s loop on CPU `c` from slot `start`, `ptable.lock` held and `c->proc = 0`:
switch to the next `RUNNABLE` process, or release the lock at the end of the table. -/
def scan (s : ProcSystem n m) (c : Fin m) (start : Nat) : ProcSystem n m :=
  match nextRunnable s.procs start with
  | some p =>
    { s.modifyProc p (fun q => { q with state := .running }) with
      cpus := Function.update s.cpus c { proc := some p, exec := some p, loop := some p }
      lock := some c }
  | none =>
    { s with
      cpus := Function.update s.cpus c { proc := none, exec := none, loop := none }
      lock := none }

/-- `wait`'s loop by process `p` on CPU `c` with `ptable.lock` held: free a `ZOMBIE` child and
return, return `-1`, or sleep on `p`. -/
def waitLoop (s : ProcSystem n m) (c : Fin m) (p : Fin n) : ProcSystem n m :=
  match waitScan s.procs p with
  | .reap child =>
    { s with procs := reapChild s.procs child, reaped := s.reaped ++ [(s.procs child).pid],
             lock := none }
  | .fail => { s with lock := none }
  | .sleep =>
    (s.modifyProc p fun q => { q with chan := some (.proc p), state := .sleeping }).switchOut c p
      .waitSleep

/-- Process `p`, switched back in on CPU `c` with `ptable.lock` held, continues after its
`sched` (or in `forkret`). -/
def resume (s : ProcSystem n m) (c : Fin m) (p : Fin n) : ProcSystem n m :=
  match (s.threads p).switchPoint with
  | .forkret | .yield => { s with lock := none }
  | .sleep => { s.modifyProc p (fun q => { q with chan := none }) with lock := none }
  | .waitSleep => (s.modifyProc p fun q => { q with chan := none }).waitLoop c p
  | .exit => { s with halted := some "zombie exit" }

/-- The process executing on CPU `c`, when it may start a step of its own: nothing has
panicked and `ptable.lock` is free. -/
def current (s : ProcSystem n m) (c : Fin m) : Option (Fin n) :=
  if s.halted = none ∧ s.lock = none then (s.cpus c).exec else none

/-- A step of the process executing on CPU `c`. -/
def whenCurrent (s : ProcSystem n m) (c : Fin m) (f : Fin n → ProcSystem n m) :
    Option (ProcSystem n m) :=
  (s.current c).map f

/-- A step of the process executing on CPU `c` outside any `fork`. -/
def whenIdle (s : ProcSystem n m) (c : Fin m) (f : Fin n → ProcSystem n m) :
    Option (ProcSystem n m) :=
  match s.current c with
  | some p => if (s.threads p).forking = none then some (f p) else none
  | none => none

/-- A step of the process executing on CPU `c` inside `fork`, at `stage`, with its child. -/
def whenForking (s : ProcSystem n m) (c : Fin m) (stage : ForkStage)
    (f : Fin n → Fin n → ProcSystem n m) : Option (ProcSystem n m) :=
  match s.current c with
  | some p =>
    match (s.threads p).forking with
    | some (child, reached) => if reached = stage then some (f p child) else none
    | none => none
  | none => none

/-- One step, if it is enabled. -/
def step (s : ProcSystem n m) : ProcEvent n m → Option (ProcSystem n m)
  | .scheduler c =>
    if s.halted = none ∧ (s.cpus c).exec = none then
      match (s.cpus c).loop with
      | none => if s.lock = none then some (s.scan c 0) else none
      | some p => if s.lock = some c then some (s.scan c (p.val + 1)) else none
    else none
  | .switchIn c =>
    match (s.cpus c).exec with
    | some p => if s.halted = none ∧ s.lock = some c then some (s.resume c p) else none
    | none => none
  | .yield c =>
    s.whenCurrent c fun p => (s.modifyProc p fun q => { q with state := .runnable }).switchOut c p
      .yield
  | .sleep c addr =>
    s.whenIdle c fun p =>
      (s.modifyProc p fun q => { q with chan := some (.other addr), state := .sleeping }).switchOut
        c p .sleep
  | .exit c =>
    s.whenIdle c fun p =>
      if p = s.initproc then { s with halted := some "init exiting" }
      else { s with procs := exitLocked s.procs p s.initproc }.switchOut c p .exit
  | .wait c => s.whenIdle c fun p => { s with lock := some c }.waitLoop c p
  | .kill c pid => s.whenIdle c fun _ => { s with procs := (kill s.procs pid).2 }
  | .wakeup c chan => s.whenCurrent c fun _ => { s with procs := wakeup1 s.procs (some chan) }
  | .fork c =>
    s.whenIdle c fun p =>
      match allocproc s.procs (cInt s.nextpid) with
      | some (child, procs) =>
        { s with procs, nextpid := s.nextpid + 1 }.modifyThread p fun t =>
          { t with forking := some (child, .kstack) }
      | none => s
  | .forkKstack c allocated =>
    s.whenForking c .kstack fun p child =>
      if allocated then
        ((s.modifyProc child fun q => { q with kstack := true }).modifyThread child fun t =>
          { t with switchPoint := .forkret }).modifyThread p fun t =>
            { t with forking := some (child, .copy) }
      else
        (s.modifyProc child fun q => { q with state := .unused }).modifyThread p fun t =>
          { t with forking := none }
  | .forkCopy c copied =>
    s.whenForking c .copy fun p child =>
      if copied then
        (s.modifyProc child fun q => { q with pgdir := true, parent := some p }).modifyThread p
          fun t => { t with forking := some (child, .publish) }
      else
        (s.modifyProc child fun q => { q with kstack := false, state := .unused }).modifyThread p
          fun t => { t with forking := none }
  | .forkPublish c =>
    s.whenForking c .publish fun p child =>
      (s.modifyProc child fun q => { q with state := .runnable }).modifyThread p fun t =>
        { t with forking := none }

/-- `userinit` on the zeroed table: `allocproc` takes slot 0 for `initproc` (pid 1), which gets
its kernel stack and page directory and becomes `RUNNABLE`; every CPU is about to enter
`scheduler`. -/
def userinit : Option (ProcSystem n m) :=
  (allocproc (fun _ => Proc.zero) 1).map fun (p, procs) =>
    { procs := Function.update procs p
        { procs p with kstack := true, pgdir := true, state := .runnable }
      threads := fun _ => ⟨.forkret, none⟩
      cpus := fun _ => ⟨none, none, none⟩
      lock := none
      nextpid := 2
      initproc := p
      reaped := []
      halted := none }

def Initial (s : ProcSystem n m) : Prop := userinit = some s

/-- The state `userinit` leaves: `initproc` in slot 0. -/
def boot [NeZero n] : ProcSystem n m :=
  { procs := Function.update (fun _ => Proc.zero) 0 ⟨.runnable, 1, none, none, false, true, true⟩
    threads := fun _ => ⟨.forkret, none⟩
    cpus := fun _ => ⟨none, none, none⟩
    lock := none
    nextpid := 2
    initproc := 0
    reaped := []
    halted := none }

def Reachable (s : ProcSystem n m) : Prop := Lib.Reachable Initial step s

/-! ### Field lemmas -/

section Fields

variable (s : ProcSystem n m)

@[simp] theorem modifyProc_procs (p : Fin n) (f : Proc n → Proc n) :
    (s.modifyProc p f).procs = Function.update s.procs p (f (s.procs p)) := rfl
@[simp] theorem modifyProc_threads (p : Fin n) (f : Proc n → Proc n) :
    (s.modifyProc p f).threads = s.threads := rfl
@[simp] theorem modifyProc_cpus (p : Fin n) (f : Proc n → Proc n) :
    (s.modifyProc p f).cpus = s.cpus := rfl
@[simp] theorem modifyProc_lock (p : Fin n) (f : Proc n → Proc n) :
    (s.modifyProc p f).lock = s.lock := rfl
@[simp] theorem modifyProc_nextpid (p : Fin n) (f : Proc n → Proc n) :
    (s.modifyProc p f).nextpid = s.nextpid := rfl
@[simp] theorem modifyProc_initproc (p : Fin n) (f : Proc n → Proc n) :
    (s.modifyProc p f).initproc = s.initproc := rfl
@[simp] theorem modifyProc_reaped (p : Fin n) (f : Proc n → Proc n) :
    (s.modifyProc p f).reaped = s.reaped := rfl
@[simp] theorem modifyProc_halted (p : Fin n) (f : Proc n → Proc n) :
    (s.modifyProc p f).halted = s.halted := rfl

@[simp] theorem modifyThread_procs (p : Fin n) (f : KThread n → KThread n) :
    (s.modifyThread p f).procs = s.procs := rfl
@[simp] theorem modifyThread_threads (p : Fin n) (f : KThread n → KThread n) :
    (s.modifyThread p f).threads = Function.update s.threads p (f (s.threads p)) := rfl
@[simp] theorem modifyThread_cpus (p : Fin n) (f : KThread n → KThread n) :
    (s.modifyThread p f).cpus = s.cpus := rfl
@[simp] theorem modifyThread_lock (p : Fin n) (f : KThread n → KThread n) :
    (s.modifyThread p f).lock = s.lock := rfl
@[simp] theorem modifyThread_nextpid (p : Fin n) (f : KThread n → KThread n) :
    (s.modifyThread p f).nextpid = s.nextpid := rfl
@[simp] theorem modifyThread_initproc (p : Fin n) (f : KThread n → KThread n) :
    (s.modifyThread p f).initproc = s.initproc := rfl
@[simp] theorem modifyThread_reaped (p : Fin n) (f : KThread n → KThread n) :
    (s.modifyThread p f).reaped = s.reaped := rfl
@[simp] theorem modifyThread_halted (p : Fin n) (f : KThread n → KThread n) :
    (s.modifyThread p f).halted = s.halted := rfl

@[simp] theorem switchOut_procs (c : Fin m) (p : Fin n) (point : SwitchPoint) :
    (s.switchOut c p point).procs = s.procs := rfl
@[simp] theorem switchOut_threads (c : Fin m) (p : Fin n) (point : SwitchPoint) :
    (s.switchOut c p point).threads =
      Function.update s.threads p { s.threads p with switchPoint := point } := rfl
@[simp] theorem switchOut_cpus (c : Fin m) (p : Fin n) (point : SwitchPoint) :
    (s.switchOut c p point).cpus = Function.update s.cpus c { s.cpus c with exec := none } := rfl
@[simp] theorem switchOut_lock (c : Fin m) (p : Fin n) (point : SwitchPoint) :
    (s.switchOut c p point).lock = some c := rfl
@[simp] theorem switchOut_nextpid (c : Fin m) (p : Fin n) (point : SwitchPoint) :
    (s.switchOut c p point).nextpid = s.nextpid := rfl
@[simp] theorem switchOut_initproc (c : Fin m) (p : Fin n) (point : SwitchPoint) :
    (s.switchOut c p point).initproc = s.initproc := rfl
@[simp] theorem switchOut_reaped (c : Fin m) (p : Fin n) (point : SwitchPoint) :
    (s.switchOut c p point).reaped = s.reaped := rfl
@[simp] theorem switchOut_halted (c : Fin m) (p : Fin n) (point : SwitchPoint) :
    (s.switchOut c p point).halted = s.halted := rfl

@[simp] theorem switchOut_forking (c : Fin m) (p q : Fin n) (point : SwitchPoint) :
    ((s.switchOut c p point).threads q).forking = (s.threads q).forking := by
  by_cases same : q = p
  · subst same
    simp
  · simp [Function.update_of_ne same]

end Fields

theorem unusedSlot_zero [NeZero n] : unusedSlot (fun _ : Fin n => (Proc.zero : Proc n)) = some 0 := by
  obtain ⟨k, rfl⟩ : ∃ k, n = k + 1 := ⟨n - 1, by have := NeZero.ne n; omega⟩
  simp [unusedSlot, List.finRange_succ, Proc.zero]

theorem userinit_eq [NeZero n] : (userinit : Option (ProcSystem n m)) = some boot := by
  rw [userinit, allocproc, unusedSlot_zero]
  simp [boot, Proc.zero]

theorem boot_initial [NeZero n] : (boot : ProcSystem n m).Initial := userinit_eq

/-- The one initial state is `boot`, on a table with a slot. -/
theorem Initial.eq_boot {s : ProcSystem n m} (initial : s.Initial) : ∃ _ : NeZero n, s = boot := by
  unfold Initial userinit at initial
  cases n with
  | zero => simp [allocproc, unusedSlot] at initial
  | succ k =>
    rw [← userinit, userinit_eq, Option.some.injEq] at initial
    exact ⟨inferInstance, initial.symm⟩

/-- Every slot of `boot` but `initproc`'s is zeroed. -/
theorem boot_procs_of_ne [NeZero n] {p : Fin n} (other : p ≠ 0) :
    (boot : ProcSystem n m).procs p = Proc.zero := by
  simp [boot, Function.update_of_ne other]

/-! ### What a step can do -/

section Steps

variable {s s' : ProcSystem n m} {c : Fin m}

theorem current_eq_some {p : Fin n} :
    s.current c = some p ↔ s.halted = none ∧ s.lock = none ∧ (s.cpus c).exec = some p := by
  unfold current
  split <;> simp_all

theorem whenCurrent_eq_some {f : Fin n → ProcSystem n m} :
    s.whenCurrent c f = some s' ↔ ∃ p, s.current c = some p ∧ f p = s' := by
  simp [whenCurrent]

theorem whenIdle_eq_some {f : Fin n → ProcSystem n m} :
    s.whenIdle c f = some s' ↔ ∃ p, s.current c = some p ∧ (s.threads p).forking = none ∧ f p = s' := by
  unfold whenIdle
  split
  case h_1 p cur => simp [cur]
  case h_2 cur => simp [cur]

theorem whenForking_eq_some {stage : ForkStage} {f : Fin n → Fin n → ProcSystem n m} :
    s.whenForking c stage f = some s' ↔
      ∃ p child, s.current c = some p ∧ (s.threads p).forking = some (child, stage) ∧
        f p child = s' := by
  unfold whenForking
  split
  case h_1 p cur =>
    split
    case h_1 child reached forking =>
      split
      case isTrue same => simp [cur, forking, same]
      case isFalse other => simp [cur, forking, other]
    case h_2 forking => simp [cur, forking]
  case h_2 cur => simp [cur]

theorem step_scheduler_eq_some :
    s.step (.scheduler c) = some s' ↔
      s.halted = none ∧ (s.cpus c).exec = none ∧
        ((s.cpus c).loop = none ∧ s.lock = none ∧ s.scan c 0 = s' ∨
          ∃ p, (s.cpus c).loop = some p ∧ s.lock = some c ∧ s.scan c (p.val + 1) = s') := by
  simp only [step]
  split
  case isTrue enabled =>
    split
    case h_1 top => simp [enabled, top]
    case h_2 p back => simp [enabled, back]
  case isFalse disabled =>
    simp only [reduceCtorEq, false_iff]
    exact fun ⟨halted, idle, _⟩ => disabled ⟨halted, idle⟩

theorem step_switchIn_eq_some :
    s.step (.switchIn c) = some s' ↔
      ∃ p, (s.cpus c).exec = some p ∧ s.halted = none ∧ s.lock = some c ∧ s.resume c p = s' := by
  simp only [step]
  split
  case h_1 p running =>
    split
    case isTrue enabled => simp [running, enabled]
    case isFalse disabled =>
      simp only [reduceCtorEq, false_iff, not_exists, not_and]
      intro q same halted held _
      exact disabled ⟨halted, held⟩
  case h_2 idle => simp [idle]

end Steps

end ProcSystem

end Xv6
