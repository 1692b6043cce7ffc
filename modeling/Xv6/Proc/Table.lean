import Mathlib.Data.List.Nodup
import Mathlib.Data.Fintype.Basic
import Xv6.Lib.Transition

/-!
**The process table.**

`struct proc` with the fields process management reads and writes, and the loops of `proc.c`
over `ptable.proc`, each a function of the table (`Fin n → Proc n`, slot `i` for
`&ptable.proc[i]`):

* `allocproc`'s critical section (the first `UNUSED` slot becomes `EMBRYO` with pid `nextpid`);
* `wakeup1`, `kill` (the first slot whose pid matches, whatever its state);
* `exit`'s critical section: `wakeup1(curproc->parent)`, the loop passing the children to
  `initproc` (`reparent`, with its closed form `reparent_eq`), `ZOMBIE`;
* one scan of `wait`'s loop (`waitScan`, with `waitScan_reap`, `waitScan_fail` and
  `waitScan_sleep`) and the freeing of the child it found (`reapChild`);
* one scan of `scheduler`'s loop from a given slot (`nextRunnable`).
-/

namespace Xv6

/-- `enum procstate`. -/
inductive ProcState
  | unused
  | embryo
  | sleeping
  | runnable
  | running
  | zombie
  deriving DecidableEq, Repr

/-- A sleep channel, `void *chan`: the address of a `struct proc` (what `wait` sleeps on), or any
other kernel address. -/
inductive Chan (n : Nat)
  | proc (slot : Fin n)
  | other (addr : Nat)
  deriving DecidableEq, Repr

/-- `struct proc`, the fields process management uses. `parent` and `chan` are `none` for a
null pointer; `kstack` and `pgdir` say whether the slot owns a kernel stack and a page
directory. -/
structure Proc (n : Nat) where
  state : ProcState
  pid : Int
  parent : Option (Fin n)
  chan : Option (Chan n)
  killed : Bool
  kstack : Bool
  pgdir : Bool
  deriving DecidableEq, Repr

variable {n : Nat}

/-- A process that has started and not exited: `SLEEPING`, `RUNNABLE` or `RUNNING`. -/
def ProcState.active : ProcState → Bool
  | .sleeping | .runnable | .running => true
  | _ => false

/-- A slot of `ptable` as the kernel is loaded: all zero. -/
def Proc.zero : Proc n := ⟨.unused, 0, none, none, false, false, false⟩

/-- The loop of `allocproc`: the first `UNUSED` slot. -/
def unusedSlot (procs : Fin n → Proc n) : Option (Fin n) :=
  (List.finRange n).find? fun p => (procs p).state = .unused

/-- `allocproc`'s critical section: the first `UNUSED` slot becomes `EMBRYO` with pid `nextpid`
(the caller then increments `nextpid`). Nothing else of the slot is reset. -/
def allocproc (procs : Fin n → Proc n) (nextpid : Int) : Option (Fin n × (Fin n → Proc n)) :=
  (unusedSlot procs).map fun p =>
    (p, Function.update procs p { procs p with state := .embryo, pid := nextpid })

/-- `wakeup1(chan)`: every process `SLEEPING` on `chan` becomes `RUNNABLE`. -/
def wakeup1 (procs : Fin n → Proc n) (chan : Option (Chan n)) : Fin n → Proc n :=
  fun p =>
    if (procs p).state = .sleeping ∧ (procs p).chan = chan then { procs p with state := .runnable }
    else procs p

/-- `kill(pid)`: the first slot with that pid is marked killed and, if `SLEEPING`, made
`RUNNABLE`; the result is `0`, or `-1` when no slot has the pid. -/
def kill (procs : Fin n → Proc n) (pid : Int) : Int × (Fin n → Proc n) :=
  match (List.finRange n).find? fun p => (procs p).pid = pid with
  | some p =>
    (0, Function.update procs p
      { procs p with
        killed := true
        state := if (procs p).state = .sleeping then .runnable else (procs p).state })
  | none => (-1, procs)

/-- One pass of `exit`'s loop: a child of `curproc` goes to `initproc`, which is woken if the
child is a `ZOMBIE`. -/
def reparentStep (curproc initproc : Fin n) (procs : Fin n → Proc n) (p : Fin n) :
    Fin n → Proc n :=
  if (procs p).parent = some curproc then
    let procs := Function.update procs p { procs p with parent := some initproc }
    if (procs p).state = .zombie then wakeup1 procs (some (.proc initproc)) else procs
  else procs

/-- `exit`'s loop over the table: pass `curproc`'s children to `initproc`. -/
def reparent (procs : Fin n → Proc n) (curproc initproc : Fin n) : Fin n → Proc n :=
  (List.finRange n).foldl (reparentStep curproc initproc) procs

/-- `exit`'s critical section before `sched`: wake the parent, pass the children to
`initproc`, become a `ZOMBIE`. -/
def exitLocked (procs : Fin n → Proc n) (curproc initproc : Fin n) : Fin n → Proc n :=
  let procs := wakeup1 procs ((procs curproc).parent.map .proc)
  let procs := reparent procs curproc initproc
  Function.update procs curproc { procs curproc with state := .zombie }

/-- How one scan of `wait`'s loop ends. -/
inductive WaitScan (n : Nat)
  /-- found a `ZOMBIE` child: free it and return its pid -/
  | reap (child : Fin n)
  /-- no children, or killed: return `-1` -/
  | fail
  /-- `sleep(curproc, &ptable.lock)` -/
  | sleep
  deriving DecidableEq, Repr

/-- One scan of `wait`'s loop by `curproc`. -/
def waitScan (procs : Fin n → Proc n) (curproc : Fin n) : WaitScan n :=
  match (List.finRange n).find? fun p =>
      (procs p).parent = some curproc ∧ (procs p).state = .zombie with
  | some p => .reap p
  | none =>
    let havekids := (List.finRange n).any fun p => (procs p).parent = some curproc
    if !havekids || (procs curproc).killed then .fail else .sleep

/-- `wait` frees the `ZOMBIE` child it found. -/
def reapChild (procs : Fin n → Proc n) (p : Fin n) : Fin n → Proc n :=
  Function.update procs p
    { procs p with kstack := false, pgdir := false, pid := 0, parent := none, killed := false,
                   state := .unused }

/-- `scheduler`'s loop from slot `start`: the first `RUNNABLE` slot at or after it. -/
def nextRunnable (procs : Fin n → Proc n) (start : Nat) : Option (Fin n) :=
  (List.finRange n).find? fun p => start ≤ p.val ∧ (procs p).state = .runnable

/-! ### Spec lemmas -/

@[simp] theorem wakeup1_apply (procs : Fin n → Proc n) (chan : Option (Chan n)) (p : Fin n) :
    wakeup1 procs chan p =
      if (procs p).state = .sleeping ∧ (procs p).chan = chan then { procs p with state := .runnable }
      else procs p := rfl

/-- `wakeup1` only turns `SLEEPING` into `RUNNABLE`. -/
theorem wakeup1_state (procs : Fin n → Proc n) (chan : Option (Chan n)) (p : Fin n) :
    (wakeup1 procs chan p).state =
      if (procs p).state = .sleeping ∧ (procs p).chan = chan then .runnable else (procs p).state := by
  rw [wakeup1_apply]
  split <;> rfl

/-- `wakeup1` changes nothing but the state. -/
theorem wakeup1_eq (procs : Fin n → Proc n) (chan : Option (Chan n)) (p : Fin n) :
    wakeup1 procs chan p = { procs p with state := (wakeup1 procs chan p).state } := by
  rw [wakeup1_apply]
  split <;> rfl

theorem unusedSlot_state {procs : Fin n → Proc n} {p : Fin n} (found : unusedSlot procs = some p) :
    (procs p).state = .unused := by
  simpa using Lib.find?_finRange_some found

theorem allocproc_eq_some {procs procs' : Fin n → Proc n} {nextpid : Int} {p : Fin n}
    (alloc : allocproc procs nextpid = some (p, procs')) :
    unusedSlot procs = some p ∧
      procs' = Function.update procs p { procs p with state := .embryo, pid := nextpid } := by
  unfold allocproc at alloc
  cases found : unusedSlot procs with
  | none => simp [found] at alloc
  | some q =>
    simp only [found, Option.map_some, Option.some.injEq, Prod.mk.injEq] at alloc
    obtain ⟨rfl, rfl⟩ := alloc
    exact ⟨rfl, rfl⟩

/-- `kill` succeeds exactly when some slot, of any state, has the pid. -/
theorem kill_fst_eq_zero_iff (procs : Fin n → Proc n) (pid : Int) :
    (kill procs pid).1 = 0 ↔ ∃ p, (procs p).pid = pid := by
  unfold kill
  split
  case h_1 p found => simpa using ⟨p, by simpa using Lib.find?_finRange_some found⟩
  case h_2 none =>
    simp only [Int.reduceNeg, Int.reduceEq, false_iff, not_exists]
    intro p
    simpa using Lib.find?_finRange_none none p

/-- The slot `kill` marks: the first one with the pid. -/
theorem kill_marks {procs : Fin n → Proc n} {pid : Int} {p : Fin n}
    (found : (List.finRange n).find? (fun q => (procs q).pid = pid) = some p) :
    kill procs pid = (0, Function.update procs p
      { procs p with
        killed := true
        state := if (procs p).state = .sleeping then .runnable else (procs p).state }) := by
  unfold kill
  rw [found]

/-- `kill` changes the flag and the state of one slot only. -/
theorem kill_eq (procs : Fin n → Proc n) (pid : Int) (p : Fin n) :
    (kill procs pid).2 p =
      { procs p with killed := ((kill procs pid).2 p).killed, state := ((kill procs pid).2 p).state } := by
  unfold kill
  split
  case h_1 q _ =>
    by_cases same : p = q
    · subst same
      simp
    · simp [Function.update_of_ne same]
  case h_2 => rfl

/-! ### `exit`'s loop in closed form -/

section Reparent

variable (procs : Fin n → Proc n) (curproc initproc : Fin n)

/-- Slot `j` after `exit`'s loop has visited the slots of `l`: its parent moved to `initproc` if
it was `curproc` and `j` was visited; `RUNNABLE` if it slept on `initproc` and a visited child
was a `ZOMBIE`. -/
def reparented (l : List (Fin n)) (j : Fin n) : Proc n :=
  { procs j with
    parent := if j ∈ l ∧ (procs j).parent = some curproc then some initproc else (procs j).parent
    state :=
      if (procs j).state = .sleeping ∧ (procs j).chan = some (.proc initproc) ∧
          ∃ i ∈ l, (procs i).parent = some curproc ∧ (procs i).state = .zombie then .runnable
      else (procs j).state }

theorem reparented_nil : reparented procs curproc initproc [] = procs := by
  funext j
  simp [reparented]

/-- One more pass of the loop, at a slot not visited before. -/
theorem reparentStep_reparented {l : List (Fin n)} {a : Fin n} (fresh : a ∉ l) :
    reparentStep curproc initproc (reparented procs curproc initproc l) a =
      reparented procs curproc initproc (l ++ [a]) := by
  have parentA : (reparented procs curproc initproc l a).parent = (procs a).parent := by
    simp [reparented, fresh]
  have zombieA : (reparented procs curproc initproc l a).state = .zombie ↔
      (procs a).state = .zombie := by
    simp only [reparented]
    split <;> simp_all
  funext j
  unfold reparentStep
  rw [parentA]
  by_cases child : (procs a).parent = some curproc
  · simp only [child, if_true, Function.update_self]
    by_cases dead : (procs a).state = .zombie
    · rw [if_pos (zombieA.mpr dead), wakeup1_apply]
      by_cases same : j = a
      · subst same
        simp [reparented, child, dead]
      · simp only [Function.update_of_ne same, reparented]
        split_ifs <;> simp_all
    · rw [if_neg (mt zombieA.mp dead)]
      by_cases same : j = a
      · subst same
        simp [reparented, child, dead, fresh]
      · rw [Function.update_of_ne same]
        simp [reparented, same, dead]
  · simp only [child, if_false]
    by_cases same : j = a
    · subst same
      simp [reparented, child, fresh]
    · simp [reparented, same, child]

theorem foldl_reparentStep {l : List (Fin n)} (distinct : l.Nodup) :
    l.foldl (reparentStep curproc initproc) procs = reparented procs curproc initproc l := by
  induction l using List.reverseRecOn with
  | nil => exact (reparented_nil procs curproc initproc).symm
  | append_singleton l a ih =>
    have parts := List.nodup_append.mp distinct
    have fresh : a ∉ l := fun mem => parts.2.2 a mem a (List.mem_singleton_self a) rfl
    rw [List.foldl_append, ih parts.1, List.foldl_cons, List.foldl_nil,
      reparentStep_reparented procs curproc initproc fresh]

/-- **`exit`'s loop in closed form.** -/
theorem reparent_eq (j : Fin n) :
    reparent procs curproc initproc j =
      { procs j with
        parent := if (procs j).parent = some curproc then some initproc else (procs j).parent
        state :=
          if (procs j).state = .sleeping ∧ (procs j).chan = some (.proc initproc) ∧
              ∃ i, (procs i).parent = some curproc ∧ (procs i).state = .zombie then .runnable
          else (procs j).state } := by
  rw [reparent, foldl_reparentStep procs curproc initproc (List.nodup_finRange n)]
  simp [reparented]

end Reparent

/-! ### `wait`'s scan -/

section Wait

variable {procs : Fin n → Proc n} {curproc : Fin n}

/-- A scan that reaps found a `ZOMBIE` child of the caller. -/
theorem waitScan_reap {child : Fin n} (scan : waitScan procs curproc = .reap child) :
    (procs child).parent = some curproc ∧ (procs child).state = .zombie := by
  unfold waitScan at scan
  split at scan
  case h_1 p found =>
    cases scan
    simpa using Lib.find?_finRange_some found
  case h_2 =>
    dsimp only at scan
    split at scan <;> cases scan

/-- A scan that neither reaps nor sleeps saw no `ZOMBIE` child, and no child at all or a
killed caller. -/
theorem waitScan_fail (scan : waitScan procs curproc = .fail) :
    (∀ p, (procs p).parent = some curproc → (procs p).state ≠ .zombie) ∧
      ((∀ p, (procs p).parent ≠ some curproc) ∨ (procs curproc).killed = true) := by
  unfold waitScan at scan
  split at scan
  case h_1 => cases scan
  case h_2 none =>
    refine ⟨fun p child dead => by simpa [child, dead] using Lib.find?_finRange_none none p, ?_⟩
    dsimp only at scan
    split at scan
    case isTrue out =>
      simp only [Bool.or_eq_true, Bool.not_eq_true', List.any_eq_false, List.mem_finRange,
        decide_eq_true_eq, true_implies] at out
      exact out
    case isFalse => cases scan

/-- A scan that sleeps saw no `ZOMBIE` child, but some child, and a caller not killed. -/
theorem waitScan_sleep (scan : waitScan procs curproc = .sleep) :
    (∀ p, (procs p).parent = some curproc → (procs p).state ≠ .zombie) ∧
      (∃ p, (procs p).parent = some curproc) ∧ (procs curproc).killed = false := by
  unfold waitScan at scan
  split at scan
  case h_1 => cases scan
  case h_2 none =>
    refine ⟨fun p child dead => by simpa [child, dead] using Lib.find?_finRange_none none p, ?_⟩
    dsimp only at scan
    split at scan
    case isTrue => cases scan
    case isFalse stays =>
      simpa only [Bool.or_eq_true, Bool.not_eq_true', List.any_eq_false, List.mem_finRange,
        decide_eq_true_eq, true_implies, not_or, not_forall, not_not, Bool.not_eq_true] using stays

end Wait

/-! ### Tables that differ only by woken sleepers -/

/-- State `b` is state `a`, or a sleeper made `RUNNABLE`. -/
def Wakes (a b : ProcState) : Prop := b = a ∨ (a = .sleeping ∧ b = .runnable)

theorem Wakes.refl (a : ProcState) : Wakes a a := Or.inl rfl

theorem Wakes.trans {a b c : ProcState} (first : Wakes a b) (second : Wakes b c) : Wakes a c := by
  rcases first with rfl | ⟨asleep, rfl⟩
  · exact second
  · rcases second with rfl | ⟨woken, _⟩
    · exact Or.inr ⟨asleep, rfl⟩
    · cases woken

/-- A state that no sleeper gets is kept, both ways. -/
theorem Wakes.eq_iff {a b st : ProcState} (wakes : Wakes a b) (notSleeping : st ≠ .sleeping)
    (notRunnable : st ≠ .runnable) : b = st ↔ a = st := by
  rcases wakes with rfl | ⟨rfl, rfl⟩
  · rfl
  · exact ⟨fun h => absurd h.symm notRunnable, fun h => absurd h.symm notSleeping⟩

/-- `procs'` differs from `procs`, in the states, only by sleepers made `RUNNABLE`: what
`wakeup1`, `kill` and `exit`'s loop do to every slot. -/
def OnlyWakes (procs procs' : Fin n → Proc n) : Prop := ∀ q, Wakes (procs q).state (procs' q).state

theorem OnlyWakes.refl (procs : Fin n → Proc n) : OnlyWakes procs procs := fun _ => Wakes.refl _

theorem OnlyWakes.trans {procs procs' procs'' : Fin n → Proc n} (first : OnlyWakes procs procs')
    (second : OnlyWakes procs' procs'') : OnlyWakes procs procs'' :=
  fun q => (first q).trans (second q)

/-- A change of one slot's other fields only. -/
theorem onlyWakes_update (procs : Fin n → Proc n) {p : Fin n} {new : Proc n}
    (same : new.state = (procs p).state) : OnlyWakes procs (Function.update procs p new) := by
  intro q
  by_cases here : q = p
  · subst here
    rw [Function.update_self, same]
    exact Wakes.refl _
  · rw [Function.update_of_ne here]
    exact Wakes.refl _

theorem wakeup1_onlyWakes (procs : Fin n → Proc n) (chan : Option (Chan n)) :
    OnlyWakes procs (wakeup1 procs chan) := by
  intro q
  rw [wakeup1_state]
  split
  case isTrue asleep => exact Or.inr ⟨asleep.1, rfl⟩
  case isFalse => exact Wakes.refl _

theorem kill_onlyWakes (procs : Fin n → Proc n) (pid : Int) : OnlyWakes procs (kill procs pid).2 := by
  unfold kill
  split
  case h_1 p _ =>
    intro q
    by_cases same : q = p
    · subst same
      simp only [Function.update_self]
      split
      case isTrue asleep => exact Or.inr ⟨asleep, rfl⟩
      case isFalse => exact Wakes.refl _
    · exact Or.inl (by simp only [Function.update_of_ne same])
  case h_2 => exact OnlyWakes.refl procs

theorem reparent_onlyWakes (procs : Fin n → Proc n) (curproc initproc : Fin n) :
    OnlyWakes procs (reparent procs curproc initproc) := by
  intro q
  rw [reparent_eq]
  split
  case isTrue asleep => exact Or.inr ⟨asleep.1, rfl⟩
  case isFalse => exact Wakes.refl _

/-! ### `exit`'s critical section -/

section Exit

variable (procs : Fin n → Proc n) (curproc initproc : Fin n)

theorem exitLocked_self :
    exitLocked procs curproc initproc curproc =
      { reparent (wakeup1 procs ((procs curproc).parent.map .proc)) curproc initproc curproc with
        state := .zombie } := by
  simp [exitLocked]

theorem exitLocked_of_ne {j : Fin n} (other : j ≠ curproc) :
    exitLocked procs curproc initproc j =
      reparent (wakeup1 procs ((procs curproc).parent.map .proc)) curproc initproc j := by
  simp [exitLocked, Function.update_of_ne other]

/-- `exit` passes `curproc`'s children, itself included if it were one, to `initproc`. -/
theorem exitLocked_parent (j : Fin n) :
    (exitLocked procs curproc initproc j).parent =
      if (procs j).parent = some curproc then some initproc else (procs j).parent := by
  by_cases same : j = curproc
  · subst same
    rw [exitLocked_self, reparent_eq, wakeup1_eq]
  · rw [exitLocked_of_ne _ _ _ same, reparent_eq, wakeup1_eq]

/-- `exit` changes the parent links and the states only. -/
theorem exitLocked_eq (j : Fin n) :
    exitLocked procs curproc initproc j =
      { procs j with
        parent := (exitLocked procs curproc initproc j).parent
        state := (exitLocked procs curproc initproc j).state } := by
  by_cases same : j = curproc
  · subst same
    rw [exitLocked_self, reparent_eq, wakeup1_eq]
  · rw [exitLocked_of_ne _ _ _ same, reparent_eq, wakeup1_eq]

theorem exitLocked_chan (j : Fin n) :
    (exitLocked procs curproc initproc j).chan = (procs j).chan := by
  rw [exitLocked_eq]

theorem exitLocked_state_self : (exitLocked procs curproc initproc curproc).state = .zombie := by
  rw [exitLocked_self]

/-- Every other slot only wakes. -/
theorem exitLocked_wakes {j : Fin n} (other : j ≠ curproc) :
    Wakes (procs j).state (exitLocked procs curproc initproc j).state := by
  rw [exitLocked_of_ne _ _ _ other]
  exact ((wakeup1_onlyWakes _ _).trans (reparent_onlyWakes _ _ _)) j

/-- A process still `SLEEPING` after `exit` slept on neither the parent's channel nor, if
`curproc` had a `ZOMBIE` child, on `initproc`'s. -/
theorem exitLocked_sleeping {j : Fin n} (other : j ≠ curproc)
    (asleep : (exitLocked procs curproc initproc j).state = .sleeping) :
    (procs j).state = .sleeping ∧ (procs j).chan ≠ (procs curproc).parent.map .proc ∧
      ((procs j).chan = some (.proc initproc) →
        ∀ i, (procs i).parent = some curproc → (procs i).state ≠ .zombie) := by
  rw [exitLocked_of_ne _ _ _ other, reparent_eq] at asleep
  simp only at asleep
  split at asleep
  case isTrue => cases asleep
  case isFalse notWoken =>
    rw [wakeup1_state] at asleep notWoken
    split at asleep
    case isTrue => cases asleep
    case isFalse notWoken' =>
      refine ⟨asleep, fun same => notWoken' ⟨asleep, same⟩, fun onInit i child dead => ?_⟩
      simp only [wakeup1_apply] at notWoken
      apply notWoken
      refine ⟨by rw [if_neg notWoken']; exact asleep, by split <;> exact onInit, i, ?_⟩
      split
      case isTrue woken => simp [dead] at woken
      case isFalse => exact ⟨child, dead⟩

end Exit

theorem nextRunnable_spec {procs : Fin n → Proc n} {start : Nat} {p : Fin n}
    (found : nextRunnable procs start = some p) :
    start ≤ p.val ∧ (procs p).state = .runnable := by
  simpa using Lib.find?_finRange_some found

end Xv6
