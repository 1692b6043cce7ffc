import Xv6.Proc.Family

/-!
**`kill` and the `killed` flag.**

`kill(pid)` marks the first slot whose pid matches, whatever its state, and `allocproc` resets
the state and the pid of the slot it takes but not `killed`. With the pids of `PidInv`:

* `kill_live`: the pid of a slot in use is in that slot only, so `kill` of it marks that
  process, wakes it if it sleeps, and touches no other slot;
* `allocproc_killed`: a slot taken by `allocproc` keeps its `killed` flag;
* `kill_unused_forks_killed`: `UNUSED` slots carry pid `0` (and a failed `fork` leaves its pid
  behind), so `kill` of a pid no process has may still return `0` and mark an `UNUSED` slot,
  whose next owner is then born killed.
-/

namespace Xv6

variable {n : Nat}

/-- `allocproc` keeps the `killed` flag of the slot it takes. -/
theorem allocproc_killed {procs procs' : Fin n → Proc n} {nextpid : Int} {p : Fin n}
    (alloc : allocproc procs nextpid = some (p, procs')) : (procs' p).killed = (procs p).killed := by
  rw [(allocproc_eq_some alloc).2, Function.update_self]

namespace ProcSystem

variable {m : Nat} {s : ProcSystem n m}

/-- The pid of a slot in use is in that slot only: the scan of `kill` stops there. -/
theorem PidInv.find_pid (inv : s.PidInv) {p : Fin n} (used : (s.procs p).state ≠ .unused) :
    (List.finRange n).find? (fun q => (s.procs q).pid = (s.procs p).pid) = some p := by
  cases found : (List.finRange n).find? (fun q => (s.procs q).pid = (s.procs p).pid) with
  | none => simpa using Lib.find?_finRange_none found p
  | some q =>
    have same : (s.procs q).pid = (s.procs p).pid := by simpa using Lib.find?_finRange_some found
    by_cases here : q = p
    · rw [here]
    · -- two slots share the pid only when it is 0, and a slot in use has a positive one
      have zero := inv.distinct q p here same
      rw [same] at zero
      exact absurd zero (inv.positive p used).ne'

/-- **`kill` of a live pid**, in every reachable state before `nextpid` overflows: it returns
`0`, marks the process with that pid, wakes it if it sleeps, and changes no other slot. -/
theorem kill_live (reach : s.Reachable) (young : s.nextpid ≤ 2 ^ 31) {p : Fin n}
    (used : (s.procs p).state ≠ .unused) :
    kill s.procs (s.procs p).pid =
      (0, Function.update s.procs p
        { s.procs p with
          killed := true
          state := if (s.procs p).state = .sleeping then .runnable else (s.procs p).state }) :=
  kill_marks ((reach.pidInv young).find_pid used)

theorem kill_live_boot :
    (boot : ProcSystem 2 1).nextpid ≤ 2 ^ 31 ∧ ((boot : ProcSystem 2 1).procs 0).state ≠ .unused ∧
      kill (boot : ProcSystem 2 1).procs ((boot : ProcSystem 2 1).procs 0).pid =
        (0, Function.update (boot : ProcSystem 2 1).procs 0
          { (boot : ProcSystem 2 1).procs 0 with
            killed := true
            state := if ((boot : ProcSystem 2 1).procs 0).state = .sleeping then .runnable
              else ((boot : ProcSystem 2 1).procs 0).state }) :=
  ⟨by decide, by decide, kill_live (Lib.Reachable.init boot_initial) (by decide) (by decide)⟩

/-- **`kill` of a pid no process has.** Once `initproc` runs, `kill(0)` returns `0` though no
slot in use has pid `0`: it marks the `UNUSED` slot 1, which the next `fork` gives to its child,
born killed with pid `2` that no `kill` named. -/
theorem kill_unused_forks_killed :
    ∃ s : ProcSystem 2 1, s.Reachable ∧
      (kill s.procs 0).1 = 0 ∧ (∀ p, (s.procs p).state ≠ .unused → (s.procs p).pid ≠ 0) ∧
      (Lib.run step s [.kill 0 0, .fork 0]).any fun s' =>
        decide ((s'.procs 1).state = .embryo ∧ (s'.procs 1).pid = 2 ∧ (s'.procs 1).killed = true) :=
  Lib.Reachable.exists_of_run boot_initial [.scheduler 0, .switchIn 0] (by decide)

end ProcSystem

end Xv6
