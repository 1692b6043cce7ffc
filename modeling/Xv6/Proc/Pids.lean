import Xv6.Proc.Family

/-!
**How long pids stay unique.**

`allocproc` gives the slot it takes `nextpid++`, and nothing else reads or resets the counter: a
`fork` whose kernel stack or `copyuvm` fails gives the slot back `UNUSED` but keeps the pid
spent. `nextpid` is an `int`, so the pids are the counter taken modulo `2 ^ 32` as a signed
value (`cInt`).

* `pids_unique_positive` — **before the overflow**: in every reachable state with
  `nextpid ≤ 2 ^ 31`, every process in use has a positive pid and no two have the same one.
* `run_failedFork`, `Reachable.spendPids` — a failed `fork` spends one pid and changes nothing
  else but the stale pid of its slot, so from a state where a process may fork, every count of
  failed forks is reachable.
* `Reachable.fork_at` — hence every value `N ≥ nextpid` of the counter is handed out, as
  `cInt N`, to a child of the next `fork`.
* `fork_after_overflow_negative_pid` — after `2 ^ 31 - 2` failed forks of `initproc`, the next
  child's pid is `-2 ^ 31`.
* `fork_after_wrap_duplicate_pid` — after `2 ^ 32 - 1` of them, the next child's pid is `1`,
  the pid of `initproc`.
-/

namespace Xv6

variable {n : Nat}

/-- `allocproc`'s scan reads the states only. -/
theorem unusedSlot_update_of_state {procs : Fin n → Proc n} {p : Fin n} {new : Proc n}
    (same : new.state = (procs p).state) :
    unusedSlot (Function.update procs p new) = unusedSlot procs := by
  unfold unusedSlot
  congr 1
  funext q
  by_cases here : q = p
  · subst here
    simp [same]
  · simp [Function.update_of_ne here]

namespace ProcSystem

variable {m : Nat}

/-- **Pids before the overflow.** In every reachable state whose `nextpid` has not passed
`2 ^ 31`, every process in use has a positive pid, and no two processes in use share one. -/
theorem pids_unique_positive {s : ProcSystem n m} (reach : s.Reachable)
    (young : s.nextpid ≤ 2 ^ 31) :
    (∀ p, (s.procs p).state ≠ .unused → 0 < (s.procs p).pid) ∧
      ∀ p q, (s.procs p).state ≠ .unused → (s.procs q).state ≠ .unused →
        (s.procs p).pid = (s.procs q).pid → p = q := by
  have inv := reach.pidInv young
  refine ⟨inv.positive, fun p q used _ same => ?_⟩
  by_contra other
  -- two slots share only the pid `0`, which no slot in use has
  exact (inv.positive p used).ne' (inv.distinct p q other same)

theorem pids_unique_positive_boot :
    (boot : ProcSystem 2 1).nextpid ≤ 2 ^ 31 ∧
      (∀ p, ((boot : ProcSystem 2 1).procs p).state ≠ .unused →
        0 < ((boot : ProcSystem 2 1).procs p).pid) ∧
      ∀ p q, ((boot : ProcSystem 2 1).procs p).state ≠ .unused →
        ((boot : ProcSystem 2 1).procs q).state ≠ .unused →
        ((boot : ProcSystem 2 1).procs p).pid = ((boot : ProcSystem 2 1).procs q).pid → p = q :=
  ⟨by decide, pids_unique_positive (Lib.Reachable.init boot_initial) (by decide)⟩

/-- What a `fork` whose child gets no kernel stack leaves behind: `allocproc` spent `nextpid` on
slot `child`, which is `UNUSED` again and keeps that pid. -/
def spendPid (s : ProcSystem n m) (child : Fin n) : ProcSystem n m :=
  { s with procs := Function.update s.procs child { s.procs child with pid := cInt s.nextpid }
           nextpid := s.nextpid + 1 }

/-- Process `p`, executing on CPU `c`, may call `fork`, and `allocproc` would take slot
`child`. -/
structure ForkReady (s : ProcSystem n m) (c : Fin m) (p child : Fin n) : Prop where
  current : s.current c = some p
  idle : (s.threads p).forking = none
  free : unusedSlot s.procs = some child

section Spend

variable {s : ProcSystem n m} {c : Fin m} {p child : Fin n}

/-- The `fork` step of a process that may fork, with a free slot. -/
theorem step_fork_of_free (current : s.current c = some p) (idle : (s.threads p).forking = none)
    (free : unusedSlot s.procs = some child) :
    s.step (.fork c) = some
      (({ s with
          procs := Function.update s.procs child
            { s.procs child with state := .embryo, pid := cInt s.nextpid },
          nextpid := s.nextpid + 1 } : ProcSystem n m).modifyThread p fun t =>
        { t with forking := some (child, .kstack) }) := by
  simp only [step, whenIdle, current, idle, allocproc, free, Option.map_some, if_true]

theorem step_forkKstack_fail (current : s.current c = some p)
    (forking : (s.threads p).forking = some (child, .kstack)) :
    s.step (.forkKstack c false) = some
      ((s.modifyProc child fun q => { q with state := .unused }).modifyThread p fun t =>
        { t with forking := none }) := by
  simp only [step, whenForking, current, forking, if_true, Bool.false_eq_true, if_false]

theorem run_failedFork (current : s.current c = some p) (idle : (s.threads p).forking = none)
    (free : unusedSlot s.procs = some child) :
    Lib.run step s [.fork c, .forkKstack c false] = some (s.spendPid child) := by
  have unused := unusedSlot_state free
  have forked := step_fork_of_free current idle free
  simp only [Lib.run, List.foldlM_cons, List.foldlM_nil, forked, Option.bind_eq_bind,
    Option.bind_some]
  rw [@step_forkKstack_fail _ _ _ _ p child
    (current_eq_some.2 (by simpa using current_eq_some.1 current)) (by simp)]
  simp only [Option.bind_some, Option.pure_def, Option.some.injEq, spendPid, modifyProc,
    modifyThread, Function.update_idem, Function.update_self]
  -- the slot is `UNUSED` again, and the thread's `forking` is back to `none`
  have untouched : ({ s.threads p with forking := none } : KThread n) = s.threads p := by
    rw [← idle]
  rw [unused, untouched, Function.update_eq_self]

@[simp] theorem spendPid_procs :
    (s.spendPid child).procs =
      Function.update s.procs child { s.procs child with pid := cInt s.nextpid } := rfl
@[simp] theorem spendPid_nextpid : (s.spendPid child).nextpid = s.nextpid + 1 := rfl

/-- A failed `fork` leaves its caller ready to fork again, into the same slot. -/
theorem ForkReady.spendPid (ready : s.ForkReady c p child) :
    (s.spendPid child).ForkReady c p child where
  current := ready.current
  idle := ready.idle
  free := by
    -- only the pid of the slot changed, and the scan reads the states
    rw [spendPid_procs, unusedSlot_update_of_state]
    · exact ready.free
    · rfl

/-- `k` failed forks into slot `child`. -/
theorem iterate_spendPid_nextpid (k : Nat) :
    ((fun t : ProcSystem n m => t.spendPid child)^[k] s).nextpid = s.nextpid + k := by
  induction k with
  | zero => simp
  | succ k ih =>
    rw [Function.iterate_succ_apply', spendPid_nextpid, ih]
    omega

theorem iterate_spendPid_procs_of_ne {q : Fin n} (other : q ≠ child) (k : Nat) :
    ((fun t : ProcSystem n m => t.spendPid child)^[k] s).procs q = s.procs q := by
  induction k with
  | zero => rfl
  | succ k ih =>
    rw [Function.iterate_succ_apply', spendPid_procs, Function.update_of_ne other, ih]

end Spend

section Counter

variable {s : ProcSystem n m} {c : Fin m} {p child : Fin n}

/-- **Failed forks spend any number of pids.** From a reachable state where `p` may fork into
`child`, the state after `k` failed forks is reachable, and `p` may fork again. -/
theorem Reachable.spendPids (reach : s.Reachable) (ready : s.ForkReady c p child) (k : Nat) :
    ((fun t : ProcSystem n m => t.spendPid child)^[k] s).Reachable ∧
      ((fun t : ProcSystem n m => t.spendPid child)^[k] s).ForkReady c p child := by
  induction k with
  | zero => exact ⟨reach, ready⟩
  | succ k ih =>
    obtain ⟨reach', ready'⟩ := ih
    rw [Function.iterate_succ_apply']
    exact ⟨Lib.Reachable.run reach' (run_failedFork ready'.current ready'.idle ready'.free),
      ready'.spendPid⟩

/-- **Every count is handed out.** From a reachable state where `p` may fork into `child`, for
every `N ≥ nextpid` some failed forks and one more `fork` reach a state where `child` is
`EMBRYO` with the pid `cInt N` and every other slot is as it was. -/
theorem Reachable.fork_at (reach : s.Reachable) (ready : s.ForkReady c p child) {N : Int}
    (later : s.nextpid ≤ N) :
    ∃ s' : ProcSystem n m, s'.Reachable ∧ (s'.procs child).state = .embryo ∧
      (s'.procs child).pid = cInt N ∧ ∀ q, q ≠ child → s'.procs q = s.procs q := by
  obtain ⟨k, rfl⟩ : ∃ k : Nat, N = s.nextpid + k := ⟨(N - s.nextpid).toNat, by omega⟩
  obtain ⟨reach', ready'⟩ := reach.spendPids ready k
  refine ⟨_, Lib.Reachable.step (.fork c) reach' (step_fork_of_free ready'.current ready'.idle
    ready'.free), by simp, by simp [iterate_spendPid_nextpid], fun q other => ?_⟩
  simp [Function.update_of_ne other, iterate_spendPid_procs_of_ne other]

end Counter

/-- `initproc` executing on the one CPU, with slot 1 free and `nextpid = 2`. -/
theorem initproc_forkReady :
    ∃ s : ProcSystem 2 1, s.Reachable ∧
      (s.current 0 = some 0 ∧ (s.threads 0).forking = none ∧ unusedSlot s.procs = some 1) ∧
      s.nextpid = 2 ∧ (s.procs 0).state = .running ∧ (s.procs 0).pid = 1 :=
  Lib.Reachable.exists_of_run boot_initial [.scheduler 0, .switchIn 0] (by decide)

/-- **A negative pid.** After `2 ^ 31 - 2` failed forks of `initproc`, `nextpid` is one past
`INT_MAX`; the next `fork` gives its child the pid `-2 ^ 31`. -/
theorem fork_after_overflow_negative_pid :
    ∃ s : ProcSystem 2 1, s.Reachable ∧ (s.procs 1).state = .embryo ∧ (s.procs 1).pid = -2 ^ 31 := by
  obtain ⟨s, reach, ⟨current, idle, free⟩, counted, -, -⟩ := initproc_forkReady
  obtain ⟨s', reach', embryo, pid, -⟩ := reach.fork_at ⟨current, idle, free⟩ (N := 2 ^ 31)
    (by omega)
  exact ⟨s', reach', embryo, by rw [pid]; decide⟩

/-- **Two processes with one pid.** After `2 ^ 32 - 1` failed forks of `initproc` the counter has
wrapped to `1`: the next `fork` gives its child `initproc`'s pid. -/
theorem fork_after_wrap_duplicate_pid :
    ∃ s : ProcSystem 2 1, s.Reachable ∧ (s.procs 0).state ≠ .unused ∧
      (s.procs 1).state ≠ .unused ∧ (s.procs 0).pid = (s.procs 1).pid := by
  obtain ⟨s, reach, ⟨current, idle, free⟩, counted, running, one⟩ := initproc_forkReady
  obtain ⟨s', reach', embryo, pid, others⟩ := reach.fork_at ⟨current, idle, free⟩
    (N := 2 ^ 32 + 1) (by omega)
  have slot0 := others 0 (by decide)
  refine ⟨s', reach', by rw [slot0, running]; decide, by rw [embryo]; decide, ?_⟩
  rw [slot0, one, pid]
  decide

end ProcSystem

end Xv6
