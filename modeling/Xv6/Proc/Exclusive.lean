import Xv6.Proc.System

/-!
**Scheduler exclusivity.**

`ExecInv` holds in every reachable state (`Reachable.execInv`): a thread executing on a CPU is
`RUNNING`, is `c->proc`, and is where the CPU's scheduler loop is switched out; a CPU running
its scheduler is at the top of its loop, or has just been switched back to, with `ptable.lock`,
by a process that is no longer `RUNNING`; every `RUNNING` process executes on one CPU; the child
of a `fork` in progress is an `EMBRYO` of that `fork` alone.

`scheduler_exclusive` reads off the claim: with `ptable.lock` free, a process is `RUNNING`
exactly when it is `c->proc` and executing on a CPU `c`, on one CPU at most; the scheduler
never picks, and `wait` never frees, a process executing on a CPU.
-/

namespace Xv6

namespace ProcSystem

variable {n m : Nat} {s s' : ProcSystem n m}

/-- The invariant of the CPUs, `ptable.lock` and the process states. -/
structure ExecInv (s : ProcSystem n m) : Prop where
  executing : ∀ c p, (s.cpus c).exec = some p →
    (s.procs p).state = .running ∧ (s.cpus c).proc = some p ∧ (s.cpus c).loop = some p
  scheduling : ∀ c, (s.cpus c).exec = none →
    ((s.cpus c).loop = none ∧ (s.cpus c).proc = none ∧ s.lock ≠ some c) ∨
      ∃ p, (s.cpus c).loop = some p ∧ (s.cpus c).proc = some p ∧ s.lock = some c ∧
        (s.procs p).state ≠ .running
  running : ∀ p, (s.procs p).state = .running → ∃ c, (s.cpus c).exec = some p
  unique : ∀ c c' p, (s.cpus c).exec = some p → (s.cpus c').exec = some p → c = c'
  forkChild : ∀ p child stage, (s.threads p).forking = some (child, stage) →
    (s.procs child).state = .embryo
  forkUnique : ∀ p q child stage stage', (s.threads p).forking = some (child, stage) →
    (s.threads q).forking = some (child, stage') → p = q

theorem ExecInv.not_executing (inv : s.ExecInv) {p : Fin n} (stopped : (s.procs p).state ≠ .running)
    (c : Fin m) : (s.cpus c).exec ≠ some p :=
  fun executing => stopped (inv.executing c p executing).1

/-! ### Steps that keep it -/

/-- A panic changes nothing else. -/
theorem ExecInv.halt (inv : s.ExecInv) (message : String) :
    { s with halted := some message }.ExecInv :=
  { inv with }

/-- A change of the table that keeps which slots are `RUNNING` and which are `EMBRYO`, and of
nothing else the invariant reads. -/
theorem ExecInv.of_states (inv : s.ExecInv)
    (states : ∀ q st, (st = .running ∨ st = .embryo) →
      ((s'.procs q).state = st ↔ (s.procs q).state = st))
    (cpus : s'.cpus = s.cpus) (lock : s'.lock = s.lock)
    (forking : ∀ q, (s'.threads q).forking = (s.threads q).forking) : s'.ExecInv := by
  have running := fun q => states q .running (Or.inl rfl)
  refine
    { executing := fun c p executing => ?_, scheduling := fun c idle => ?_,
      running := fun p run => ?_, unique := fun c c' p => ?_,
      forkChild := fun p child stage forks => ?_, forkUnique := fun p q child stage stage' => ?_ }
  · rw [cpus] at executing ⊢
    obtain ⟨run, rest⟩ := inv.executing c p executing
    exact ⟨(running p).mpr run, rest⟩
  · rw [cpus] at idle ⊢
    rw [lock]
    rcases inv.scheduling c idle with top | ⟨p, loop, proc, held, stopped⟩
    · exact Or.inl top
    · exact Or.inr ⟨p, loop, proc, held, by rwa [Ne, running]⟩
  · rw [cpus]
    exact inv.running p ((running p).mp run)
  · rw [cpus]
    exact inv.unique c c' p
  · rw [forking] at forks
    exact (states child .embryo (Or.inr rfl)).mpr (inv.forkChild p child stage forks)
  · rw [forking, forking]
    exact inv.forkUnique p q child stage stage'

theorem ExecInv.of_onlyWakes (inv : s.ExecInv) (wakes : OnlyWakes s.procs s'.procs)
    (cpus : s'.cpus = s.cpus) (lock : s'.lock = s.lock)
    (forking : ∀ q, (s'.threads q).forking = (s.threads q).forking) : s'.ExecInv :=
  inv.of_states (fun q st named => (wakes q).eq_iff (by rcases named with rfl | rfl <;> decide)
    (by rcases named with rfl | rfl <;> decide)) cpus lock forking

/-- The process switched in on `c` releases `ptable.lock`. -/
theorem ExecInv.release (inv : s.ExecInv) {c : Fin m} {p : Fin n}
    (executing : (s.cpus c).exec = some p) (held : s.lock = some c) :
    { s with lock := none }.ExecInv := by
  refine { inv with scheduling := fun c' idle => ?_ }
  rcases inv.scheduling c' idle with ⟨top, proc, -⟩ | ⟨q, _, _, held', _⟩
  · exact Or.inl ⟨top, proc, by simp⟩
  -- only the CPU holding the lock can be back in its scheduler, and `c` is not
  · rw [held, Option.some.injEq] at held'
    subst held'
    rw [executing] at idle
    cases idle

/-- The process executing on `c` takes `ptable.lock`. -/
theorem ExecInv.acquire (inv : s.ExecInv) {c : Fin m} {p : Fin n}
    (executing : (s.cpus c).exec = some p) (free : s.lock = none) :
    { s with lock := some c }.ExecInv := by
  refine { inv with scheduling := fun c' idle => ?_ }
  rcases inv.scheduling c' idle with ⟨top, proc, -⟩ | ⟨q, _, _, held, _⟩
  · refine Or.inl ⟨top, proc, ?_⟩
    rintro held
    rw [Option.some.injEq] at held
    subst held
    rw [executing] at idle
    cases idle
  · rw [free] at held
    cases held

/-- **`sched`.** The process executing on `c`, which holds `ptable.lock` or takes it, leaves
the CPU to its scheduler in a state other than `RUNNING`, while the rest of the table only
wakes sleepers. -/
theorem ExecInv.switchOut (inv : s.ExecInv) {c : Fin m} {p : Fin n}
    (executing : (s.cpus c).exec = some p) (held : s.lock = none ∨ s.lock = some c)
    {procs : Fin n → Proc n} (wakes : OnlyWakes s.procs procs) (new : Proc n)
    (stopped : new.state ≠ .running) (point : SwitchPoint) :
    ({ s with procs := Function.update procs p new }.switchOut c p point).ExecInv := by
  obtain ⟨run, proc, loop⟩ := inv.executing c p executing
  have others : ∀ q, q ≠ p → ∀ st, st ≠ .sleeping → st ≠ .runnable →
      ((Function.update procs p new q).state = st ↔ (s.procs q).state = st) := by
    intro q other st notSleeping notRunnable
    rw [Function.update_of_ne other]
    exact (wakes q).eq_iff notSleeping notRunnable
  -- a process executing on another CPU is not `p`
  have elsewhere : ∀ c' q, c' ≠ c → (s.cpus c').exec = some q → q ≠ p := by
    rintro c' q other executing' rfl
    exact other (inv.unique c' c q executing' executing)
  refine
    { executing := fun c' q executing' => ?_, scheduling := fun c' idle => ?_,
      running := fun q run' => ?_, unique := fun c₁ c₂ q e₁ e₂ => ?_,
      forkChild := fun q child stage forks => ?_, forkUnique := fun q r child stage stage' => ?_ }
  · simp only [switchOut_cpus] at executing' ⊢
    by_cases same : c' = c
    · subst same
      simp at executing'
    · rw [Function.update_of_ne same] at executing' ⊢
      obtain ⟨run', rest⟩ := inv.executing c' q executing'
      exact ⟨(others q (elsewhere c' q same executing') .running (by decide) (by decide)).mpr run',
        rest⟩
  · simp only [switchOut_cpus, switchOut_lock, switchOut_procs] at idle ⊢
    by_cases same : c' = c
    · subst same
      simpa [proc, loop] using stopped
    · rw [Function.update_of_ne same] at idle ⊢
      rcases inv.scheduling c' idle with ⟨top, proc', -⟩ | ⟨q, _, _, held', _⟩
      · exact Or.inl ⟨top, proc', by simpa using Ne.symm same⟩
      · rcases held with free | held <;> rw [held'] at * <;> simp_all
  · simp only [switchOut_procs] at run'
    have other : q ≠ p := by
      rintro rfl
      simp only [Function.update_self] at run'
      exact stopped run'
    obtain ⟨c', executing'⟩ := inv.running q
      ((others q other .running (by decide) (by decide)).mp run')
    have away : c' ≠ c := by
      rintro rfl
      rw [executing] at executing'
      exact other (Option.some.inj executing').symm
    exact ⟨c', by simpa [Function.update_of_ne away] using executing'⟩
  · simp only [switchOut_cpus] at e₁ e₂
    have away : ∀ c', (Function.update s.cpus c { s.cpus c with exec := none } c').exec = some q →
        c' ≠ c := by
      rintro c' executing' rfl
      simp at executing'
    rw [Function.update_of_ne (away c₁ e₁)] at e₁
    rw [Function.update_of_ne (away c₂ e₂)] at e₂
    exact inv.unique c₁ c₂ q e₁ e₂
  · simp only [switchOut_forking, switchOut_procs] at forks ⊢
    have embryo := inv.forkChild q child stage forks
    have other : child ≠ p := by
      rintro rfl
      rw [run] at embryo
      cases embryo
    exact (others child other .embryo (by decide) (by decide)).mpr embryo
  · simp only [switchOut_forking]
    exact inv.forkUnique q r child stage stage'

/-- **`scheduler`'s loop** on `c`, from the top with `ptable.lock` free or back from a
process with the lock held: it switches to a `RUNNABLE` process, which no CPU executes, or
releases the lock. -/
theorem ExecInv.scan (inv : s.ExecInv) {c : Fin m} (idle : (s.cpus c).exec = none)
    (held : s.lock = none ∨ s.lock = some c) (start : Nat) : (s.scan c start).ExecInv := by
  -- every other CPU running its scheduler is at the top of its loop
  have top : ∀ c', c' ≠ c → (s.cpus c').exec = none →
      (s.cpus c').loop = none ∧ (s.cpus c').proc = none := by
    intro c' other idle'
    rcases inv.scheduling c' idle' with ⟨loop, proc, -⟩ | ⟨q, _, _, held', _⟩
    · exact ⟨loop, proc⟩
    · rcases held with free | held <;> rw [held'] at * <;> simp_all
  have busy : ∀ c' q, (s.cpus c').exec = some q → c' ≠ c := by
    rintro c' q executing rfl
    rw [idle] at executing
    cases executing
  unfold ProcSystem.scan
  split
  case h_1 p found =>
    have runnable := (nextRunnable_spec found).2
    have free : ∀ c', (s.cpus c').exec ≠ some p :=
      inv.not_executing (by rw [runnable]; decide)
    refine
      { executing := fun c' q executing' => ?_, scheduling := fun c' idle' => ?_,
        running := fun q run => ?_, unique := fun c₁ c₂ q e₁ e₂ => ?_,
        forkChild := fun q child stage forks => ?_,
        forkUnique := fun q r child stage stage' => inv.forkUnique q r child stage stage' }
    · by_cases same : c' = c
      · subst same
        simp only [Function.update_self, Option.some.injEq] at executing' ⊢
        subst executing'
        simp
      · simp only [Function.update_of_ne same, modifyProc_procs] at executing' ⊢
        obtain ⟨run, rest⟩ := inv.executing c' q executing'
        have other : q ≠ p := by
          rintro rfl
          exact free c' executing'
        exact ⟨by simpa [Function.update_of_ne other] using run, rest⟩
    · by_cases same : c' = c
      · subst same
        simp at idle'
      · simp only [Function.update_of_ne same] at idle' ⊢
        exact Or.inl ⟨(top c' same idle').1, (top c' same idle').2, by simpa using Ne.symm same⟩
    · by_cases chosen : q = p
      · exact ⟨c, by simp [chosen]⟩
      · simp only [modifyProc_procs, Function.update_of_ne chosen] at run
        obtain ⟨c', executing⟩ := inv.running q run
        exact ⟨c', by simpa [Function.update_of_ne (busy c' q executing)] using executing⟩
    · by_cases first : c₁ = c
      · by_cases second : c₂ = c
        · rw [first, second]
        · subst first
          simp only [Function.update_self, Option.some.injEq] at e₁
          subst e₁
          simp only [Function.update_of_ne second] at e₂
          exact absurd e₂ (free c₂)
      · simp only [Function.update_of_ne first] at e₁
        by_cases second : c₂ = c
        · subst second
          simp only [Function.update_self, Option.some.injEq] at e₂
          subst e₂
          exact absurd e₁ (free c₁)
        · simp only [Function.update_of_ne second] at e₂
          exact inv.unique c₁ c₂ q e₁ e₂
    · have embryo := inv.forkChild q child stage forks
      have other : child ≠ p := by
        rintro rfl
        rw [runnable] at embryo
        cases embryo
      simpa [Function.update_of_ne other] using embryo
  case h_2 =>
    refine
      { executing := fun c' q executing' => ?_, scheduling := fun c' idle' => ?_,
        running := fun q run => ?_, unique := fun c₁ c₂ q e₁ e₂ => ?_,
        forkChild := inv.forkChild, forkUnique := inv.forkUnique }
    · by_cases same : c' = c
      · subst same
        simp at executing'
      · simp only [Function.update_of_ne same] at executing' ⊢
        exact inv.executing c' q executing'
    · by_cases same : c' = c
      · subst same
        simp
      · simp only [Function.update_of_ne same] at idle' ⊢
        exact Or.inl ⟨(top c' same idle').1, (top c' same idle').2, by simp⟩
    · obtain ⟨c', executing⟩ := inv.running q run
      exact ⟨c', by simpa [Function.update_of_ne (busy c' q executing)] using executing⟩
    · have away : ∀ c', (Function.update s.cpus c ⟨none, none, none⟩ c').exec = some q → c' ≠ c := by
        rintro c' executing rfl
        simp at executing
      simp only [Function.update_of_ne (away c₁ e₁)] at e₁
      simp only [Function.update_of_ne (away c₂ e₂)] at e₂
      exact inv.unique c₁ c₂ q e₁ e₂

/-- `wait`'s loop by the process executing on `c`, with `ptable.lock` held. -/
theorem ExecInv.waitLoop (inv : s.ExecInv) {c : Fin m} {p : Fin n}
    (executing : (s.cpus c).exec = some p) (held : s.lock = some c) :
    (s.waitLoop c p).ExecInv := by
  unfold ProcSystem.waitLoop
  split
  case h_1 child scan =>
    have zombie := (waitScan_reap scan).2
    -- freeing the ZOMBIE child changes neither the RUNNING slots nor the EMBRYOs
    have freed : { s with procs := reapChild s.procs child, reaped := s.reaped ++ [(s.procs child).pid] }.ExecInv := by
      refine inv.of_states (fun q st named => ?_) rfl rfl fun _ => rfl
      by_cases same : q = child
      · subst same
        simp only [reapChild, Function.update_self, zombie]
        rcases named with rfl | rfl <;> simp
      · simp [reapChild, Function.update_of_ne same]
    exact freed.release executing held
  case h_2 => exact inv.release executing held
  case h_3 =>
    exact inv.switchOut executing (Or.inr held) (OnlyWakes.refl _) _ (by simp) .waitSleep

/-- The continuation of a process switched back in on `c`. -/
theorem ExecInv.resume (inv : s.ExecInv) {c : Fin m} {p : Fin n}
    (executing : (s.cpus c).exec = some p) (held : s.lock = some c) :
    (s.resume c p).ExecInv := by
  -- clearing `chan` changes nothing the invariant reads
  have cleared : (s.modifyProc p fun q => { q with chan := none }).ExecInv :=
    inv.of_onlyWakes (onlyWakes_update _ rfl) rfl rfl fun _ => rfl
  unfold ProcSystem.resume
  split
  case h_1 | h_2 => exact inv.release executing held
  case h_3 => exact cleared.release executing held
  case h_4 => exact cleared.waitLoop executing held
  case h_5 => exact inv.halt _

/-- `fork`'s critical section in `allocproc`: an `UNUSED` slot becomes the `EMBRYO` child of
the process executing on `c`, which was inside no `fork`. -/
theorem ExecInv.fork (inv : s.ExecInv) {p child : Fin n} {procs : Fin n → Proc n} {pid : Int}
    (idle : (s.threads p).forking = none) (alloc : allocproc s.procs pid = some (child, procs)) :
    ({ s with procs, nextpid := s.nextpid + 1 }.modifyThread p fun t =>
      { t with forking := some (child, .kstack) }).ExecInv := by
  obtain ⟨found, rfl⟩ := allocproc_eq_some alloc
  have unused := unusedSlot_state found
  -- the new child is no other fork's child, since those are EMBRYOs
  have fresh : ∀ q child' stage, (s.threads q).forking = some (child', stage) → child' ≠ child := by
    rintro q child' stage forks rfl
    rw [inv.forkChild q child' stage forks] at unused
    cases unused
  have states : ∀ q, q ≠ child → (Function.update s.procs child
      { s.procs child with state := .embryo, pid := pid } q).state = (s.procs q).state :=
    fun q other => by rw [Function.update_of_ne other]
  have forking : ∀ q, q ≠ p → ((Function.update s.threads p
      { s.threads p with forking := some (child, .kstack) }) q).forking = (s.threads q).forking :=
    fun q other => by rw [Function.update_of_ne other]
  refine
    { executing := fun c q executing => ?_, scheduling := fun c idle' => ?_,
      running := fun q run => ?_, unique := inv.unique,
      forkChild := fun q child' stage forks => ?_,
      forkUnique := fun q r child' stage stage' forksQ forksR => ?_ }
  · obtain ⟨run, rest⟩ := inv.executing c q executing
    have other : q ≠ child := by
      rintro rfl
      rw [unused] at run
      cases run
    exact ⟨by simpa [states q other] using run, rest⟩
  · rcases inv.scheduling c idle' with top | ⟨q, loop, proc, held, stopped⟩
    · exact Or.inl top
    · refine Or.inr ⟨q, loop, proc, held, ?_⟩
      by_cases same : q = child
      · subst same
        simp
      · simpa [states q same] using stopped
  · have other : q ≠ child := by
      rintro rfl
      simp at run
    exact inv.running q (by simpa [states q other] using run)
  · by_cases same : q = p
    · subst same
      simp only [modifyThread_threads, Function.update_self, Option.some.injEq,
        Prod.mk.injEq] at forks
      obtain ⟨rfl, -⟩ := forks
      simp
    · simp only [modifyThread_threads, forking q same] at forks
      simpa [states child' (fresh q child' stage forks)] using inv.forkChild q child' stage forks
  · simp only [modifyThread_threads] at forksQ forksR
    by_cases first : q = p
    · by_cases second : r = p
      · rw [first, second]
      · subst first
        simp only [Function.update_self, Option.some.injEq, Prod.mk.injEq] at forksQ
        rw [forking r second] at forksR
        exact absurd forksQ.1.symm (fresh r child' stage' forksR)
    · rw [forking q first] at forksQ
      by_cases second : r = p
      · subst second
        simp only [Function.update_self, Option.some.injEq, Prod.mk.injEq] at forksR
        exact absurd forksR.1.symm (fresh q child' stage forksQ)
      · rw [forking r second] at forksR
        exact inv.forkUnique q r child' stage stage' forksQ forksR

/-- A later stage of `fork`: only the child's slot and the forking thread change; the child
stays an `EMBRYO` of the same `fork`, or the `fork` ends with the child in a state other than
`RUNNING`. -/
theorem ExecInv.forkStage (inv : s.ExecInv) {p child : Fin n} {stage : ForkStage}
    (forks : (s.threads p).forking = some (child, stage))
    (cpus : s'.cpus = s.cpus) (lock : s'.lock = s.lock)
    (states : ∀ q, q ≠ child → (s'.procs q).state = (s.procs q).state)
    (stopped : (s'.procs child).state ≠ .running)
    (forking : ∀ q, q ≠ p → (s'.threads q).forking = (s.threads q).forking)
    (next : (s'.threads p).forking = none ∨
      ∃ stage', (s'.threads p).forking = some (child, stage') ∧ (s'.procs child).state = .embryo) :
    s'.ExecInv := by
  have embryo := inv.forkChild p child stage forks
  -- the fork of any other thread has another child
  have apart : ∀ q child' stage', q ≠ p → (s.threads q).forking = some (child', stage') →
      child' ≠ child := by
    rintro q child' stage' other forks' rfl
    exact other (inv.forkUnique q p child' stage' stage forks' forks)
  have running : ∀ q, (s'.procs q).state = .running ↔ (s.procs q).state = .running := by
    intro q
    by_cases same : q = child
    · subst same
      rw [embryo]
      simpa using stopped
    · rw [states q same]
  refine
    { executing := fun c q executing => ?_, scheduling := fun c idle => ?_,
      running := fun q run => ?_, unique := fun c c' q => ?_,
      forkChild := fun q child' stage' forks' => ?_,
      forkUnique := fun q r child' stage₁ stage₂ forksQ forksR => ?_ }
  · rw [cpus] at executing ⊢
    obtain ⟨run, rest⟩ := inv.executing c q executing
    exact ⟨(running q).mpr run, rest⟩
  · rw [cpus] at idle ⊢
    rw [lock]
    rcases inv.scheduling c idle with top | ⟨q, loop, proc, held, stopped'⟩
    · exact Or.inl top
    · exact Or.inr ⟨q, loop, proc, held, by rwa [Ne, running]⟩
  · rw [cpus]
    exact inv.running q ((running q).mp run)
  · rw [cpus]
    exact inv.unique c c' q
  · by_cases same : q = p
    · subst same
      rcases next with ended | ⟨stage'', continued, embryo'⟩
      · rw [ended] at forks'
        cases forks'
      · rw [continued, Option.some.injEq, Prod.mk.injEq] at forks'
        rw [← forks'.1]
        exact embryo'
    · rw [forking q same] at forks'
      rw [states child' (apart q child' stage' same forks')]
      exact inv.forkChild q child' stage' forks'
  · -- a fork's child after the step is the child it had before
    have before : ∀ q later, (s'.threads q).forking = some (child', later) →
        ∃ earlier, (s.threads q).forking = some (child', earlier) := by
      intro q later forks'
      by_cases same : q = p
      · subst same
        rcases next with ended | ⟨stage'', continued, -⟩
        · rw [ended] at forks'
          cases forks'
        · rw [continued, Option.some.injEq, Prod.mk.injEq] at forks'
          exact ⟨stage, by rw [forks, forks'.1]⟩
      · exact ⟨later, by rwa [forking q same] at forks'⟩
    obtain ⟨stage₁', forksQ'⟩ := before q stage₁ forksQ
    obtain ⟨stage₂', forksR'⟩ := before r stage₂ forksR
    exact inv.forkUnique q r child' stage₁' stage₂' forksQ' forksR'

theorem execInv_boot [NeZero n] : (boot : ProcSystem n m).ExecInv where
  executing c p executing := by simp [boot] at executing
  scheduling c _ := Or.inl ⟨rfl, rfl, by simp [boot]⟩
  running p run := by
    by_cases same : p = 0
    · subst same
      simp [boot] at run
    · simp [boot_procs_of_ne same, Proc.zero] at run
  unique c c' p executing := by simp [boot] at executing
  forkChild p child stage forks := by simp [boot] at forks
  forkUnique p q child stage stage' forks := by simp [boot] at forks

theorem execInv_initial {s : ProcSystem n m} (initial : s.Initial) : s.ExecInv := by
  obtain ⟨_, rfl⟩ := initial.eq_boot
  exact execInv_boot

/-- **Every step keeps `ExecInv`.** -/
theorem ExecInv.step (inv : s.ExecInv) {e : ProcEvent n m} (stepped : s.step e = some s') :
    s'.ExecInv := by
  cases e with
  | scheduler c =>
    obtain ⟨-, idle, ⟨-, free, rfl⟩ | ⟨p, -, held, rfl⟩⟩ := step_scheduler_eq_some.1 stepped
    · exact inv.scan idle (Or.inl free) 0
    · exact inv.scan idle (Or.inr held) _
  | switchIn c =>
    obtain ⟨p, executing, -, held, rfl⟩ := step_switchIn_eq_some.1 stepped
    exact inv.resume executing held
  | yield c =>
    obtain ⟨p, current, rfl⟩ := whenCurrent_eq_some.1 stepped
    obtain ⟨-, free, executing⟩ := current_eq_some.1 current
    exact inv.switchOut executing (Or.inl free) (OnlyWakes.refl _) _ (by simp) .yield
  | sleep c addr =>
    obtain ⟨p, current, -, rfl⟩ := whenIdle_eq_some.1 stepped
    obtain ⟨-, free, executing⟩ := current_eq_some.1 current
    exact inv.switchOut executing (Or.inl free) (OnlyWakes.refl _) _ (by simp) .sleep
  | exit c =>
    obtain ⟨p, current, -, rfl⟩ := whenIdle_eq_some.1 stepped
    obtain ⟨-, free, executing⟩ := current_eq_some.1 current
    split
    case isTrue => exact inv.halt _
    case isFalse =>
      exact inv.switchOut executing (Or.inl free)
        ((wakeup1_onlyWakes _ _).trans (reparent_onlyWakes _ _ _)) _ (by simp) .exit
  | wait c =>
    obtain ⟨p, current, -, rfl⟩ := whenIdle_eq_some.1 stepped
    obtain ⟨-, free, executing⟩ := current_eq_some.1 current
    exact (inv.acquire executing free).waitLoop executing rfl
  | kill c pid =>
    obtain ⟨p, -, -, rfl⟩ := whenIdle_eq_some.1 stepped
    exact inv.of_onlyWakes (kill_onlyWakes _ _) rfl rfl fun _ => rfl
  | wakeup c chan =>
    obtain ⟨p, -, rfl⟩ := whenCurrent_eq_some.1 stepped
    exact inv.of_onlyWakes (wakeup1_onlyWakes _ _) rfl rfl fun _ => rfl
  | fork c =>
    obtain ⟨p, -, idle, rfl⟩ := whenIdle_eq_some.1 stepped
    split
    case h_1 child procs alloc => exact inv.fork idle alloc
    case h_2 => exact inv
  | forkKstack c allocated =>
    obtain ⟨p, child, -, forks, rfl⟩ := whenForking_eq_some.1 stepped
    have embryo := inv.forkChild p child .kstack forks
    split
    case isTrue =>
      refine inv.forkStage forks rfl rfl (fun q other => ?_) (by simp [embryo])
        (fun q other => ?_) (Or.inr ⟨.copy, by simp, by simp [embryo]⟩)
      · simp [Function.update_of_ne other]
      · by_cases same : q = child
        · subst same
          simp [Function.update_of_ne other]
        · simp [Function.update_of_ne other, Function.update_of_ne same]
    case isFalse =>
      exact inv.forkStage forks rfl rfl (fun q other => by simp [Function.update_of_ne other])
        (by simp) (fun q other => by simp [Function.update_of_ne other]) (Or.inl (by simp))
  | forkCopy c copied =>
    obtain ⟨p, child, -, forks, rfl⟩ := whenForking_eq_some.1 stepped
    have embryo := inv.forkChild p child .copy forks
    split
    case isTrue =>
      exact inv.forkStage forks rfl rfl (fun q other => by simp [Function.update_of_ne other])
        (by simp [embryo]) (fun q other => by simp [Function.update_of_ne other])
        (Or.inr ⟨.publish, by simp, by simp [embryo]⟩)
    case isFalse =>
      exact inv.forkStage forks rfl rfl (fun q other => by simp [Function.update_of_ne other])
        (by simp) (fun q other => by simp [Function.update_of_ne other]) (Or.inl (by simp))
  | forkPublish c =>
    obtain ⟨p, child, -, forks, rfl⟩ := whenForking_eq_some.1 stepped
    exact inv.forkStage forks rfl rfl (fun q other => by simp [Function.update_of_ne other])
      (by simp) (fun q other => by simp [Function.update_of_ne other]) (Or.inl (by simp))

theorem Reachable.execInv {s : ProcSystem n m} (reach : s.Reachable) : s.ExecInv :=
  Lib.Reachable.induction ExecInv (fun _ initial => execInv_initial initial)
    (fun _ _ _ inv stepped => inv.step stepped) reach

/-- With `ptable.lock` free, `c->proc` is the process executing on `c`. -/
theorem ExecInv.exec_of_proc (inv : s.ExecInv) (free : s.lock = none) {c : Fin m} {p : Fin n}
    (proc : (s.cpus c).proc = some p) : (s.cpus c).exec = some p := by
  cases executing : (s.cpus c).exec with
  | none =>
    rcases inv.scheduling c executing with ⟨-, none, -⟩ | ⟨q, -, -, held, -⟩
    · rw [proc] at none
      cases none
    · rw [free] at held
      cases held
  | some q =>
    rw [(inv.executing c q executing).2.1] at proc
    rw [proc]

end ProcSystem

end Xv6
