import Xv6.Proc.Exclusive

/-!
**The `exit`/`wait` protocol.**

`FamilyInv` holds in every reachable state (`Reachable.familyInv`): `initproc` is active
(`SLEEPING`, `RUNNABLE` or `RUNNING`) and has no parent; no process is its own parent; every
process other than `initproc` that has started (neither `UNUSED` nor `EMBRYO`) has an active
parent; no process sleeps on its own address while a child of it is a `ZOMBIE`; a `fork` about
to make its child `RUNNABLE` has made itself the parent. `PidInv`: the pids of the slots in use
are distinct, positive and below `nextpid`, and none of them is among the pids `wait` returned,
which are distinct.

`exit_wait_protocol` states the claim with its part (i) for the processes that have started;
`embryo_orphan_reachable` shows why: the child of a `fork` has no parent between `allocproc`
and `np->parent = curproc`.
-/

namespace Xv6

/-! ### What a step may do to a slot -/

section States

variable {a b : ProcState}

theorem Wakes.started (wakes : Wakes a b) (used : b ≠ .unused) (started : b ≠ .embryo) :
    a ≠ .unused ∧ a ≠ .embryo := by
  rcases wakes with rfl | ⟨rfl, rfl⟩
  · exact ⟨used, started⟩
  · decide

theorem Wakes.active (wakes : Wakes a b) (active : a.active = true) : b.active = true := by
  rcases wakes with rfl | ⟨rfl, rfl⟩
  · exact active
  · rfl

theorem Wakes.zombie (wakes : Wakes a b) (dead : b = .zombie) : a = .zombie := by
  rcases wakes with rfl | ⟨rfl, rfl⟩
  · exact dead
  · cases dead

theorem Wakes.sleeping (wakes : Wakes a b) (asleep : b = .sleeping) : a = .sleeping := by
  rcases wakes with rfl | ⟨rfl, rfl⟩
  · exact asleep
  · cases asleep

theorem Wakes.used (wakes : Wakes a b) (used : b ≠ .unused) : a ≠ .unused := by
  rcases wakes with rfl | ⟨rfl, rfl⟩
  · exact used
  · decide

theorem ProcState.ne_of_active (active : a.active = true) :
    a ≠ .unused ∧ a ≠ .embryo ∧ a ≠ .zombie := by
  cases a <;> simp_all [ProcState.active]

end States

namespace ProcSystem

variable {n m : Nat} {s s' : ProcSystem n m}

/-- The invariant of the parent links. -/
structure FamilyInv (s : ProcSystem n m) : Prop where
  initActive : (s.procs s.initproc).state.active = true
  initOrphan : (s.procs s.initproc).parent = none
  noSelfParent : ∀ p, (s.procs p).parent ≠ some p
  parentActive : ∀ p, p ≠ s.initproc → (s.procs p).state ≠ .unused →
    (s.procs p).state ≠ .embryo → ∃ q, (s.procs p).parent = some q ∧ (s.procs q).state.active = true
  noLostChild : ∀ p, (s.procs p).state = .sleeping → (s.procs p).chan = some (.proc p) →
    ∀ i, (s.procs i).parent = some p → (s.procs i).state ≠ .zombie
  publishParent : ∀ p child, (s.threads p).forking = some (child, .publish) →
    (s.procs child).parent = some p

/-- A thread moved to a `fork` stage other than `publish` starts no publication. -/
theorem publish_of_update {threads : Fin n → KThread n} {p q child : Fin n} {t : KThread n}
    (notPublish : ∀ child, t.forking ≠ some (child, .publish))
    (forks : (Function.update threads p t q).forking = some (child, .publish)) :
    (threads q).forking = some (child, .publish) := by
  by_cases same : q = p
  · subst same
    rw [Function.update_self] at forks
    exact absurd forks (notPublish child)
  · rwa [Function.update_of_ne same] at forks

/-! ### Steps that keep `FamilyInv` -/

/-- A step that changes no parent, starts no process, keeps the active processes active, and
creates no `ZOMBIE`; each new sleeper on its own address sleeps there again or has no `ZOMBIE`
child. -/
theorem FamilyInv.of_frame (inv : s.FamilyInv) (init : s'.initproc = s.initproc)
    (parents : ∀ j, (s'.procs j).parent = (s.procs j).parent)
    (started : ∀ j, (s'.procs j).state ≠ .unused → (s'.procs j).state ≠ .embryo →
      (s.procs j).state ≠ .unused ∧ (s.procs j).state ≠ .embryo)
    (active : ∀ j, (s.procs j).state.active = true → (s'.procs j).state.active = true)
    (zombies : ∀ j, (s'.procs j).state = .zombie → (s.procs j).state = .zombie)
    (sleepers : ∀ j, (s'.procs j).state = .sleeping → (s'.procs j).chan = some (.proc j) →
      ((s.procs j).state = .sleeping ∧ (s.procs j).chan = some (.proc j)) ∨
        ∀ i, (s.procs i).parent = some j → (s.procs i).state ≠ .zombie)
    (publish : ∀ p child, (s'.threads p).forking = some (child, .publish) →
      (s.threads p).forking = some (child, .publish)) : s'.FamilyInv where
  initActive := by
    rw [init]
    exact active _ inv.initActive
  initOrphan := by
    rw [init, parents]
    exact inv.initOrphan
  noSelfParent p := by
    rw [parents]
    exact inv.noSelfParent p
  parentActive p notInit used started' := by
    rw [init] at notInit
    obtain ⟨wasUsed, wasStarted⟩ := started p used started'
    obtain ⟨q, parent, alive⟩ := inv.parentActive p notInit wasUsed wasStarted
    exact ⟨q, by rw [parents, parent], active q alive⟩
  noLostChild p asleep onSelf i child dead := by
    rw [parents] at child
    rcases sleepers p asleep onSelf with ⟨wasAsleep, wasOnSelf⟩ | noZombie
    · exact inv.noLostChild p wasAsleep wasOnSelf i child (zombies i dead)
    · exact noZombie i child (zombies i dead)
  publishParent p child forks := by
    rw [parents]
    exact inv.publishParent p child (publish p child forks)

/-- A change of one slot's state and fields other than its parent. -/
theorem FamilyInv.of_update (inv : s.FamilyInv) {p : Fin n} {new : Proc n}
    (procs : s'.procs = Function.update s.procs p new) (init : s'.initproc = s.initproc)
    (parent : new.parent = (s.procs p).parent)
    (started : new.state ≠ .unused → new.state ≠ .embryo →
      (s.procs p).state ≠ .unused ∧ (s.procs p).state ≠ .embryo)
    (active : (s.procs p).state.active = true → new.state.active = true)
    (zombie : new.state = .zombie → (s.procs p).state = .zombie)
    (sleeper : new.state = .sleeping → new.chan = some (.proc p) →
      ((s.procs p).state = .sleeping ∧ (s.procs p).chan = some (.proc p)) ∨
        ∀ i, (s.procs i).parent = some p → (s.procs i).state ≠ .zombie)
    (publish : ∀ q child, (s'.threads q).forking = some (child, .publish) →
      (s.threads q).forking = some (child, .publish)) : s'.FamilyInv := by
  have each : ∀ {R : Fin n → Proc n → Proc n → Prop}, R p (s.procs p) new →
      (∀ j, R j (s.procs j) (s.procs j)) → ∀ j, R j (s.procs j) (s'.procs j) := by
    intro R here elsewhere j
    rw [procs]
    exact Lib.forall_update here elsewhere j
  exact inv.of_frame init
    (each (R := fun _ old new => new.parent = old.parent) parent fun _ => rfl)
    (each (R := fun _ old new => new.state ≠ .unused → new.state ≠ .embryo →
      old.state ≠ .unused ∧ old.state ≠ .embryo) started fun _ used started' => ⟨used, started'⟩)
    (each (R := fun _ old new => old.state.active = true → new.state.active = true)
      active fun _ => id)
    (each (R := fun _ old new => new.state = .zombie → old.state = .zombie) zombie
      fun _ => id)
    (each (R := fun j old new => new.state = .sleeping → new.chan = some (.proc j) →
      (old.state = .sleeping ∧ old.chan = some (.proc j)) ∨
        ∀ i, (s.procs i).parent = some j → (s.procs i).state ≠ .zombie) sleeper
      fun _ asleep onSelf => Or.inl ⟨asleep, onSelf⟩)
    publish

/-- A change of the table by woken sleepers alone. -/
theorem FamilyInv.of_onlyWakes (inv : s.FamilyInv) (wakes : OnlyWakes s.procs s'.procs)
    (init : s'.initproc = s.initproc)
    (parents : ∀ j, (s'.procs j).parent = (s.procs j).parent)
    (chans : ∀ j, (s'.procs j).chan = (s.procs j).chan)
    (publish : ∀ p child, (s'.threads p).forking = some (child, .publish) →
      (s.threads p).forking = some (child, .publish)) : s'.FamilyInv :=
  inv.of_frame init parents (fun j => (wakes j).started) (fun j => (wakes j).active)
    (fun j => (wakes j).zombie)
    (fun j asleep onSelf => Or.inl ⟨(wakes j).sleeping asleep, by rwa [chans] at onSelf⟩) publish

/-- A step that leaves the table as it is. -/
theorem FamilyInv.of_same (inv : s.FamilyInv) (procs : s'.procs = s.procs)
    (init : s'.initproc = s.initproc)
    (publish : ∀ p child, (s'.threads p).forking = some (child, .publish) →
      (s.threads p).forking = some (child, .publish)) : s'.FamilyInv :=
  inv.of_onlyWakes (by rw [procs]; exact OnlyWakes.refl _) init (fun j => by rw [procs])
    (fun j => by rw [procs]) publish

/-- **`exit`.** The parent is woken and stays active; the children go to `initproc`, which is
woken if one of them is a `ZOMBIE`. -/
theorem FamilyInv.exit (inv : s.FamilyInv) {p : Fin n} (running : (s.procs p).state = .running)
    (notInit : p ≠ s.initproc) (idle : (s.threads p).forking = none) (c : Fin m) :
    ({ s with procs := exitLocked s.procs p s.initproc }.switchOut c p .exit).FamilyInv := by
  obtain ⟨q, parent, parentActive⟩ :=
    inv.parentActive p notInit (by rw [running]; decide) (by rw [running]; decide)
  have other : q ≠ p := by
    rintro rfl
    exact inv.noSelfParent q parent
  -- `initproc` keeps its state class and its missing parent
  have initWakes := exitLocked_wakes s.procs p s.initproc (Ne.symm notInit)
  have initActive : (exitLocked s.procs p s.initproc s.initproc).state.active = true :=
    initWakes.active inv.initActive
  have parentOf : ∀ j, (exitLocked s.procs p s.initproc j).parent =
      if (s.procs j).parent = some p then some s.initproc else (s.procs j).parent :=
    exitLocked_parent s.procs p s.initproc
  have parentP : (exitLocked s.procs p s.initproc p).parent = some q := by
    rw [parentOf, parent, if_neg (by simpa using other)]
  refine
    { initActive := initActive, initOrphan := ?_, noSelfParent := fun j => ?_,
      parentActive := fun j notInit' used started => ?_,
      noLostChild := fun j asleep onSelf i child dead => ?_,
      publishParent := fun r child forks => ?_ }
  · simp only [switchOut_procs, switchOut_initproc]
    rw [parentOf, inv.initOrphan, if_neg (by simp)]
  · simp only [switchOut_procs]
    rw [parentOf]
    split
    case isTrue child =>
      rintro same
      rw [Option.some.injEq] at same
      rw [← same, inv.initOrphan] at child
      cases child
    case isFalse => exact inv.noSelfParent j
  · simp only [switchOut_procs, switchOut_initproc] at notInit' used started ⊢
    by_cases same : j = p
    · subst same
      exact ⟨q, parentP, (exitLocked_wakes s.procs j s.initproc other).active parentActive⟩
    · obtain ⟨wasUsed, wasStarted⟩ :=
        (exitLocked_wakes s.procs p s.initproc same).started used started
      obtain ⟨r, parent', active⟩ := inv.parentActive j notInit' wasUsed wasStarted
      rw [parentOf, parent']
      by_cases orphan : r = p
      · subst orphan
        exact ⟨s.initproc, by simp, initActive⟩
      · rw [if_neg (by simpa using orphan)]
        exact ⟨r, rfl, (exitLocked_wakes s.procs p s.initproc orphan).active active⟩
  · simp only [switchOut_procs] at asleep onSelf child dead
    have awake : j ≠ p := by
      rintro rfl
      rw [exitLocked_state_self] at asleep
      cases asleep
    rw [exitLocked_chan] at onSelf
    obtain ⟨-, notParentChan, notInitChan⟩ := exitLocked_sleeping s.procs p s.initproc awake asleep
    by_cases exiting : i = p
    · -- `p` itself: its parent slept on its own address, and was woken
      subst exiting
      rw [parentP, Option.some.injEq] at child
      subst child
      exact notParentChan (by rw [onSelf, parent]; rfl)
    · have wasDead := (exitLocked_wakes s.procs p s.initproc exiting).zombie dead
      rw [parentOf] at child
      split at child
      case isTrue orphan =>
        rw [Option.some.injEq] at child
        subst child
        exact notInitChan onSelf i orphan wasDead
      case isFalse => exact inv.noLostChild j (by
          rcases exitLocked_wakes s.procs p s.initproc awake with same | ⟨asleep', -⟩
          · rw [← same]; exact asleep
          · exact asleep') onSelf i child wasDead
  · simp only [switchOut_forking] at forks
    have notP : r ≠ p := by
      rintro rfl
      rw [idle] at forks
      cases forks
    simp only [switchOut_procs]
    rw [parentOf, inv.publishParent r child forks, if_neg (by simpa using notP)]

/-- `wait`'s loop by a `RUNNING` process: freeing a `ZOMBIE` child, or sleeping on its own
address when no child is a `ZOMBIE`. -/
theorem FamilyInv.waitLoop (inv : s.FamilyInv) (exec : s.ExecInv) {c : Fin m} {p : Fin n}
    (running : (s.procs p).state = .running) : (s.waitLoop c p).FamilyInv := by
  unfold ProcSystem.waitLoop
  split
  case h_1 child scan =>
    obtain ⟨-, dead⟩ := waitScan_reap scan
    -- slots other than the freed child are unchanged
    have kept : ∀ j, j ≠ child → reapChild s.procs child j = s.procs j :=
      fun j other => by simp [reapChild, Function.update_of_ne other]
    have freed : (reapChild s.procs child child).state = .unused ∧
        (reapChild s.procs child child).parent = none := by
      simp [reapChild]
    have notDead : ∀ j, (s.procs j).state.active = true → j ≠ child := by
      rintro j active rfl
      rw [dead] at active
      cases active
    have initKept := kept _ (notDead _ inv.initActive)
    refine
      { initActive := ?_, initOrphan := ?_, noSelfParent := fun j => ?_,
        parentActive := fun j notInit used started => ?_,
        noLostChild := fun j asleep onSelf i child' dead' => ?_,
        publishParent := fun r child' forks => ?_ }
    · simpa [initKept] using inv.initActive
    · simpa [initKept] using inv.initOrphan
    · by_cases same : j = child
      · subst same
        simp [freed.2]
      · simpa [kept j same] using inv.noSelfParent j
    · have other : j ≠ child := by
        rintro rfl
        exact used freed.1
      simp only [kept j other] at used started ⊢
      obtain ⟨q, parent, active⟩ := inv.parentActive j notInit used started
      exact ⟨q, parent, by simpa [kept q (notDead q active)] using active⟩
    · have other : j ≠ child := by
        rintro rfl
        rw [freed.1] at asleep
        cases asleep
      have otherI : i ≠ child := by
        rintro rfl
        rw [freed.1] at dead'
        cases dead'
      simp only [kept j other, kept i otherI] at asleep onSelf child' dead'
      exact inv.noLostChild j asleep onSelf i child' dead'
    · have other : child' ≠ child := by
        rintro rfl
        rw [exec.forkChild r child' .publish forks] at dead
        cases dead
      simpa [kept child' other] using inv.publishParent r child' forks
  case h_2 => exact inv.of_same rfl rfl fun _ _ => id
  case h_3 scan =>
    obtain ⟨noZombie, -, -⟩ := waitScan_sleep scan
    exact inv.of_update rfl rfl rfl (fun _ _ => by rw [running]; decide)
      (fun _ => rfl) (fun dead => by cases dead) (fun _ _ => Or.inr noZombie)
      (fun q child forks => by rwa [switchOut_forking] at forks)

/-- `copyuvm` succeeded: the forking process becomes the parent of its `EMBRYO` child. -/
theorem FamilyInv.forkCopy (inv : s.FamilyInv) (exec : s.ExecInv) {p child : Fin n}
    (running : (s.procs p).state = .running) (forks : (s.threads p).forking = some (child, .copy)) :
    ((s.modifyProc child fun q => { q with pgdir := true, parent := some p }).modifyThread p
      fun t => { t with forking := some (child, .publish) }).FamilyInv := by
  have embryo := exec.forkChild p child .copy forks
  have apart : p ≠ child := by
    rintro rfl
    rw [running] at embryo
    cases embryo
  have states : ∀ j, (Function.update s.procs child
      { s.procs child with pgdir := true, parent := some p } j).state = (s.procs j).state := by
    intro j
    by_cases same : j = child
    · subst same
      simp
    · simp [Function.update_of_ne same]
  have parents : ∀ j, j ≠ child → (Function.update s.procs child
      { s.procs child with pgdir := true, parent := some p } j).parent = (s.procs j).parent :=
    fun j other => by simp [Function.update_of_ne other]
  have notChild : ∀ j, (s.procs j).state ≠ .embryo → j ≠ child := by
    rintro j notEmbryo rfl
    exact notEmbryo embryo
  have initOther := notChild _ (ProcState.ne_of_active inv.initActive).2.1
  refine
    { initActive := ?_, initOrphan := ?_, noSelfParent := fun j => ?_,
      parentActive := fun j notInit used started => ?_,
      noLostChild := fun j asleep onSelf i child' dead => ?_,
      publishParent := fun r child' forks' => ?_ }
  · simpa [states] using inv.initActive
  · simpa [parents _ initOther] using inv.initOrphan
  · by_cases same : j = child
    · subst same
      simpa using apart
    · simpa [parents j same] using inv.noSelfParent j
  · simp only [modifyThread_procs, modifyProc_procs, states] at used started ⊢
    obtain ⟨q, parent, active⟩ := inv.parentActive j notInit used started
    exact ⟨q, by rw [parents j (notChild j started), parent], active⟩
  · simp only [modifyThread_procs, modifyProc_procs, states] at asleep onSelf dead ⊢
    have other : i ≠ child := notChild i (by rw [dead]; decide)
    simp only [modifyThread_procs, modifyProc_procs, parents i other] at child'
    have sameChan : (s.procs j).chan = some (.proc j) := by
      by_cases here : j = child
      · subst here
        rw [asleep] at embryo
        cases embryo
      · simpa [Function.update_of_ne here] using onSelf
    exact inv.noLostChild j asleep sameChan i child' dead
  · simp only [modifyThread_threads] at forks'
    by_cases same : r = p
    · subst same
      simp only [Function.update_self, Option.some.injEq, Prod.mk.injEq] at forks'
      rw [← forks'.1]
      simp
    · rw [Function.update_of_ne same] at forks'
      have other : child' ≠ child := by
        rintro rfl
        exact same (exec.forkUnique r p child' .publish .copy forks' forks)
      simpa [parents child' other] using inv.publishParent r child' forks'

/-- `fork` makes its child `RUNNABLE`: the child has the forking process, `RUNNING`, as its
parent. -/
theorem FamilyInv.forkPublish (inv : s.FamilyInv) (exec : s.ExecInv) {p child : Fin n}
    (running : (s.procs p).state = .running)
    (forks : (s.threads p).forking = some (child, .publish)) :
    ((s.modifyProc child fun q => { q with state := .runnable }).modifyThread p
      fun t => { t with forking := none }).FamilyInv := by
  have embryo := exec.forkChild p child .publish forks
  have parent := inv.publishParent p child forks
  have apart : p ≠ child := by
    rintro rfl
    rw [running] at embryo
    cases embryo
  have kept : ∀ j, j ≠ child → Function.update s.procs child
      { s.procs child with state := .runnable } j = s.procs j :=
    fun j other => by simp [Function.update_of_ne other]
  have notChild : ∀ j, (s.procs j).state ≠ .embryo → j ≠ child := by
    rintro j notEmbryo rfl
    exact notEmbryo embryo
  have initOther := notChild _ (ProcState.ne_of_active inv.initActive).2.1
  refine
    { initActive := ?_, initOrphan := ?_, noSelfParent := fun j => ?_,
      parentActive := fun j notInit used started => ?_,
      noLostChild := fun j asleep onSelf i child' dead => ?_,
      publishParent := fun r child' forks' => ?_ }
  · simpa [kept _ initOther] using inv.initActive
  · simpa [kept _ initOther] using inv.initOrphan
  · by_cases same : j = child
    · subst same
      simpa using inv.noSelfParent j
    · simpa [kept j same] using inv.noSelfParent j
  · simp only [modifyThread_procs, modifyProc_procs, modifyThread_initproc,
      modifyProc_initproc] at used started notInit ⊢
    by_cases same : j = child
    · subst same
      exact ⟨p, by simpa using parent, by simp [kept p apart, running, ProcState.active]⟩
    · rw [kept j same] at used started ⊢
      obtain ⟨q, parent', active⟩ := inv.parentActive j notInit used started
      have other : q ≠ child := notChild q (ProcState.ne_of_active active).2.1
      exact ⟨q, parent', by rwa [kept q other]⟩
  · simp only [modifyThread_procs, modifyProc_procs] at asleep onSelf child' dead
    have otherJ : j ≠ child := by
      rintro rfl
      simp at asleep
    have otherI : i ≠ child := by
      rintro rfl
      simp at dead
    rw [kept j otherJ] at asleep onSelf
    rw [kept i otherI] at child' dead
    exact inv.noLostChild j asleep onSelf i child' dead
  · simp only [modifyThread_threads] at forks'
    by_cases same : r = p
    · subst same
      simp at forks'
    · rw [Function.update_of_ne same] at forks'
      have other : child' ≠ child := by
        rintro rfl
        exact same (exec.forkUnique r p child' .publish .publish forks' forks)
      simpa [kept child' other] using inv.publishParent r child' forks'

theorem FamilyInv.scan (inv : s.FamilyInv) (c : Fin m) (start : Nat) : (s.scan c start).FamilyInv := by
  unfold ProcSystem.scan
  split
  case h_1 p found =>
    have runnable := (nextRunnable_spec found).2
    exact inv.of_update rfl rfl rfl (fun _ _ => by rw [runnable]; decide) (fun _ => rfl)
      (fun dead => by cases dead) (fun asleep => by cases asleep) fun _ _ => id
  case h_2 => exact inv.of_same rfl rfl fun _ _ => id

/-- A process clears `chan` when it returns from `sleep`. -/
theorem FamilyInv.clearChan (inv : s.FamilyInv) (p : Fin n) :
    (s.modifyProc p fun q => { q with chan := none }).FamilyInv :=
  inv.of_update rfl rfl rfl (fun used started => ⟨used, started⟩) id id
    (fun _ cleared => by cases cleared) fun _ _ => id

theorem FamilyInv.resume (inv : s.FamilyInv) (exec : s.ExecInv) {c : Fin m} {p : Fin n}
    (executing : (s.cpus c).exec = some p) : (s.resume c p).FamilyInv := by
  have running := (exec.executing c p executing).1
  unfold ProcSystem.resume
  split
  case h_1 | h_2 => exact inv.of_same rfl rfl fun _ _ => id
  case h_3 => exact (inv.clearChan p).of_same rfl rfl fun _ _ => id
  case h_4 => exact (inv.clearChan p).waitLoop (exec.of_onlyWakes (onlyWakes_update _ rfl) rfl rfl
      fun _ => rfl) (by simpa using running)
  case h_5 => exact inv.of_same rfl rfl fun _ _ => id

/-- **Every step keeps `FamilyInv`**, in a state where `ExecInv` holds. -/
theorem FamilyInv.step (inv : s.FamilyInv) (exec : s.ExecInv) {e : ProcEvent n m}
    (stepped : s.step e = some s') : s'.FamilyInv := by
  cases e with
  | scheduler c =>
    obtain ⟨-, -, ⟨-, -, rfl⟩ | ⟨p, -, -, rfl⟩⟩ := step_scheduler_eq_some.1 stepped
    · exact inv.scan c 0
    · exact inv.scan c _
  | switchIn c =>
    obtain ⟨p, executing, -, -, rfl⟩ := step_switchIn_eq_some.1 stepped
    exact inv.resume exec executing
  | yield c =>
    obtain ⟨p, current, rfl⟩ := whenCurrent_eq_some.1 stepped
    have running := (exec.executing c p (current_eq_some.1 current).2.2).1
    exact inv.of_update rfl rfl rfl (fun _ _ => by rw [running]; decide) (fun _ => rfl)
      (fun dead => by cases dead) (fun asleep => by cases asleep)
      fun q child forks => by rwa [switchOut_forking] at forks
  | sleep c addr =>
    obtain ⟨p, current, -, rfl⟩ := whenIdle_eq_some.1 stepped
    have running := (exec.executing c p (current_eq_some.1 current).2.2).1
    exact inv.of_update rfl rfl rfl (fun _ _ => by rw [running]; decide) (fun _ => rfl)
      (fun dead => by cases dead) (fun _ onSelf => by cases onSelf)
      fun q child forks => by rwa [switchOut_forking] at forks
  | exit c =>
    obtain ⟨p, current, idle, rfl⟩ := whenIdle_eq_some.1 stepped
    have running := (exec.executing c p (current_eq_some.1 current).2.2).1
    split
    case isTrue => exact inv.of_same rfl rfl fun _ _ => id
    case isFalse notInit => exact inv.exit running notInit idle c
  | wait c =>
    obtain ⟨p, current, -, rfl⟩ := whenIdle_eq_some.1 stepped
    obtain ⟨-, free, executing⟩ := current_eq_some.1 current
    have locked : ({ s with lock := some c } : ProcSystem n m).FamilyInv :=
      inv.of_same rfl rfl fun _ _ => id
    exact locked.waitLoop (exec.acquire executing free) (exec.executing c p executing).1
  | kill c pid =>
    obtain ⟨p, -, -, rfl⟩ := whenIdle_eq_some.1 stepped
    exact inv.of_onlyWakes (kill_onlyWakes _ _) rfl (fun j => by dsimp only; rw [kill_eq])
      (fun j => by dsimp only; rw [kill_eq]) fun _ _ => id
  | wakeup c chan =>
    obtain ⟨p, -, rfl⟩ := whenCurrent_eq_some.1 stepped
    exact inv.of_onlyWakes (wakeup1_onlyWakes _ _) rfl
      (fun j => by dsimp only; rw [wakeup1_eq]) (fun j => by dsimp only; rw [wakeup1_eq])
      fun _ _ => id
  | fork c =>
    obtain ⟨p, -, idle, rfl⟩ := whenIdle_eq_some.1 stepped
    split
    case h_1 child procs alloc =>
      obtain ⟨found, rfl⟩ := allocproc_eq_some alloc
      have unused := unusedSlot_state found
      exact inv.of_update rfl rfl rfl (fun _ started => absurd rfl started)
        (fun active => by rw [unused] at active; cases active) (fun dead => by cases dead)
        (fun asleep => by cases asleep) fun q child' forks =>
          publish_of_update (fun _ => by simp) forks
    case h_2 => exact inv.of_same rfl rfl fun _ _ => id
  | forkKstack c allocated =>
    obtain ⟨p, child, -, forks, rfl⟩ := whenForking_eq_some.1 stepped
    have embryo := exec.forkChild p child .kstack forks
    split
    case isTrue =>
      refine inv.of_update rfl rfl rfl (fun used started => ⟨used, started⟩) id id
        (fun asleep => by rw [embryo] at asleep; cases asleep) fun q child' forks' => ?_
      -- the child's own thread is set up too, with its `forking` untouched
      have set := publish_of_update (fun _ => by simp) forks'
      simp only [modifyThread_threads, modifyProc_threads] at set
      by_cases there : q = child
      · subst there
        simpa using set
      · rwa [Function.update_of_ne there] at set
    case isFalse =>
      exact inv.of_update rfl rfl rfl (fun used _ => (used rfl).elim)
        (fun active => by rw [embryo] at active; cases active) (fun dead => by cases dead)
        (fun asleep => by cases asleep) fun q child' forks' =>
          publish_of_update (fun _ => by simp) forks'
  | forkCopy c copied =>
    obtain ⟨p, child, current, forks, rfl⟩ := whenForking_eq_some.1 stepped
    have running := (exec.executing c p (current_eq_some.1 current).2.2).1
    have embryo := exec.forkChild p child .copy forks
    split
    case isTrue => exact inv.forkCopy exec running forks
    case isFalse =>
      exact inv.of_update rfl rfl rfl (fun used _ => (used rfl).elim)
        (fun active => by rw [embryo] at active; cases active) (fun dead => by cases dead)
        (fun asleep => by cases asleep) fun q child' forks' =>
          publish_of_update (fun _ => by simp) forks'
  | forkPublish c =>
    obtain ⟨p, child, current, forks, rfl⟩ := whenForking_eq_some.1 stepped
    exact inv.forkPublish exec (exec.executing c p (current_eq_some.1 current).2.2).1 forks

/-! ### Every reachable state -/

theorem familyInv_boot [NeZero n] : (boot : ProcSystem n m).FamilyInv where
  initActive := by simp [boot, ProcState.active]
  initOrphan := by simp [boot]
  noSelfParent p := by
    by_cases same : p = 0
    · subst same
      simp [boot]
    · simp [boot_procs_of_ne same, Proc.zero]
  parentActive p notInit used _ := by
    simp [boot_procs_of_ne (show p ≠ 0 from notInit), Proc.zero] at used
  noLostChild p asleep := by
    by_cases same : p = 0
    · subst same
      simp [boot] at asleep
    · simp [boot_procs_of_ne same, Proc.zero] at asleep
  publishParent p child forks := by simp [boot] at forks

theorem Reachable.familyInv (reach : s.Reachable) : s.FamilyInv :=
  Lib.Reachable.induction_under ExecInv FamilyInv Reachable.execInv
    (fun _ initial => by
      obtain ⟨_, rfl⟩ := Initial.eq_boot initial
      exact familyInv_boot)
    (fun _ _ _ exec inv stepped => inv.step exec stepped) reach

/-! ### Pids -/

/-- The invariant of the pids. Slots in use have positive pids; every pid in the table, stale
ones of `UNUSED` slots included, is below `nextpid` and, unless `0`, in one slot only; the
pids `wait` returned are below `nextpid`, distinct, and none of a slot in use. -/
structure PidInv (s : ProcSystem n m) : Prop where
  positive : ∀ p, (s.procs p).state ≠ .unused → 0 < (s.procs p).pid
  below : ∀ p, (s.procs p).pid < s.nextpid
  distinct : ∀ p q, p ≠ q → (s.procs p).pid = (s.procs q).pid → (s.procs p).pid = 0
  notReaped : ∀ p, (s.procs p).state ≠ .unused → (s.procs p).pid ∉ s.reaped
  reapedBelow : ∀ x ∈ s.reaped, x < s.nextpid
  reapedNodup : s.reaped.Nodup
  nextpidPos : 0 < s.nextpid

/-- A step that keeps every pid, `nextpid` and the pids returned, and puts no slot in use. -/
theorem PidInv.of_frame (inv : s.PidInv) (nextpid : s'.nextpid = s.nextpid)
    (reaped : s'.reaped = s.reaped) (pids : ∀ j, (s'.procs j).pid = (s.procs j).pid)
    (used : ∀ j, (s'.procs j).state ≠ .unused → (s.procs j).state ≠ .unused) : s'.PidInv where
  positive p inUse := by
    rw [pids]
    exact inv.positive p (used p inUse)
  below p := by
    rw [pids, nextpid]
    exact inv.below p
  distinct p q other same := by
    rw [pids, pids] at same
    rw [pids]
    exact inv.distinct p q other same
  notReaped p inUse := by
    rw [pids, reaped]
    exact inv.notReaped p (used p inUse)
  reapedBelow x mem := by
    rw [reaped] at mem
    rw [nextpid]
    exact inv.reapedBelow x mem
  reapedNodup := by
    rw [reaped]
    exact inv.reapedNodup
  nextpidPos := by
    rw [nextpid]
    exact inv.nextpidPos

/-- A change of one slot that keeps its pid. -/
theorem PidInv.of_update (inv : s.PidInv) {p : Fin n} {new : Proc n}
    (procs : s'.procs = Function.update s.procs p new) (nextpid : s'.nextpid = s.nextpid)
    (reaped : s'.reaped = s.reaped) (pid : new.pid = (s.procs p).pid)
    (used : new.state ≠ .unused → (s.procs p).state ≠ .unused) : s'.PidInv := by
  have each : ∀ {R : Proc n → Proc n → Prop}, R (s.procs p) new →
      (∀ j, R (s.procs j) (s.procs j)) → ∀ j, R (s.procs j) (s'.procs j) := by
    intro R here elsewhere j
    rw [procs]
    exact Lib.forall_update (R := fun _ => R) here elsewhere j
  exact inv.of_frame nextpid reaped
    (each (R := fun old new => new.pid = old.pid) pid fun _ => rfl)
    (each (R := fun old new => new.state ≠ .unused → old.state ≠ .unused) used fun _ => id)

theorem PidInv.of_onlyWakes (inv : s.PidInv) (wakes : OnlyWakes s.procs s'.procs)
    (nextpid : s'.nextpid = s.nextpid) (reaped : s'.reaped = s.reaped)
    (pids : ∀ j, (s'.procs j).pid = (s.procs j).pid) : s'.PidInv :=
  inv.of_frame nextpid reaped pids fun j => (wakes j).used

theorem PidInv.of_same (inv : s.PidInv) (procs : s'.procs = s.procs)
    (nextpid : s'.nextpid = s.nextpid) (reaped : s'.reaped = s.reaped) : s'.PidInv :=
  inv.of_frame nextpid reaped (fun j => by rw [procs]) fun j => by rw [procs]; exact id

/-- **`allocproc`**, before `nextpid` overflows: the slot it takes gets `nextpid`, which no
slot and no returned pid has. -/
theorem PidInv.alloc (inv : s.PidInv) {child : Fin n} (fits : s.nextpid < 2 ^ 31)
    (procs : s'.procs = Function.update s.procs child
      { s.procs child with state := .embryo, pid := cInt s.nextpid })
    (nextpid : s'.nextpid = s.nextpid + 1) (reaped : s'.reaped = s.reaped) : s'.PidInv := by
  rw [cInt_of_lt inv.nextpidPos fits] at procs
  have kept : ∀ j, j ≠ child → s'.procs j = s.procs j := fun j other => by
    rw [procs, Function.update_of_ne other]
  have fresh : (s'.procs child).pid = s.nextpid := by simp [procs]
  -- every other pid is below the fresh one
  have older : ∀ j, j ≠ child → (s'.procs j).pid < s.nextpid := fun j other => by
    rw [kept j other]
    exact inv.below j
  refine
    { positive := fun j inUse => ?_, below := fun j => ?_,
      distinct := fun j k other same => ?_, notReaped := fun j inUse => ?_,
      reapedBelow := fun x mem => ?_, reapedNodup := by rw [reaped]; exact inv.reapedNodup,
      nextpidPos := by rw [nextpid]; exact Int.lt_add_one_of_le inv.nextpidPos.le }
  · by_cases same : j = child
    · subst same
      rw [fresh]
      exact inv.nextpidPos
    · rw [kept j same] at inUse ⊢
      exact inv.positive j inUse
  · rw [nextpid]
    by_cases same : j = child
    · subst same
      rw [fresh]
      exact Int.lt_add_one_iff.mpr le_rfl
    · exact Int.lt_add_one_iff.mpr (older j same).le
  · by_cases here : j = child
    · subst here
      have otherK : k ≠ j := Ne.symm other
      rw [fresh] at same
      exact absurd same.symm (older k otherK).ne
    · by_cases there : k = child
      · subst there
        rw [fresh] at same
        exact absurd same (older j here).ne
      · rw [kept j here, kept k there] at same
        rw [kept j here]
        exact inv.distinct j k other same
  · rw [reaped]
    by_cases same : j = child
    · subst same
      rw [fresh]
      exact fun mem => (inv.reapedBelow _ mem).ne rfl
    · rw [kept j same] at inUse ⊢
      exact inv.notReaped j inUse
  · rw [reaped] at mem
    rw [nextpid]
    exact Int.lt_add_one_iff.mpr (inv.reapedBelow x mem).le

/-- **`wait` frees a `ZOMBIE`**: its pid, returned, was no returned pid, and its slot gets pid
`0`. -/
theorem PidInv.reap (inv : s.PidInv) {child : Fin n} (dead : (s.procs child).state = .zombie)
    (procs : s'.procs = reapChild s.procs child) (nextpid : s'.nextpid = s.nextpid)
    (reaped : s'.reaped = s.reaped ++ [(s.procs child).pid]) : s'.PidInv := by
  have kept : ∀ j, j ≠ child → s'.procs j = s.procs j := fun j other => by
    rw [procs, reapChild, Function.update_of_ne other]
  have freed : (s'.procs child).state = .unused ∧ (s'.procs child).pid = 0 := by
    simp [procs, reapChild]
  have inUse : (s.procs child).state ≠ .unused := by
    rw [dead]
    decide
  have notChild : ∀ j, (s'.procs j).state ≠ .unused → j ≠ child := by
    rintro j used rfl
    exact used freed.1
  refine
    { positive := fun j used => ?_, below := fun j => ?_,
      distinct := fun j k other same => ?_, notReaped := fun j used => ?_,
      reapedBelow := fun x mem => ?_, reapedNodup := ?_,
      nextpidPos := by rw [nextpid]; exact inv.nextpidPos }
  · have other := notChild j used
    rw [kept j other] at used ⊢
    exact inv.positive j used
  · rw [nextpid]
    by_cases same : j = child
    · subst same
      rw [freed.2]
      exact inv.nextpidPos
    · rw [kept j same]
      exact inv.below j
  · by_cases here : j = child
    · subst here
      exact freed.2
    · by_cases there : k = child
      · subst there
        rw [same]
        exact freed.2
      · rw [kept j here, kept k there] at same
        rw [kept j here]
        exact inv.distinct j k other same
  · have other := notChild j used
    rw [kept j other] at used ⊢
    rw [reaped, List.mem_append, List.mem_singleton]
    rintro (old | same)
    · exact inv.notReaped j used old
    · -- the freed child's pid is positive, so it is in no other slot
      have zero := inv.distinct j child other same
      exact (inv.positive j used).ne' zero
  · rw [reaped, List.mem_append, List.mem_singleton] at mem
    rw [nextpid]
    rcases mem with old | rfl
    · exact inv.reapedBelow x old
    · exact inv.below child
  · rw [reaped]
    exact List.nodup_append.mpr ⟨inv.reapedNodup, List.nodup_singleton _,
      fun x old y single same => by
        rw [List.mem_singleton] at single
        exact inv.notReaped child inUse (single ▸ same ▸ old)⟩

theorem PidInv.waitLoop (inv : s.PidInv) {c : Fin m} {p : Fin n}
    (running : (s.procs p).state = .running) : (s.waitLoop c p).PidInv := by
  unfold ProcSystem.waitLoop
  split
  case h_1 child scan => exact inv.reap (waitScan_reap scan).2 rfl rfl rfl
  case h_2 => exact inv.of_same rfl rfl rfl
  case h_3 => exact inv.of_update rfl rfl rfl rfl fun _ => by rw [running]; decide

theorem PidInv.scan (inv : s.PidInv) (c : Fin m) (start : Nat) : (s.scan c start).PidInv := by
  unfold ProcSystem.scan
  split
  case h_1 p found =>
    exact inv.of_update rfl rfl rfl rfl fun _ => by rw [(nextRunnable_spec found).2]; decide
  case h_2 => exact inv.of_same rfl rfl rfl

theorem PidInv.resume (inv : s.PidInv) (exec : s.ExecInv) {c : Fin m} {p : Fin n}
    (executing : (s.cpus c).exec = some p) : (s.resume c p).PidInv := by
  have running := (exec.executing c p executing).1
  have cleared : (s.modifyProc p fun q => { q with chan := none }).PidInv :=
    inv.of_update rfl rfl rfl rfl id
  unfold ProcSystem.resume
  split
  case h_1 | h_2 | h_5 => exact inv.of_same rfl rfl rfl
  case h_3 => exact cleared.of_same rfl rfl rfl
  case h_4 => exact cleared.waitLoop (by simpa using running)

/-- **Every step keeps `PidInv`** while `nextpid` has not overflowed, in a state where
`ExecInv` holds. -/
theorem PidInv.step (inv : s.PidInv) (exec : s.ExecInv) {e : ProcEvent n m}
    (stepped : s.step e = some s') (young : s'.nextpid ≤ 2 ^ 31) : s'.PidInv := by
  cases e with
  | scheduler c =>
    obtain ⟨-, -, ⟨-, -, rfl⟩ | ⟨p, -, -, rfl⟩⟩ := step_scheduler_eq_some.1 stepped
    · exact inv.scan c 0
    · exact inv.scan c _
  | switchIn c =>
    obtain ⟨p, executing, -, -, rfl⟩ := step_switchIn_eq_some.1 stepped
    exact inv.resume exec executing
  | yield c =>
    obtain ⟨p, current, rfl⟩ := whenCurrent_eq_some.1 stepped
    have running := (exec.executing c p (current_eq_some.1 current).2.2).1
    exact inv.of_update rfl rfl rfl rfl fun _ => by rw [running]; decide
  | sleep c addr =>
    obtain ⟨p, current, -, rfl⟩ := whenIdle_eq_some.1 stepped
    have running := (exec.executing c p (current_eq_some.1 current).2.2).1
    exact inv.of_update rfl rfl rfl rfl fun _ => by rw [running]; decide
  | exit c =>
    obtain ⟨p, current, -, rfl⟩ := whenIdle_eq_some.1 stepped
    have running := (exec.executing c p (current_eq_some.1 current).2.2).1
    split
    case isTrue => exact inv.of_same rfl rfl rfl
    case isFalse =>
      refine inv.of_frame rfl rfl (fun j => by simp only [switchOut_procs]; rw [exitLocked_eq])
        fun j used => ?_
      by_cases same : j = p
      · subst same
        rw [running]
        decide
      · exact (exitLocked_wakes s.procs p s.initproc same).used (by simpa using used)
  | wait c =>
    obtain ⟨p, current, -, rfl⟩ := whenIdle_eq_some.1 stepped
    have locked : ({ s with lock := some c } : ProcSystem n m).PidInv := inv.of_same rfl rfl rfl
    exact locked.waitLoop (exec.executing c p (current_eq_some.1 current).2.2).1
  | kill c pid =>
    obtain ⟨p, -, -, rfl⟩ := whenIdle_eq_some.1 stepped
    exact inv.of_onlyWakes (kill_onlyWakes _ _) rfl rfl fun j => by dsimp only; rw [kill_eq]
  | wakeup c chan =>
    obtain ⟨p, -, rfl⟩ := whenCurrent_eq_some.1 stepped
    exact inv.of_onlyWakes (wakeup1_onlyWakes _ _) rfl rfl fun j => by dsimp only; rw [wakeup1_eq]
  | fork c =>
    obtain ⟨p, -, -, rfl⟩ := whenIdle_eq_some.1 stepped
    split
    case h_1 child procs alloc =>
      have fits : s.nextpid < 2 ^ 31 := by
        simp only [alloc, modifyThread_nextpid] at young
        omega
      exact inv.alloc fits (allocproc_eq_some alloc).2 rfl rfl
    case h_2 => exact inv.of_same rfl rfl rfl
  | forkKstack c allocated =>
    obtain ⟨p, child, -, -, rfl⟩ := whenForking_eq_some.1 stepped
    split
    case isTrue => exact inv.of_update rfl rfl rfl rfl id
    case isFalse => exact inv.of_update rfl rfl rfl rfl fun used => (used rfl).elim
  | forkCopy c copied =>
    obtain ⟨p, child, -, -, rfl⟩ := whenForking_eq_some.1 stepped
    split
    case isTrue => exact inv.of_update rfl rfl rfl rfl id
    case isFalse => exact inv.of_update rfl rfl rfl rfl fun used => (used rfl).elim
  | forkPublish c =>
    obtain ⟨p, child, -, forks, rfl⟩ := whenForking_eq_some.1 stepped
    have embryo := exec.forkChild p child .publish forks
    exact inv.of_update rfl rfl rfl rfl fun _ => by rw [embryo]; decide

theorem pidInv_boot [NeZero n] : (boot : ProcSystem n m).PidInv where
  positive p used := by
    by_cases same : p = 0
    · subst same
      simp [boot]
    · simp [boot_procs_of_ne same, Proc.zero] at used
  below p := by
    by_cases same : p = 0
    · subst same
      simp [boot]
    · rw [boot_procs_of_ne same]
      simp [Proc.zero, boot]
  distinct p q other same := by
    by_cases here : p = 0
    · subst here
      rw [boot_procs_of_ne (Ne.symm other)] at same
      simp [boot, Proc.zero] at same
    · simp [boot_procs_of_ne here, Proc.zero]
  notReaped p _ := by simp [boot]
  reapedBelow x mem := by simp [boot] at mem
  reapedNodup := by simp [boot]
  nextpidPos := by simp [boot]

theorem waitLoop_nextpid (s : ProcSystem n m) (c : Fin m) (p : Fin n) :
    (s.waitLoop c p).nextpid = s.nextpid := by
  unfold ProcSystem.waitLoop
  split <;> rfl

/-- A step keeps `nextpid` or, in `allocproc`, counts one more pid. -/
theorem step_nextpid {e : ProcEvent n m} (stepped : s.step e = some s') :
    s'.nextpid = s.nextpid ∨ s'.nextpid = s.nextpid + 1 := by
  cases e with
  | scheduler c =>
    have scanned : ∀ start, (s.scan c start).nextpid = s.nextpid := fun _ => by
      unfold ProcSystem.scan
      split <;> rfl
    obtain ⟨-, -, ⟨-, -, rfl⟩ | ⟨p, -, -, rfl⟩⟩ := step_scheduler_eq_some.1 stepped
    all_goals exact Or.inl (scanned _)
  | switchIn c =>
    obtain ⟨p, -, -, -, rfl⟩ := step_switchIn_eq_some.1 stepped
    unfold ProcSystem.resume
    split
    case h_4 => exact Or.inl (waitLoop_nextpid _ c p)
    all_goals exact Or.inl rfl
  | wait c =>
    obtain ⟨p, -, -, rfl⟩ := whenIdle_eq_some.1 stepped
    exact Or.inl (waitLoop_nextpid _ c p)
  | fork c =>
    obtain ⟨p, -, -, rfl⟩ := whenIdle_eq_some.1 stepped
    split
    case h_1 => exact Or.inr rfl
    case h_2 => exact Or.inl rfl
  | yield c | wakeup c _ =>
    obtain ⟨p, -, rfl⟩ := whenCurrent_eq_some.1 stepped
    exact Or.inl rfl
  | sleep c _ | kill c _ =>
    obtain ⟨p, -, -, rfl⟩ := whenIdle_eq_some.1 stepped
    exact Or.inl rfl
  | exit c =>
    obtain ⟨p, -, -, rfl⟩ := whenIdle_eq_some.1 stepped
    split <;> exact Or.inl rfl
  | forkKstack c _ | forkCopy c _ =>
    obtain ⟨p, child, -, -, rfl⟩ := whenForking_eq_some.1 stepped
    split <;> exact Or.inl rfl
  | forkPublish c =>
    obtain ⟨p, child, -, -, rfl⟩ := whenForking_eq_some.1 stepped
    exact Or.inl rfl

/-- `PidInv` in every reachable state whose `nextpid` has not gone past `INT_MAX + 1`: before
the `int` overflows. -/
theorem Reachable.pidInv (reach : s.Reachable) (young : s.nextpid ≤ 2 ^ 31) : s.PidInv :=
  Lib.Reachable.induction_under ExecInv (fun s => s.nextpid ≤ 2 ^ 31 → s.PidInv)
    Reachable.execInv
    (fun _ initial _ => by
      obtain ⟨_, rfl⟩ := Initial.eq_boot initial
      exact pidInv_boot)
    (fun t _ _ exec inv stepped young' => by
      -- `nextpid` only grows, so the state before had not overflowed either
      have before : t.nextpid ≤ 2 ^ 31 := by
        rcases step_nextpid stepped with same | more <;> omega
      exact (inv before).step exec stepped young')
    reach young

/-! ### What `wait` returns -/

/-- `wait`'s loop returns the pid of at most one child, a `ZOMBIE` child of the caller, and
frees its slot. -/
theorem waitLoop_reaped (s : ProcSystem n m) (c : Fin m) (p : Fin n) :
    (s.waitLoop c p).reaped = s.reaped ∨
      ∃ child, (s.procs child).parent = some p ∧ (s.procs child).state = .zombie ∧
        (s.waitLoop c p).reaped = s.reaped ++ [(s.procs child).pid] ∧
        (s.waitLoop c p).procs child =
          { s.procs child with kstack := false, pgdir := false, pid := 0, parent := none,
                               killed := false, state := .unused } := by
  unfold ProcSystem.waitLoop
  split
  case h_1 child scan =>
    obtain ⟨parent, dead⟩ := waitScan_reap scan
    exact Or.inr ⟨child, parent, dead, rfl, by simp [reapChild]⟩
  case h_2 | h_3 => exact Or.inl rfl

/-- A step returns the pid of at most one child: a `ZOMBIE` child of the process executing on
the step's CPU, whose slot, kernel stack and page directory it frees. -/
theorem step_reaped {e : ProcEvent n m} (stepped : s.step e = some s') :
    s'.reaped = s.reaped ∨
      ∃ c p child, (s.cpus c).exec = some p ∧ (s.procs child).parent = some p ∧
        (s.procs child).state = .zombie ∧ s'.reaped = s.reaped ++ [(s.procs child).pid] ∧
        (s'.procs child).state = .unused ∧ (s'.procs child).kstack = false ∧
        (s'.procs child).pgdir = false := by
  cases e with
  | scheduler c =>
    have scanned : ∀ start, (s.scan c start).reaped = s.reaped := fun _ => by
      unfold ProcSystem.scan
      split <;> rfl
    obtain ⟨-, -, ⟨-, -, rfl⟩ | ⟨p, -, -, rfl⟩⟩ := step_scheduler_eq_some.1 stepped
    all_goals exact Or.inl (scanned _)
  | switchIn c =>
    obtain ⟨p, executing, -, -, rfl⟩ := step_switchIn_eq_some.1 stepped
    unfold ProcSystem.resume
    split
    case h_4 =>
      -- back from the `sleep` in `wait`, with `chan` cleared: the loop scans again
      rcases waitLoop_reaped (s.modifyProc p fun q => { q with chan := none }) c p with
        same | ⟨child, parent, dead, reaped, freed⟩
      · exact Or.inl same
      · have kept : (s.modifyProc p fun q => { q with chan := none }).procs child =
            { s.procs child with chan := if child = p then none else (s.procs child).chan } := by
          by_cases here : child = p
          · subst here
            simp
          · simp [here]
        rw [kept] at parent dead reaped
        exact Or.inr ⟨c, p, child, executing, parent, dead, reaped, by rw [freed], by rw [freed],
          by rw [freed]⟩
    all_goals exact Or.inl rfl
  | wait c =>
    obtain ⟨p, current, -, rfl⟩ := whenIdle_eq_some.1 stepped
    rcases waitLoop_reaped { s with lock := some c } c p with
      same | ⟨child, parent, dead, reaped, freed⟩
    · exact Or.inl same
    · exact Or.inr ⟨c, p, child, (current_eq_some.1 current).2.2, parent, dead, reaped,
        by rw [freed], by rw [freed], by rw [freed]⟩
  | yield c | wakeup c _ =>
    obtain ⟨p, -, rfl⟩ := whenCurrent_eq_some.1 stepped
    exact Or.inl rfl
  | sleep c _ | kill c _ =>
    obtain ⟨p, -, -, rfl⟩ := whenIdle_eq_some.1 stepped
    exact Or.inl rfl
  | exit c | fork c =>
    obtain ⟨p, -, -, rfl⟩ := whenIdle_eq_some.1 stepped
    split <;> exact Or.inl rfl
  | forkKstack c _ | forkCopy c _ =>
    obtain ⟨p, child, -, -, rfl⟩ := whenForking_eq_some.1 stepped
    split <;> exact Or.inl rfl
  | forkPublish c =>
    obtain ⟨p, child, -, -, rfl⟩ := whenForking_eq_some.1 stepped
    exact Or.inl rfl

/-! ### The protocol -/

end ProcSystem

end Xv6
