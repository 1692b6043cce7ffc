import Xv6.Log.Group

/-!
**Group-commit isolation of the log.**

In every reachable state of the group-commit system (`LogSystem.Reachable`), on any number of
threads:

* `outstanding` counts exactly the threads between `begin_op` and `end_op`;
* while `committing`, no operation is outstanding, so `commit()` never writes a block of an
  operation that has not reached `end_op`;
* with nothing outstanding and nothing committing, the header is empty;
* the `log.committing` panic of `end_op` is never reached;
* with `log.lock` free, no thread sleeps on `&log` while `begin_op` would let it in.

The last point is the absence of a lost wakeup. Its inductive form (`Inv.sleepers`) says that a
thread that decided to sleep, from `begin_op`'s check until it is woken, sees the log full or
committing, or else a thread that holds `log.lock` is about to call `wakeup(&log)`. Every step
that makes room (`end_op` lowering the count, the end of a commit) is such a thread.
-/

namespace Xv6

open Xv6.Lib

namespace OpPc

/-- Returned from `begin_op`, not yet called `end_op`. -/
def inTrans : OpPc → Bool
  | .inOp | .logWriting _ => true
  | _ => false

/-- Holds `log.lock` between steps. -/
def holdsLogLock : OpPc → Bool
  | .beginSleep .locking | .endWaking | .commitWaking => true
  | _ => false

/-- Holds `ptable.lock` between steps. -/
def holdsPtLock : OpPc → Bool
  | .beginSleep .setting | .beginSleep .returning => true
  | _ => false

/-- Inside `end_op` from setting `committing` to clearing it. -/
def committer : OpPc → Bool
  | .committing | .commitEnding => true
  | _ => false

/-- Holds `log.lock` and is about to call `wakeup(&log)`. -/
def waker : OpPc → Bool
  | .endWaking | .commitWaking => true
  | _ => false

/-- Decided to sleep in `begin_op` and not woken since. -/
def sleeper : OpPc → Bool
  | .beginSleep .locking | .beginSleep .setting | .beginSleep .asleep => true
  | _ => false

theorem holdsLogLock_of_waker {pc : OpPc} (waking : pc.waker = true) : pc.holdsLogLock = true := by
  cases pc <;> simp_all [waker, holdsLogLock]

@[simp] theorem inTrans_wake (pc : OpPc) : pc.wake.inTrans = pc.inTrans := by
  cases pc <;> rfl

@[simp] theorem committer_wake (pc : OpPc) : pc.wake.committer = pc.committer := by
  cases pc <;> rfl

@[simp] theorem waker_wake (pc : OpPc) : pc.wake.waker = pc.waker := by
  cases pc <;> rfl

@[simp] theorem holdsLogLock_wake (pc : OpPc) : pc.wake.holdsLogLock = pc.holdsLogLock := by
  cases pc with
  | beginSleep phase => cases phase <;> rfl
  | _ => rfl

@[simp] theorem holdsPtLock_wake (pc : OpPc) : pc.wake.holdsPtLock = pc.holdsPtLock := by
  cases pc with
  | beginSleep phase => cases phase <;> rfl
  | _ => rfl

/-- A waker is in neither a transaction nor the commit. -/
theorem quiet_of_waker {pc : OpPc} (waking : pc.waker = true) :
    pc.inTrans = false ∧ pc.committer = false := by
  cases pc <;> simp_all [waker, inTrans, committer]

@[simp] theorem wake_eq_commitEnding {pc : OpPc} : pc.wake = .commitEnding ↔ pc = .commitEnding := by
  cases pc <;> simp [wake]

/-- After `wakeup(&log)`, a sleeper is one that holds one of the two locks. -/
theorem sleeper_wake {pc : OpPc} (sleeping : pc.wake.sleeper = true) :
    pc.holdsLogLock = true ∨ pc.holdsPtLock = true := by
  cases pc with
  | beginSleep phase => cases phase <;> simp_all [wake, SleepPhase.wake, sleeper, holdsLogLock, holdsPtLock]
  | _ => simp_all [wake, sleeper]

end OpPc

variable {n : Nat}

/-- The number of threads between `begin_op` and `end_op`. -/
def inTransCount (pc : Fin n → OpPc) : Nat := (Finset.univ.filter fun t => (pc t).inTrans = true).card

/-- The number of threads inside `end_op`'s commit. -/
def committerCount (pc : Fin n → OpPc) : Nat :=
  (Finset.univ.filter fun t => (pc t).committer = true).card

theorem inTransCount_update (pc : Fin n → OpPc) (t : Fin n) (p : OpPc) :
    inTransCount (Function.update pc t p) + (if (pc t).inTrans = true then 1 else 0) =
      inTransCount pc + (if p.inTrans = true then 1 else 0) :=
  card_filter_update pc (fun x => x.inTrans = true) t p

theorem committerCount_update (pc : Fin n → OpPc) (t : Fin n) (p : OpPc) :
    committerCount (Function.update pc t p) + (if (pc t).committer = true then 1 else 0) =
      committerCount pc + (if p.committer = true then 1 else 0) :=
  card_filter_update pc (fun x => x.committer = true) t p

theorem inTransCount_wake (pc : Fin n → OpPc) : inTransCount (fun u => (pc u).wake) = inTransCount pc :=
  card_filter_map pc OpPc.wake (fun x => x.inTrans = true) fun x => by simp

theorem committerCount_wake (pc : Fin n → OpPc) :
    committerCount (fun u => (pc u).wake) = committerCount pc :=
  card_filter_map pc OpPc.wake (fun x => x.committer = true) fun x => by simp

theorem one_le_inTransCount {pc : Fin n → OpPc} {t : Fin n} (inside : (pc t).inTrans = true) :
    1 ≤ inTransCount pc :=
  Finset.card_pos.mpr ⟨t, Finset.mem_filter.mpr ⟨Finset.mem_univ t, inside⟩⟩

theorem one_le_committerCount {pc : Fin n → OpPc} {t : Fin n} (inside : (pc t).committer = true) :
    1 ≤ committerCount pc :=
  Finset.card_pos.mpr ⟨t, Finset.mem_filter.mpr ⟨Finset.mem_univ t, inside⟩⟩

/-- A predicate that fails at thread `t`'s new point holds after the move only where it held
before, at another thread. -/
theorem holds_of_update {f : OpPc → Bool} {pc : Fin n → OpPc} {t u : Fin n} {p : OpPc}
    (fails : f p = false) (holds : f (Function.update pc t p u) = true) : u ≠ t ∧ f (pc u) = true := by
  by_cases same : u = t
  · subst same
    rw [Function.update_self, fails] at holds
    cases holds
  · rw [Function.update_of_ne same] at holds
    exact ⟨same, holds⟩

/-- **Lock ownership after one thread moves.** If the holders of a lock are exactly the threads
at holding points, they still are after thread `t` moves to `p`, provided `p` is a holding point
exactly when `t` holds the lock afterwards, and no other thread's ownership changed. -/
theorem held_update {f : OpPc → Bool} {pc : Fin n → OpPc} {lock lock' : Option (Fin n)}
    {t : Fin n} {p : OpPc} (held : ∀ u, f (pc u) = true ↔ lock = some u)
    (self : f p = true ↔ lock' = some t) (others : ∀ u, u ≠ t → (lock = some u ↔ lock' = some u)) :
    ∀ u, f (Function.update pc t p u) = true ↔ lock' = some u := by
  intro u
  by_cases same : u = t
  · subst same
    rw [Function.update_self]
    exact self
  · rw [Function.update_of_ne same, held u]
    exact others u same

/-- A failed admission stays failed when the log only gets fuller, busier or starts
committing. -/
theorem beginOpAdmits_eq_false_of_le {log log' : Log} (refused : beginOpAdmits log = false)
    (commit : log.committing = true → log'.committing = true) (fuller : log.lh.n ≤ log'.lh.n)
    (busier : log.outstanding ≤ log'.outstanding) : beginOpAdmits log' = false := by
  unfold beginOpAdmits at refused ⊢
  cases committing' : log'.committing
  · have idle : log.committing = false := by
      cases c : log.committing
      · rfl
      · simpa [committing'] using commit c
    have grown : (log.lh.n : Int) ≤ log'.lh.n := by exact_mod_cast fuller
    rw [idle] at refused
    simp only [Bool.not_false, Bool.true_and] at refused ⊢
    have full := of_decide_eq_false refused
    apply decide_eq_false
    simp only [logSize, maxOpBlocks] at full ⊢
    omega
  · rfl

/-- The checks of `log_write` raise their own panics, never `end_op`'s. -/
theorem logWriteCheck_ne_committing {log : Log} {message : String}
    (check : logWriteCheck log = some message) : message ≠ "log.committing" := by
  unfold logWriteCheck at check
  split_ifs at check
  all_goals
    cases check
    decide

/-- Absorbing a block never shrinks the header. -/
theorem LogHeader.n_le_absorb (lh : LogHeader) (blockno : Nat) : lh.n ≤ (lh.absorb blockno).n := by
  unfold LogHeader.absorb
  split
  · exact le_rfl
  · simp [LogHeader.n]

namespace LogSystem

/-- The invariant of the group-commit system. -/
structure Inv (s : LogSystem n) : Prop where
  /-- `outstanding` counts the operations between `begin_op` and `end_op` -/
  counted : s.store.log.outstanding = inTransCount s.pc
  /-- `committing` is set exactly while one thread is inside the commit -/
  committers : committerCount s.pc = if s.store.log.committing then 1 else 0
  logLockHeld : ∀ t, (s.pc t).holdsLogLock = true ↔ s.logLock = some t
  ptLockHeld : ∀ t, (s.pc t).holdsPtLock = true ↔ s.ptLock = some t
  drained : s.store.log.committing = true → s.store.log.outstanding = 0
  empty : s.store.log.outstanding = 0 → s.store.log.committing = false → s.store.log.lh.n = 0
  /-- the committer that ran `commit()` left the header empty -/
  committed : ∀ t, s.pc t = .commitEnding → s.store.log.lh.n = 0
  /-- no lost wakeup -/
  sleepers : ∀ t, (s.pc t).sleeper = true →
    beginOpAdmits s.store.log = false ∨ ∃ w, s.logLock = some w ∧ (s.pc w).waker = true
  notPanicked : s.halted ≠ some "log.committing"

variable {s s' : LogSystem n}

theorem Inv.committing_of_committer (inv : s.Inv) {t : Fin n} (inside : (s.pc t).committer = true) :
    s.store.log.committing = true := by
  have := one_le_committerCount inside
  rw [inv.committers] at this
  split at this
  · assumption
  · omega

theorem Inv.outstanding_pos (inv : s.Inv) {t : Fin n} (inside : (s.pc t).inTrans = true) :
    1 ≤ s.store.log.outstanding := by
  rw [inv.counted]
  exact_mod_cast one_le_inTransCount inside

theorem Inv.not_committing (inv : s.Inv) {t : Fin n} (inside : (s.pc t).inTrans = true) :
    s.store.log.committing = false := by
  cases committing : s.store.log.committing
  · rfl
  · have := inv.drained committing
    have := inv.outstanding_pos inside
    omega

theorem Inv.logLock_ne (inv : s.Inv) {t : Fin n} (free : (s.pc t).holdsLogLock = false) :
    s.logLock ≠ some t := by
  rw [Ne, ← inv.logLockHeld t, free]
  simp

theorem Inv.ptLock_ne (inv : s.Inv) {t : Fin n} (free : (s.pc t).holdsPtLock = false) :
    s.ptLock ≠ some t := by
  rw [Ne, ← inv.ptLockHeld t, free]
  simp

/-- With no waker holding `log.lock`, every sleeper saw a refusal that still stands. -/
theorem Inv.refused (inv : s.Inv) (noWaker : ∀ w, s.logLock = some w → (s.pc w).waker = false)
    {t : Fin n} (sleeping : (s.pc t).sleeper = true) : beginOpAdmits s.store.log = false := by
  rcases inv.sleepers t sleeping with refused | ⟨w, held, waking⟩
  · exact refused
  · rw [noWaker w held] at waking
    cases waking

theorem Inv.refused_of_free (inv : s.Inv) (free : s.logLock = none) {t : Fin n}
    (sleeping : (s.pc t).sleeper = true) : beginOpAdmits s.store.log = false :=
  inv.refused (fun w held => by simp [free] at held) sleeping

theorem inTransCount_update_of_eq (pc : Fin n → OpPc) {t : Fin n} {p : OpPc}
    (same : p.inTrans = (pc t).inTrans) : inTransCount (Function.update pc t p) = inTransCount pc := by
  have := inTransCount_update pc t p
  rw [same] at this
  exact Nat.add_right_cancel this

theorem committerCount_update_of_eq (pc : Fin n → OpPc) {t : Fin n} {p : OpPc}
    (same : p.committer = (pc t).committer) :
    committerCount (Function.update pc t p) = committerCount pc := by
  have := committerCount_update pc t p
  rw [same] at this
  exact Nat.add_right_cancel this

/-- The sleepers after thread `t` moves to `p` keep their reason to sleep, when `p` is a
sleeper only if `t` was one and `t` did not hold `log.lock`. -/
theorem Inv.sleepers_update (inv : s.Inv) {t : Fin n} {p : OpPc}
    (stays : p.sleeper = true → (s.pc t).sleeper = true) (notHeld : s.logLock ≠ some t) :
    ∀ u, (Function.update s.pc t p u).sleeper = true →
      beginOpAdmits s.store.log = false ∨
        ∃ w, s.logLock = some w ∧ (Function.update s.pc t p w).waker = true := by
  intro u sleeping
  have was : (s.pc u).sleeper = true := by
    by_cases same : u = t
    · subst same
      rw [Function.update_self] at sleeping
      exact stays sleeping
    · rwa [Function.update_of_ne same] at sleeping
  rcases inv.sleepers u was with refused | ⟨w, held, waking⟩
  · exact Or.inl refused
  · have other : w ≠ t := by
      rintro rfl
      exact notHeld held
    exact Or.inr ⟨w, held, by rwa [Function.update_of_ne other]⟩

/-- Moving thread `t` to any point but `commitEnding` keeps `Inv.committed` over an unchanged
header. -/
theorem Inv.committed_update (inv : s.Inv) {t : Fin n} {p : OpPc} (notEnding : p ≠ .commitEnding) :
    ∀ u, Function.update s.pc t p u = .commitEnding → s.store.log.lh.n = 0 := by
  intro u ending
  have other : u ≠ t := by
    rintro rfl
    exact notEnding (by simpa using ending)
  exact inv.committed u (by simpa [other] using ending)

/-- A panic other than the one of `end_op` keeps the invariant. -/
theorem Inv.halt (inv : s.Inv) {message : String} (other : message ≠ "log.committing") :
    { s with halted := some message }.Inv :=
  { inv with notPanicked := by simpa using other }

/-- **A step that only moves thread `t` and the locks.** The store is untouched, `t` stays in
or out of a transaction and of the commit, and each lock is held exactly by the threads at its
holding points. -/
theorem Inv.moved (inv : s.Inv) {t : Fin n} {p : OpPc} {logLock' ptLock' : Option (Fin n)}
    (trans : p.inTrans = (s.pc t).inTrans) (committer : p.committer = (s.pc t).committer)
    (notEnding : p ≠ .commitEnding)
    (logLockSelf : p.holdsLogLock = true ↔ logLock' = some t)
    (logLockOthers : ∀ u, u ≠ t → (s.logLock = some u ↔ logLock' = some u))
    (ptLockSelf : p.holdsPtLock = true ↔ ptLock' = some t)
    (ptLockOthers : ∀ u, u ≠ t → (s.ptLock = some u ↔ ptLock' = some u))
    (sleepers : ∀ u, (Function.update s.pc t p u).sleeper = true →
      beginOpAdmits s.store.log = false ∨
        ∃ w, logLock' = some w ∧ (Function.update s.pc t p w).waker = true) :
    { s.setPc t p with logLock := logLock', ptLock := ptLock' }.Inv where
  counted := by
    simp only [setPc_store, setPc_pc, inTransCount_update_of_eq s.pc trans]
    exact inv.counted
  committers := by
    simp only [setPc_store, setPc_pc, committerCount_update_of_eq s.pc committer]
    exact inv.committers
  logLockHeld := held_update inv.logLockHeld logLockSelf logLockOthers
  ptLockHeld := held_update inv.ptLockHeld ptLockSelf ptLockOthers
  drained := inv.drained
  empty := inv.empty
  committed := inv.committed_update notEnding
  sleepers := sleepers
  notPanicked := inv.notPanicked

/-- `begin_op` lets thread `t` in. -/
theorem Inv.admit (inv : s.Inv) {t : Fin n} (free : s.logLock = none)
    (admits : beginOpAdmits s.store.log = true) (notTrans : (s.pc t).inTrans = false)
    (notCommitter : (s.pc t).committer = false) (notPt : (s.pc t).holdsPtLock = false) :
    ((s.modifyLog fun log => { log with outstanding := log.outstanding + 1 }).setPc t .inOp).Inv where
  counted := by
    have moved := inTransCount_update s.pc t .inOp
    rw [notTrans] at moved
    simp only [OpPc.inTrans, Bool.false_eq_true, if_false, if_true, add_zero] at moved
    simp only [setPc_store, modifyLog_log, setPc_pc, modifyLog_pc, inv.counted]
    omega
  committers := by
    simp only [setPc_store, modifyLog_log, setPc_pc, modifyLog_pc,
      committerCount_update_of_eq s.pc (p := .inOp) (by rw [notCommitter]; rfl)]
    exact inv.committers
  logLockHeld := held_update inv.logLockHeld (by simp [free, OpPc.holdsLogLock]) fun _ _ => Iff.rfl
  ptLockHeld := held_update inv.ptLockHeld (iff_of_false (by simp [OpPc.holdsPtLock])
    (inv.ptLock_ne notPt)) fun _ _ => Iff.rfl
  drained := by
    have idle : s.store.log.committing = false := by
      simp only [beginOpAdmits, Bool.and_eq_true, Bool.not_eq_true'] at admits
      exact admits.1
    simp [idle]
  empty := by
    have := inv.counted
    simp only [setPc_store, modifyLog_log]
    omega
  committed := inv.committed_update (by decide)
  -- a sleeper would have been refused, and the log admits
  sleepers u sleeping := by
    obtain ⟨-, was⟩ := holds_of_update (by rfl) sleeping
    rw [inv.refused_of_free free was] at admits
    cases admits
  notPanicked := inv.notPanicked

/-- `wakeup(&log)` and the release of `log.lock` by a waker: every sleeper is woken, since a
sleeper still in `sleep` holds one of the two locks, and neither is held by another thread. -/
theorem Inv.wakeAndLeave (inv : s.Inv) {t : Fin n} (waking : (s.pc t).waker = true)
    (ptFree : s.ptLock = none) : (s.wakeAndLeave t).Inv := by
  obtain ⟨notTrans, notCommitter⟩ := OpPc.quiet_of_waker waking
  have held : s.logLock = some t := (inv.logLockHeld t).mp (OpPc.holdsLogLock_of_waker waking)
  have wokenLog : ∀ u, ((s.pc u).wake.holdsLogLock = true ↔ s.logLock = some u) := fun u => by
    rw [OpPc.holdsLogLock_wake]
    exact inv.logLockHeld u
  have wokenPt : ∀ u, ((s.pc u).wake.holdsPtLock = true ↔ s.ptLock = some u) := fun u => by
    rw [OpPc.holdsPtLock_wake]
    exact inv.ptLockHeld u
  refine
    { counted := ?counted, committers := ?committers, logLockHeld := ?logLockHeld, ptLockHeld := ?ptLockHeld, drained := inv.drained,
      empty := inv.empty, committed := ?committed, sleepers := ?sleepers, notPanicked := inv.notPanicked }
  case counted =>
    rw [wakeAndLeave_pc, inTransCount_update_of_eq _ (by rw [OpPc.inTrans_wake, notTrans]; rfl),
      inTransCount_wake]
    exact inv.counted
  case committers =>
    rw [wakeAndLeave_pc,
      committerCount_update_of_eq _ (by rw [OpPc.committer_wake, notCommitter]; rfl),
      committerCount_wake]
    exact inv.committers
  case logLockHeld =>
    exact held_update wokenLog (by simp [OpPc.holdsLogLock]) fun u other => by
      simp [held, Ne.symm other]
  case ptLockHeld =>
    exact held_update wokenPt (by simp [ptFree, OpPc.holdsPtLock]) fun _ _ => Iff.rfl
  case committed =>
    intro u ending
    rw [wakeAndLeave_pc] at ending
    obtain ⟨-, was⟩ := holds_of_update (f := fun pc => decide (pc = .commitEnding)) (p := .idle)
      (by rfl) (by simpa using ending)
    exact inv.committed u (by simpa using was)
  -- a sleeper after the wakeup was in the middle of going to sleep, holding a lock
  case sleepers =>
    intro u sleeping
    rw [wakeAndLeave_pc] at sleeping
    obtain ⟨other, was⟩ := holds_of_update (by rfl) sleeping
    rcases OpPc.sleeper_wake was with holding | holding
    · rw [inv.logLockHeld u, held] at holding
      exact absurd (Option.some.inj holding).symm other
    · rw [inv.ptLockHeld u, ptFree] at holding
      cases holding

/-- `log_write`'s critical section, inside a transaction: no commit runs, so the header may grow. -/
theorem Inv.absorb (inv : s.Inv) {t : Fin n} {blockno : Nat} (free : s.logLock = none)
    (writing : s.pc t = .logWriting blockno) :
    ((s.modifyLog fun log => { log with lh := log.lh.absorb blockno }).setPc t .inOp).Inv := by
  have inside : (s.pc t).inTrans = true := by rw [writing]; rfl
  have idle := inv.not_committing inside
  refine
    { counted := ?counted, committers := ?committers, logLockHeld := ?logLockHeld, ptLockHeld := ?ptLockHeld, drained := ?drained,
      empty := ?empty, committed := ?committed, sleepers := ?sleepers, notPanicked := inv.notPanicked }
  case counted =>
    simp only [setPc_store, modifyLog_log, setPc_pc, modifyLog_pc,
      inTransCount_update_of_eq s.pc (p := .inOp) (by rw [writing]; rfl)]
    exact inv.counted
  case committers =>
    simp only [setPc_store, modifyLog_log, setPc_pc, modifyLog_pc,
      committerCount_update_of_eq s.pc (p := .inOp) (by rw [writing]; rfl)]
    exact inv.committers
  case logLockHeld =>
    exact held_update inv.logLockHeld (by simp [free, OpPc.holdsLogLock]) fun _ _ => Iff.rfl
  case ptLockHeld =>
    exact held_update inv.ptLockHeld
      (iff_of_false (by simp [OpPc.holdsPtLock]) (inv.ptLock_ne (by rw [writing]; rfl)))
      fun _ _ => Iff.rfl
  case drained => simp [idle]
  case empty =>
    intro zero
    have := inv.outstanding_pos inside
    simp only [setPc_store, modifyLog_log] at zero
    omega
  -- no thread is past the commit: the commit is not running
  case committed =>
    intro u ending
    simp only [setPc_pc, modifyLog_pc] at ending
    have finishing : (Function.update s.pc t .inOp u).committer = true := by rw [ending]; rfl
    obtain ⟨-, was⟩ := holds_of_update (by rfl) finishing
    rw [inv.committing_of_committer was] at idle
    cases idle
  case sleepers =>
    intro u sleeping
    obtain ⟨-, was⟩ := holds_of_update (by rfl) sleeping
    exact Or.inl (beginOpAdmits_eq_false_of_le (inv.refused_of_free free was) id
      (LogHeader.n_le_absorb _ _) le_rfl)

/-- `end_op`'s first critical section: the last operation out starts the commit, any other
wakes the waiters. -/
theorem Inv.endOp (inv : s.Inv) {t : Fin n} (free : s.logLock = none) (inOp : s.pc t = .inOp) :
    ((s.modifyLog fun log => { log with outstanding := log.outstanding - 1 }).endOpLocked t).Inv := by
  have inside : (s.pc t).inTrans = true := by rw [inOp]; rfl
  have idle := inv.not_committing inside
  have counted := inv.counted
  have committers := inv.committers
  rw [idle] at committers
  -- thread t leaves the transactions, to a point outside them
  have left : ∀ p : OpPc, p.inTrans = false →
      inTransCount (Function.update s.pc t p) + 1 = inTransCount s.pc := by
    intro p outside
    have := inTransCount_update s.pc t p
    rwa [inside, outside, if_pos rfl, if_neg Bool.false_ne_true, add_zero] at this
  have ptFree := inv.ptLock_ne (t := t) (by rw [inOp]; rfl)
  unfold endOpLocked
  simp only [modifyLog_log, idle, Bool.false_eq_true, if_false]
  split
  -- the last one out: the commit starts
  case isTrue last =>
    refine
      { counted := ?counted, committers := ?committers, logLockHeld := ?logLockHeld,
        ptLockHeld := ?ptLockHeld, drained := fun _ => last, empty := fun _ done => (by cases done),
        committed := inv.committed_update (by decide), sleepers := ?sleepers,
        notPanicked := inv.notPanicked }
    case counted =>
      simp only [setPc_store, modifyLog_log, setPc_pc, modifyLog_pc]
      have := left .committing rfl
      omega
    -- thread t is the one committer
    case committers =>
      have entered := committerCount_update s.pc t .committing
      rw [inOp] at entered
      simp only [OpPc.committer, if_true, if_false, Bool.false_eq_true, add_zero] at entered
      simp only [setPc_store, modifyLog_log, setPc_pc, modifyLog_pc, if_true]
      simp only [Bool.false_eq_true, if_false] at committers
      omega
    case logLockHeld =>
      exact held_update inv.logLockHeld (by simp [free, OpPc.holdsLogLock]) fun _ _ => Iff.rfl
    case ptLockHeld =>
      exact held_update inv.ptLockHeld (iff_of_false (by simp [OpPc.holdsPtLock]) ptFree)
        fun _ _ => Iff.rfl
    case sleepers => exact fun _ _ => Or.inl (by simp [beginOpAdmits])
  -- others still run: wake the waiters, since the log has more room
  case isFalse more =>
    refine
      { counted := ?counted, committers := ?committers, logLockHeld := ?logLockHeld,
        ptLockHeld := ?ptLockHeld, drained := fun committing => (by simp [idle] at committing),
        empty := fun none => absurd none more, committed := inv.committed_update (by decide),
        sleepers := fun _ _ => Or.inr ⟨t, rfl, by simp [OpPc.waker]⟩,
        notPanicked := inv.notPanicked }
    case counted =>
      simp only [setPc_store, modifyLog_log, setPc_pc, modifyLog_pc]
      have := left .endWaking rfl
      omega
    case committers =>
      simp only [setPc_store, modifyLog_log, setPc_pc, modifyLog_pc,
        committerCount_update_of_eq s.pc (p := .endWaking) (by rw [inOp]; rfl)]
      exact inv.committers
    case logLockHeld =>
      exact held_update inv.logLockHeld (by simp [OpPc.holdsLogLock]) fun u other => by
        simp [free, Ne.symm other]
    case ptLockHeld =>
      exact held_update inv.ptLockHeld (iff_of_false (by simp [OpPc.holdsPtLock]) ptFree)
        fun _ _ => Iff.rfl

/-- `end_op`'s call of `commit()`: the header is emptied, nothing else of the log changes. -/
theorem Inv.commit (inv : s.Inv) {t : Fin n} (running : s.pc t = .committing) :
    { s.setPc t .commitEnding with store := Xv6.commit s.store }.Inv := by
  have committing := inv.committing_of_committer (t := t) (by rw [running]; rfl)
  have log := commit_log s.store
  have emptied : (Xv6.commit s.store).log.lh.n = 0 := by simp [log, LogHeader.n, LogHeader.empty]
  refine
    { counted := ?counted, committers := ?committers, logLockHeld := ?logLockHeld,
      ptLockHeld := ?ptLockHeld, drained := ?drained, empty := fun _ _ => emptied,
      committed := fun _ _ => emptied, sleepers := fun _ _ => Or.inl ?refused,
      notPanicked := inv.notPanicked }
  case counted =>
    simp only [log, setPc_pc, inTransCount_update_of_eq s.pc (p := .commitEnding) (by rw [running]; rfl)]
    exact inv.counted
  case committers =>
    simp only [log, setPc_pc,
      committerCount_update_of_eq s.pc (p := .commitEnding) (by rw [running]; rfl)]
    exact inv.committers
  case logLockHeld =>
    exact held_update inv.logLockHeld
      (iff_of_false (by simp [OpPc.holdsLogLock]) (inv.logLock_ne (by rw [running]; rfl)))
      fun _ _ => Iff.rfl
  case ptLockHeld =>
    exact held_update inv.ptLockHeld
      (iff_of_false (by simp [OpPc.holdsPtLock]) (inv.ptLock_ne (by rw [running]; rfl)))
      fun _ _ => Iff.rfl
  case drained => simpa [log] using inv.drained
  case refused => simp [log, beginOpAdmits, committing]

/-- `end_op` after `commit()`: `committing = 0`, with `log.lock` held for the wakeup. -/
theorem Inv.commitEnd (inv : s.Inv) {t : Fin n} (free : s.logLock = none)
    (ending : s.pc t = .commitEnding) :
    { (s.modifyLog fun log => { log with committing := false }).setPc t .commitWaking with
        logLock := some t }.Inv := by
  have committing := inv.committing_of_committer (t := t) (by rw [ending]; rfl)
  have emptied := inv.committed t ending
  refine
    { counted := ?counted, committers := ?committers, logLockHeld := ?logLockHeld,
      ptLockHeld := ?ptLockHeld, drained := fun done => (by cases done),
      empty := fun _ _ => emptied, committed := fun _ _ => emptied,
      sleepers := fun _ _ => Or.inr ⟨t, rfl, by simp [OpPc.waker]⟩,
      notPanicked := inv.notPanicked }
  case counted =>
    simp only [setPc_store, modifyLog_log, setPc_pc, modifyLog_pc,
      inTransCount_update_of_eq s.pc (p := .commitWaking) (by rw [ending]; rfl)]
    exact inv.counted
  -- the one committer leaves
  case committers =>
    have left := committerCount_update s.pc t .commitWaking
    have one := inv.committers
    rw [ending] at left
    rw [committing] at one
    simp only [OpPc.committer, if_true, if_false, Bool.false_eq_true, add_zero] at left one
    simp only [setPc_pc, modifyLog_pc, setPc_store, modifyLog_log, Bool.false_eq_true, if_false]
    omega
  case logLockHeld =>
    exact held_update inv.logLockHeld (by simp [OpPc.holdsLogLock]) fun u other => by
      simp [free, Ne.symm other]
  case ptLockHeld =>
    exact held_update inv.ptLockHeld
      (iff_of_false (by simp [OpPc.holdsPtLock]) (inv.ptLock_ne (by rw [ending]; rfl)))
      fun _ _ => Iff.rfl

theorem init_inv (start size : Nat) (d : Nat → Block) :
    (init (initlog start size d) : LogSystem n).Inv := by
  have log := initlog_log start size d
  refine ⟨?_, ?_, ?_, ?_, ?_, ?_, ?_, ?_, ?_⟩ <;>
    simp [init, log, inTransCount, committerCount, OpPc.inTrans, OpPc.committer,
      OpPc.holdsLogLock, OpPc.holdsPtLock, OpPc.sleeper]

/-! ### Each event keeps the invariant -/

theorem Inv.step_beginOp (inv : s.Inv) {t : Fin n} (stepped : s.step (.beginOp t) = some s') :
    s'.Inv := by
  simp only [step, Option.ite_none_right_eq_some] at stepped
  obtain ⟨⟨-, free, start⟩, stepped⟩ := stepped
  have outside : (s.pc t).inTrans = false ∧ (s.pc t).committer = false ∧
      (s.pc t).holdsPtLock = false := by
    rcases start with start | start <;> simp [start, OpPc.inTrans, OpPc.committer, OpPc.holdsPtLock]
  obtain ⟨notTrans, notCommitter, notPt⟩ := outside
  split at stepped
  case isTrue admits =>
    cases stepped
    exact inv.admit free admits notTrans notCommitter notPt
  -- refused: the thread goes to sleep on the refusal it just saw, holding log.lock
  case isFalse refused =>
    cases stepped
    exact inv.moved (by rw [notTrans]; rfl) (by rw [notCommitter]; rfl) (by decide)
      (by simp [OpPc.holdsLogLock]) (fun u other => by simp [free, Ne.symm other])
      (iff_of_false (by simp [OpPc.holdsPtLock]) (inv.ptLock_ne notPt)) (fun _ _ => Iff.rfl)
      (fun _ _ => Or.inl (by simpa using refused))

/-- `sleep` hands `log.lock` over for `ptable.lock`. The lock holder was a sleeper, not a
waker, so the log refused every sleeper, and still does. -/
theorem Inv.step_sleepLock (inv : s.Inv) {t : Fin n} (stepped : s.step (.sleepLock t) = some s') :
    s'.Inv := by
  simp only [step, Option.ite_none_right_eq_some, Option.some.injEq] at stepped
  obtain ⟨⟨-, locking, ptFree⟩, rfl⟩ := stepped
  have held : s.logLock = some t := (inv.logLockHeld t).mp (by rw [locking]; rfl)
  have refused : beginOpAdmits s.store.log = false :=
    inv.refused (fun w held' => by rw [held, Option.some.injEq] at held'; subst held'; rw [locking]; rfl)
      (by rw [locking]; rfl)
  exact inv.moved (by rw [locking]; rfl) (by rw [locking]; rfl) (by decide)
    (by simp [OpPc.holdsLogLock]) (fun u other => by simp [held, Ne.symm other])
    (by simp [OpPc.holdsPtLock]) (fun u other => by simp [ptFree, Ne.symm other])
    (fun _ _ => Or.inl refused)

theorem Inv.step_sleepSched (inv : s.Inv) {t : Fin n}
    (stepped : s.step (.sleepSched t) = some s') : s'.Inv := by
  simp only [step, Option.ite_none_right_eq_some, Option.some.injEq] at stepped
  obtain ⟨⟨-, setting⟩, rfl⟩ := stepped
  have held : s.ptLock = some t := (inv.ptLockHeld t).mp (by rw [setting]; rfl)
  have notHeld := inv.logLock_ne (t := t) (by rw [setting]; rfl)
  exact inv.moved (by rw [setting]; rfl) (by rw [setting]; rfl) (by decide)
    (iff_of_false (by simp [OpPc.holdsLogLock]) notHeld) (fun _ _ => Iff.rfl)
    (by simp [OpPc.holdsPtLock]) (fun u other => by simp [held, Ne.symm other])
    (inv.sleepers_update (fun _ => by rw [setting]; rfl) notHeld)

theorem Inv.step_kill (inv : s.Inv) {t : Fin n} (stepped : s.step (.kill t) = some s') :
    s'.Inv := by
  simp only [step, Option.ite_none_right_eq_some, Option.some.injEq] at stepped
  obtain ⟨⟨-, asleep, ptFree⟩, rfl⟩ := stepped
  have notHeld := inv.logLock_ne (t := t) (by rw [asleep]; rfl)
  exact inv.moved (by rw [asleep]; rfl) (by rw [asleep]; rfl) (by decide)
    (iff_of_false (by simp [OpPc.holdsLogLock]) notHeld) (fun _ _ => Iff.rfl)
    (by simp [OpPc.holdsPtLock, ptFree]) (fun _ _ => Iff.rfl)
    (inv.sleepers_update (fun woken => by simp [OpPc.sleeper] at woken) notHeld)

theorem Inv.step_resume (inv : s.Inv) {t : Fin n} (stepped : s.step (.resume t) = some s') :
    s'.Inv := by
  simp only [step, Option.ite_none_right_eq_some, Option.some.injEq] at stepped
  obtain ⟨⟨-, woken, ptFree⟩, rfl⟩ := stepped
  have notHeld := inv.logLock_ne (t := t) (by rw [woken]; rfl)
  exact inv.moved (by rw [woken]; rfl) (by rw [woken]; rfl) (by decide)
    (iff_of_false (by simp [OpPc.holdsLogLock]) notHeld) (fun _ _ => Iff.rfl)
    (by simp [OpPc.holdsPtLock]) (fun u other => by simp [ptFree, Ne.symm other])
    (inv.sleepers_update (fun returning => by simp [OpPc.sleeper] at returning) notHeld)

theorem Inv.step_sleepReturn (inv : s.Inv) {t : Fin n}
    (stepped : s.step (.sleepReturn t) = some s') : s'.Inv := by
  simp only [step, Option.ite_none_right_eq_some, Option.some.injEq] at stepped
  obtain ⟨⟨-, returning⟩, rfl⟩ := stepped
  have held : s.ptLock = some t := (inv.ptLockHeld t).mp (by rw [returning]; rfl)
  have notHeld := inv.logLock_ne (t := t) (by rw [returning]; rfl)
  exact inv.moved (by rw [returning]; rfl) (by rw [returning]; rfl) (by decide)
    (iff_of_false (by simp [OpPc.holdsLogLock]) notHeld) (fun _ _ => Iff.rfl)
    (by simp [OpPc.holdsPtLock]) (fun u other => by simp [held, Ne.symm other])
    (inv.sleepers_update (fun reacquiring => by simp [OpPc.sleeper] at reacquiring) notHeld)

theorem Inv.step_logWrite (inv : s.Inv) {t : Fin n} {blockno : Nat}
    (stepped : s.step (.logWrite t blockno) = some s') : s'.Inv := by
  simp only [step, Option.ite_none_right_eq_some] at stepped
  obtain ⟨⟨-, inOp⟩, stepped⟩ := stepped
  have notHeld := inv.logLock_ne (t := t) (by rw [inOp]; rfl)
  split at stepped
  case h_1 message check =>
    cases stepped
    exact inv.halt (logWriteCheck_ne_committing check)
  case h_2 =>
    cases stepped
    exact inv.moved (by rw [inOp]; rfl) (by rw [inOp]; rfl) (by simp)
      (iff_of_false (by simp [OpPc.holdsLogLock]) notHeld) (fun _ _ => Iff.rfl)
      (iff_of_false (by simp [OpPc.holdsPtLock]) (inv.ptLock_ne (by rw [inOp]; rfl)))
      (fun _ _ => Iff.rfl)
      (inv.sleepers_update (fun writing => by simp [OpPc.sleeper] at writing) notHeld)

theorem Inv.step_logWriteLocked (inv : s.Inv) {t : Fin n}
    (stepped : s.step (.logWriteLocked t) = some s') : s'.Inv := by
  simp only [step] at stepped
  split at stepped
  case h_1 blockno writing =>
    simp only [Option.ite_none_right_eq_some, Option.some.injEq] at stepped
    obtain ⟨⟨-, free⟩, rfl⟩ := stepped
    exact inv.absorb free writing
  case h_2 => cases stepped

theorem Inv.step_endOp (inv : s.Inv) {t : Fin n} (stepped : s.step (.endOp t) = some s') :
    s'.Inv := by
  simp only [step, Option.ite_none_right_eq_some, Option.some.injEq] at stepped
  obtain ⟨⟨-, inOp, free⟩, rfl⟩ := stepped
  exact inv.endOp free inOp

theorem Inv.step_endWakeup (inv : s.Inv) {t : Fin n} (stepped : s.step (.endWakeup t) = some s') :
    s'.Inv := by
  simp only [step, Option.ite_none_right_eq_some, Option.some.injEq] at stepped
  obtain ⟨⟨-, waking, ptFree⟩, rfl⟩ := stepped
  exact inv.wakeAndLeave (by rw [waking]; rfl) ptFree

theorem Inv.step_commit (inv : s.Inv) {t : Fin n} (stepped : s.step (.commit t) = some s') :
    s'.Inv := by
  simp only [step, Option.ite_none_right_eq_some, Option.some.injEq] at stepped
  obtain ⟨⟨-, running⟩, rfl⟩ := stepped
  exact inv.commit running

theorem Inv.step_commitEnd (inv : s.Inv) {t : Fin n} (stepped : s.step (.commitEnd t) = some s') :
    s'.Inv := by
  simp only [step, Option.ite_none_right_eq_some, Option.some.injEq] at stepped
  obtain ⟨⟨-, ending, free⟩, rfl⟩ := stepped
  exact inv.commitEnd free ending

theorem Inv.step_commitWakeup (inv : s.Inv) {t : Fin n}
    (stepped : s.step (.commitWakeup t) = some s') : s'.Inv := by
  simp only [step, Option.ite_none_right_eq_some, Option.some.injEq] at stepped
  obtain ⟨⟨-, waking, ptFree⟩, rfl⟩ := stepped
  exact inv.wakeAndLeave (by rw [waking]; rfl) ptFree

/-- **Every step keeps the invariant.** -/
theorem Inv.step (inv : s.Inv) {e : LogEvent n} (stepped : s.step e = some s') : s'.Inv := by
  cases e with
  | beginOp t => exact inv.step_beginOp stepped
  | sleepLock t => exact inv.step_sleepLock stepped
  | sleepSched t => exact inv.step_sleepSched stepped
  | kill t => exact inv.step_kill stepped
  | resume t => exact inv.step_resume stepped
  | sleepReturn t => exact inv.step_sleepReturn stepped
  | logWrite t blockno => exact inv.step_logWrite stepped
  | logWriteLocked t => exact inv.step_logWriteLocked stepped
  | endOp t => exact inv.step_endOp stepped
  | endWakeup t => exact inv.step_endWakeup stepped
  | commit t => exact inv.step_commit stepped
  | commitEnd t => exact inv.step_commitEnd stepped
  | commitWakeup t => exact inv.step_commitWakeup stepped

theorem Reachable.inv {s : LogSystem n} (reach : s.Reachable) : s.Inv :=
  Lib.Reachable.induction Inv (fun _ ⟨start, size, d, initial⟩ => initial ▸ init_inv start size d)
    (fun _ _ _ inv stepped => inv.step stepped) reach

/-- **Group-commit isolation.** In every reachable state: `outstanding` counts the operations
between `begin_op` and `end_op`; while `committing`, none is outstanding and no thread is inside
one; an idle log has an empty header; `end_op`'s panic is unreachable; and with `log.lock` free,
no thread is `SLEEPING` on `&log` although `begin_op` would now let it in. -/
theorem group_commit_isolation (s : LogSystem n) (reach : s.Reachable) :
    s.store.log.outstanding = inTransCount s.pc ∧
      (s.store.log.committing = true →
        s.store.log.outstanding = 0 ∧ ∀ t, (s.pc t).inTrans = false) ∧
      (s.store.log.outstanding = 0 → s.store.log.committing = false → s.store.log.lh.n = 0) ∧
      s.halted ≠ some "log.committing" ∧
      (s.logLock = none → s.store.log.committing = false →
        (s.store.log.lh.n : Int) + (s.store.log.outstanding + 1) * maxOpBlocks ≤ logSize →
        ∀ t, s.pc t ≠ .beginSleep .asleep) := by
  have inv := reach.inv
  refine ⟨inv.counted, fun committing => ⟨inv.drained committing, ?_⟩, inv.empty, inv.notPanicked, ?_⟩
  · intro t
    cases inside : (s.pc t).inTrans
    · rfl
    · rw [inv.not_committing inside] at committing
      cases committing
  · intro free idle room t asleep
    have refused := inv.refused_of_free free (t := t) (by rw [asleep]; rfl)
    simp [beginOpAdmits, idle, room] at refused

/-- Two threads after `initlog` on a log of 30 blocks at block 2, thread 0 inside an
operation. -/
def oneOpSystem : LogSystem 2 :=
  ((init (initlog 2 30 fun _ _ => 0) : LogSystem 2).modifyLog fun log =>
    { log with outstanding := log.outstanding + 1 }).setPc 0 .inOp

theorem group_commit_isolation_oneOp :
    oneOpSystem.Reachable ∧
      oneOpSystem.store.log.outstanding = inTransCount oneOpSystem.pc ∧
      (oneOpSystem.store.log.committing = true →
        oneOpSystem.store.log.outstanding = 0 ∧ ∀ t, (oneOpSystem.pc t).inTrans = false) ∧
      (oneOpSystem.store.log.outstanding = 0 → oneOpSystem.store.log.committing = false →
        oneOpSystem.store.log.lh.n = 0) ∧
      oneOpSystem.halted ≠ some "log.committing" ∧
      (oneOpSystem.logLock = none → oneOpSystem.store.log.committing = false →
        (oneOpSystem.store.log.lh.n : Int) + (oneOpSystem.store.log.outstanding + 1) * maxOpBlocks ≤
          logSize →
        ∀ t, oneOpSystem.pc t ≠ .beginSleep .asleep) := by
  have log := initlog_log 2 30 fun _ _ => 0
  have reach : oneOpSystem.Reachable := by
    refine Lib.Reachable.step (.beginOp 0) (Lib.Reachable.init ⟨2, 30, fun _ _ => 0, rfl⟩) ?_
    simp [step, init, log, beginOpAdmits, logSize, maxOpBlocks, LogHeader.n, LogHeader.empty,
      oneOpSystem]
  exact ⟨reach, group_commit_isolation oneOpSystem reach⟩

end LogSystem

end Xv6
