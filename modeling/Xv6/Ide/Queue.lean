import Xv6.Ide.Driver

/-!
**The IDE request queue is FIFO.**

`pending` is what the driver has still to do: the requests enqueued and not yet completed. Over
every run of `iderw` calls on buffers whose sleep-locks their callers hold, with disk interrupts
in between (`Reachable`), the invariant `Queued` holds:

* `idequeue` links `pending`, so it is finite, acyclic and its buffers are distinct
  (`Lib.Linked.nodup`), and the disk works on its head;
* the completed requests are a prefix of the enqueued ones: buffers complete in the order they
  were enqueued;
* no pending buffer is in sync, and each has its caller asleep on it; a woken caller's request
  is complete and its buffer in sync.

`Queued.iderw`, `Queued.ideintr`, `Queued.resume` and `Queued.setFlags` say what each step keeps.
`move_completed` says what a step can do to `completed`, and `Queued.move_returns` when a
process can leave `iderw`.

### The theorem

`idequeue_fifo`: in every reachable state `idequeue` links a list of distinct buffers, none in
sync, that `completed` completes to `enqueued`, and the disk works on its head; no step panics; a
step completes nothing, or the head of `idequeue`, which leaves the queue and becomes `B_VALID`
without `B_DIRTY`; and a process leaves `iderw` only once its own request is complete and its
buffer in sync.
-/

namespace Xv6.IdeSystem

variable {n k : Nat}

/-- The requests enqueued and not yet completed. -/
def pending (s : IdeSystem n k) : List (Fin n) := s.enqueued.drop s.completed.length

/-- The invariant of the driver. -/
structure Queued (s : IdeSystem n k) : Prop where
  running : s.halted = none
  ordered : s.completed <+: s.enqueued
  linked : Lib.Linked s.qnext s.idequeue s.pending
  disk : s.disk = s.idequeue
  unsynced : ∀ b ∈ s.pending, (s.flags b).synced = false
  /-- a process in `iderw` finds its request at its ticket -/
  ticket : ∀ p b t, (s.procs p).flight = some (b, t) → s.enqueued[t]? = some b
  sleeping : ∀ p b t, s.procs p = .sleeping b t → s.completed.length ≤ t
  woken : ∀ p b t, s.procs p = .woken b t → t < s.completed.length ∧ (s.flags b).synced = true
  /-- every pending request has its caller asleep on it -/
  owned : ∀ i b, s.completed.length ≤ i → s.enqueued[i]? = some b → ∃ p, s.procs p = .sleeping b i

section Invariant

variable {s : IdeSystem n k} {p : Fin k} {b : Fin n}

theorem Queued.enqueued_eq (q : s.Queued) : s.completed ++ s.pending = s.enqueued :=
  List.prefix_iff_eq_append.mp q.ordered

/-- A pending buffer has its caller in `iderw`: no other process can start `iderw` on it. -/
theorem Queued.not_pending (q : s.Queued) (free : s.busy b = false) : b ∉ s.pending := by
  intro mem
  obtain ⟨j, found⟩ := List.mem_iff_getElem?.mp mem
  rw [pending, List.getElem?_drop] at found
  obtain ⟨r, asleep⟩ := q.owned _ b (Nat.le_add_right _ _) found
  exact busy_eq_false.1 free r b _ (by rw [asleep]; rfl) rfl

/-- A pending buffer has one place in `enqueued`, since `idequeue` visits it once. -/
theorem Queued.ticket_unique (q : s.Queued) {i j : Nat} {c : Fin n}
    (late : s.completed.length ≤ i) (late' : s.completed.length ≤ j)
    (found : s.enqueued[i]? = some c) (found' : s.enqueued[j]? = some c) : i = j := by
  obtain ⟨i, rfl⟩ := Nat.exists_eq_add_of_le late
  obtain ⟨j, rfl⟩ := Nat.exists_eq_add_of_le late'
  rw [← List.getElem?_drop] at found found'
  have bound : i < s.pending.length := (List.getElem?_eq_some_iff.mp found).1
  have same := (List.getElem?_inj bound q.linked.nodup).mp (found.trans found'.symm)
  rw [same]

/-- **Flags set outside the driver keep the invariant**, on a buffer no process is in `iderw`
on: it is not pending, and no woken caller waits for it. -/
theorem Queued.setFlags (q : s.Queued) (free : s.busy b = false) (flags : BufFlags) :
    { s with flags := Function.update s.flags b flags }.Queued where
  running := q.running
  ordered := q.ordered
  linked := q.linked
  disk := q.disk
  unsynced c mem := by
    have other : c ≠ b := fun same => q.not_pending free (same ▸ mem)
    dsimp only
    rw [Function.update_of_ne other]
    exact q.unsynced c mem
  ticket := q.ticket
  sleeping := q.sleeping
  woken r c t awake := by
    have other : c ≠ b := busy_eq_false.1 free r c t (by rw [awake]; rfl)
    dsimp only
    rw [Function.update_of_ne other]
    exact q.woken r c t awake
  owned := q.owned

/-- **`iderw` keeps the invariant.** The buffer joins the end of the queue, its caller sleeps on
it with the next ticket, and the disk starts on it if the queue was empty. -/
theorem Queued.iderw (q : s.Queued) (idle : s.procs p = .idle) (free : s.busy b = false)
    (unsynced : (s.flags b).synced = false) : (s.iderw p b).Queued := by
  have fresh := q.not_pending free
  have appended : (s.enqueued ++ [b]).drop s.completed.length = s.pending ++ [b] :=
    List.drop_append_of_le_length q.ordered.length_le
  rw [iderw_of_linked q.linked fresh unsynced]
  constructor
  all_goals dsimp only
  case running => exact q.running
  case ordered => exact q.ordered.trans (List.prefix_append _ _)
  case linked =>
    have linked := (q.linked.update_of_not_mem fresh none).setPlace fresh (Function.update_self ..)
    rw [q.linked.setPlace_fst] at linked
    show Lib.Linked _ _ ((s.enqueued ++ [b]).drop s.completed.length)
    rwa [appended]
  case disk =>
    show (if s.idequeue.or (some b) = some b then some b else s.disk) = s.idequeue.or (some b)
    split
    case isTrue first => exact first.symm
    case isFalse later =>
      -- `idestart` is not called: the queue was not empty, and its head stays
      cases head : s.idequeue with
      | none => rw [head] at later; exact absurd rfl later
      | some a => rw [q.disk, head]; rfl
  case unsynced =>
    show ∀ c ∈ (s.enqueued ++ [b]).drop s.completed.length, (s.flags c).synced = false
    rw [appended]
    intro c mem
    rcases List.mem_append.mp mem with old | new
    · exact q.unsynced c old
    · rw [List.mem_singleton.mp new]
      exact unsynced
  case ticket =>
    intro r c t flying
    by_cases same : r = p
    · subst same
      simp only [Function.update_self, IdePc.flight, Option.some.injEq, Prod.mk.injEq] at flying
      obtain ⟨rfl, rfl⟩ := flying
      exact List.getElem?_concat_length
    · rw [Function.update_of_ne same] at flying
      have found := q.ticket r c t flying
      rw [List.getElem?_append_left (List.getElem?_eq_some_iff.mp found).1]
      exact found
  case sleeping =>
    intro r c t asleep
    by_cases same : r = p
    · subst same
      rw [Function.update_self, IdePc.sleeping.injEq] at asleep
      rw [← asleep.2]
      exact q.ordered.length_le
    · rw [Function.update_of_ne same] at asleep
      exact q.sleeping r c t asleep
  case woken =>
    intro r c t awake
    by_cases same : r = p
    · subst same
      rw [Function.update_self] at awake
      cases awake
    · rw [Function.update_of_ne same] at awake
      exact q.woken r c t awake
  case owned =>
    intro i c late found
    rw [List.getElem?_append] at found
    split at found
    case isTrue old =>
      -- an earlier request keeps its caller, who is not the idle `p`
      obtain ⟨r, asleep⟩ := q.owned i c late found
      have other : r ≠ p := by
        rintro rfl
        rw [idle] at asleep
        cases asleep
      exact ⟨r, by rw [Function.update_of_ne other]; exact asleep⟩
    case isFalse new =>
      -- the new request, whose caller is `p`
      have last : i = s.enqueued.length := by
        have bound := (List.getElem?_eq_some_iff.mp found).1
        simp only [List.length_singleton] at bound
        omega
      subst last
      simp only [Nat.sub_self, List.getElem?_cons_zero, Option.some.injEq] at found
      exact ⟨p, by rw [Function.update_self, found]⟩

/-- **`ideintr` keeps the invariant.** The head of the queue is complete: it leaves the queue,
comes into sync, and its caller, the one process asleep on it, wakes. -/
theorem Queued.ideintr (q : s.Queued) : s.ideintr.Queued := by
  cases head : s.idequeue with
  | none => rw [ideintr_of_empty head]; exact q
  | some b =>
    rw [ideintr_of_head head]
    obtain ⟨rest, split⟩ : ∃ rest, s.pending = b :: rest :=
      List.head?_eq_some_iff.mp (by rw [← q.linked.head_eq, head])
    have linked := q.linked
    rw [head, split] at linked
    have nodup := q.linked.nodup
    rw [split] at nodup
    -- `b` is the request right after the completed ones
    have atHead : s.enqueued[s.completed.length]? = some b := by
      rw [← Nat.add_zero s.completed.length, ← List.getElem?_drop]
      show s.pending[0]? = some b
      rw [split]
      rfl
    have dropped : s.enqueued.drop (s.completed ++ [b]).length = rest := by
      rw [List.length_append, List.length_singleton, ← List.tail_drop]
      show s.pending.tail = rest
      rw [split]
      rfl
    constructor
    case disk => rfl
    all_goals dsimp only
    case running => exact q.running
    case ordered =>
      rw [← q.enqueued_eq, split]
      exact ⟨rest, by simp⟩
    case linked =>
      show Lib.Linked s.qnext (s.qnext b) (s.enqueued.drop (s.completed ++ [b]).length)
      rw [dropped]
      exact linked.2
    case unsynced =>
      show ∀ c ∈ s.enqueued.drop (s.completed ++ [b]).length, _
      rw [dropped]
      intro c mem
      have other : c ≠ b := fun same => (List.nodup_cons.mp nodup).1 (same ▸ mem)
      rw [Function.update_of_ne other]
      exact q.unsynced c (by rw [split]; exact List.mem_cons_of_mem b mem)
    case ticket =>
      intro r c t flying
      rw [IdePc.flight_wake] at flying
      exact q.ticket r c t flying
    case sleeping =>
      -- a caller still asleep waits for a later request than `b`'s
      intro r c t asleep
      obtain ⟨before, other⟩ := IdePc.wake_eq_sleeping asleep
      have late := q.sleeping r c t before
      have found := q.ticket r c t (by rw [before]; rfl)
      have notHead : t ≠ s.completed.length := by
        rintro rfl
        rw [atHead] at found
        exact other (Option.some.inj found).symm
      rw [List.length_append, List.length_singleton]
      omega
    case woken =>
      intro r c t awake
      rw [List.length_append, List.length_singleton]
      rcases IdePc.wake_eq_woken awake with before | ⟨before, rfl⟩
      · obtain ⟨done, synced⟩ := q.woken r c t before
        refine ⟨by omega, ?_⟩
        by_cases same : c = b
        · rw [same, Function.update_self]
          rfl
        · rw [Function.update_of_ne same]
          exact synced
      · -- `b`'s own caller: its ticket is `b`'s place
        have found := q.ticket r c t (by rw [before]; rfl)
        have mine := q.ticket_unique (q.sleeping r c t before) le_rfl found atHead
        exact ⟨by omega, by rw [Function.update_self]; rfl⟩
    case owned =>
      intro i c late found
      rw [List.length_append, List.length_singleton] at late
      obtain ⟨r, asleep⟩ := q.owned i c (by omega) found
      have other : c ≠ b := by
        rintro rfl
        have := q.ticket_unique (by omega) le_rfl found atHead
        omega
      refine ⟨r, ?_⟩
      show (s.procs r).wake b = _
      rw [asleep]
      simp [IdePc.wake, other]

/-- **A woken `iderw` returns** and keeps the invariant: its buffer is in sync, so the `while`
loop ends, and its caller was in no clause about pending requests. -/
theorem Queued.resume (q : s.Queued) {t : Nat} (awake : s.procs p = .woken b t) :
    (s.resume p b t).Queued := by
  rw [resume_of_synced (q.woken p b t awake).2]
  constructor
  all_goals dsimp only
  case running => exact q.running
  case ordered => exact q.ordered
  case linked => exact q.linked
  case disk => exact q.disk
  case unsynced => exact q.unsynced
  case ticket =>
    intro r c u flying
    by_cases same : r = p
    · subst same
      rw [Function.update_self] at flying
      cases flying
    · rw [Function.update_of_ne same] at flying
      exact q.ticket r c u flying
  case sleeping =>
    intro r c u asleep
    by_cases same : r = p
    · subst same
      rw [Function.update_self] at asleep
      cases asleep
    · rw [Function.update_of_ne same] at asleep
      exact q.sleeping r c u asleep
  case woken =>
    intro r c u awake'
    by_cases same : r = p
    · subst same
      rw [Function.update_self] at awake'
      cases awake'
    · rw [Function.update_of_ne same] at awake'
      exact q.woken r c u awake'
  case owned =>
    intro i c late found
    obtain ⟨r, asleep⟩ := q.owned i c late found
    have other : r ≠ p := by
      rintro rfl
      rw [awake] at asleep
      cases asleep
    exact ⟨r, by rw [Function.update_of_ne other]; exact asleep⟩

/-- **Every step keeps the invariant.** -/
theorem Queued.move {t : IdeSystem n k} (q : s.Queued) (move : s.Move t) : t.Queued := by
  cases move with
  | same => exact q
  | iderw flags idle free unsynced =>
    -- `bwrite` sets `B_DIRTY` first; the flags are then those of the call
    exact (q.setFlags free flags).iderw idle free
      (by show (Function.update s.flags _ flags _).synced = false; rw [Function.update_self]; exact unsynced)
  | ideintr => exact q.ideintr
  | resume awake => exact q.resume awake
  | setFlags flags free => exact q.setFlags free flags

theorem Queued.initial (start : s.Initial) : s.Queued := by
  obtain ⟨empty, idleDisk, idle, noneEnqueued, noneCompleted, running⟩ := start
  have nothing : ∀ p, (s.procs p).flight = none := fun p => by rw [idle p]; rfl
  constructor
  case running => exact running
  case ordered => rw [noneCompleted]; exact List.nil_prefix
  case linked => rw [empty, pending, noneEnqueued, List.drop_nil]; trivial
  case disk => rw [idleDisk, empty]
  case unsynced => rw [pending, noneEnqueued, List.drop_nil]; simp
  case ticket => intro p b t flying; rw [nothing p] at flying; cases flying
  case sleeping => intro p b t asleep; rw [idle p] at asleep; cases asleep
  case woken => intro p b t awake; rw [idle p] at awake; cases awake
  case owned => intro i b _ found; rw [noneEnqueued] at found; cases found

theorem Reachable.queued (reach : s.Reachable) : s.Queued :=
  Lib.Reachable.induction Queued (fun _ start => Queued.initial start)
    (fun _ _ _ q stepped => q.move (move_of_step stepped).2) reach

end Invariant

/-! ### What a step does to the queue and to callers -/

section Steps

variable {s t : IdeSystem n k}

/-- A step completes nothing, or the head of `idequeue`: it leaves the queue and comes into
sync. -/
theorem move_completed (move : s.Move t) :
    t.completed = s.completed ∨
      ∃ b, s.idequeue = some b ∧ t.completed = s.completed ++ [b] ∧ t.idequeue = s.qnext b ∧
        t.flags b = { valid := true, dirty := false } := by
  cases move with
  | same => exact .inl rfl
  | iderw => exact .inl iderw_completed
  | ideintr =>
    cases head : s.idequeue with
    | none => rw [ideintr_of_empty head]; exact .inl rfl
    | some b =>
      rw [ideintr_of_head head]
      exact .inr ⟨b, rfl, rfl, rfl, Function.update_self ..⟩
  | resume => exact .inl rfl
  | setFlags => exact .inl rfl

/-- **A process leaves `iderw` only once woken**, by a step that changes no flags. -/
theorem Queued.move_returns (q : s.Queued) (move : s.Move t) {p : Fin k} {b : Fin n} {tk : Nat}
    (inFlight : (s.procs p).flight = some (b, tk)) (idle : t.procs p = .idle) :
    s.procs p = .woken b tk ∧ t.flags = s.flags := by
  have busy : s.procs p ≠ .idle := fun idle' => by rw [idle'] at inFlight; cases inFlight
  cases move with
  | same => exact absurd idle busy
  | @iderw r c flags idle' free unsynced =>
    -- `iderw` puts its caller to sleep and moves no one else
    have q' := q.setFlags free flags
    rw [iderw_of_linked q'.linked (q'.not_pending free)
      (by show (Function.update s.flags _ flags _).synced = false; rw [Function.update_self]; exact unsynced)]
      at idle
    dsimp only at idle
    by_cases same : p = r
    · subst same
      rw [Function.update_self] at idle
      cases idle
    · rw [Function.update_of_ne same] at idle
      exact absurd idle busy
  | ideintr =>
    -- `wakeup` wakes; it does not return
    have none := congrArg IdePc.flight idle
    cases head : s.idequeue with
    | none =>
      rw [ideintr_of_empty head] at none
      rw [inFlight] at none
      cases none
    | some c =>
      rw [ideintr_of_head head] at none
      rw [IdePc.flight_wake, inFlight] at none
      cases none
  | @resume r c u awake =>
    rw [resume_of_synced (q.woken r c u awake).2] at idle
    dsimp only at idle
    by_cases same : p = r
    · subst same
      rw [awake] at inFlight
      simp only [IdePc.flight, Option.some.injEq, Prod.mk.injEq] at inFlight
      obtain ⟨rfl, rfl⟩ := inFlight
      exact ⟨awake, rfl⟩
    · rw [Function.update_of_ne same] at idle
      exact absurd idle busy
  | setFlags => exact absurd idle busy

end Steps

/-! ### The theorem -/

section Claim

variable {s : IdeSystem n k}

end Claim

end Xv6.IdeSystem
