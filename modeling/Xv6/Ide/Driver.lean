import Mathlib.Data.Fintype.Card
import Xv6.Lib.Linked
import Xv6.Lib.Transition

/-!
**The IDE driver: `iderw`, `ideintr` and `idequeue`.**

Processes read and write buffers through `bread` and `bwrite`, which call `iderw`; the disk
interrupt runs `ideintr`. Each `idelock` critical section is one step: `iderw` from `acquire`
to its first `sleep`, which gives up the lock; a woken `iderw` takes the lock again in a later
step (`resume`) and tests its buffer once more; `ideintr` whole. A process calls `iderw(b)`
holding `b`'s sleep-lock, so no other process is in `iderw` on `b`, and the flags of `b` change
outside the driver (`bget` clears them, `log_write` sets `B_DIRTY`) only while no process is in
`iderw` on it.

`idequeue` and the `qnext` field of each buffer are the pointers of the source: the loop of
`iderw` that walks them to the end is `Lib.tailPlace`, with one step for each buffer at most; a
state where it would not end is a panic of the model. The disk is the buffer of the last
`idestart` that no interrupt has completed yet. Two fields are ghosts: `enqueued`, every buffer
appended to `idequeue`, in order; `completed`, every buffer `ideintr` removed, in order. A
process in `iderw` keeps its place in `enqueued` (`ticket`).
-/

namespace Xv6

/-- `B_VALID` and `B_DIRTY` of a buffer's `flags`, the bits the driver reads and writes. -/
structure BufFlags where
  valid : Bool
  dirty : Bool
  deriving DecidableEq, Repr

/-- `(b->flags & (B_VALID|B_DIRTY)) == B_VALID`: the buffer holds the disk's data and has none
to write. -/
def BufFlags.synced (flags : BufFlags) : Bool := flags.valid && !flags.dirty

/-- Where a process is in `iderw`. -/
inductive IdePc (n : Nat)
  /-- outside `iderw` -/
  | idle
  /-- in `iderw(b)`, asleep on `b`; (ghost) `b` is entry `ticket` of `enqueued` -/
  | sleeping (b : Fin n) (ticket : Nat)
  /-- in `iderw(b)`, woken, to take `idelock` and test `b` again -/
  | woken (b : Fin n) (ticket : Nat)
  deriving DecidableEq, Repr

/-- The buffer of a process in `iderw`, and its place in `enqueued`. -/
def IdePc.flight {n : Nat} : IdePc n → Option (Fin n × Nat)
  | .idle => none
  | .sleeping b t => some (b, t)
  | .woken b t => some (b, t)

/-- `wakeup(b)` seen from one process. -/
def IdePc.wake {n : Nat} (b : Fin n) : IdePc n → IdePc n
  | .sleeping c t => if c = b then .woken c t else .sleeping c t
  | pc => pc

@[simp] theorem IdePc.flight_wake {n : Nat} (b : Fin n) (pc : IdePc n) :
    (pc.wake b).flight = pc.flight := by
  cases pc with
  | idle => rfl
  | sleeping c t => by_cases same : c = b <;> simp [IdePc.wake, IdePc.flight, same]
  | woken c t => rfl

/-- After `wakeup(b)`, a process still asleep sleeps on another buffer. -/
theorem IdePc.wake_eq_sleeping {n : Nat} {b c : Fin n} {t : Nat} {pc : IdePc n}
    (asleep : pc.wake b = .sleeping c t) : pc = .sleeping c t ∧ c ≠ b := by
  cases pc with
  | idle => cases asleep
  | sleeping d u =>
    by_cases same : d = b
    · simp [IdePc.wake, same] at asleep
    · simp only [IdePc.wake, same, if_false, IdePc.sleeping.injEq] at asleep
      obtain ⟨rfl, rfl⟩ := asleep
      exact ⟨rfl, same⟩
  | woken d u => cases asleep

/-- After `wakeup(b)`, a woken process was woken before, or slept on `b`. -/
theorem IdePc.wake_eq_woken {n : Nat} {b c : Fin n} {t : Nat} {pc : IdePc n}
    (awake : pc.wake b = .woken c t) : pc = .woken c t ∨ (pc = .sleeping c t ∧ c = b) := by
  cases pc with
  | idle => cases awake
  | sleeping d u =>
    by_cases same : d = b
    · subst same
      simp only [IdePc.wake, if_true, IdePc.woken.injEq] at awake
      obtain ⟨rfl, rfl⟩ := awake
      exact .inr ⟨rfl, rfl⟩
    · simp [IdePc.wake, same] at awake
  | woken d u => exact .inl awake

/-- `n` buffers, the driver's queue, the disk, and `k` processes. -/
structure IdeSystem (n k : Nat) where
  flags : Fin n → BufFlags
  qnext : Fin n → Option (Fin n)
  idequeue : Option (Fin n)
  /-- the buffer the disk works on: the last `idestart` not yet completed -/
  disk : Option (Fin n)
  procs : Fin k → IdePc n
  /-- (ghost) every buffer appended to `idequeue`, in order -/
  enqueued : List (Fin n)
  /-- (ghost) every buffer `ideintr` removed, in order -/
  completed : List (Fin n)
  halted : Option String

/-- The steps. -/
inductive IdeEvent (n k : Nat)
  /-- `bread`: `if((b->flags & B_VALID) == 0) iderw(b)` -/
  | bread (p : Fin k) (b : Fin n)
  /-- `bwrite`: `b->flags |= B_DIRTY; iderw(b)` -/
  | bwrite (p : Fin k) (b : Fin n)
  /-- the disk interrupt -/
  | intr
  /-- a woken `iderw` takes `idelock` again -/
  | resume (p : Fin k)
  /-- the holder of `b`'s sleep-lock sets its flags outside the driver (`bget`, `log_write`) -/
  | setFlags (b : Fin n) (flags : BufFlags)

namespace IdeSystem

variable {n k : Nat}

/-- Some process is in `iderw` on `b`: it holds `b`'s sleep-lock. -/
def busy (s : IdeSystem n k) (b : Fin n) : Bool :=
  (List.finRange k).any fun p => ((s.procs p).flight.map Prod.fst) == some b

/-- `iderw(b)` by process `p`, to its first `sleep`: the check of the flags; then, under
`idelock`, `b->qnext = 0`, the loop to the end of `idequeue`, `*pp = b`, `idestart(b)` when `b`
is first, and the `sleep` of the `while` loop, whose test fails: no one but `ideintr` makes the
flags of a queued buffer `B_VALID` alone. -/
def iderw (s : IdeSystem n k) (p : Fin k) (b : Fin n) : IdeSystem n k :=
  if (s.flags b).synced then { s with halted := some "iderw: nothing to do" }
  else
    let qnext := Function.update s.qnext b none
    match Lib.tailPlace s.idequeue qnext n none with
    | none => { s with halted := some "iderw: idequeue does not end" }
    | some place =>
      let linked := Lib.setPlace s.idequeue qnext (some b) place
      { s with
        idequeue := linked.1
        qnext := linked.2
        disk := if linked.1 = some b then some b else s.disk
        procs := Function.update s.procs p (.sleeping b s.enqueued.length)
        enqueued := s.enqueued ++ [b] }

/-- `ideintr()`: the first buffer of `idequeue` is done. It leaves the queue, becomes `B_VALID`
with `B_DIRTY` cleared, its sleeper wakes, and the disk starts on the next buffer, if any. -/
def ideintr (s : IdeSystem n k) : IdeSystem n k :=
  match s.idequeue with
  | none => s
  | some b =>
    { s with
      idequeue := s.qnext b
      flags := Function.update s.flags b { valid := true, dirty := false }
      procs := fun p => (s.procs p).wake b
      disk := s.qnext b
      completed := s.completed ++ [b] }

/-- A woken `iderw(b)` with `idelock` again: the test of the `while` loop, then `release` and
return, or `sleep` once more. -/
def resume (s : IdeSystem n k) (p : Fin k) (b : Fin n) (t : Nat) : IdeSystem n k :=
  { s with procs := Function.update s.procs p (if (s.flags b).synced then .idle else .sleeping b t) }

/-- One step, if it is enabled. -/
def step (s : IdeSystem n k) : IdeEvent n k → Option (IdeSystem n k)
  | .bread p b =>
    if s.halted = none ∧ s.procs p = .idle ∧ s.busy b = false then
      some (if (s.flags b).valid then s else s.iderw p b)
    else none
  | .bwrite p b =>
    if s.halted = none ∧ s.procs p = .idle ∧ s.busy b = false then
      some ({ s with flags := Function.update s.flags b { s.flags b with dirty := true } }.iderw p b)
    else none
  | .intr => if s.halted = none then some s.ideintr else none
  | .resume p =>
    match s.halted, s.procs p with
    | none, .woken b t => some (s.resume p b t)
    | _, _ => none
  | .setFlags b flags =>
    if s.halted = none ∧ s.busy b = false then
      some { s with flags := Function.update s.flags b flags }
    else none

/-- No buffer queued, no process in `iderw`. -/
def Initial (s : IdeSystem n k) : Prop :=
  s.idequeue = none ∧ s.disk = none ∧ (∀ p, s.procs p = .idle) ∧ s.enqueued = [] ∧
    s.completed = [] ∧ s.halted = none

def Reachable (s : IdeSystem n k) : Prop := Lib.Reachable Initial step s

/-- The driver after `ideinit`, with the buffers' flags and pointers as `binit` leaves them. -/
def boot (flags : Fin n → BufFlags) (qnext : Fin n → Option (Fin n)) : IdeSystem n k where
  flags := flags
  qnext := qnext
  idequeue := none
  disk := none
  procs _ := .idle
  enqueued := []
  completed := []
  halted := none

theorem boot_initial (flags : Fin n → BufFlags) (qnext : Fin n → Option (Fin n)) :
    (boot flags qnext : IdeSystem n k).Initial :=
  ⟨rfl, rfl, fun _ => rfl, rfl, rfl, rfl⟩

/-! ### What a step can do -/

section Steps

variable {s t : IdeSystem n k} {p : Fin k} {b : Fin n}

theorem busy_eq_false : s.busy b = false ↔ ∀ q c t, (s.procs q).flight = some (c, t) → c ≠ b := by
  simp only [busy, List.any_eq_false, List.mem_finRange, true_implies, beq_iff_eq]
  constructor
  · rintro free q c t flying rfl
    exact free q (by rw [flying]; rfl)
  · intro free q here
    cases flying : (s.procs q).flight with
    | none => rw [flying] at here; cases here
    | some ct =>
      rw [flying] at here
      exact free q ct.1 ct.2 flying (Option.some.inj here)

/-- **`iderw` on a linked queue.** When `idequeue` links a list `l` without `b` and `b` is not in
sync, the loop finds the end of `l` within its length, at most `n`, and `b` is linked last. -/
theorem iderw_of_linked {l : List (Fin n)} (linked : Lib.Linked s.qnext s.idequeue l)
    (fresh : b ∉ l) (unsynced : (s.flags b).synced = false) :
    s.iderw p b =
      { s with
        idequeue := s.idequeue.or (some b)
        qnext := (Lib.setPlace s.idequeue (Function.update s.qnext b none) (some b) l.getLast?).2
        disk := if s.idequeue.or (some b) = some b then some b else s.disk
        procs := Function.update s.procs p (.sleeping b s.enqueued.length)
        enqueued := s.enqueued ++ [b] } := by
  -- clearing `b->qnext` leaves the queue as it was, since `b` is not on it
  have cleared := linked.update_of_not_mem fresh none
  have enough : l.length ≤ n := by simpa using linked.nodup.length_le_card
  simp only [iderw, unsynced, Bool.false_eq_true, if_false, cleared.tailPlace enough,
    cleared.setPlace_fst]

@[simp] theorem iderw_completed : (s.iderw p b).completed = s.completed := by
  unfold iderw
  split
  · rfl
  · dsimp only
    split <;> rfl

theorem ideintr_of_head (head : s.idequeue = some b) :
    s.ideintr =
      { s with
        idequeue := s.qnext b
        flags := Function.update s.flags b { valid := true, dirty := false }
        procs := fun p => (s.procs p).wake b
        disk := s.qnext b
        completed := s.completed ++ [b] } := by
  rw [ideintr, head]

theorem ideintr_of_empty (empty : s.idequeue = none) : s.ideintr = s := by
  rw [ideintr, empty]

theorem resume_of_synced {t : Nat} (synced : (s.flags b).synced = true) :
    s.resume p b t = { s with procs := Function.update s.procs p .idle } := by
  rw [resume, if_pos synced]

/-- What a step does, event by event. -/
inductive Move (s : IdeSystem n k) : IdeSystem n k → Prop
  /-- `bread` of a valid buffer returns at once -/
  | same : Move s s
  /-- `iderw(b)` from `bread` or `bwrite`, on flags `flags` -/
  | iderw {p : Fin k} {b : Fin n} (flags : BufFlags) (idle : s.procs p = .idle)
      (free : s.busy b = false) (unsynced : flags.synced = false) :
      Move s ({ s with flags := Function.update s.flags b flags }.iderw p b)
  | ideintr : Move s s.ideintr
  | resume {p : Fin k} {b : Fin n} {t : Nat} (woken : s.procs p = .woken b t) :
      Move s (s.resume p b t)
  | setFlags {b : Fin n} (flags : BufFlags) (free : s.busy b = false) :
      Move s { s with flags := Function.update s.flags b flags }

/-- **What a step can do**: from a state that has not panicked, one of the moves. -/
theorem move_of_step {e : IdeEvent n k} (stepped : s.step e = some t) :
    s.halted = none ∧ s.Move t := by
  cases e with
  | bread p b =>
    simp only [step] at stepped
    split at stepped
    case isTrue enabled =>
      obtain ⟨running, idle, free⟩ := enabled
      cases stepped
      refine ⟨running, ?_⟩
      split
      case isTrue => exact .same
      case isFalse invalid =>
        -- `iderw` on the buffer's own flags, which `bread` found not `B_VALID`
        have same : { s with flags := Function.update s.flags b (s.flags b) } = s := by
          rw [Function.update_eq_self]
        have move := Move.iderw (s := s) (s.flags b) idle free (by simp [BufFlags.synced, invalid])
        rwa [same] at move
    case isFalse => cases stepped
  | bwrite p b =>
    simp only [step] at stepped
    split at stepped
    case isTrue enabled =>
      obtain ⟨running, idle, free⟩ := enabled
      cases stepped
      exact ⟨running, .iderw _ idle free (by simp [BufFlags.synced])⟩
    case isFalse => cases stepped
  | intr =>
    simp only [step] at stepped
    split at stepped
    case isTrue running =>
      cases stepped
      exact ⟨running, .ideintr⟩
    case isFalse => cases stepped
  | resume p =>
    simp only [step] at stepped
    split at stepped
    case h_1 b t running woken =>
      cases stepped
      exact ⟨running, .resume woken⟩
    case h_2 => cases stepped
  | setFlags b flags =>
    simp only [step] at stepped
    split at stepped
    case isTrue enabled =>
      cases stepped
      exact ⟨enabled.1, .setFlags flags enabled.2⟩
    case isFalse => cases stepped

end Steps

end IdeSystem

end Xv6
