import Mathlib.Tactic.Basic

/-!
**The phases of `sleep`.**

`sleep(chan, lk)` for a lock `lk` other than `ptable.lock` (as in `begin_op`, `pipewrite` and
`piperead`) takes `ptable.lock` before it releases `lk`, marks the process `SLEEPING` on `chan`
and switches to the scheduler, which releases `ptable.lock`. `wakeup1` (or `kill`) makes it
`RUNNABLE`; the scheduler takes `ptable.lock` to switch back to it; `sleep` then clears `chan`,
releases `ptable.lock` and reacquires `lk`. `SleepPhase` names the points between those atomic
steps; each model that sleeps on a lock of its own embeds it in its program counter.
-/

namespace Xv6

/-- Where a thread is inside `sleep(chan, lk)`, for `lk` other than `ptable.lock`. -/
inductive SleepPhase
  /-- holds `lk`, acquiring `ptable.lock` -/
  | locking
  /-- holds `ptable.lock`, `lk` released, about to mark itself `SLEEPING` and call `sched` -/
  | setting
  /-- `SLEEPING` on `chan` -/
  | asleep
  /-- made `RUNNABLE` by `wakeup1` or `kill`, not yet rescheduled -/
  | woken
  /-- switched back to by the scheduler: holds `ptable.lock`, about to clear `chan` -/
  | returning
  /-- released `ptable.lock`, acquiring `lk` -/
  | reacquiring
  deriving DecidableEq, Repr

/-- `wakeup1` on the thread's channel: `SLEEPING` becomes `RUNNABLE`. -/
def SleepPhase.wake : SleepPhase → SleepPhase
  | .asleep => .woken
  | phase => phase

@[simp] theorem SleepPhase.wake_asleep : SleepPhase.asleep.wake = .woken := rfl

theorem SleepPhase.wake_of_ne {phase : SleepPhase} (awake : phase ≠ .asleep) :
    phase.wake = phase := by
  cases phase <;> first | rfl | exact absurd rfl awake

theorem SleepPhase.wake_ne_asleep (phase : SleepPhase) : phase.wake ≠ .asleep := by
  cases phase <;> simp [SleepPhase.wake]

end Xv6
