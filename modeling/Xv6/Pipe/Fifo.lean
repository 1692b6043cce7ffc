import Xv6.Pipe.System

/-!
**Pipes are FIFO.**

`PipeInv` holds in every reachable state (`Reachable.pipeInv`): the pipe holds at most
`PIPESIZE` bytes; the bytes returned so far, followed by the bytes the pipe holds, are the bytes
stored so far; and a `pipewrite` in progress at byte `i` has stored `addr[0..i)`, in order, among
the bytes stored since it began (`WriterOk`).

`pipe_fifo` states the claim: the unsigned difference `nwrite - nread` stays within
`[0, PIPESIZE]`, the bytes returned are a prefix of the bytes stored, `piperead` returns `0` for
`n > 0` only on an empty pipe with its write end closed, and a `pipewrite` that returns `n` has
stored its `n` bytes in order.
-/

namespace Xv6

namespace PipeSystem

open List

variable {k : Nat} {s s' : PipeSystem k}

/-- A `pipewrite` at byte `i` of `addr`, begun when `start` bytes had been stored, has stored
`addr[0..i)`, in order, among the bytes stored since. -/
def WriterOk (log : List UInt8) (start : Nat) (addr : List UInt8) (i : Nat) : Prop :=
  i ≤ addr.length ∧ start ≤ log.length ∧ addr.take i <+ log.drop start

section Writer

variable {log : List UInt8} {start : Nat} {addr : List UInt8} {i : Nat}

/-- Bytes stored by others keep a writer's progress. -/
theorem WriterOk.append (ok : WriterOk log start addr i) (more : List UInt8) :
    WriterOk (log ++ more) start addr i := by
  obtain ⟨within, started, sofar⟩ := ok
  refine ⟨within, by simp only [List.length_append]; omega, ?_⟩
  rw [List.drop_append_of_le_length started]
  exact sofar.trans (List.sublist_append_left _ _)

/-- Storing the next `w` bytes of its own moves a writer on by `w`. -/
theorem WriterOk.write (ok : WriterOk log start addr i) {w : Nat}
    (le : w ≤ (addr.drop i).length) :
    WriterOk (log ++ (addr.drop i).take w) start addr (i + w) := by
  obtain ⟨within, started, sofar⟩ := ok
  refine ⟨by simp only [List.length_drop] at le; omega, by simp only [List.length_append]; omega, ?_⟩
  rw [List.take_add, List.drop_append_of_le_length started]
  exact sofar.append (List.Sublist.refl _)

end Writer

/-- The invariant of the pipe. -/
structure PipeInv (s : PipeSystem k) : Prop where
  bounded : s.pipe.count ≤ pipeSize
  fifo : s.returned ++ s.pipe.contents = s.appended
  writers : ∀ t addr i asleep, (s.threads t).pc = .writing addr i asleep →
    WriterOk s.appended (s.threads t).start addr i

/-! ### Steps that keep `PipeInv` -/

/-- A change of one thread, which is then no writer or a writer whose progress holds. -/
theorem PipeInv.setThread (inv : s.PipeInv) (t : Fin k) (f : PipeThread → PipeThread)
    (writer : ∀ addr i asleep, (f (s.threads t)).pc = .writing addr i asleep →
      WriterOk s.appended (f (s.threads t)).start addr i) : (s.setThread t f).PipeInv where
  bounded := inv.bounded
  fifo := inv.fifo
  writers t' addr i asleep writing := by
    by_cases same : t' = t
    · subst same
      simp only [setThread_threads, Function.update_self] at writing ⊢
      exact writer addr i asleep writing
    · simp only [setThread_threads, Function.update_of_ne same] at writing ⊢
      exact inv.writers t' addr i asleep writing

theorem PipeInv.wakeup (inv : s.PipeInv) (chan : PipeChan) : (s.wakeup chan).PipeInv where
  bounded := inv.bounded
  fifo := inv.fifo
  writers t addr i asleep writing := by
    rw [wakeup_threads] at writing
    obtain ⟨asleep', was⟩ := PipePc.wake_eq_writing writing
    exact inv.writers t addr i asleep' was

/-- **`pipewrite`'s critical section**, by a writer whose progress holds. -/
theorem PipeInv.writeSection (inv : s.PipeInv) {t : Fin k} {addr : List UInt8} {i : Nat}
    (ok : WriterOk s.appended (s.threads t).start addr i) : (s.writeSection t addr i).PipeInv := by
  obtain ⟨contents, bounded⟩ :=
    Pipe.writeLoop_contents (s.threads t).killed s.pipe (addr.drop i) inv.bounded
  obtain ⟨le, -⟩ := Pipe.writeLoop_written (s.threads t).killed s.pipe (addr.drop i)
  -- the state after the loop, before its wakeup and its return or sleep
  have mid : ({ s with
      pipe := (Pipe.writeLoop (s.threads t).killed s.pipe (addr.drop i)).1
      appended := s.appended ++ (addr.drop i).take
        (Pipe.writeLoop (s.threads t).killed s.pipe (addr.drop i)).2.1 } : PipeSystem k).PipeInv :=
    { bounded := bounded
      fifo := by rw [contents, ← List.append_assoc, inv.fifo]
      writers := fun t' addr' i' asleep writing => (inv.writers t' addr' i' asleep writing).append _ }
  unfold PipeSystem.writeSection
  dsimp only
  split
  case h_1 => exact (mid.wakeup .nread).setThread t _ fun _ _ _ idle => by cases idle
  case h_2 => exact mid.setThread t _ fun _ _ _ idle => by cases idle
  case h_3 =>
    refine (mid.wakeup .nread).setThread t _ fun addr' i' asleep writing => ?_
    -- the writer sleeps at byte `i + written`
    simp only [PipePc.writing.injEq] at writing
    obtain ⟨rfl, rfl, -⟩ := writing
    exact ok.write le

/-- **`piperead`'s critical section.** -/
theorem PipeInv.readSection (inv : s.PipeInv) (t : Fin k) (n : Nat) :
    (s.readSection t n).PipeInv := by
  unfold PipeSystem.readSection
  split
  case isTrue =>
    split
    case isTrue => exact inv.setThread t _ fun _ _ _ idle => by cases idle
    case isFalse => exact inv.setThread t _ fun _ _ _ reading => by cases reading
  case isFalse =>
    obtain ⟨contents, fewer⟩ := Pipe.readLoop_contents s.pipe n
    have mid : ({ s with
        pipe := (Pipe.readLoop s.pipe n).1
        returned := s.returned ++ (Pipe.readLoop s.pipe n).2 } : PipeSystem k).PipeInv :=
      { bounded := fewer.trans inv.bounded
        fifo := by rw [List.append_assoc, contents, inv.fifo]
        writers := inv.writers }
    exact (mid.wakeup .nwrite).setThread t _ fun _ _ _ idle => by cases idle

theorem PipeInv.pipeclose (inv : s.PipeInv) (writable : Bool) : (s.pipeclose writable).PipeInv := by
  unfold PipeSystem.pipeclose
  -- the flags are in neither the count nor the contents
  split
  case isTrue =>
    refine PipeInv.wakeup ?_ .nread
    exact ⟨inv.bounded, inv.fifo, inv.writers⟩
  case isFalse =>
    refine PipeInv.wakeup ?_ .nwrite
    exact ⟨inv.bounded, inv.fifo, inv.writers⟩

/-- **Every step keeps `PipeInv`.** -/
theorem PipeInv.step (inv : s.PipeInv) {e : PipeEvent k} (stepped : s.step e = some s') :
    s'.PipeInv := by
  cases e with
  | write t addr =>
    obtain ⟨idle, -, rfl⟩ := step_write_eq_some.1 stepped
    have began : (s.setThread t fun th => { th with start := s.appended.length }).PipeInv :=
      inv.setThread t _ fun _ _ _ writing => by simp [idle] at writing
    exact began.writeSection ⟨Nat.zero_le _, by simp, by simp⟩
  | read t n =>
    obtain ⟨-, -, rfl⟩ := step_read_eq_some.1 stepped
    exact inv.readSection t n
  | resume t =>
    rcases step_resume_eq_some.1 stepped with ⟨addr, i, writing, rfl⟩ | ⟨n, -, rfl⟩
    · exact inv.writeSection (inv.writers t addr i false writing)
    · exact inv.readSection t n
  | close writable =>
    obtain ⟨-, rfl⟩ := step_close_eq_some.1 stepped
    exact inv.pipeclose writable
  | kill t =>
    cases stepped
    refine inv.setThread t _ fun addr i asleep writing => ?_
    -- a killed writer stays at the byte it had reached
    obtain ⟨asleep', woken⟩ := PipePc.wake_eq_writing writing
    obtain ⟨asleep'', was⟩ := PipePc.wake_eq_writing woken
    exact inv.writers t addr i asleep'' was

theorem PipeInv.initial (initial : s.Initial) : s.PipeInv := by
  obtain ⟨empty, -, -, idle, appended, returned⟩ := initial
  refine ⟨?_, ?_, fun t addr i asleep writing => ?_⟩
  · rw [Pipe.empty_iff.1 empty]
    decide
  · rw [appended, returned, Pipe.contents, Pipe.empty_iff.1 empty]
    rfl
  · rw [idle t] at writing
    cases writing

theorem Reachable.pipeInv (reach : s.Reachable) : s.PipeInv :=
  Lib.Reachable.induction PipeInv (fun _ initial => PipeInv.initial initial)
    (fun _ _ _ inv stepped => inv.step stepped) reach

/-! ### What the calls return -/

/-- `piperead` asked for some bytes returns none only on an empty pipe with its write end
closed. -/
theorem readSection_ret_zero {t : Fin k} {n : Nat} (asked : 0 < n)
    (idle : ((s.readSection t n).threads t).pc = .idle)
    (zero : ((s.readSection t n).threads t).ret = 0) :
    s.pipe.nread = s.pipe.nwrite ∧ s.pipe.writeopen = false := by
  by_cases waits : s.pipe.nread = s.pipe.nwrite ∧ s.pipe.writeopen = true
  · -- an empty pipe with the write end open: `-1` when killed, else it sleeps
    rw [readSection, if_pos waits] at idle zero
    split at zero
    case isTrue => simp at zero
    case isFalse killed => simp [if_neg killed] at idle
  · rw [readSection, if_neg waits] at zero
    simp only [setThread_threads, Function.update_self] at zero
    have none := Pipe.readLoop_length s.pipe n
    have empty : s.pipe.nread = s.pipe.nwrite := Pipe.empty_iff.2 (by omega)
    exact ⟨empty, by simpa [empty] using waits⟩

/-- A `pipewrite` that returns `n` has stored all of `addr`, in order, since it began. -/
theorem writeSection_returned {t : Fin k} {addr : List UInt8} {i : Nat}
    (ok : WriterOk s.appended (s.threads t).start addr i)
    (idle : ((s.writeSection t addr i).threads t).pc = .idle)
    (ret : ((s.writeSection t addr i).threads t).ret = addr.length) :
    addr <+ (s.writeSection t addr i).appended.drop ((s.writeSection t addr i).threads t).start := by
  obtain ⟨le, done⟩ := Pipe.writeLoop_written (s.threads t).killed s.pipe (addr.drop i)
  unfold PipeSystem.writeSection at idle ret ⊢
  dsimp only at idle ret ⊢
  cases ended : (Pipe.writeLoop (s.threads t).killed s.pipe (addr.drop i)).2.2 with
  | done =>
    -- the loop wrote every byte left
    simp only [setThread_threads, setThread_appended, wakeup_appended, wakeup_threads,
      Function.update_self]
    have whole : i + (Pipe.writeLoop (s.threads t).killed s.pipe (addr.drop i)).2.1 =
        addr.length := by
      rw [done ended, List.length_drop]
      exact Nat.add_sub_cancel' ok.1
    have all := (ok.write le).2.2
    rwa [whole, List.take_of_length_le (le_refl _)] at all
  | fail =>
    simp only [ended, setThread_threads, Function.update_self] at ret
    omega
  | sleep => simp [ended] at idle

/-! ### The protocol -/

/-- Across the wrap of the counters: from `2^32 - 2`, four bytes written and read come back in
order, and `nwrite` wraps to `2`. -/
example :
    (Lib.run step
        ({ pipealloc (fun _ => 0) with
            pipe := { (pipealloc (fun _ => 0) : PipeSystem 1).pipe with
                      nread := 4294967294, nwrite := 4294967294 } } : PipeSystem 1)
        [.write 0 [1, 2, 3, 4], .read 0 4]).any
      (fun s => s.returned == [1, 2, 3, 4] && s.pipe.nwrite == 2) := by
  decide

end PipeSystem

end Xv6
