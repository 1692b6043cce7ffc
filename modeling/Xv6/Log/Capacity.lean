import Xv6.Log.Group

/-!
**The capacity of the log.**

`begin_op` admits an operation while `lh.n + (outstanding + 1) * MAXOPBLOCKS ≤ LOGSIZE`: it may
reserve all `LOGSIZE` slots. The log region `mkfs` writes has `nlog = LOGSIZE` blocks, a header
and `LOGSIZE - 1` data blocks, and `log_write` panics once `lh.n ≥ log.size - 1`. That check is
made before `log_write` takes `log.lock`.

* `logWrites_last` — a commit of `n > 0` blocks writes the log block `log.start + n`.
* `admitted_ops_panic` — from `initlog` on a log of `LOGSIZE` blocks, three operations admitted
  together, each logging ten distinct blocks, reach the panic "too big a transaction" at the
  thirtieth block.
* `racing_writes_overrun` — the same three operations, with the last two `log_write`s passing
  the check before either takes the lock, log thirty blocks without a panic; the commit then
  writes block `log.start + 30`, the first block after the log.
-/

namespace Xv6

/-- The steps of thread `t` calling `log_write` on each block of `blocks` in turn: the checks,
then the critical section. -/
def LogEvent.writeAll {n : Nat} (t : Fin n) (blocks : List Nat) : List (LogEvent n) :=
  blocks.flatMap fun b => [.logWrite t b, .logWriteLocked t]

/-- The last log block `write_log` writes is `log.start + n`. -/
theorem logWrites_last (m : Storage) (positive : 0 < m.log.lh.n) :
    m.log.start + m.log.lh.n ∈ (logWrites m).map Prod.fst := by
  simp only [logWrites, copyWrites, List.map_map, List.mem_map, List.mem_range,
    Function.comp_apply]
  exact ⟨m.log.lh.n - 1, by omega, by omega⟩

/-- The log that `mkfs` lays out, at block `2` with `nlog = LOGSIZE`, after `initlog` of a
zeroed disk, with three threads. -/
def threeOps : LogSystem 3 := LogSystem.init (initlog 2 logSize fun _ _ => 0)

theorem threeOps_initial : threeOps.Initial := ⟨2, logSize, fun _ _ => 0, rfl⟩

/-- **The admission bound exceeds the log.** Three operations are admitted at `lh.n = 0`
(`0 + 3 * 10 ≤ 30`); they log ten distinct blocks each, and the thirtieth `log_write` finds
`lh.n = 29 = log.size - 1`. -/
theorem admitted_ops_panic :
    (Lib.run LogSystem.step threeOps
        ([.beginOp 0, .beginOp 1, .beginOp 2] ++ LogEvent.writeAll 0 (List.range' 100 10) ++
          LogEvent.writeAll 1 (List.range' 110 10) ++ LogEvent.writeAll 2 (List.range' 120 9) ++
          [.logWrite 2 129])).map LogSystem.halted =
      some (some "too big a transaction") := by
  decide +kernel

/-- **The check races with the update.** With `28` blocks logged, the last `log_write`s of two
operations both pass the check; the header then names `30 = log.size` blocks, and the log blocks
`write_log` writes at the commit reach `log.start + log.size`, past the log. -/
theorem racing_writes_overrun :
    ∃ s : LogSystem 3, s.Reachable ∧ s.halted = none ∧ s.store.log.size = logSize ∧
      s.store.log.lh.n = s.store.log.size ∧
      s.store.log.start + s.store.log.size ∈ (logWrites s.store).map Prod.fst := by
  have ran : ∃ s : LogSystem 3, s.Reachable ∧
      (s.halted = none ∧ s.store.log.size = logSize ∧ s.store.log.lh.n = s.store.log.size) :=
    Lib.Reachable.exists_of_run threeOps_initial
      ([.beginOp 0, .beginOp 1, .beginOp 2] ++ LogEvent.writeAll 0 (List.range' 100 10) ++
        LogEvent.writeAll 1 (List.range' 110 9) ++ LogEvent.writeAll 2 (List.range' 120 9) ++
        [.logWrite 1 119, .logWrite 2 129, .logWriteLocked 1, .logWriteLocked 2])
      (by decide +kernel)
  obtain ⟨s, reach, none, size, full⟩ := ran
  refine ⟨s, reach, none, size, full, ?_⟩
  have last := logWrites_last s.store (by rw [full, size]; decide)
  rwa [full] at last

end Xv6
