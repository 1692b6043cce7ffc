import Xv6.Pipe.System

/-!
**Sleepers on a pipe after a killed writer.**

`pipewrite` wakes readers on `&p->nread` when it finds the pipe full, just before it sleeps, and
once at the end of a call that wrote every byte. A writer that finds the pipe full after it was
killed (or after the read end closed) releases the lock and returns `-1` without that wakeup.

* `killed_writer_strands_reader` — a reader asleep on an empty pipe, and a killed writer that
  fills the pipe and fails on the next byte: the reader stays asleep on `&p->nread` with `p->lock`
  free and `512` bytes waiting, though the write end is open.
-/

namespace Xv6

namespace PipeSystem

/-- Thread `0` reads one byte from the empty pipe and sleeps; thread `1` is killed, then calls
`pipewrite` with `513` bytes: it fills the pipe, finds it full, sees `killed` and returns `-1`. -/
theorem killed_writer_strands_reader :
    ∃ s : PipeSystem 2, s.Reachable ∧ (s.threads 0).pc = .reading 1 true ∧
      s.pipe.nread ≠ s.pipe.nwrite ∧ s.pipe.writeopen = true ∧ (s.threads 1).ret = -1 :=
  Lib.Reachable.exists_of_run (pipealloc_initial fun _ => 0)
    [.read 0 1, .kill 1, .write 1 (List.replicate 513 7)] (by decide +kernel)

end PipeSystem

end Xv6
