import Xv6.Console.Line
import Xv6.Lib.Transition

/-!
**`consoleread` against `consoleintr`: the reads take the committed input.**

A process reads the console while characters arrive. Each `cons.lock` critical section is one
step: `consoleintr` on one character (a call of it handles several, each as this step), the call
of `consoleread(ip, dst, n)`, one turn of its loop, and `kill` of the reader. Steps this fine
allow every interleaving the kernel has, and more. A read that finds no committed byte sleeps on
`&input.r` until a commit or a kill; its next turn is then enabled again. Calls come one after the
other, from any process (`ConsoleEvent.read` gives the caller's `killed` flag).

`LineSystem` runs the same events over `Line`, the list model of the ring, and `Sim` relates the
two systems: every step of the console is the same step of the list model (`Sim.step`), so the
ring's wrapped counters stay within one turn and the reads see the lists. Over the lists,
`LineInv` holds along every run: the reads took the committed log in order, each stopping where
`ReadResult.Stops` says (`Delivers`). `console_line_discipline` puts the two together for any run
of the console.
-/

namespace Xv6

/-- Where the reading process is. -/
inductive Reader
  | idle
  /-- in `consoleread(ip, dst, n)` for `target` bytes, with `n` still to copy and the bytes `dst`
  copied -/
  | reading (target n : Nat) (dst : List UInt8)
  deriving DecidableEq, Repr

/-- How a `consoleread` ended. -/
inductive ReadResult
  /-- `return target - n`, with the bytes `dst` copied; `eof` when it took a `^D` -/
  | returned (target : Nat) (dst : List UInt8) (eof : Bool)
  /-- `return -1` of a killed reader that found no committed byte; `dst` is lost -/
  | killed (dst : List UInt8)
  deriving DecidableEq, Repr

namespace Reader

/-- The bytes a read in progress has copied. -/
def copied : Reader → List UInt8
  | .idle => []
  | .reading _ _ dst => dst

/-- `consoleread(ip, dst, n)` begins: with `n ≤ 0` the loop never runs and it returns
`target - n`, that is `0`, at once. -/
def call (n : Int) : Reader × Option ReadResult :=
  if n ≤ 0 then (.idle, some (.returned 0 [] false)) else (.reading n.toNat n.toNat [], none)

/-- One turn of `consoleread`'s loop on the byte `c` it takes at `input.r++`, for a read of
`target` bytes with `n` still to copy and `dst` copied: the reader after it, how the read ends
if it does, and whether `c` goes back (`input.r--`). -/
def take (target n : Nat) (dst : List UInt8) (c : UInt8) : Reader × Option ReadResult × Bool :=
  if c = ctrl 'D' then
    -- a `^D` after some bytes stays for the next read, which then returns `0`
    let keep := decide (n < target)
    (.idle, some (.returned target dst !keep), keep)
  else
    let n := n - 1
    if c = '\n'.toUInt8 ∨ ¬0 < n then (.idle, some (.returned target (dst ++ [c]) false), false)
    else (.reading target n (dst ++ [c]), none, false)

end Reader

/-- The console input and the process reading it. -/
structure Console where
  input : Input
  reader : Reader
  /-- `myproc()->killed` of the reader -/
  killed : Bool
  /-- (ghost) how each `consoleread` ended, in order -/
  results : List ReadResult

/-- The steps. -/
inductive ConsoleEvent
  /-- `consoleintr` handles the character `c` -/
  | intr (c : UInt8)
  /-- a process, killed or not, calls `consoleread(ip, dst, n)` -/
  | read (n : Int) (killed : Bool)
  /-- the reader holds `cons.lock` and runs one turn of its loop -/
  | take
  /-- `kill` of the reader -/
  | kill

namespace Console

/-- One step, if it is enabled. -/
def step (s : Console) : ConsoleEvent → Option Console
  | .intr c => some { s with input := s.input.intr c }
  | .read n killed =>
    match s.reader with
    | .idle =>
      let called := Reader.call n
      some { s with reader := called.1, killed, results := s.results ++ called.2.toList }
    | .reading .. => none
  | .take =>
    match s.reader with
    | .idle => none
    | .reading target n dst =>
      if s.input.r = s.input.w then
        -- asleep on `&input.r` unless killed
        if s.killed then some { s with reader := .idle, results := s.results ++ [.killed dst] }
        else none
      else
        let taken := Reader.take target n dst (s.input.buf (Lib.cell inputBuf s.input.r.toNat))
        let r := s.input.r + 1
        some { s with
          input := { s.input with r := if taken.2.2 then r - 1 else r }
          reader := taken.1
          results := s.results ++ taken.2.1.toList }
  | .kill => some { s with killed := true }

/-- Nothing typed yet, wherever the counters start, and no read begun. -/
def Initial (s : Console) : Prop :=
  s.input.r = s.input.w ∧ s.input.w = s.input.e ∧ s.reader = .idle ∧ s.results = []

/-- The console at boot: `input` zeroed. -/
def boot : Console :=
  { input := ⟨fun _ => 0, 0, 0, 0⟩, reader := .idle, killed := false, results := [] }

theorem boot_initial : boot.Initial := ⟨rfl, rfl, rfl, rfl⟩

end Console

/-! ### The list model -/

/-- The same system over the list model of the ring. -/
structure LineSystem where
  line : Line
  reader : Reader
  killed : Bool
  results : List ReadResult

namespace LineSystem

/-- One step, if it is enabled: the steps of `Console.step` over the lists. -/
def step (a : LineSystem) : ConsoleEvent → Option LineSystem
  | .intr c => some { a with line := a.line.type c }
  | .read n killed =>
    match a.reader with
    | .idle =>
      let called := Reader.call n
      some { a with reader := called.1, killed, results := a.results ++ called.2.toList }
    | .reading .. => none
  | .take =>
    match a.reader, a.line.ready with
    | .idle, _ => none
    | .reading _ _ dst, [] =>
      if a.killed then some { a with reader := .idle, results := a.results ++ [.killed dst] }
      else none
    | .reading target n dst, c :: rest =>
      let taken := Reader.take target n dst c
      some { a with
        line := { a.line with ready := if taken.2.2 then c :: rest else rest }
        reader := taken.1
        results := a.results ++ taken.2.1.toList }
  | .kill => some { a with killed := true }

/-- The list model of a console with nothing typed. -/
def start (s : Console) : LineSystem :=
  { line := ⟨[], [], []⟩, reader := s.reader, killed := s.killed, results := s.results }

end LineSystem

/-! ### The console refines the list model -/

/-- The console `s` is the list model `a`: its ring holds `a`'s lists, with no `'\n'` in the line,
and the rest is equal. -/
structure Sim (s : Console) (a : LineSystem) : Prop where
  holds : s.input.Holds a.line
  noNewline : '\n'.toUInt8 ∉ a.line.edit
  reader : s.reader = a.reader
  killed : s.killed = a.killed
  results : s.results = a.results

namespace Sim

variable {s s' : Console} {a : LineSystem}

theorem start (initial : s.Initial) : Sim s (LineSystem.start s) := by
  obtain ⟨read, edited, -, -⟩ := initial
  have pending : s.input.pending = 0 := Input.pending_eq_zero.1 read
  have editing : s.input.editing = 0 := by
    rw [Input.editing, ← edited, sub_self, UInt32.toNat_zero]
  refine ⟨⟨by omega, ?_, ?_⟩, List.not_mem_nil, rfl, rfl, rfl⟩
  · simp only [Input.ready, pending, Lib.ringContents_zero, LineSystem.start]
  · simp only [Input.edit, editing, Lib.ringContents_zero, LineSystem.start]

/-- A turn of the loop of a read with committed bytes to take: the byte at `r` is the first of
them, and `r++` leaves the ring holding the others. -/
theorem pop (sim : Sim s a) (nonempty : s.input.r ≠ s.input.w) :
    ∃ rest, a.line.ready = s.input.buf (Lib.cell inputBuf s.input.r.toNat) :: rest ∧
      ({ s.input with r := s.input.r + 1 } : Input).Holds { a.line with ready := rest } := by
  obtain ⟨popped, edit⟩ := Input.pop_lists nonempty
  refine ⟨({ s.input with r := s.input.r + 1 } : Input).ready, by rw [← sim.holds.ready, popped],
    ?_, rfl, by rw [edit, sim.holds.edit]⟩
  have bounded := sim.holds.bounded
  have := s.input.r.toNat_lt
  have := s.input.w.toNat_lt
  have := mt Input.pending_eq_zero.2 nonempty
  simp only [Input.pending, Input.editing, UInt32.toNat_sub, UInt32.toNat_add, UInt32.toNat_one,
    Nat.reducePow] at *
  omega

/-- **Simulation.** Every step of the console is the same step of the list model. -/
theorem step {e : ConsoleEvent} (sim : Sim s a) (stepped : s.step e = some s') :
    ∃ a', a.step e = some a' ∧ Sim s' a' := by
  cases e with
  | intr c =>
    simp only [Console.step, Option.some.injEq] at stepped
    subst stepped
    exact ⟨_, rfl, sim.holds.intr sim.noNewline c, Line.noNewline_type sim.noNewline c,
      sim.reader, sim.killed, sim.results⟩
  | read n killed =>
    simp only [Console.step] at stepped
    simp only [LineSystem.step, ← sim.reader]
    cases reading : s.reader with
    | reading => simp [reading] at stepped
    | idle =>
      simp only [reading, Option.some.injEq] at stepped
      subst stepped
      exact ⟨_, rfl, sim.holds, sim.noNewline, rfl, rfl, by rw [sim.results]⟩
  | take =>
    simp only [Console.step] at stepped
    simp only [LineSystem.step, ← sim.reader]
    cases reading : s.reader with
    | idle => simp [reading] at stepped
    | reading target n dst =>
      simp only [reading] at stepped
      by_cases empty : s.input.r = s.input.w
      · -- no committed byte: the list model has none either
        have none : a.line.ready = [] := by
          rw [← sim.holds.ready, Input.ready, Input.pending_eq_zero.1 empty,
            Lib.ringContents_zero]
        simp only [empty, if_true] at stepped
        simp only [none, ← sim.killed]
        split_ifs at stepped ⊢ with killed
        simp only [Option.some.injEq] at stepped
        subst stepped
        exact ⟨_, rfl, sim.holds, sim.noNewline, rfl, rfl, by rw [sim.results]⟩
      · obtain ⟨rest, ready, popped⟩ := sim.pop empty
        simp only [empty, if_false, Option.some.injEq] at stepped
        subst stepped
        simp only [ready]
        refine ⟨_, rfl, ?_, sim.noNewline, rfl, sim.killed, by rw [sim.results]⟩
        split_ifs
        · -- the `^D` kept: `r++` then `r--`
          rw [UInt32.add_sub_cancel, ← ready]
          exact sim.holds
        · exact popped
  | kill =>
    simp only [Console.step, Option.some.injEq] at stepped
    subst stepped
    exact ⟨_, rfl, sim.holds, sim.noNewline, sim.reader, rfl, sim.results⟩

end Sim

/-! ### What the reads took -/

namespace ReadResult

/-- The bytes a read took from the committed input: those it copied, and a `^D` it took. -/
def taken : ReadResult → List UInt8
  | .returned _ dst eof => dst ++ if eof then [ctrl 'D'] else []
  | .killed dst => dst

/-- Where a read stopped, given the byte after those it took: it copied at most `target` bytes,
no `^D` and a `'\n'` only last, took a `^D` only as its first byte, and stopped after a `'\n'`,
after `target` bytes, at a `^D` it took or before one. A killed read copied no `^D` or `'\n'`. -/
def Stops : ReadResult → Option UInt8 → Prop
  | .returned target dst eof, next =>
    dst.length ≤ target ∧ ctrl 'D' ∉ dst ∧ '\n'.toUInt8 ∉ dst.dropLast ∧ (eof = true → dst = []) ∧
      (dst.getLast? = some '\n'.toUInt8 ∨ dst.length = target ∨ eof = true ∨
        next = some (ctrl 'D'))
  | .killed dst, _ => ctrl 'D' ∉ dst ∧ '\n'.toUInt8 ∉ dst

/-- A read that stopped with nothing after it stopped for a reason of its own. -/
theorem Stops.of_none {res : ReadResult} (stops : res.Stops none) (next : Option UInt8) :
    res.Stops next := by
  cases res with
  | returned target dst eof =>
    obtain ⟨length, noEof, newline, eof, why⟩ := stops
    refine ⟨length, noEof, newline, eof, ?_⟩
    rcases why with last | full | took | never
    · exact Or.inl last
    · exact Or.inr (Or.inl full)
    · exact Or.inr (Or.inr (Or.inl took))
    · cases never
  | killed dst => exact stops

end ReadResult

/-- The reads `results`, in order, took the bytes of `log` that come before `rest`: each its
`taken` bytes, stopping as `Stops` says of the byte after them. -/
def Delivers : List ReadResult → List UInt8 → List UInt8 → Prop
  | [], log, rest => log = rest
  | res :: results, log, rest =>
    ∃ after, log = res.taken ++ after ∧ res.Stops after.head? ∧ Delivers results after rest

namespace Delivers

variable {results : List ReadResult} {log rest : List UInt8}

/-- Bytes committed after the others change no read. -/
theorem append (delivers : Delivers results log rest) (more : List UInt8) :
    Delivers results (log ++ more) (rest ++ more) := by
  induction results generalizing log with
  | nil =>
    simp only [Delivers] at delivers ⊢
    rw [delivers]
  | cons res results ih =>
    obtain ⟨after, split, stops, delivers⟩ := delivers
    refine ⟨after ++ more, by rw [split, List.append_assoc], ?_, ih delivers⟩
    cases after with
    | nil => exact stops.of_none _
    | cons x after => exact stops

/-- A read that ends takes its bytes from the front of those left. -/
theorem push (delivers : Delivers results log before) {result : Option ReadResult}
    {after : List UInt8} (split : before = (result.map ReadResult.taken).getD [] ++ after)
    (stops : ∀ res ∈ result, res.Stops after.head?) :
    Delivers (results ++ result.toList) log after := by
  induction results generalizing log with
  | nil =>
    cases result with
    | none =>
      simp only [Option.map_none, Option.getD_none, List.nil_append] at split
      exact delivers.trans split
    | some res => exact ⟨after, delivers.trans split, stops res rfl, rfl⟩
  | cons res results ih =>
    obtain ⟨rest', split', stops', delivers⟩ := delivers
    exact ⟨rest', split', stops', ih delivers⟩

end Delivers

/-- A read in progress: `target - n` bytes copied and some still to copy, none a `^D` or a
`'\n'`. -/
def Reader.Valid : Reader → Prop
  | .idle => True
  | .reading target n dst =>
    dst.length + n = target ∧ 0 < n ∧ ctrl 'D' ∉ dst ∧ '\n'.toUInt8 ∉ dst

namespace Reader

theorem call_valid (n : Int) :
    (call n).1.Valid ∧ (call n).1.copied = [] ∧
      ∀ res ∈ (call n).2, res.taken = [] ∧ res.Stops none := by
  unfold call
  split_ifs with empty
  · refine ⟨trivial, rfl, fun res mem => ?_⟩
    cases Option.mem_some_iff.mp mem
    exact ⟨rfl, Nat.le_refl 0, List.not_mem_nil, by simp, by simp, Or.inr (Or.inl rfl)⟩
  · exact ⟨⟨Nat.zero_add _, by omega, List.not_mem_nil, List.not_mem_nil⟩, rfl,
      fun _ mem => by cases mem⟩

/-- **One turn of the loop.** The reader stays valid, and what it takes from `dst ++ c :: rest`
goes to its result, if the read ends, and to the bytes left. -/
theorem take_delivers {target n : Nat} {dst : List UInt8} (valid : (reading target n dst).Valid)
    (c : UInt8) (rest : List UInt8) :
    (take target n dst c).1.Valid ∧
      dst ++ c :: rest = ((take target n dst c).2.1.map ReadResult.taken).getD [] ++
        ((take target n dst c).1.copied ++ if (take target n dst c).2.2 then c :: rest else rest) ∧
      ∀ res ∈ (take target n dst c).2.1,
        res.Stops ((take target n dst c).1.copied ++
          if (take target n dst c).2.2 then c :: rest else rest).head? := by
  obtain ⟨counted, more, noEof, noNewline⟩ := valid
  have within : dst.length ≤ target := by omega
  have cutNewline : '\n'.toUInt8 ∉ dst.dropLast := fun mem => noNewline (List.dropLast_subset _ mem)
  unfold take
  by_cases eof : c = ctrl 'D'
  · rw [if_pos eof]
    by_cases kept : n < target
    · -- `^D` after some bytes: it goes back
      simp only [kept, decide_true, Bool.not_true, if_true]
      refine ⟨trivial, by simp [copied, ReadResult.taken, eof], fun res mem => ?_⟩
      cases Option.mem_some_iff.mp mem
      exact ⟨within, noEof, cutNewline, by simp, Or.inr (Or.inr (Or.inr (by simp [copied, eof])))⟩
    · -- `^D` first: the read takes it and returns `0`
      have empty : dst = [] := List.eq_nil_of_length_eq_zero (by omega)
      subst empty
      simp only [kept, decide_false, Bool.not_false, Bool.false_eq_true, if_false]
      refine ⟨trivial, by simp [copied, ReadResult.taken, eof], fun res mem => ?_⟩
      cases Option.mem_some_iff.mp mem
      exact ⟨Nat.zero_le _, List.not_mem_nil, by simp, fun _ => rfl, Or.inr (Or.inr (Or.inl rfl))⟩
  rw [if_neg eof]
  have noEof' : ctrl 'D' ∉ dst ++ [c] := by simpa [noEof] using Ne.symm eof
  by_cases ends : c = '\n'.toUInt8 ∨ ¬0 < n - 1
  · -- a `'\n'`, or the last byte asked for
    simp only [ends, if_true, Bool.false_eq_true, if_false]
    refine ⟨trivial, by simp [copied, ReadResult.taken], fun res mem => ?_⟩
    cases Option.mem_some_iff.mp mem
    refine ⟨by simp only [List.length_append, List.length_singleton]; omega, noEof',
      by rwa [List.dropLast_concat], by simp, ?_⟩
    rcases ends with newline | last
    · exact Or.inl (by simp [newline])
    · exact Or.inr (Or.inl (by simp only [List.length_append, List.length_singleton]; omega))
  · -- on to the next byte
    simp only [ends, if_false, Bool.false_eq_true]
    have noNewline' : '\n'.toUInt8 ∉ dst ++ [c] := by
      simpa [noNewline] using fun same => ends (Or.inl same.symm)
    refine ⟨⟨by simp only [List.length_append, List.length_singleton]; omega, by omega, noEof',
      noNewline'⟩, by simp [copied], fun _ mem => by cases mem⟩

end Reader

/-- The invariant of the list model: a read in progress is valid, and the reads took the committed
log in order, up to the bytes the reader holds and those still committed. -/
structure LineInv (a : LineSystem) : Prop where
  reader : a.reader.Valid
  delivers : Delivers a.results a.line.log (a.reader.copied ++ a.line.ready)

namespace LineInv

variable {a a' : LineSystem}

theorem start {s : Console} (initial : s.Initial) : LineInv (LineSystem.start s) := by
  obtain ⟨-, -, idle, none⟩ := initial
  refine ⟨by simp only [LineSystem.start, idle, Reader.Valid], ?_⟩
  simp only [LineSystem.start, idle, none, Reader.copied, List.append_nil, Delivers]

/-- Every step of the list model keeps the invariant. -/
theorem step (inv : LineInv a) {e : ConsoleEvent} (stepped : a.step e = some a') : LineInv a' := by
  cases e with
  | intr c =>
    simp only [LineSystem.step, Option.some.injEq] at stepped
    subst stepped
    obtain ⟨more, ready, log⟩ := Line.type_committed (l := a.line) c
    refine ⟨inv.reader, ?_⟩
    simp only [ready, log, ← List.append_assoc]
    exact inv.delivers.append more
  | read n killed =>
    simp only [LineSystem.step] at stepped
    cases reading : a.reader with
    | reading => simp [reading] at stepped
    | idle =>
      simp only [reading, Option.some.injEq] at stepped
      subst stepped
      obtain ⟨valid, copied, result⟩ := Reader.call_valid n
      refine ⟨valid, inv.delivers.push ?_ fun res mem => ((result res mem).2.of_none _)⟩
      rw [reading, copied]
      cases called : (Reader.call n).2 with
      | none => rfl
      | some res => simp [(result res called).1, Reader.copied]
  | take =>
    simp only [LineSystem.step] at stepped
    have valid := inv.reader
    cases reading : a.reader with
    | idle => simp [reading] at stepped
    | reading target n dst =>
      rw [reading] at valid
      have delivers := inv.delivers
      rw [reading, Reader.copied] at delivers
      cases ready : a.line.ready with
      | nil =>
        -- a killed reader gives up what it copied
        simp only [reading, ready] at stepped
        split_ifs at stepped
        simp only [Option.some.injEq] at stepped
        subst stepped
        obtain ⟨-, -, noEof, noNewline⟩ := valid
        rw [ready] at delivers
        have split : dst ++ [] =
            ((some (ReadResult.killed dst)).map ReadResult.taken).getD [] ++ (Reader.idle.copied ++ []) := by
          simp [ReadResult.taken, Reader.copied]
        refine ⟨trivial, ?_⟩
        simp only [ready]
        exact delivers.push split fun res mem => by
          cases Option.mem_some_iff.mp mem
          exact ⟨noEof, noNewline⟩
      | cons c rest =>
        simp only [reading, ready, Option.some.injEq] at stepped
        subst stepped
        obtain ⟨valid', split, stops⟩ := Reader.take_delivers valid c rest
        rw [ready] at delivers
        exact ⟨valid', delivers.push split stops⟩
  | kill =>
    simp only [LineSystem.step, Option.some.injEq] at stepped
    subst stepped
    exact ⟨inv.reader, inv.delivers⟩

end LineInv

/-! ### The console line discipline -/

/-- What a run of the console from `s₀` to `s` through `events` shows. -/
structure Disciplined (s₀ : Console) (events : List ConsoleEvent) (s : Console) : Prop where
  /-- `r ≤ w ≤ e ≤ r + INPUT_BUF`, as unsigned differences from `r` -/
  counters : (s.input.w - s.input.r).toNat ≤ (s.input.e - s.input.r).toNat ∧
    (s.input.e - s.input.r).toNat ≤ inputBuf
  /-- no character, backspace and `^U` included, changes the committed bytes not yet read -/
  kept : ∀ c, s.input.ready <+: (s.input.intr c).ready
  /-- the reads took, in order, the bytes the list model committed on the same events -/
  committed : ∃ a, Lib.run LineSystem.step (LineSystem.start s₀) events = some a ∧
    a.results = s.results ∧ a.line.ready = s.input.ready ∧
    Delivers s.results a.line.log (s.reader.copied ++ s.input.ready)

theorem console_line_discipline {s₀ s : Console} (initial : s₀.Initial)
    {events : List ConsoleEvent} (ran : Lib.run Console.step s₀ events = some s) :
    Disciplined s₀ events s := by
  have matched : ∀ {s a e s'}, Sim s a → Console.step s e = some s' →
      ∃ a', LineSystem.step a e = some a' ∧ Sim s' a' := Sim.step
  obtain ⟨a, ran', sim⟩ := Lib.run_simulation Sim @matched (Sim.start initial) ran
  have inv : LineInv a :=
    Lib.run_invariant LineInv (fun _ _ _ inv stepped => inv.step stepped) (LineInv.start initial) ran'
  refine ⟨sim.holds.counters, fun c => ?_, a, ran', sim.results.symm, sim.holds.ready.symm, ?_⟩
  · rw [(sim.holds.intr sim.noNewline c).ready, sim.holds.ready]
    exact Line.ready_prefix_type c
  · rw [sim.results, sim.reader, sim.holds.ready]
    exact inv.delivers

theorem console_line_discipline_typed :
    ∃ s, Lib.run Console.step Console.boot
        [.intr 104, .intr 105, .intr 13, .read 10 false, .take, .take, .take] = some s ∧
      Disciplined Console.boot
        [.intr 104, .intr 105, .intr 13, .read 10 false, .take, .take, .take] s :=
  ⟨_, rfl, console_line_discipline Console.boot_initial rfl⟩

/-- `^P` is not input: typed inside a line, it is never read. -/
theorem console_drops_ctrl_p :
    (Lib.run Console.step Console.boot
        [.intr 97, .intr (ctrl 'P'), .intr 10, .read 10 false, .take, .take]).map
      Console.results = some [.returned 10 [97, 10] false] := by
  decide

end Xv6
