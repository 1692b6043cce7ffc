import Xv6.Lib.Ring

/-!
**The pipe buffer: `struct pipe` and the loops of `pipewrite` and `piperead`.**

`data[PIPESIZE]` is a ring buffer (`Xv6.Lib.Ring`) whose counters `nread` and `nwrite` are
32-bit and wrap: a byte goes to `data[nwrite++ % PIPESIZE]`. `Pipe.count` is the unsigned
difference `nwrite - nread` and `Pipe.contents` the bytes between the counters, oldest first.
`PIPESIZE` divides `2^32`, so a wrapped counter names the cell the unwrapped one would
(`nwrite_cell`, `contents_pop`).

While `count ≤ PIPESIZE`:

* `writeLoop_contents`: `pipewrite`'s loop appends the bytes it writes, in order;
  `writeLoop_written`: it writes all of them when it ends `done`;
* `readLoop_contents`: `piperead`'s copy loop takes the bytes it returns from the front;
  `readLoop_length`: it returns as many as asked for and held, so none only when asked for none
  or the pipe is empty.
-/

namespace Xv6

/-- `PIPESIZE`. -/
def pipeSize : Nat := 512

instance : NeZero pipeSize := ⟨by decide⟩

/-- `struct pipe` without its lock: each `p->lock` critical section is one step of the models
that use it. -/
structure Pipe where
  data : Fin pipeSize → UInt8
  nread : UInt32
  nwrite : UInt32
  readopen : Bool
  writeopen : Bool

/-- How one critical section of `pipewrite` ends. -/
inductive WriteExit
  /-- every byte written: `wakeup(&p->nread)`, release, return `n` -/
  | done
  /-- full, and the read end closed or the caller killed: release, return `-1` -/
  | fail
  /-- full: `wakeup(&p->nread)`, `sleep(&p->nwrite, &p->lock)` -/
  | sleep
  deriving DecidableEq, Repr

namespace Pipe

/-- `p->data[p->nwrite++ % PIPESIZE] = x`. -/
def put (p : Pipe) (x : UInt8) : Pipe :=
  { p with
    data := Function.update p.data (Lib.cell pipeSize p.nwrite.toNat) x
    nwrite := p.nwrite + 1 }

/-- `p->nread++`. -/
def pop (p : Pipe) : Pipe := { p with nread := p.nread + 1 }

/-- `pipewrite`'s loop over the bytes `rest` of `addr` still to write, with `p->lock` held and
`killed` the caller's flag: the pipe after it, how many bytes it wrote, and how it ends. -/
def writeLoop (killed : Bool) : Pipe → List UInt8 → Pipe × Nat × WriteExit
  | p, [] => (p, 0, .done)
  | p, x :: rest =>
    if p.nwrite = p.nread + UInt32.ofNat pipeSize then
      (p, 0, if !p.readopen || killed then .fail else .sleep)
    else
      let after := writeLoop killed (p.put x) rest
      (after.1, after.2.1 + 1, after.2.2)

/-- `piperead`'s copy loop for up to `n` bytes, with `p->lock` held: the pipe after it and the
bytes it copied to `addr`. -/
def readLoop : Pipe → Nat → Pipe × List UInt8
  | p, 0 => (p, [])
  | p, n + 1 =>
    if p.nread = p.nwrite then (p, [])
    else
      let after := readLoop p.pop n
      (after.1, p.data (Lib.cell pipeSize p.nread.toNat) :: after.2)

/-- `pipewrite`'s loop with nothing left to write. -/
theorem writeLoop_nil (killed : Bool) (p : Pipe) : writeLoop killed p [] = (p, 0, .done) := rfl

/-- One round of `pipewrite`'s loop: full, or one byte stored. -/
theorem writeLoop_cons (killed : Bool) (p : Pipe) (x : UInt8) (rest : List UInt8) :
    writeLoop killed p (x :: rest) =
      if p.nwrite = p.nread + UInt32.ofNat pipeSize then
        (p, 0, if !p.readopen || killed then .fail else .sleep)
      else
        let after := writeLoop killed (p.put x) rest
        (after.1, after.2.1 + 1, after.2.2) := rfl

/-- `piperead`'s loop asked for no byte. -/
theorem readLoop_zero (p : Pipe) : readLoop p 0 = (p, []) := rfl

/-- One round of `piperead`'s loop: empty, or one byte copied. -/
theorem readLoop_succ (p : Pipe) (n : Nat) :
    readLoop p (n + 1) =
      if p.nread = p.nwrite then (p, [])
      else
        let after := readLoop p.pop n
        (after.1, p.data (Lib.cell pipeSize p.nread.toNat) :: after.2) := rfl

/-- The unsigned difference `nwrite - nread`: how many bytes the pipe holds. -/
def count (p : Pipe) : Nat := (p.nwrite - p.nread).toNat

/-- The bytes the pipe holds, oldest first. -/
def contents (p : Pipe) : List UInt8 := Lib.ringContents p.data p.nread.toNat p.count

/-! ### The counters -/

variable {p : Pipe}

/-- `2^32`, the modulus of the counters. -/
theorem uint32_size : UInt32.size = 4294967296 := rfl

/-- `PIPESIZE` divides `2^32`. -/
theorem pipeSize_dvd : pipeSize ∣ UInt32.size := ⟨8388608, rfl⟩

theorem toNat_pipeSize : (UInt32.ofNat pipeSize).toNat = pipeSize := rfl

theorem full_iff : p.nwrite = p.nread + UInt32.ofNat pipeSize ↔ p.count = pipeSize := by
  have := p.nread.toNat_lt
  have := p.nwrite.toNat_lt
  rw [UInt32.ext_iff, count]
  simp only [UInt32.toNat_add, UInt32.toNat_sub, toNat_pipeSize, Nat.reducePow] at *
  unfold pipeSize
  omega

theorem empty_iff : p.nread = p.nwrite ↔ p.count = 0 := by
  have := p.nread.toNat_lt
  have := p.nwrite.toNat_lt
  rw [UInt32.ext_iff, count]
  simp only [UInt32.toNat_sub, Nat.reducePow] at *
  omega

/-- A pipe whose counters differ holds a byte. -/
theorem count_ne_zero (nonempty : ¬p.nread = p.nwrite) : p.count ≠ 0 :=
  fun zero => nonempty (empty_iff.2 zero)

/-- `nwrite` is `count` bytes past `nread`, modulo `2^32`. -/
theorem nwrite_toNat : p.nwrite.toNat = (p.nread.toNat + p.count) % UInt32.size := by
  have := p.nread.toNat_lt
  have := p.nwrite.toNat_lt
  rw [count]
  simp only [UInt32.toNat_sub, uint32_size, Nat.reducePow] at *
  omega

/-- The cell `pipewrite` writes is the one after the last byte held. -/
theorem nwrite_cell :
    Lib.cell pipeSize p.nwrite.toNat = Lib.cell pipeSize (p.nread.toNat + p.count) := by
  rw [nwrite_toNat, Lib.cell_mod_of_dvd pipeSize_dvd]

theorem count_put (notFull : p.count < pipeSize) (x : UInt8) : (p.put x).count = p.count + 1 := by
  have := p.nread.toNat_lt
  have := p.nwrite.toNat_lt
  simp only [count, put, UInt32.toNat_sub, UInt32.toNat_add, UInt32.toNat_one, pipeSize,
    Nat.reducePow] at *
  omega

/-- **Push.** Writing a byte into a pipe that is not full appends it. -/
theorem contents_put (notFull : p.count < pipeSize) (x : UInt8) :
    (p.put x).contents = p.contents ++ [x] := by
  rw [contents, count_put notFull, contents]
  simp only [put]
  rw [nwrite_cell]
  exact Lib.ringContents_push notFull x

theorem count_pop (nonempty : p.count ≠ 0) : p.pop.count = p.count - 1 := by
  have := p.nread.toNat_lt
  have := p.nwrite.toNat_lt
  simp only [count, pop, UInt32.toNat_sub, UInt32.toNat_add, UInt32.toNat_one,
    Nat.reducePow] at *
  omega

/-- **Pop.** The first byte held is the cell of `nread`; the others are held from `nread + 1`,
wrapped or not. -/
theorem contents_pop (nonempty : p.count ≠ 0) :
    p.contents = p.data (Lib.cell pipeSize p.nread.toNat) :: p.pop.contents := by
  obtain ⟨len, counted⟩ : ∃ len, p.count = len + 1 := ⟨p.count - 1, by omega⟩
  have popped : p.pop.count = len := by rw [count_pop nonempty, counted, Nat.add_sub_cancel]
  rw [contents, counted, Lib.ringContents_pop, contents, popped]
  simp only [pop, UInt32.toNat_add, UInt32.toNat_one]
  rw [Lib.ringContents_mod_of_dvd pipeSize_dvd]

/-! ### `pipewrite`'s loop -/

section Write

variable (killed : Bool)

/-- The loop changes `data` and `nwrite` only. -/
theorem writeLoop_frame (p : Pipe) (rest : List UInt8) :
    ∃ data nwrite, (writeLoop killed p rest).1 = { p with data, nwrite } := by
  induction rest generalizing p with
  | nil => exact ⟨p.data, p.nwrite, rfl⟩
  | cons x rest ih =>
    rw [writeLoop_cons]
    split
    case isTrue => exact ⟨p.data, p.nwrite, rfl⟩
    case isFalse =>
      obtain ⟨data, nwrite, after⟩ := ih (p.put x)
      exact ⟨data, nwrite, after⟩

/-- **The loop appends what it writes**, and keeps the pipe within `PIPESIZE`. -/
theorem writeLoop_contents (p : Pipe) (rest : List UInt8) (bounded : p.count ≤ pipeSize) :
    (writeLoop killed p rest).1.contents =
        p.contents ++ rest.take (writeLoop killed p rest).2.1 ∧
      (writeLoop killed p rest).1.count ≤ pipeSize := by
  induction rest generalizing p with
  | nil => simpa [writeLoop_nil] using bounded
  | cons x rest ih =>
    rw [writeLoop_cons]
    split
    case isTrue => simpa using bounded
    case isFalse notFull =>
      -- not full, so there is room for `x`
      have room : p.count < pipeSize := by
        rw [full_iff] at notFull
        omega
      obtain ⟨contents, bounded'⟩ := ih (p.put x) (by rw [count_put room]; omega)
      refine ⟨?_, bounded'⟩
      rw [contents, contents_put room, List.take_succ_cons, List.append_assoc, List.singleton_append]

/-- The loop writes at most the bytes it has, and all of them when it ends `done`. -/
theorem writeLoop_written (p : Pipe) (rest : List UInt8) :
    (writeLoop killed p rest).2.1 ≤ rest.length ∧
      ((writeLoop killed p rest).2.2 = .done → (writeLoop killed p rest).2.1 = rest.length) := by
  induction rest generalizing p with
  | nil => simp [writeLoop_nil]
  | cons x rest ih =>
    rw [writeLoop_cons]
    split
    case isTrue =>
      refine ⟨Nat.zero_le _, fun done => ?_⟩
      split at done <;> cases done
    case isFalse =>
      obtain ⟨le, done⟩ := ih (p.put x)
      exact ⟨by simpa using le, fun ended => by simpa using done ended⟩

end Write

/-! ### `piperead`'s copy loop -/

/-- The loop changes `nread` only. -/
theorem readLoop_frame (p : Pipe) (n : Nat) : ∃ nread, (readLoop p n).1 = { p with nread } := by
  induction n generalizing p with
  | zero => exact ⟨p.nread, rfl⟩
  | succ n ih =>
    rw [readLoop_succ]
    split
    case isTrue => exact ⟨p.nread, rfl⟩
    case isFalse =>
      obtain ⟨nread, after⟩ := ih p.pop
      exact ⟨nread, after⟩

/-- **The loop takes what it returns from the front**, and leaves fewer bytes. -/
theorem readLoop_contents (p : Pipe) (n : Nat) :
    (readLoop p n).2 ++ (readLoop p n).1.contents = p.contents ∧
      (readLoop p n).1.count ≤ p.count := by
  induction n generalizing p with
  | zero => simp [readLoop_zero]
  | succ n ih =>
    rw [readLoop_succ]
    split
    case isTrue => simp
    case isFalse nonempty =>
      have held := count_ne_zero nonempty
      obtain ⟨contents, fewer⟩ := ih p.pop
      refine ⟨?_, ?_⟩
      · rw [contents_pop held, List.cons_append, ← contents]
      · rw [count_pop held] at fewer
        simp only
        omega

/-- The loop returns as many bytes as asked for and held. -/
theorem readLoop_length (p : Pipe) (n : Nat) : (readLoop p n).2.length = min n p.count := by
  induction n generalizing p with
  | zero => simp [readLoop_zero]
  | succ n ih =>
    rw [readLoop_succ]
    split
    case isTrue empty =>
      rw [empty_iff.1 empty]
      simp
    case isFalse nonempty =>
      have held := count_ne_zero nonempty
      have fewer := ih p.pop
      rw [count_pop held] at fewer
      simp only [List.length_cons, fewer]
      omega

end Pipe

end Xv6
