import Xv6.Param
import Xv6.Lib.Place
import Xv6.Lib.Transition

/-!
**`filewrite` on a file that processes share, down to the bytes `writei` writes.**

The processes share one `struct file` of type `FD_INODE` (through `fork` or `dup`): its offset
`f->off`, and the inode `f->ip` with its size, its data and its sleep-lock. `filewrite` splits a
call into chunks of `max` bytes at most; each chunk is `begin_op`, `ilock`, `writei` at `f->off`,
`f->off += r`, `iunlock`, `end_op`. The four steps of a chunk from `ilock` on are separate steps
here, so that another process may run between any two of them; `acquiresleep` in `ilock` waits
while another process holds the lock. `begin_op` and `end_op` touch neither `f` nor the inode's
data, and are left out.

* `writeLoop` — the loop of `writei`: each turn `memmove`s the bytes up to the end of the block of
  `off` or of the source; `byteAt_writeLoop` — it writes the source at `off`, read byte by byte
  through the blocks;
* `InodeData.writei` — `writei` of an inode that is not a device, with its checks;
* `SharedFile.next` — the next step of a process in `filewrite`, and `Move`, what a step can do.

The data of an inode is read through `bmap` as file block and byte in block; which disk block
holds a file block, and `balloc` running out of blocks, are the block layer's (`Fs.Block`). The
ghost `chunks` records each `writei` that wrote, with the offset it wrote at.
-/

namespace Xv6

variable {α : Type}

/-! ### The loop of `writei` -/

section Loop

/-- Byte `x` of data kept by file block: byte `x % BSIZE` of file block `x / BSIZE`. -/
def byteAt (blocks : Nat → Fin bsize → α) (x : Nat) : α :=
  blocks (x / bsize) ⟨x % bsize, Nat.mod_lt _ (by decide)⟩

/-- `memmove(bp->data + off%BSIZE, src, m)` into the block of `off`, for the `m` bytes of `src`. -/
def memmoveBlock (blocks : Nat → Fin bsize → α) (off : Nat) (src : List α) :
    Nat → Fin bsize → α :=
  Function.update blocks (off / bsize) fun j =>
    if off % bsize ≤ j.val then (src[j.val - off % bsize]?).getD (blocks (off / bsize) j)
    else blocks (off / bsize) j

/-- The loop `for(tot=0; tot<n; tot+=m, off+=m, src+=m)` of `writei`, with
`m = min(n - tot, BSIZE - off%BSIZE)`: `src` holds the `n - tot` bytes to go, and `fuel` bounds the
turns, each of which writes a byte at least. -/
def writeLoop : Nat → (Nat → Fin bsize → α) → Nat → List α → Nat → Fin bsize → α
  | 0, blocks, _, _ => blocks
  | fuel + 1, blocks, off, src =>
    if 0 < src.length then
      let m := min src.length (bsize - off % bsize)
      writeLoop fuel (memmoveBlock blocks off (src.take m)) (off + m) (src.drop m)
    else blocks

/-- Two offsets in one block are as far apart as their places in it. -/
theorem mod_sub_mod_of_div_eq {x off : Nat} (same : x / bsize = off / bsize) :
    (off % bsize ≤ x % bsize ↔ off ≤ x) ∧ x % bsize - off % bsize = x - off := by
  rw [bsize_eq] at *
  omega

/-- An offset past the block of `off` is past the bytes from `off` to that block's end. -/
theorem le_of_div_ne {x off n : Nat} (other : x / bsize ≠ off / bsize) (after : off ≤ x)
    (fits : off % bsize + n ≤ bsize) : off + n ≤ x := by
  rw [bsize_eq] at *
  omega

/-- **One `memmove` writes its bytes at `off`**, when they fit in the block of `off`. -/
theorem byteAt_memmoveBlock (blocks : Nat → Fin bsize → α) {off : Nat} {src : List α}
    (fits : off % bsize + src.length ≤ bsize) :
    byteAt (memmoveBlock blocks off src) = Lib.place (byteAt blocks) off src := by
  funext x
  by_cases same : x / bsize = off / bsize
  · -- the byte is in the block written: it is read at its place in the block
    obtain ⟨inside, gap⟩ := mod_sub_mod_of_div_eq same
    have here : byteAt (memmoveBlock blocks off src) x =
        if off % bsize ≤ x % bsize then (src[x % bsize - off % bsize]?).getD (byteAt blocks x)
        else byteAt blocks x := by
      simp only [byteAt, memmoveBlock, same, Function.update_self]
    rw [here, gap]
    by_cases after : off ≤ x
    · rw [if_pos (inside.mpr after), Lib.place, if_pos after]
    · rw [if_neg (mt inside.mp after), Lib.place_of_lt src (Nat.lt_of_not_le after)]
  · have frame : byteAt (memmoveBlock blocks off src) x = byteAt blocks x := by
      simp only [byteAt, memmoveBlock, Function.update_of_ne same]
    rw [frame]
    by_cases after : off ≤ x
    · exact (Lib.place_of_le (le_of_div_ne same after fits)).symm
    · exact (Lib.place_of_lt src (Nat.lt_of_not_le after)).symm

/-- **The loop of `writei` writes its source at `off`**, given a turn for each byte. -/
theorem byteAt_writeLoop {fuel : Nat} (blocks : Nat → Fin bsize → α) (off : Nat) {src : List α}
    (enough : src.length ≤ fuel) :
    byteAt (writeLoop fuel blocks off src) = Lib.place (byteAt blocks) off src := by
  induction fuel generalizing blocks off src with
  | zero =>
    rw [List.length_eq_zero_iff.mp (Nat.le_zero.mp enough), Lib.place_nil]
    rfl
  | succ fuel ih =>
    unfold writeLoop
    split
    case isTrue more =>
      -- one turn writes the first `m` bytes, to the end of the block or of the source
      have room : 0 < bsize - off % bsize := Nat.sub_pos_of_lt (Nat.mod_lt _ (by decide))
      dsimp only
      generalize turn : min src.length (bsize - off % bsize) = m
      have taken : (src.take m).length = m := List.length_take_of_le (by omega)
      have joined := Lib.place_append (byteAt blocks) off (src.take m) (src.drop m)
      rw [taken, List.take_append_drop] at joined
      rw [ih _ _ (by simp only [List.length_drop]; omega),
        byteAt_memmoveBlock _ (by rw [taken]; omega), joined]
    case isFalse done =>
      rw [List.length_eq_zero_iff.mp (Nat.eq_zero_of_not_pos done), Lib.place_nil]

end Loop

/-! ### `writei` -/

/-- The data of an inode as `writei` reaches it through `bmap`: its size, and byte `j` of file
block `bn`. -/
structure InodeData (α : Type) where
  size : Nat
  blocks : Nat → Fin bsize → α

namespace InodeData

/-- The byte at offset `x` of the file. -/
def byte (ip : InodeData α) (x : Nat) : α := byteAt ip.blocks x

/-- `writei(ip, src, off, n)` of an inode that is not a device, with `n` the length of `src`:
its result, and the inode after it. `UInt32.size ≤ off + n` is the unsigned `off + n < off`. -/
def writei (ip : InodeData α) (src : List α) (off : Nat) : Int × InodeData α :=
  let n := src.length
  if ip.size < off ∨ UInt32.size ≤ off + n then (-1, ip)
  else if maxFile * bsize < off + n then (-1, ip)
  else
    (n, { size := if 0 < n ∧ ip.size < off + n then off + n else ip.size
          blocks := writeLoop n ip.blocks off src })

variable {ip : InodeData α} {src : List α} {off : Nat}

/-- **`writei` within the file and its largest size** writes every byte. -/
theorem writei_of_fits (within : off ≤ ip.size) (fits : off + src.length ≤ maxFile * bsize) :
    ip.writei src off =
      ((src.length : Int), ({ size := max ip.size (off + src.length)
                              blocks := writeLoop src.length ip.blocks off src } : InodeData α)) := by
  have small : ¬(ip.size < off ∨ UInt32.size ≤ off + src.length) := by
    rw [maxFile_eq, bsize_eq] at fits
    simp only [UInt32.size] at *
    omega
  have grown : (if 0 < src.length ∧ ip.size < off + src.length then off + src.length else ip.size) =
      max ip.size (off + src.length) := by
    split <;> omega
  simp only [writei, if_neg small, if_neg (Nat.not_lt.mpr fits), grown]

/-- `writei` past the largest file writes nothing. -/
theorem writei_of_past (past : maxFile * bsize < off + src.length) : ip.writei src off = (-1, ip) := by
  simp only [writei, if_pos past, ite_self]

end InodeData

/-! ### `filewrite` -/

/-- `max` of `filewrite`: the most bytes of one chunk, so that its transaction writes no more
than `MAXOPBLOCKS` blocks (the inode, the indirect block, the bitmap, and two blocks of slop for
writes not on a block boundary). -/
def filewriteMax : Nat := ((maxOpBlocks - 1 - 1 - 2) / 2) * 512

/-- Where a process is in `filewrite(f, src, n)`, with `n` the length of `src`. -/
inductive WritePc (α : Type)
  | idle
  /-- at the test of the `while` loop, with `i` bytes written -/
  | loop (src : List α) (i : Nat)
  /-- after `begin_op` and `ilock`: it holds the inode's sleep-lock, to write `n1` bytes -/
  | locked (src : List α) (i n1 : Nat)
  /-- `writei` returned `r` -/
  | wrote (src : List α) (i n1 : Nat) (r : Int)
  /-- after `if(r > 0) f->off += r`, to `iunlock` -/
  | advanced (src : List α) (i n1 : Nat) (r : Int)

/-- One shared `struct file` of type `FD_INODE`, and `k` processes that write it. -/
structure SharedFile (α : Type) (k : Nat) where
  /-- `f->off` -/
  off : Nat
  /-- `f->ip`: its size and data -/
  ip : InodeData α
  /-- the process that holds `f->ip->lock` -/
  holder : Option (Fin k)
  procs : Fin k → WritePc α
  /-- (ghost) each `writei` that wrote, with the offset it wrote at, in order -/
  chunks : List (Nat × List α)
  halted : Option String

/-- The steps. -/
inductive WriteEvent (α : Type) (k : Nat)
  /-- `filewrite(f, src, n)` -/
  | filewrite (p : Fin k) (src : List α)
  /-- the next step of `p`'s call -/
  | next (p : Fin k)

namespace SharedFile

variable {k : Nat}

def setPc (s : SharedFile α k) (p : Fin k) (pc : WritePc α) : SharedFile α k :=
  { s with procs := Function.update s.procs p pc }

/-- The next step of process `p` in `filewrite`. -/
def next (s : SharedFile α k) (p : Fin k) : Option (SharedFile α k) :=
  match s.procs p with
  | .idle => none
  | .loop src i =>
    if i < src.length then
      -- `begin_op(); ilock(f->ip);`: `acquiresleep` sleeps while the lock is held
      if s.holder = none then
        some { s.setPc p (.locked src i (min (src.length - i) filewriteMax)) with holder := some p }
      else none
    else some (s.setPc p .idle)
  | .locked src i n1 =>
    let chunk := (src.drop i).take n1
    let written := s.ip.writei chunk s.off
    some { s.setPc p (.wrote src i n1 written.1) with
      ip := written.2
      chunks := if 0 < written.1 then s.chunks ++ [(s.off, chunk)] else s.chunks }
  | .wrote src i n1 r =>
    some { s.setPc p (.advanced src i n1 r) with off := if 0 < r then s.off + r.toNat else s.off }
  | .advanced src i n1 r =>
    -- `iunlock(f->ip); end_op();`, then the tests of the loop's body
    if s.holder ≠ some p then some { s with halted := some "iunlock" }
    else if r < 0 then some { s.setPc p .idle with holder := none }
    else if r ≠ n1 then some { s with holder := none, halted := some "short filewrite" }
    else some { s.setPc p (.loop src (i + r.toNat)) with holder := none }

/-- One step, if it is enabled. -/
def step (s : SharedFile α k) : WriteEvent α k → Option (SharedFile α k)
  | .filewrite p src =>
    match s.halted, s.procs p with
    | none, .idle => some (s.setPc p (.loop src 0))
    | _, _ => none
  | .next p => if s.halted = none then s.next p else none

/-- No process in `filewrite`, and the offset within the file. `f->off ≤ f->ip->size` holds of
every open file: `sys_open` sets the offset to `0`, `readi` and `writei` never move it past the
size, and the size does not shrink while the file holds the inode. -/
def Initial (s : SharedFile α k) : Prop :=
  s.off ≤ s.ip.size ∧ s.holder = none ∧ (∀ p, s.procs p = .idle) ∧ s.chunks = [] ∧
    s.halted = none

/-- The states that `filewrite` calls reach from `s₀`. -/
def Reachable (s₀ s : SharedFile α k) : Prop := Lib.Reachable (· = s₀) step s

/-! ### What a step can do -/

section Steps

variable {s t : SharedFile α k}

/-- What a step does, path by path. -/
inductive Move (s : SharedFile α k) : SharedFile α k → Prop
  | filewrite {p : Fin k} (src : List α) (idle : s.procs p = .idle) :
      Move s (s.setPc p (.loop src 0))
  | lock {p : Fin k} {src : List α} {i : Nat} (looping : s.procs p = .loop src i)
      (more : i < src.length) (free : s.holder = none) :
      Move s { s.setPc p (.locked src i (min (src.length - i) filewriteMax)) with holder := some p }
  | done {p : Fin k} {src : List α} {i : Nat} (looping : s.procs p = .loop src i)
      (all : src.length ≤ i) : Move s (s.setPc p .idle)
  | writei {p : Fin k} {src : List α} {i n1 : Nat} (locked : s.procs p = .locked src i n1) :
      Move s { s.setPc p (.wrote src i n1 (s.ip.writei ((src.drop i).take n1) s.off).1) with
        ip := (s.ip.writei ((src.drop i).take n1) s.off).2
        chunks := if 0 < (s.ip.writei ((src.drop i).take n1) s.off).1 then
          s.chunks ++ [(s.off, (src.drop i).take n1)] else s.chunks }
  | advance {p : Fin k} {src : List α} {i n1 : Nat} {r : Int} (wrote : s.procs p = .wrote src i n1 r) :
      Move s { s.setPc p (.advanced src i n1 r) with off := if 0 < r then s.off + r.toNat else s.off }
  | unlockPanic {p : Fin k} {src : List α} {i n1 : Nat} {r : Int}
      (advanced : s.procs p = .advanced src i n1 r) (notHeld : s.holder ≠ some p) :
      Move s { s with halted := some "iunlock" }
  | unlockBreak {p : Fin k} {src : List α} {i n1 : Nat} {r : Int}
      (advanced : s.procs p = .advanced src i n1 r) (held : s.holder = some p) (failed : r < 0) :
      Move s { s.setPc p .idle with holder := none }
  | short {p : Fin k} {src : List α} {i n1 : Nat} {r : Int}
      (advanced : s.procs p = .advanced src i n1 r) (held : s.holder = some p) (wrote : ¬r < 0)
      (shorter : r ≠ n1) : Move s { s with holder := none, halted := some "short filewrite" }
  | unlock {p : Fin k} {src : List α} {i n1 : Nat} {r : Int}
      (advanced : s.procs p = .advanced src i n1 r) (held : s.holder = some p) (wrote : ¬r < 0)
      (whole : r = n1) : Move s { s.setPc p (.loop src (i + r.toNat)) with holder := none }

theorem move_of_next {p : Fin k} (moved : s.next p = some t) : s.Move t := by
  unfold next at moved
  split at moved
  case h_1 => cases moved
  case h_2 src i looping =>
    split at moved
    case isTrue more =>
      split at moved
      case isTrue free =>
        cases moved
        exact .lock looping more free
      case isFalse => cases moved
    case isFalse all =>
      cases moved
      exact .done looping (Nat.le_of_not_lt all)
  case h_3 src i n1 locked =>
    cases moved
    exact .writei locked
  case h_4 src i n1 r wrote =>
    cases moved
    exact .advance wrote
  case h_5 src i n1 r advanced =>
    split at moved
    case isTrue notHeld =>
      cases moved
      exact .unlockPanic advanced notHeld
    case isFalse held =>
      have held : s.holder = some p := Decidable.of_not_not held
      split at moved
      case isTrue failed =>
        cases moved
        exact .unlockBreak advanced held failed
      case isFalse wrote =>
        split at moved
        case isTrue shorter =>
          cases moved
          exact .short advanced held wrote shorter
        case isFalse whole =>
          cases moved
          exact .unlock advanced held wrote (Decidable.of_not_not whole)

/-- **What a step can do**: from a state that has not panicked, one of the moves. -/
theorem move_of_step {e : WriteEvent α k} (stepped : s.step e = some t) :
    s.halted = none ∧ s.Move t := by
  cases e with
  | filewrite p src =>
    simp only [step] at stepped
    split at stepped
    case h_1 running idle =>
      cases stepped
      exact ⟨running, .filewrite src idle⟩
    case h_2 => cases stepped
  | next p =>
    simp only [step] at stepped
    split at stepped
    case isTrue running => exact ⟨running, move_of_next stepped⟩
    case isFalse => cases stepped

end Steps

end SharedFile

end Xv6
