import Xv6.Lib.Cycle
import Xv6.Lib.Transition
import Xv6.Ide.Driver

/-!
**The buffer cache of `bio.c`.**

`bcache` holds `n` buffers on a list through `bcache.head`, most recently released first. A use of
a buffer runs from `bread` to the end of `brelse`: `bget`'s section under `bcache.lock`, which
finds the block on the list or recycles the last unused clean buffer; `acquiresleep` on the
buffer; `bread`'s test of `B_VALID`; then `bwrite`, `log_write` and `brelse`, whose own section
under `bcache.lock` moves a buffer no one refers to any more to the front. Each section under a
lock is one step, and `acquiresleep` is a step that is enabled only while the sleep-lock is free.
A process that holds several buffers at once is several uses; the pid a use writes into a
sleep-lock is its own (`pidOf`).

The two loops of `bget` follow the `next` and `prev` pointers with `Lib.walk`, `n + 1` turns at
most; a list along which they would not end is a panic of the model. `iderw` is one step: the
IDE driver's own model (`Ide.Queue`) shows that it returns only after the disk completed the
request, and no one but the holder of the buffer's sleep-lock touches the buffer meanwhile. The
data of a buffer is a value of any type `β`, and the disk is the block of each device and block
number. A caller changes `b->data` only to call `bwrite` or `log_write` on it: `bwrite` and
`logWrite` take the new data.
-/

namespace Xv6

/-- A pointer of the list of `bcache`: `&bcache.head`, or a buffer of `bcache.buf`. -/
inductive BufPtr (n : Nat)
  | head
  | buf (b : Fin n)
  deriving DecidableEq, Repr

/-- The fields of `struct sleeplock` that `acquiresleep`, `releasesleep` and `holdingsleep` use. -/
structure Sleeplock where
  locked : Bool
  pid : Nat
  deriving DecidableEq, Repr

/-- The fields of `struct buf` but its list pointers, which `Bcache` keeps, and `qnext`, which is
the driver's. -/
structure Bcache.Buf (β : Type) where
  flags : BufFlags
  dev : Nat
  blockno : Nat
  lock : Sleeplock
  refcnt : Nat
  data : β

/-- A buffer as the zeroed `bcache` holds it before its first use: block 0 of device 0, no flags,
no reference, unlocked. -/
def Bcache.Buf.blank {β : Type} (data : β) : Bcache.Buf β :=
  { flags := ⟨false, false⟩, dev := 0, blockno := 0, lock := ⟨false, 0⟩, refcnt := 0, data }

/-- Where a use of a buffer is. -/
inductive BioPc (n : Nat)
  /-- outside `bread` and `brelse` -/
  | idle
  /-- `bget` returned `b`; `acquiresleep(&b->lock)` to come -/
  | locking (b : Fin n)
  /-- in `bread`, holding `b`'s sleep-lock; the test of `B_VALID` to come -/
  | reading (b : Fin n)
  /-- `bread` returned `b`, whose sleep-lock it holds -/
  | holding (b : Fin n)
  /-- in `brelse`, after `releasesleep`; the section under `bcache.lock` to come -/
  | releasing (b : Fin n)
  deriving DecidableEq, Repr

/-- The buffer a use refers to, from `bget` to the end of `brelse`. -/
def BioPc.buf? {n : Nat} : BioPc n → Option (Fin n)
  | .idle => none
  | .locking b => some b
  | .reading b => some b
  | .holding b => some b
  | .releasing b => some b

/-- The buffer whose sleep-lock a use holds. -/
def BioPc.holds {n : Nat} : BioPc n → Option (Fin n)
  | .reading b => some b
  | .holding b => some b
  | _ => none

/-- A use that holds a buffer's sleep-lock refers to it. -/
theorem BioPc.buf?_of_holds {n : Nat} {pc : BioPc n} {b : Fin n} (held : pc.holds = some b) :
    pc.buf? = some b := by
  cases pc <;> simp_all [BioPc.holds, BioPc.buf?]

/-- `n` buffers and their list, the disks, and `k` uses. -/
structure Bcache (n k : Nat) (β : Type) where
  buf : Fin n → Bcache.Buf β
  next : BufPtr n → BufPtr n
  prev : BufPtr n → BufPtr n
  /-- the block `blockno` of device `dev` -/
  disk : Nat → Nat → β
  uses : Fin k → BioPc n
  halted : Option String

/-- The steps, each of one use. -/
inductive BioEvent (n k : Nat) (β : Type)
  /-- `bread(dev, blockno)`: `bget`'s section under `bcache.lock` -/
  | bget (p : Fin k) (dev blockno : Nat)
  /-- `acquiresleep(&b->lock)` returns -/
  | lock (p : Fin k)
  /-- `bread`: `if((b->flags & B_VALID) == 0) iderw(b)` -/
  | read (p : Fin k)
  /-- the holder stores `data` into `b->data` and calls `bwrite(b)` -/
  | bwrite (p : Fin k) (data : β)
  /-- the holder stores `data` into `b->data` and calls `log_write(b)`, which sets `B_DIRTY` -/
  | logWrite (p : Fin k) (data : β)
  /-- `brelse`: the check of `holdingsleep` and `releasesleep(&b->lock)` -/
  | unlock (p : Fin k)
  /-- `brelse`: the section under `bcache.lock` -/
  | release (p : Fin k)

/-- The pid a use writes into a sleep-lock: pids start at 1. -/
def pidOf {k : Nat} (p : Fin k) : Nat := p.val + 1

/-- `binit`: `bcache.head` alone on the list, then each buffer of `bcache.buf` in turn put right
after it. -/
def binit (n : Nat) : (BufPtr n → BufPtr n) × (BufPtr n → BufPtr n) :=
  ((List.finRange n).map BufPtr.buf).foldl (fun links b => Lib.pushFront links.1 links.2 .head b)
    (fun _ => .head, fun _ => .head)

namespace Bcache

variable {n k : Nat} {β : Type}

/-- `b->dev == dev && b->blockno == blockno`; never the head. -/
def cached (s : Bcache n k β) (dev blockno : Nat) : BufPtr n → Bool
  | .head => false
  | .buf b => (s.buf b).dev == dev && (s.buf b).blockno == blockno

/-- `b->refcnt == 0 && (b->flags & B_DIRTY) == 0`; never the head. -/
def recyclable (s : Bcache n k β) : BufPtr n → Bool
  | .head => false
  | .buf b => (s.buf b).refcnt == 0 && !(s.buf b).flags.dirty

/-- Buffer `b` becomes `x`. -/
def setBuf (s : Bcache n k β) (b : Fin n) (x : Buf β) : Bcache n k β :=
  { s with buf := Function.update s.buf b x }

/-- Use `p` moves to `pc`. -/
def setUse (s : Bcache n k β) (p : Fin k) (pc : BioPc n) : Bcache n k β :=
  { s with uses := Function.update s.uses p pc }

/-- `holdingsleep(&b->lock)` by use `p`. -/
def holdingsleep (s : Bcache n k β) (p : Fin k) (b : Fin n) : Bool :=
  (s.buf b).lock.locked && (s.buf b).lock.pid == pidOf p

/-- `bget(dev, blockno)` by use `p`, its section under `bcache.lock`: the first buffer from the
front that holds the block gets one more reference; if none, the first buffer from the back
with no reference and not dirty is given the block, with no flags and one reference; if none,
the panic. -/
def bget (s : Bcache n k β) (p : Fin k) (dev blockno : Nat) : Bcache n k β :=
  match Lib.walk s.next .head (s.cached dev blockno) (n + 1) (s.next .head) with
  | some (some (.buf b)) =>
    (s.setBuf b { s.buf b with refcnt := (s.buf b).refcnt + 1 }).setUse p (.locking b)
  | some none =>
    match Lib.walk s.prev .head s.recyclable (n + 1) (s.prev .head) with
    | some (some (.buf b)) =>
      (s.setBuf b { s.buf b with dev, blockno, flags := ⟨false, false⟩, refcnt := 1 }).setUse p
        (.locking b)
    | some none => { s with halted := some "bget: no buffers" }
    | _ => { s with halted := some "bget: the list does not end" }
  | _ => { s with halted := some "bget: the list does not end" }

/-- `acquiresleep(&b->lock)` by use `p`, once the lock is free. -/
def acquiresleep (s : Bcache n k β) (p : Fin k) (b : Fin n) : Bcache n k β :=
  s.setBuf b { s.buf b with lock := ⟨true, pidOf p⟩ }

/-- `releasesleep(&b->lock)`. -/
def releasesleep (s : Bcache n k β) (b : Fin n) : Bcache n k β :=
  s.setBuf b { s.buf b with lock := ⟨false, 0⟩ }

/-- `iderw(b)` by use `p`, to its return: the checks that `p` holds `b` and that there is
something to do; then a dirty buffer is written to its block and a clean one read from it, and
the buffer is `B_VALID` and not `B_DIRTY`. -/
def iderw (s : Bcache n k β) (p : Fin k) (b : Fin n) : Bcache n k β :=
  let x := s.buf b
  if !s.holdingsleep p b then { s with halted := some "iderw: buf not locked" }
  else if x.flags.synced then { s with halted := some "iderw: nothing to do" }
  else if x.flags.dirty then
    { s.setBuf b { x with flags := ⟨true, false⟩ } with
      disk := Function.update s.disk x.dev (Function.update (s.disk x.dev) x.blockno x.data) }
  else s.setBuf b { x with data := s.disk x.dev x.blockno, flags := ⟨true, false⟩ }

/-- `bread`'s test, `if((b->flags & B_VALID) == 0) iderw(b)`, by use `p`. -/
def bread (s : Bcache n k β) (p : Fin k) (b : Fin n) : Bcache n k β :=
  if (s.buf b).flags.valid then s else s.iderw p b

/-- `bwrite(b)` by use `p` after it stored `data`: the check of `holdingsleep`,
`b->flags |= B_DIRTY` and `iderw(b)`. -/
def bwrite (s : Bcache n k β) (p : Fin k) (b : Fin n) (data : β) : Bcache n k β :=
  let s := s.setBuf b { s.buf b with data }
  if !s.holdingsleep p b then { s with halted := some "bwrite" }
  else (s.setBuf b { s.buf b with flags := { (s.buf b).flags with dirty := true } }).iderw p b

/-- What `log_write(b)` does to the buffer, after the caller stored `data`:
`b->flags |= B_DIRTY`. -/
def logWrite (s : Bcache n k β) (b : Fin n) (data : β) : Bcache n k β :=
  s.setBuf b { s.buf b with data, flags := { (s.buf b).flags with dirty := true } }

/-- `brelse(b)` by use `p`, to `releasesleep`: the check of `holdingsleep`, then the lock is
free. -/
def unlock (s : Bcache n k β) (p : Fin k) (b : Fin n) : Bcache n k β :=
  if !s.holdingsleep p b then { s with halted := some "brelse" } else s.releasesleep b

/-- `brelse(b)`'s section under `bcache.lock`: `b->refcnt--`, and a buffer no one refers to any
more is taken off the list and put back at its front. -/
def release (s : Bcache n k β) (b : Fin n) : Bcache n k β :=
  let s := s.setBuf b { s.buf b with refcnt := (s.buf b).refcnt - 1 }
  if (s.buf b).refcnt = 0 then
    let unlinked := Lib.unlink s.next s.prev (.buf b)
    let moved := Lib.pushFront unlinked.1 unlinked.2 .head (.buf b)
    { s with next := moved.1, prev := moved.2 }
  else s

/-- One step, if it is enabled. -/
def step (s : Bcache n k β) : BioEvent n k β → Option (Bcache n k β)
  | .bget p dev blockno =>
    if s.halted = none ∧ s.uses p = .idle then some ((s.bget p dev blockno)) else none
  | .lock p =>
    match s.halted, s.uses p with
    | none, .locking b =>
      -- asleep in `acquiresleep` while another holds the lock
      if (s.buf b).lock.locked then none else some ((s.acquiresleep p b).setUse p (.reading b))
    | _, _ => none
  | .read p =>
    match s.halted, s.uses p with
    | none, .reading b => some ((s.bread p b).setUse p (.holding b))
    | _, _ => none
  | .bwrite p data =>
    match s.halted, s.uses p with
    | none, .holding b => some (s.bwrite p b data)
    | _, _ => none
  | .logWrite p data =>
    match s.halted, s.uses p with
    | none, .holding b => some (s.logWrite b data)
    | _, _ => none
  | .unlock p =>
    match s.halted, s.uses p with
    | none, .holding b => some ((s.unlock p b).setUse p (.releasing b))
    | _, _ => none
  | .release p =>
    match s.halted, s.uses p with
    | none, .releasing b => some ((s.release b).setUse p .idle)
    | _, _ => none

/-- The cache after `binit`, before any use. -/
def Initial (s : Bcache n k β) : Prop :=
  (s.next, s.prev) = binit n ∧ (∀ b, s.buf b = Buf.blank (s.buf b).data) ∧
    (∀ p, s.uses p = .idle) ∧ s.halted = none

def Reachable (s : Bcache n k β) : Prop := Lib.Reachable Initial step s

/-- The cache after `binit`, with the buffers' data and the disks as they are. -/
def boot (data : Fin n → β) (disk : Nat → Nat → β) : Bcache n k β where
  buf b := Buf.blank (data b)
  next := (binit n).1
  prev := (binit n).2
  disk := disk
  uses _ := .idle
  halted := none

theorem boot_initial (data : Fin n → β) (disk : Nat → Nat → β) :
    (boot data disk : Bcache n k β).Initial :=
  ⟨rfl, fun _ => rfl, fun _ => rfl, rfl⟩

/-! ### Fields after each store -/

section Fields

variable {s : Bcache n k β} {b c : Fin n} {x : Buf β} {p : Fin k} {pc : BioPc n}

@[simp] theorem setBuf_buf : (s.setBuf b x).buf = Function.update s.buf b x := rfl
@[simp] theorem setBuf_next : (s.setBuf b x).next = s.next := rfl
@[simp] theorem setBuf_prev : (s.setBuf b x).prev = s.prev := rfl
@[simp] theorem setBuf_disk : (s.setBuf b x).disk = s.disk := rfl
@[simp] theorem setBuf_uses : (s.setBuf b x).uses = s.uses := rfl
@[simp] theorem setBuf_halted : (s.setBuf b x).halted = s.halted := rfl
@[simp] theorem setUse_uses : (s.setUse p pc).uses = Function.update s.uses p pc := rfl
@[simp] theorem setUse_buf : (s.setUse p pc).buf = s.buf := rfl
@[simp] theorem setUse_next : (s.setUse p pc).next = s.next := rfl
@[simp] theorem setUse_prev : (s.setUse p pc).prev = s.prev := rfl
@[simp] theorem setUse_disk : (s.setUse p pc).disk = s.disk := rfl
@[simp] theorem setUse_halted : (s.setUse p pc).halted = s.halted := rfl
@[simp] theorem acquiresleep_uses : (s.acquiresleep p b).uses = s.uses := rfl
@[simp] theorem acquiresleep_buf :
    (s.acquiresleep p b).buf = Function.update s.buf b { s.buf b with lock := ⟨true, pidOf p⟩ } :=
  rfl
@[simp] theorem acquiresleep_next : (s.acquiresleep p b).next = s.next := rfl
@[simp] theorem acquiresleep_prev : (s.acquiresleep p b).prev = s.prev := rfl
@[simp] theorem acquiresleep_disk : (s.acquiresleep p b).disk = s.disk := rfl
@[simp] theorem releasesleep_uses : (s.releasesleep b).uses = s.uses := rfl
@[simp] theorem releasesleep_buf :
    (s.releasesleep b).buf = Function.update s.buf b { s.buf b with lock := ⟨false, 0⟩ } := rfl
@[simp] theorem releasesleep_next : (s.releasesleep b).next = s.next := rfl
@[simp] theorem releasesleep_prev : (s.releasesleep b).prev = s.prev := rfl
@[simp] theorem releasesleep_disk : (s.releasesleep b).disk = s.disk := rfl

end Fields

/-! ### `bget` on a list through every buffer -/

section Bget

variable {s : Bcache n k β} {order : List (Fin n)} {p : Fin k} {dev blockno : Nat}

/-- On a cycle through `order`, the front-to-back scan of `bget` is a search of `order`. -/
theorem walk_cached (cycle : Lib.Cycle s.next s.prev .head (order.map .buf))
    (length : order.length ≤ n) :
    Lib.walk s.next .head (s.cached dev blockno) (n + 1) (s.next .head) =
      some ((order.find? (s.cached dev blockno ∘ .buf)).map .buf) := by
  rw [cycle.walk_next (by rw [List.length_map]; omega), List.find?_map]

/-- On a cycle through `order`, the back-to-front scan of `bget` is a search of `order` from its
end. -/
theorem walk_recyclable (cycle : Lib.Cycle s.next s.prev .head (order.map .buf))
    (length : order.length ≤ n) :
    Lib.walk s.prev .head s.recyclable (n + 1) (s.prev .head) =
      some ((order.reverse.find? (s.recyclable ∘ .buf)).map .buf) := by
  rw [cycle.walk_prev (by rw [List.length_map]; omega), ← List.map_reverse, List.find?_map]

variable (cycle : Lib.Cycle s.next s.prev .head (order.map .buf)) (length : order.length ≤ n)
include cycle length

/-- **`bget` of a cached block**: the first buffer on the list that holds it. -/
theorem bget_of_cached {b : Fin n} (found : order.find? (s.cached dev blockno ∘ .buf) = some b) :
    s.bget p dev blockno =
      (s.setBuf b { s.buf b with refcnt := (s.buf b).refcnt + 1 }).setUse p (.locking b) := by
  rw [bget, walk_cached cycle length, found]
  rfl

/-- **`bget` of a block not cached**: the last buffer on the list with no reference and not
dirty, given the block. -/
theorem bget_of_recycled {b : Fin n} (missing : order.find? (s.cached dev blockno ∘ .buf) = none)
    (found : order.reverse.find? (s.recyclable ∘ .buf) = some b) :
    s.bget p dev blockno =
      (s.setBuf b { s.buf b with dev, blockno, flags := ⟨false, false⟩, refcnt := 1 }).setUse p
        (.locking b) := by
  rw [bget, walk_cached cycle length, missing, Option.map_none, walk_recyclable cycle length, found]
  rfl

/-- **`bget` with every buffer in use or dirty**: the panic. -/
theorem bget_of_full (missing : order.find? (s.cached dev blockno ∘ .buf) = none)
    (full : order.reverse.find? (s.recyclable ∘ .buf) = none) :
    s.bget p dev blockno = { s with halted := some "bget: no buffers" } := by
  rw [bget, walk_cached cycle length, missing, Option.map_none, walk_recyclable cycle length, full]
  rfl

/-- **The three outcomes of `bget`**: the first buffer with the block, the last one free to reuse,
or the panic. -/
theorem bget_cases (p : Fin k) (dev blockno : Nat) :
    (∃ b, order.find? (s.cached dev blockno ∘ .buf) = some b ∧
      s.bget p dev blockno =
        (s.setBuf b { s.buf b with refcnt := (s.buf b).refcnt + 1 }).setUse p (.locking b)) ∨
    (∃ b, order.find? (s.cached dev blockno ∘ .buf) = none ∧
      order.reverse.find? (s.recyclable ∘ .buf) = some b ∧
      s.bget p dev blockno =
        (s.setBuf b { s.buf b with dev, blockno, flags := ⟨false, false⟩, refcnt := 1 }).setUse p
          (.locking b)) ∨
    s.bget p dev blockno = { s with halted := some "bget: no buffers" } := by
  cases missing : order.find? (s.cached dev blockno ∘ .buf) with
  | some b => exact .inl ⟨b, rfl, bget_of_cached cycle length missing⟩
  | none =>
    cases found : order.reverse.find? (s.recyclable ∘ .buf) with
    | some b => exact .inr (.inl ⟨b, rfl, rfl, bget_of_recycled cycle length missing found⟩)
    | none => exact .inr (.inr (bget_of_full cycle length missing found))

end Bget

/-! ### The holder's calls -/

section Holder

variable {s : Bcache n k β} {p : Fin k} {b : Fin n}

/-- `iderw` of a buffer that is neither valid nor dirty reads its block. -/
theorem iderw_of_invalid (held : s.holdingsleep p b = true) (invalid : (s.buf b).flags.valid = false)
    (clean : (s.buf b).flags.dirty = false) :
    s.iderw p b =
      s.setBuf b
        { s.buf b with data := s.disk (s.buf b).dev (s.buf b).blockno, flags := ⟨true, false⟩ } := by
  simp [iderw, held, BufFlags.synced, invalid, clean]

/-- `iderw` of a dirty buffer writes it to its block. -/
theorem iderw_of_dirty (held : s.holdingsleep p b = true) (dirty : (s.buf b).flags.dirty = true) :
    s.iderw p b =
      { s.setBuf b { s.buf b with flags := ⟨true, false⟩ } with
        disk := Function.update s.disk (s.buf b).dev
          (Function.update (s.disk (s.buf b).dev) (s.buf b).blockno (s.buf b).data) } := by
  simp [iderw, held, BufFlags.synced, dirty]

/-- `bread`'s test on a buffer that is not valid and not dirty reads its block. -/
theorem bread_of_invalid (held : s.holdingsleep p b = true) (invalid : (s.buf b).flags.valid = false)
    (clean : (s.buf b).flags.dirty = false) :
    s.bread p b =
      s.setBuf b
        { s.buf b with data := s.disk (s.buf b).dev (s.buf b).blockno, flags := ⟨true, false⟩ } := by
  rw [bread, if_neg (by rw [invalid]; decide), iderw_of_invalid held invalid clean]

theorem bread_of_valid (valid : (s.buf b).flags.valid = true) : s.bread p b = s := by
  rw [bread, if_pos valid]

/-- **`bwrite` by the holder**: the new data goes to the block, and the buffer is valid and clean. -/
theorem bwrite_of_held (held : s.holdingsleep p b = true) (data : β) :
    s.bwrite p b data =
      { s.setBuf b { s.buf b with data, flags := ⟨true, false⟩ } with
        disk := Function.update s.disk (s.buf b).dev
          (Function.update (s.disk (s.buf b).dev) (s.buf b).blockno data) } := by
  have held' : (s.setBuf b { s.buf b with data }).holdingsleep p b = true := by
    simpa [holdingsleep] using held
  have held'' : ((s.setBuf b { s.buf b with data }).setBuf b
      { (s.setBuf b { s.buf b with data }).buf b with
        flags := { ((s.setBuf b { s.buf b with data }).buf b).flags with dirty := true } }).holdingsleep
        p b = true := by
    simpa [holdingsleep] using held
  rw [bwrite]
  simp only [held', Bool.not_true, Bool.false_eq_true, if_false]
  rw [iderw_of_dirty held'' (by simp)]
  simp only [setBuf, Function.update_self, Function.update_idem]

/-- `brelse`'s check by the holder passes, and the sleep-lock is released. -/
theorem unlock_of_held (held : s.holdingsleep p b = true) : s.unlock p b = s.releasesleep b := by
  rw [unlock, held]
  rfl

/-- `brelse`'s section on a buffer still referred to by others. -/
theorem release_of_shared (shared : 1 < (s.buf b).refcnt) :
    s.release b = s.setBuf b { s.buf b with refcnt := (s.buf b).refcnt - 1 } := by
  rw [release]
  simp only [setBuf_buf, Function.update_self]
  rw [if_neg (by omega)]

/-- `brelse`'s section on the last reference: the buffer moves to the front of the list. -/
theorem release_of_last (last : (s.buf b).refcnt = 1) :
    s.release b =
      { s.setBuf b { s.buf b with refcnt := 0 } with
        next := (Lib.pushFront (Lib.unlink s.next s.prev (.buf b)).1
          (Lib.unlink s.next s.prev (.buf b)).2 .head (.buf b)).1
        prev := (Lib.pushFront (Lib.unlink s.next s.prev (.buf b)).1
          (Lib.unlink s.next s.prev (.buf b)).2 .head (.buf b)).2 } := by
  rw [release]
  simp only [setBuf_buf, Function.update_self, last, Nat.sub_self, if_true]
  rfl

end Holder

/-! ### What a step can do -/

/-- The steps, with what enables each. -/
inductive Move (s : Bcache n k β) : BioEvent n k β → Bcache n k β → Prop
  | bget {p : Fin k} (idle : s.uses p = .idle) (dev blockno : Nat) :
      Move s (.bget p dev blockno) (s.bget p dev blockno)
  | lock {p : Fin k} {b : Fin n} (locking : s.uses p = .locking b)
      (free : (s.buf b).lock.locked = false) :
      Move s (.lock p) ((s.acquiresleep p b).setUse p (.reading b))
  | read {p : Fin k} {b : Fin n} (reading : s.uses p = .reading b) :
      Move s (.read p) ((s.bread p b).setUse p (.holding b))
  | bwrite {p : Fin k} {b : Fin n} (holding : s.uses p = .holding b) (data : β) :
      Move s (.bwrite p data) (s.bwrite p b data)
  | logWrite {p : Fin k} {b : Fin n} (holding : s.uses p = .holding b) (data : β) :
      Move s (.logWrite p data) (s.logWrite b data)
  | unlock {p : Fin k} {b : Fin n} (holding : s.uses p = .holding b) :
      Move s (.unlock p) ((s.unlock p b).setUse p (.releasing b))
  | release {p : Fin k} {b : Fin n} (releasing : s.uses p = .releasing b) :
      Move s (.release p) ((s.release b).setUse p .idle)

/-- **What a step can do**: from a state that has not panicked, one of the moves. -/
theorem move_of_step {s t : Bcache n k β} {e : BioEvent n k β} (stepped : s.step e = some t) :
    s.halted = none ∧ s.Move e t := by
  cases e with
  | bget p dev blockno =>
    simp only [step] at stepped
    split at stepped
    case isTrue enabled =>
      cases stepped
      exact ⟨enabled.1, .bget enabled.2 dev blockno⟩
    case isFalse => cases stepped
  | lock p =>
    simp only [step] at stepped
    split at stepped
    case h_1 b running locking =>
      split at stepped
      case isTrue => cases stepped
      case isFalse free =>
        cases stepped
        exact ⟨running, .lock locking (by simpa using free)⟩
    case h_2 => cases stepped
  | read p =>
    simp only [step] at stepped
    split at stepped
    case h_1 b running reading =>
      cases stepped
      exact ⟨running, .read reading⟩
    case h_2 => cases stepped
  | bwrite p data =>
    simp only [step] at stepped
    split at stepped
    case h_1 b running holding =>
      cases stepped
      exact ⟨running, .bwrite holding data⟩
    case h_2 => cases stepped
  | logWrite p data =>
    simp only [step] at stepped
    split at stepped
    case h_1 b running holding =>
      cases stepped
      exact ⟨running, .logWrite holding data⟩
    case h_2 => cases stepped
  | unlock p =>
    simp only [step] at stepped
    split at stepped
    case h_1 b running holding =>
      cases stepped
      exact ⟨running, .unlock holding⟩
    case h_2 => cases stepped
  | release p =>
    simp only [step] at stepped
    split at stepped
    case h_1 b running releasing =>
      cases stepped
      exact ⟨running, .release releasing⟩
    case h_2 => cases stepped

end Bcache

end Xv6
