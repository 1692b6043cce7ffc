import Xv6.Bio.Cache

/-!
**What the buffer cache is for: a block store with one sleep-lock per block.**

The interface `bio.c` states: a process gets a disk block with `bread`, which returns it locked,
changes it with `bwrite` (or the log's `log_write`), and gives it up with `brelse`; only one
process at a time uses a block. `Store` is that interface with no cache in it: the blocks of every
device, and where each use is, named by the block it works on. `Store.step` takes the events of
`Bcache.step`, so that a run of the cache can be read as a run of the store (`Bio.Refinement`).

* `Store.Exclusive.step` — a step keeps at most one use holding each block;
* `Store.Reachable.exclusive` — so at most one use holds each block in every reachable state.
-/

namespace Xv6

/-- Where a use of a block is: `bcache`'s `BioPc` with the block in place of the buffer. -/
inductive StorePc
  | idle
  | locking (dev blockno : Nat)
  | reading (dev blockno : Nat)
  | holding (dev blockno : Nat)
  | releasing (dev blockno : Nat)
  deriving DecidableEq, Repr

/-- The block whose lock a use holds, from `acquiresleep` to `releasesleep`. -/
def StorePc.holds : StorePc → Option (Nat × Nat)
  | .reading dev blockno | .holding dev blockno => some (dev, blockno)
  | _ => none

/-- The blocks of every device, and the uses of them. -/
@[ext]
structure Store (k : Nat) (β : Type) where
  blocks : Nat → Nat → β
  uses : Fin k → StorePc

namespace Store

variable {n k : Nat} {β : Type}

/-- Block `(dev, blockno)` of `blocks` becomes `data`. -/
def write (blocks : Nat → Nat → β) (dev blockno : Nat) (data : β) : Nat → Nat → β :=
  Function.update blocks dev (Function.update (blocks dev) blockno data)

/-- Use `p` moves to `pc`. -/
def setUse (a : Store k β) (p : Fin k) (pc : StorePc) : Store k β :=
  { a with uses := Function.update a.uses p pc }

/-- One step of the interface, if it is enabled: `bread` asks for a block and waits for its lock,
then reads it; `bwrite` and `log_write` change the block the use holds; `brelse` unlocks it and
ends the use. -/
def step (a : Store k β) : BioEvent n k β → Option (Store k β)
  | .bget p dev blockno =>
    if a.uses p = .idle then some (a.setUse p (.locking dev blockno)) else none
  | .lock p =>
    match a.uses p with
    | .locking dev blockno =>
      -- asleep while another use holds the block
      if ∃ q, (a.uses q).holds = some (dev, blockno) then none
      else some (a.setUse p (.reading dev blockno))
    | _ => none
  | .read p =>
    match a.uses p with
    | .reading dev blockno => some (a.setUse p (.holding dev blockno))
    | _ => none
  | .bwrite p data =>
    match a.uses p with
    | .holding dev blockno => some { a with blocks := write a.blocks dev blockno data }
    | _ => none
  | .logWrite p data =>
    match a.uses p with
    | .holding dev blockno => some { a with blocks := write a.blocks dev blockno data }
    | _ => none
  | .unlock p =>
    match a.uses p with
    | .holding dev blockno => some (a.setUse p (.releasing dev blockno))
    | _ => none
  | .release p =>
    match a.uses p with
    | .releasing _ _ => some (a.setUse p .idle)
    | _ => none

/-- No use has begun. -/
def Initial (a : Store k β) : Prop := ∀ p, a.uses p = .idle

/-- The states of the store reached by the events of a cache of `n` buffers. -/
def Reachable (n : Nat) (a : Store k β) : Prop := Lib.Reachable Initial (step (n := n)) a

@[simp] theorem setUse_blocks (a : Store k β) (p : Fin k) (pc : StorePc) :
    (a.setUse p pc).blocks = a.blocks := rfl

@[simp] theorem setUse_uses (a : Store k β) (p : Fin k) (pc : StorePc) :
    (a.setUse p pc).uses = Function.update a.uses p pc := rfl

@[simp] theorem write_self (blocks : Nat → Nat → β) (dev blockno : Nat) (data : β) :
    write blocks dev blockno data dev blockno = data := by
  simp [write]

theorem write_of_ne {blocks : Nat → Nat → β} {dev blockno dev' blockno' : Nat} {data : β}
    (other : (dev', blockno') ≠ (dev, blockno)) :
    write blocks dev blockno data dev' blockno' = blocks dev' blockno' := by
  by_cases same : dev' = dev
  · subst same
    have apart : blockno' ≠ blockno := fun same' => other (by rw [same'])
    rw [write, Function.update_self, Function.update_of_ne apart]
  · rw [write, Function.update_of_ne same]

/-! ### Each event's step -/

section Steps

variable {a : Store k β} {p : Fin k} {dev blockno : Nat}

theorem step_bget (idle : a.uses p = .idle) (dev blockno : Nat) :
    a.step (n := n) (.bget p dev blockno) = some (a.setUse p (.locking dev blockno)) := by
  simp [step, idle]

theorem step_lock (locking : a.uses p = .locking dev blockno)
    (free : ∀ q, (a.uses q).holds ≠ some (dev, blockno)) :
    a.step (n := n) (.lock p) = some (a.setUse p (.reading dev blockno)) := by
  simp [step, locking, free]

theorem step_read (reading : a.uses p = .reading dev blockno) :
    a.step (n := n) (.read p) = some (a.setUse p (.holding dev blockno)) := by
  simp [step, reading]

theorem step_bwrite (holding : a.uses p = .holding dev blockno) (data : β) :
    a.step (n := n) (.bwrite p data) = some { a with blocks := write a.blocks dev blockno data } := by
  simp [step, holding]

theorem step_logWrite (holding : a.uses p = .holding dev blockno) (data : β) :
    a.step (n := n) (.logWrite p data) =
      some { a with blocks := write a.blocks dev blockno data } := by
  simp [step, holding]

theorem step_unlock (holding : a.uses p = .holding dev blockno) :
    a.step (n := n) (.unlock p) = some (a.setUse p (.releasing dev blockno)) := by
  simp [step, holding]

theorem step_release (releasing : a.uses p = .releasing dev blockno) :
    a.step (n := n) (.release p) = some (a.setUse p .idle) := by
  simp [step, releasing]

end Steps

/-! ### One holder per block -/

/-- At most one use holds each block. -/
def Exclusive (a : Store k β) : Prop :=
  ∀ p q key, (a.uses p).holds = some key → (a.uses q).holds = some key → p = q

variable {a a' : Store k β} {p : Fin k}

/-- Use `p` moves to `pc` and keeps the store exclusive, when what `pc` holds `p` held already or
no use held. -/
theorem Exclusive.setUse (exclusive : a.Exclusive) {pc : StorePc}
    (fresh : ∀ key, pc.holds = some key →
      (a.uses p).holds = some key ∨ ∀ q, (a.uses q).holds ≠ some key) :
    (a.setUse p pc).Exclusive := by
  have other : ∀ q, q ≠ p → (a.setUse p pc).uses q = a.uses q :=
    fun q apart => Function.update_of_ne apart _ _
  -- the use that is `p` holds what `pc` holds; it was `p`, or no use held it
  have moved : ∀ q key, pc.holds = some key → q ≠ p → (a.uses q).holds = some key → p = q := by
    intro q key held apart held'
    rcases fresh key held with was | free
    · exact exclusive p q key was held'
    · exact absurd held' (free q)
  intro p' q' key held held'
  by_cases first : p' = p <;> by_cases second : q' = p
  · rw [first, second]
  · subst first
    rw [setUse_uses, Function.update_self] at held
    rw [other q' second] at held'
    exact moved q' key held second held'
  · subst second
    rw [setUse_uses, Function.update_self] at held'
    rw [other p' first] at held
    exact (moved p' key held' first held).symm
  · rw [other p' first] at held
    rw [other q' second] at held'
    exact exclusive p' q' key held held'

/-- **A step keeps at most one holder per block**: `lock` is enabled only on a block no use holds,
and `read` keeps the block its use holds. -/
theorem Exclusive.step (exclusive : a.Exclusive) {e : BioEvent n k β}
    (stepped : a.step e = some a') : a'.Exclusive := by
  -- a move to a place that holds nothing keeps the store exclusive
  have released : ∀ {p : Fin k} {pc : StorePc}, pc.holds = none → (a.setUse p pc).Exclusive :=
    fun none => exclusive.setUse fun key held => by rw [none] at held; cases held
  cases e with
  | bget p dev blockno =>
    simp only [Store.step] at stepped
    split at stepped
    · cases stepped
      exact released rfl
    · cases stepped
  | lock p =>
    simp only [Store.step] at stepped
    split at stepped
    case h_1 dev blockno locking =>
      split at stepped
      · cases stepped
      case isFalse free =>
        cases stepped
        refine exclusive.setUse fun key held => .inr fun q held' => free ⟨q, ?_⟩
        cases held
        exact held'
    case h_2 => cases stepped
  | read p =>
    simp only [Store.step] at stepped
    split at stepped
    case h_1 dev blockno reading =>
      cases stepped
      exact exclusive.setUse fun key held => .inl (by rw [reading]; exact held)
    case h_2 => cases stepped
  | bwrite p data =>
    simp only [Store.step] at stepped
    split at stepped
    · cases stepped
      exact exclusive
    · cases stepped
  | logWrite p data =>
    simp only [Store.step] at stepped
    split at stepped
    · cases stepped
      exact exclusive
    · cases stepped
  | unlock p =>
    simp only [Store.step] at stepped
    split at stepped
    · cases stepped
      exact released rfl
    · cases stepped
  | release p =>
    simp only [Store.step] at stepped
    split at stepped
    · cases stepped
      exact released rfl
    · cases stepped

/-- **At most one use holds each block**, in every reachable state of the store. -/
theorem Reachable.exclusive (reach : a.Reachable n) : a.Exclusive :=
  Lib.Reachable.induction Exclusive
    (fun _ initial p q key held _ => by rw [initial p] at held; cases held)
    (fun _ _ _ exclusive stepped => exclusive.step stepped) reach

end Store

end Xv6
