import Xv6.Bio.Invariant
import Xv6.Bio.Store

/-!
**The buffer cache refines the block store.**

`Bcache.view` reads a state of the cache as a state of `Store`: block `(dev, blockno)` holds the
data of the valid buffer that holds it, else what the disk holds (`content`), and each use works on
the block of its buffer. Under the invariant of `Bio.Invariant`:

* `Inv.content_eq` — a valid buffer holds its block's content, so no two disagree;
* `Inv.refines` — a step of the cache that does not panic is the same step of the store on the view:
  `bread` waits for the block's lock, `bwrite` and `log_write` write the block, the rest change no
  block;
* `Reachable.run_refines` — every run of the cache from `binit` that has not panicked is a run of
  the store from the disk;
* `Reachable.holder_data` — a use that holds a buffer reads in it what the store holds;
* `Reachable.block_exclusive` — two uses never hold buffers of the same block at once, the store's
  exclusion read back through the view.
-/

namespace Xv6

namespace Bcache

variable {n k : Nat} {β : Type}

/-- Buffer `c` is valid and holds block `(dev, blockno)`. -/
def validFor (s : Bcache n k β) (dev blockno : Nat) (c : Fin n) : Bool :=
  (s.buf c).flags.valid && (s.buf c).dev == dev && (s.buf c).blockno == blockno

/-- What block `(dev, blockno)` holds for the file system: the data of the first valid buffer that
holds it, else the disk's. -/
def content (s : Bcache n k β) (dev blockno : Nat) : β :=
  match (List.finRange n).find? (s.validFor dev blockno) with
  | some c => (s.buf c).data
  | none => s.disk dev blockno

/-- A use, named by the block of its buffer. -/
def viewPc (s : Bcache n k β) : BioPc n → StorePc
  | .idle => .idle
  | .locking b => .locking (s.buf b).dev (s.buf b).blockno
  | .reading b => .reading (s.buf b).dev (s.buf b).blockno
  | .holding b => .holding (s.buf b).dev (s.buf b).blockno
  | .releasing b => .releasing (s.buf b).dev (s.buf b).blockno

/-- The cache as the block store it stands for. -/
def view (s : Bcache n k β) : Store k β := ⟨s.content, fun p => s.viewPc (s.uses p)⟩

@[simp] theorem view_blocks (s : Bcache n k β) : s.view.blocks = s.content := rfl

@[simp] theorem view_uses (s : Bcache n k β) (p : Fin k) : s.view.uses p = s.viewPc (s.uses p) :=
  rfl

/-! ### The content of a block -/

section Content

variable {s t : Bcache n k β} {order : List (Fin n)} {b c : Fin n} {dev blockno : Nat}

theorem validFor_iff :
    s.validFor dev blockno c = true ↔
      (s.buf c).flags.valid = true ∧ (s.buf c).dev = dev ∧ (s.buf c).blockno = blockno := by
  simp [validFor, and_assoc]

theorem validFor_of_ne (other : ((s.buf c).dev, (s.buf c).blockno) ≠ (dev, blockno)) :
    s.validFor dev blockno c = false := by
  cases valid : s.validFor dev blockno c with
  | false => rfl
  | true =>
    obtain ⟨-, same, same'⟩ := validFor_iff.1 valid
    exact absurd (by rw [same, same']) other

theorem validFor_of_invalid (invalid : (s.buf c).flags.valid = false) :
    s.validFor dev blockno c = false := by
  simp [validFor, invalid]

/-- A valid buffer is not untouched. -/
theorem not_untouched_of_valid (valid : (s.buf b).flags.valid = true) : ¬s.untouched b :=
  fun blank => by
    rw [blank.2] at valid
    cases valid

/-- A block that one valid buffer holds holds that buffer's data. -/
theorem content_of_unique (valid : s.validFor dev blockno b = true)
    (unique : ∀ c, s.validFor dev blockno c = true → c = b) :
    s.content dev blockno = (s.buf b).data := by
  unfold content
  cases found : (List.finRange n).find? (s.validFor dev blockno) with
  | some c => rw [unique c (List.find?_some found)]
  | none =>
    have missed := List.find?_eq_none.mp found b (List.mem_finRange b)
    rw [valid] at missed
    cases missed rfl

/-- No valid buffer but `b` holds the block of a buffer `b` a use has touched. -/
theorem Inv.validFor_other (inv : s.Inv order) (touched : ¬s.untouched b) (other : c ≠ b) :
    s.validFor (s.buf b).dev (s.buf b).blockno c = false := by
  cases valid : s.validFor (s.buf b).dev (s.buf b).blockno c with
  | false => rfl
  | true =>
    obtain ⟨valid', dev, blockno⟩ := validFor_iff.1 valid
    exact absurd (inv.eq_of_sameBlock ⟨dev, blockno⟩ (not_untouched_of_valid valid') touched) other

/-- **A valid buffer holds its block's content**: it is the one valid buffer with its block. -/
theorem Inv.content_eq (inv : s.Inv order) (valid : (s.buf b).flags.valid = true) :
    s.content (s.buf b).dev (s.buf b).blockno = (s.buf b).data := by
  refine content_of_unique (validFor_iff.2 ⟨valid, rfl, rfl⟩) fun c valid' => ?_
  by_contra other
  rw [inv.validFor_other (not_untouched_of_valid valid) other] at valid'
  cases valid'

/-- A block that no valid buffer holds holds what the disk holds. -/
theorem content_of_none (none : ∀ c, s.validFor dev blockno c = false) :
    s.content dev blockno = s.disk dev blockno := by
  rw [content, List.find?_eq_none.mpr fun c _ => by simp [none c]]

/-- A block's content depends only on the valid buffers that hold it and on the disk. -/
theorem content_congr (agree : ∀ c, t.validFor dev blockno c = s.validFor dev blockno c)
    (data : ∀ c, s.validFor dev blockno c = true → (t.buf c).data = (s.buf c).data)
    (disk : t.disk dev blockno = s.disk dev blockno) :
    t.content dev blockno = s.content dev blockno := by
  have same : t.validFor dev blockno = s.validFor dev blockno := funext agree
  unfold content
  rw [same]
  cases found : (List.finRange n).find? (s.validFor dev blockno) with
  | some c => exact data c (List.find?_some found)
  | none => exact disk

/-- A step that changes only buffer `b`, and neither it nor the disk at a block, keeps the block's
content. -/
theorem content_of_agree (bufs : ∀ c, c ≠ b → t.buf c = s.buf c)
    (agree : t.validFor dev blockno b = s.validFor dev blockno b)
    (data : s.validFor dev blockno b = true → (t.buf b).data = (s.buf b).data)
    (disk : t.disk dev blockno = s.disk dev blockno) :
    t.content dev blockno = s.content dev blockno := by
  refine content_congr (fun c => ?_) (fun c valid => ?_) disk
  · by_cases here : c = b
    · rw [here, agree]
    · rw [validFor, validFor, bufs c here]
  · by_cases here : c = b
    · rw [here]
      exact data (here ▸ valid)
    · rw [bufs c here]

end Content

/-! ### The view -/

section View

variable {s t : Bcache n k β} {order : List (Fin n)} {b : Fin n} {p : Fin k}

/-- The view of a use depends only on the block of its buffer. -/
theorem viewPc_congr {pc : BioPc n}
    (keys : ∀ c, pc.buf? = some c →
      (t.buf c).dev = (s.buf c).dev ∧ (t.buf c).blockno = (s.buf c).blockno) :
    t.viewPc pc = s.viewPc pc := by
  cases pc with
  | idle => rfl
  | locking c =>
    obtain ⟨dev, blockno⟩ := keys c rfl
    simp [viewPc, dev, blockno]
  | reading c =>
    obtain ⟨dev, blockno⟩ := keys c rfl
    simp [viewPc, dev, blockno]
  | holding c =>
    obtain ⟨dev, blockno⟩ := keys c rfl
    simp [viewPc, dev, blockno]
  | releasing c =>
    obtain ⟨dev, blockno⟩ := keys c rfl
    simp [viewPc, dev, blockno]

/-- A use holds the block of the buffer it holds. -/
theorem viewPc_holds (pc : BioPc n) :
    (s.viewPc pc).holds = pc.holds.map fun c => ((s.buf c).dev, (s.buf c).blockno) := by
  cases pc <;> rfl

@[simp] theorem viewPc_setUse (s : Bcache n k β) (p : Fin k) (pc : BioPc n) :
    (s.setUse p pc).viewPc = s.viewPc := rfl

@[simp] theorem view_setUse (s : Bcache n k β) (p : Fin k) (pc : BioPc n) :
    (s.setUse p pc).view = s.view.setUse p (s.viewPc pc) := by
  refine Store.ext rfl (funext fun q => ?_)
  by_cases here : q = p
  · subst here
    simp [view]
  · simp [view, Function.update_of_ne here]

/-- Buffer `b` becomes `x` with the same flags, block and data: a change of its lock or
`refcnt`, which the view does not see. -/
theorem view_setBuf {x : Buf β} (flags : x.flags = (s.buf b).flags) (dev : x.dev = (s.buf b).dev)
    (blockno : x.blockno = (s.buf b).blockno) (data : x.data = (s.buf b).data) :
    (s.setBuf b x).view = s.view := by
  have bufs : ∀ c, c ≠ b → (s.setBuf b x).buf c = s.buf c :=
    fun c other => by simp [Function.update_of_ne other]
  refine Store.ext (funext fun dev' => funext fun blockno' => ?_) (funext fun q => ?_)
  · exact content_of_agree bufs (by simp [validFor, flags, dev, blockno]) (fun _ => by simp [data])
      rfl
  · exact viewPc_congr fun c _ => by
      by_cases here : c = b
      · subst here
        simp [dev, blockno]
      · simp [Function.update_of_ne here]

/-- A buffer's `refcnt` is not in the view. -/
theorem view_setRefcnt (refcnt : Nat) :
    (s.setBuf b { s.buf b with refcnt }).view = s.view :=
  view_setBuf rfl rfl rfl rfl

/-- A buffer's sleep-lock is not in the view. -/
theorem view_setLock (lock : Sleeplock) :
    (s.setBuf b { s.buf b with lock }).view = s.view :=
  view_setBuf rfl rfl rfl rfl

/-- The list of the cache is not in the view. -/
theorem view_relink (s : Bcache n k β) (next prev : BufPtr n → BufPtr n) :
    { s with next, prev }.view = s.view := rfl

/-- `brelse`'s section changes a `refcnt` and the list, which the view does not see. -/
theorem view_release (s : Bcache n k β) (b : Fin n) : (s.release b).view = s.view := by
  dsimp only [Bcache.release]
  split
  · exact (view_relink _ _ _).trans (view_setRefcnt _)
  · exact view_setRefcnt _

/-- `bget` reuses a buffer no use refers to: the view does not see it, since the buffer is no
longer valid and a valid clean buffer held what the disk holds. -/
theorem Inv.view_recycle (inv : s.Inv order) {dev blockno : Nat}
    (unused : (s.buf b).refcnt = 0) (clean : (s.buf b).flags.dirty = false) :
    (s.setBuf b { s.buf b with dev, blockno, flags := ⟨false, false⟩, refcnt := 1 }).view =
      s.view := by
  have bufs : ∀ c, c ≠ b →
      (s.setBuf b { s.buf b with dev, blockno, flags := ⟨false, false⟩, refcnt := 1 }).buf c =
        s.buf c :=
    fun c other => by simp [Function.update_of_ne other]
  have no_use : ∀ q, (s.uses q).buf? ≠ some b := fun q refers => by
    have positive := refs_pos refers
    rw [← inv.counted, unused] at positive
    exact Nat.lt_irrefl 0 positive
  refine Store.ext (funext fun dev' => funext fun blockno' => ?_) (funext fun q => ?_)
  · by_cases special : s.validFor dev' blockno' b = true
    · -- `b` was the valid buffer of its block, and clean: the block's content was on the disk
      obtain ⟨valid, rfl, rfl⟩ := validFor_iff.1 special
      have synced : (s.buf b).flags.synced = true := by simp [BufFlags.synced, valid, clean]
      show _ = s.content (s.buf b).dev (s.buf b).blockno
      rw [inv.content_eq valid, inv.coherent b synced]
      refine content_of_none fun c => ?_
      by_cases here : c = b
      · subst here
        exact validFor_of_invalid (by simp)
      · rw [validFor, bufs c here, ← validFor]
        exact inv.validFor_other (not_untouched_of_valid valid) here
    · exact content_of_agree bufs (by rw [validFor_of_invalid (by simp)]; simpa using special)
        (fun valid => absurd valid special) rfl
  · exact viewPc_congr fun c refers => by
      have other : c ≠ b := fun here => no_use q (here ▸ refers)
      rw [bufs c other]
      exact ⟨rfl, rfl⟩

/-- `bread`'s `iderw` fills a held buffer that is not valid from the disk: the view does not see
it, since no valid buffer held the block, whose content was on the disk. -/
theorem Inv.view_fill (inv : s.Inv order) (held : (s.uses p).holds = some b)
    (invalid : (s.buf b).flags.valid = false) :
    (s.setBuf b
      { s.buf b with
        data := s.disk (s.buf b).dev (s.buf b).blockno, flags := ⟨true, false⟩ }).view = s.view := by
  have touched : ¬s.untouched b := inv.touched (BioPc.buf?_of_holds held)
  have bufs : ∀ c, c ≠ b → (s.setBuf b
      { s.buf b with
        data := s.disk (s.buf b).dev (s.buf b).blockno, flags := ⟨true, false⟩ }).buf c = s.buf c :=
    fun c other => by simp [Function.update_of_ne other]
  refine Store.ext (funext fun dev' => funext fun blockno' => ?_) (funext fun q => ?_)
  · by_cases here : ((s.buf b).dev, (s.buf b).blockno) = (dev', blockno')
    · -- the block of `b`: on the disk before, in `b` after
      obtain ⟨rfl, rfl⟩ := Prod.mk.inj here
      show _ = s.content (s.buf b).dev (s.buf b).blockno
      rw [content_of_none fun c => ?_]
      · refine (content_of_unique (b := b) (validFor_iff.2 ⟨by simp, by simp, by simp⟩)
          fun c valid => ?_).trans (by simp)
        by_contra other
        rw [validFor, bufs c other, ← validFor, inv.validFor_other touched other] at valid
        cases valid
      · by_cases other : c = b
        · rw [other]
          exact validFor_of_invalid invalid
        · exact inv.validFor_other touched other
    · exact content_of_agree bufs (by rw [validFor_of_ne (by simpa using here),
        validFor_of_ne here]) (fun valid => by rw [validFor_of_ne here] at valid; cases valid) rfl
  · exact viewPc_congr fun c _ => by
      by_cases here : c = b
      · subst here
        simp
      · rw [bufs c here]
        exact ⟨rfl, rfl⟩

/-- `bwrite` and `log_write` by the holder of `b`: the view's block of `b` takes the data. -/
theorem Inv.view_write (inv : s.Inv order) (held : (s.uses p).holds = some b) {d : β}
    {f : BufFlags} (bufs : ∀ c, c ≠ b → t.buf c = s.buf c)
    (here : t.buf b = { s.buf b with data := d, flags := f }) (valid : f.valid = true)
    (uses : t.uses = s.uses)
    (disk : ∀ dev blockno, ((s.buf b).dev, (s.buf b).blockno) ≠ (dev, blockno) →
      t.disk dev blockno = s.disk dev blockno) :
    t.view = { s.view with blocks := Store.write s.content (s.buf b).dev (s.buf b).blockno d } := by
  have touched : ¬s.untouched b := inv.touched (BioPc.buf?_of_holds held)
  refine Store.ext (funext fun dev' => funext fun blockno' => ?_) (funext fun q => ?_)
  · by_cases same : ((s.buf b).dev, (s.buf b).blockno) = (dev', blockno')
    · -- `b` is the one valid buffer with its block, and holds `d`
      obtain ⟨rfl, rfl⟩ := Prod.mk.inj same
      show _ = Store.write _ _ _ _ _ _
      rw [Store.write_self]
      refine (content_of_unique (b := b) (validFor_iff.2 ⟨by simp [here, valid], by simp [here],
        by simp [here]⟩) fun c valid' => ?_).trans (by simp [here])
      by_contra other
      rw [validFor, bufs c other, ← validFor, inv.validFor_other touched other] at valid'
      cases valid'
    · show _ = Store.write _ _ _ _ _ _
      rw [Store.write_of_ne (Ne.symm same)]
      have apart : ((t.buf b).dev, (t.buf b).blockno) ≠ (dev', blockno') := by simpa [here] using same
      exact content_of_agree bufs (by rw [validFor_of_ne apart, validFor_of_ne same])
        (fun valid' => by rw [validFor_of_ne same] at valid'; cases valid') (disk dev' blockno' same)
  · show t.viewPc (t.uses q) = s.viewPc (s.uses q)
    rw [uses]
    exact viewPc_congr fun c _ => by
      by_cases other : c = b
      · subst other
        simp [here]
      · rw [bufs c other]
        exact ⟨rfl, rfl⟩


end View

/-! ### Each step of the cache is a step of the store -/

section Refines

variable {s t : Bcache n k β} {order : List (Fin n)} {e : BioEvent n k β}

/-- **One step of the cache that does not panic is the same step of the store** on the view. -/
theorem Inv.refines (inv : s.Inv order) (move : s.Move e t) (running : t.halted = none) :
    Store.step s.view e = some t.view := by
  cases move with
  | @bget p idle dev blockno =>
    have viewing : s.view.uses p = .idle := by simp [idle, viewPc]
    rcases bget_cases inv.cycle inv.length_le p dev blockno with
      ⟨b, found, hit⟩ | ⟨b, -, found, reused⟩ | full
    · -- the first buffer with the block
      obtain ⟨key, -⟩ := List.find?_eq_some_iff_append.mp found
      simp only [Function.comp_apply, Bcache.cached, Bool.and_eq_true, beq_iff_eq] at key
      rw [Store.step_bget viewing, hit, view_setUse, view_setRefcnt]
      simp [viewPc, key.1, key.2]
    · -- the last buffer free to reuse
      have free := List.find?_some found
      simp only [Function.comp_apply, recyclable, Bool.and_eq_true, beq_iff_eq,
        Bool.not_eq_true'] at free
      rw [Store.step_bget viewing, reused, view_setUse, inv.view_recycle free.1 free.2]
      simp [viewPc]
    · rw [full] at running
      cases running
  | @lock p b locking free =>
    have viewing : s.view.uses p = .locking (s.buf b).dev (s.buf b).blockno := by
      simp [locking, viewPc]
    -- no use holds the block, since the one touched buffer with it, `b`, is not locked
    have unheld : ∀ q, (s.view.uses q).holds ≠ some ((s.buf b).dev, (s.buf b).blockno) := by
      intro q held
      rw [view_uses, viewPc_holds, Option.map_eq_some_iff] at held
      obtain ⟨c, holds, same⟩ := held
      have here : c = b := inv.eq_of_sameBlock (Prod.mk.inj same)
        (inv.touched (BioPc.buf?_of_holds holds)) (inv.touched (by rw [locking]; rfl))
      subst here
      rw [(inv.locked c).mpr ⟨q, holds⟩] at free
      cases free
    rw [Store.step_lock viewing unheld, view_setUse, acquiresleep, view_setLock]
    simp [viewPc]
  | @read p b reading =>
    have held : (s.uses p).holds = some b := by rw [reading]; rfl
    have viewing : s.view.uses p = .reading (s.buf b).dev (s.buf b).blockno := by
      simp [reading, viewPc]
    rw [Store.step_read viewing]
    cases valid : (s.buf b).flags.valid with
    | true =>
      rw [bread_of_valid valid, view_setUse]
      rfl
    | false =>
      rw [bread_of_invalid (inv.holdingsleep held) valid (inv.clean valid), view_setUse,
        inv.view_fill held valid]
      simp [viewPc]
  | @bwrite p b holding data =>
    have held : (s.uses p).holds = some b := by rw [holding]; rfl
    have viewing : s.view.uses p = .holding (s.buf b).dev (s.buf b).blockno := by
      simp [holding, viewPc]
    rw [Store.step_bwrite viewing, bwrite_of_held (inv.holdingsleep held)]
    refine congrArg some (Eq.symm ?_)
    exact inv.view_write (f := ⟨true, false⟩) held
      (fun c other => by simp [Function.update_of_ne other]) (by simp) rfl rfl
      fun _ _ other => update_disk_of_ne (Ne.symm other)
  | @logWrite p b holding data =>
    have held : (s.uses p).holds = some b := by rw [holding]; rfl
    have viewing : s.view.uses p = .holding (s.buf b).dev (s.buf b).blockno := by
      simp [holding, viewPc]
    rw [Store.step_logWrite viewing]
    refine congrArg some (Eq.symm ?_)
    exact inv.view_write (f := { (s.buf b).flags with dirty := true }) held
      (fun c other => by simp [Bcache.logWrite, Function.update_of_ne other])
      (by simp [Bcache.logWrite]) (inv.held_valid p b (.inl holding)) rfl fun _ _ _ => rfl
  | @unlock p b holding =>
    have held : (s.uses p).holds = some b := by rw [holding]; rfl
    have viewing : s.view.uses p = .holding (s.buf b).dev (s.buf b).blockno := by
      simp [holding, viewPc]
    rw [Store.step_unlock viewing, unlock_of_held (inv.holdingsleep held), view_setUse,
      releasesleep, view_setLock]
    simp [viewPc]
  | @release p b releasing =>
    have viewing : s.view.uses p = .releasing (s.buf b).dev (s.buf b).blockno := by
      simp [releasing, viewPc]
    rw [Store.step_release viewing, view_setUse, view_release]
    rfl

end Refines

/-! ### Every run -/

section Runs

variable {s t : Bcache n k β} {e : BioEvent n k β}

/-- After `binit` the cache stands for the disk, with no use begun. -/
theorem Initial.view (init : s.Initial) : s.view = ⟨s.disk, fun _ => .idle⟩ := by
  obtain ⟨-, blank, idle, -⟩ := init
  refine Store.ext (funext fun dev => funext fun blockno => ?_) (funext fun p => ?_)
  · exact content_of_none fun c => validFor_of_invalid (by rw [blank c]; rfl)
  · simp [idle, viewPc]

/-- **One step of the cache from a reachable state that does not panic is the same step of the
store** on the view. -/
theorem Reachable.refines (reach : s.Reachable) (stepped : s.step e = some t)
    (running : t.halted = none) : Store.step s.view e = some t.view := by
  obtain ⟨order, kept⟩ := reach.inv
  exact kept.refines (move_of_step stepped).2 running

/-- A step of the cache from a reachable state that has not panicked is enabled in the store,
panic or not: a step that panics is a `bget`, which the store takes from an idle use. -/
theorem Reachable.enabled (reach : s.Reachable) (stepped : s.step e = some t) :
    ∃ a, Store.step s.view e = some a := by
  obtain ⟨order, kept⟩ := reach.inv
  obtain ⟨running, move⟩ := move_of_step stepped
  rcases kept.halted_move running move with none | ⟨⟨p, dev, blockno, rfl⟩, -⟩
  · exact ⟨t.view, kept.refines move none⟩
  · cases move with
    | bget idle => exact ⟨_, Store.step_bget (by simp [idle, viewPc]) dev blockno⟩

/-- **Refinement of runs.** Every run of the cache from `binit` that has not panicked is, on the
view, the same run of the block store from the disk with no use begun. -/
theorem Reachable.run_refines (init : s.Initial) {events : List (BioEvent n k β)}
    (ran : Lib.run step s events = some t) (running : t.halted = none) :
    Lib.run Store.step (⟨s.disk, fun _ => .idle⟩ : Store k β) events = some t.view := by
  -- related: a reachable cache, and the store it stands for until it panics
  let Sim : Bcache n k β → Store k β → Prop := fun s a => s.Reachable ∧ (s.halted = none → a = s.view)
  have matched : ∀ {s : Bcache n k β} {a : Store k β} {e : BioEvent n k β} {s' : Bcache n k β},
      Sim s a → s.step e = some s' → ∃ a', Store.step a e = some a' ∧ Sim s' a' := by
    intro s a e s' related stepped
    obtain ⟨reach, viewed⟩ := related
    rw [viewed (move_of_step stepped).1]
    by_cases running' : s'.halted = none
    · exact ⟨s'.view, reach.refines stepped running', reach.step e stepped, fun _ => rfl⟩
    · obtain ⟨a', enabled⟩ := reach.enabled stepped
      exact ⟨a', enabled, reach.step e stepped, fun none => absurd none running'⟩
  obtain ⟨a, ran', -, viewed⟩ := Lib.run_simulation Sim @matched
    ⟨Lib.Reachable.init init, fun _ => (Initial.view init).symm⟩ ran
  rw [ran', viewed running]

theorem sharedBlock_run_refines :
    Lib.run Store.step (⟨fun _ _ => 0, fun _ => .idle⟩ : Store 2 Nat) sharedBlockEvents =
      some sharedBlock.view :=
  Reachable.run_refines (boot_initial _ _) (Option.some_get _).symm (by decide)

/-- **What a holder reads.** A use that holds a buffer reads in it its block's content: the data of
the last `bwrite` or `log_write` of the block, else the disk's. -/
theorem Reachable.holder_data (reach : s.Reachable) {p : Fin k} {b : Fin n}
    (holding : s.uses p = .holding b) :
    (s.buf b).data = s.content (s.buf b).dev (s.buf b).blockno := by
  obtain ⟨order, kept⟩ := reach.inv
  exact (kept.content_eq (kept.held_valid p b (.inl holding))).symm

theorem sharedBlock_holder_data :
    sharedBlock.uses 0 = .holding 0 ∧
      (sharedBlock.buf 0).data =
        sharedBlock.content (sharedBlock.buf 0).dev (sharedBlock.buf 0).blockno :=
  ⟨by decide, Reachable.holder_data sharedBlock_reachable (p := 0) (by decide)⟩

/-- The store a reachable cache that has not panicked stands for is reachable. -/
theorem Reachable.view_reachable (reach : s.Reachable) (running : s.halted = none) :
    Store.Reachable n s.view :=
  Lib.Reachable.induction_under (fun s => ∃ order, s.Inv order)
    (fun s => s.halted = none → Store.Reachable n s.view) (fun reach => Reachable.inv reach)
    (fun s init _ => Lib.Reachable.init (by rw [Initial.view init]; exact fun _ => rfl))
    (fun s e t invariant kept stepped running' => by
      obtain ⟨order, sound⟩ := invariant
      obtain ⟨running, move⟩ := move_of_step stepped
      exact (kept running).step e (sound.refines move running')) reach running

/-- **One holder per block.** In a reachable cache that has not panicked, two uses that hold the
sleep-locks of buffers holding the same block are one use: the store's exclusion, through the
view. -/
theorem Reachable.block_exclusive (reach : s.Reachable) (running : s.halted = none) {p q : Fin k}
    {b c : Fin n} (held : (s.uses p).holds = some b) (held' : (s.uses q).holds = some c)
    (same : (s.buf b).dev = (s.buf c).dev ∧ (s.buf b).blockno = (s.buf c).blockno) : p = q := by
  have viewed : ∀ {r : Fin k} {d : Fin n}, (s.uses r).holds = some d →
      (s.view.uses r).holds = some ((s.buf d).dev, (s.buf d).blockno) := fun held => by
    rw [view_uses, viewPc_holds, held]
    rfl
  refine (reach.view_reachable running).exclusive p q _ (viewed held) ?_
  rw [viewed held', same.1, same.2]

theorem sharedBlock_block_exclusive :
    (sharedBlock.uses 0).holds = some 0 ∧ sharedBlock.halted = none ∧ (0 : Fin 2) = 0 :=
  ⟨by decide, by decide,
    Reachable.block_exclusive sharedBlock_reachable (by decide) (p := 0) (q := 0) (b := 0) (c := 0)
      (by decide) (by decide) ⟨rfl, rfl⟩⟩

end Runs

end Bcache

end Xv6
