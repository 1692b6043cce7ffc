import Xv6.Bio.Cache

/-!
**The invariant of the buffer cache over every reachable state.**

`Inv s order` says what `binit` sets up and every step keeps:

* the list through `bcache.head` is a cycle through every buffer once, in the order `order`;
* `refcnt` counts the uses that refer to the buffer, from `bget` to the end of `brelse`;
* a buffer's sleep-lock is held exactly by the use in or after `bread` on it, with its pid;
* of the buffers that hold the same block, every one after the first on the list is untouched
  since `binit`;
* a buffer `bread` returned stays valid until its `brelse` ends, a dirty buffer is valid, and a
  valid clean buffer holds what its block on the disk holds.

`Inv.step` — one step keeps it; `Reachable.inv` — it holds in every reachable state.
-/

namespace Xv6

namespace Bcache

variable {n k : Nat} {β : Type}

/-- Buffers `a` and `c` hold the same block. -/
def sameBlock (s : Bcache n k β) (a c : Fin n) : Prop :=
  (s.buf a).dev = (s.buf c).dev ∧ (s.buf a).blockno = (s.buf c).blockno

/-- No use has touched buffer `b` since `binit`: no reference, no flags. -/
def untouched (s : Bcache n k β) (b : Fin n) : Prop :=
  (s.buf b).refcnt = 0 ∧ (s.buf b).flags = ⟨false, false⟩

/-- The number of uses that refer to buffer `b`. -/
def refs (s : Bcache n k β) (b : Fin n) : Nat :=
  (Finset.univ.filter fun p => (s.uses p).buf? = some b).card

/-- **The invariant** of the cache, with `order` the buffers from the front of the list. -/
structure Inv (s : Bcache n k β) (order : List (Fin n)) : Prop where
  /-- the list through `bcache.head` holds every buffer once -/
  cycle : Lib.Cycle s.next s.prev .head (order.map .buf)
  complete : ∀ b, b ∈ order
  /-- `refcnt` counts the uses that refer to the buffer -/
  counted : ∀ b, (s.buf b).refcnt = s.refs b
  /-- the sleep-lock is held by the use in or after `bread` on the buffer, with its pid -/
  locked : ∀ b, (s.buf b).lock.locked = true ↔ ∃ p, (s.uses p).holds = some b
  pid : ∀ p b, (s.uses p).holds = some b → (s.buf b).lock.pid = pidOf p
  /-- a buffer after another on the list with the same block is untouched -/
  first : order.Pairwise fun a c => s.sameBlock a c → s.untouched c
  /-- `bread` returned a valid buffer, which stays valid until `brelse` ends -/
  held_valid : ∀ p b, s.uses p = .holding b ∨ s.uses p = .releasing b → (s.buf b).flags.valid
  dirty_valid : ∀ b, (s.buf b).flags.dirty → (s.buf b).flags.valid
  /-- a valid clean buffer holds what its block holds -/
  coherent : ∀ b, (s.buf b).flags.synced → (s.buf b).data = s.disk (s.buf b).dev (s.buf b).blockno

/-! ### Counting references -/

section Refs

variable {s : Bcache n k β} {b c : Fin n} {x : Buf β} {p : Fin k} {pc : BioPc n}

@[simp] theorem refs_setBuf : (s.setBuf b x).refs c = s.refs c := rfl

/-- The references after use `p` moves to `pc`: `p`'s old one goes, its new one comes. -/
theorem refs_setUse (s : Bcache n k β) (p : Fin k) (pc : BioPc n) (c : Fin n) :
    (s.setUse p pc).refs c + (if (s.uses p).buf? = some c then 1 else 0) =
      s.refs c + (if pc.buf? = some c then 1 else 0) :=
  Lib.card_filter_update s.uses (fun pc => pc.buf? = some c) p pc

/-- A buffer a use refers to has a reference. -/
theorem refs_pos (refers : (s.uses p).buf? = some b) : 0 < s.refs b :=
  Finset.card_pos.mpr ⟨p, Finset.mem_filter.mpr ⟨Finset.mem_univ p, refers⟩⟩

end Refs

/-! ### Consequences of the invariant -/

section Facts

variable {s : Bcache n k β} {order : List (Fin n)} {b : Fin n} {p q : Fin k}

theorem Inv.nodup (inv : s.Inv order) : order.Nodup :=
  List.Nodup.of_map _ inv.cycle.nodup

theorem Inv.length_le (inv : s.Inv order) : order.length ≤ n := by
  simpa using inv.nodup.length_le_card

/-- A buffer a use refers to is not untouched. -/
theorem Inv.touched (inv : s.Inv order) (refers : (s.uses p).buf? = some b) : ¬s.untouched b :=
  fun blank => by
    have := refs_pos refers
    rw [← inv.counted, blank.1] at this
    exact Nat.lt_irrefl 0 this

/-- At most one use holds a buffer's sleep-lock. -/
theorem Inv.holder_unique (inv : s.Inv order) (held : (s.uses p).holds = some b)
    (held' : (s.uses q).holds = some b) : p = q := by
  have same := (inv.pid p b held).symm.trans (inv.pid q b held')
  exact Fin.ext (by simpa [pidOf] using same)

/-- The holder of a sleep-lock passes `holdingsleep`. -/
theorem Inv.holdingsleep (inv : s.Inv order) (held : (s.uses p).holds = some b) :
    s.holdingsleep p b = true := by
  simp only [Bcache.holdingsleep, (inv.locked b).mpr ⟨p, held⟩, inv.pid p b held, beq_self_eq_true,
    Bool.and_self]

/-- A touched buffer is the first on the list with its block. -/
theorem Inv.no_earlier (inv : s.Inv order) (touched : ¬s.untouched b) {as bs : List (Fin n)}
    (split : order = as ++ b :: bs) : ∀ a ∈ as, ¬s.sameBlock a b := by
  intro a mem same
  have pairwise := inv.first
  rw [split, List.pairwise_append] at pairwise
  exact touched (pairwise.2.2 a mem b List.mem_cons_self same)

/-- A buffer a use refers to, or that is valid, is not untouched. -/
theorem not_untouched_of_used (used : (s.buf b).refcnt ≠ 0 ∨ (s.buf b).flags.valid = true) :
    ¬s.untouched b := by
  rintro ⟨unused, blank⟩
  rcases used with referred | valid
  · exact referred unused
  · rw [blank] at valid
    cases valid

/-- A buffer that is not valid is not dirty. -/
theorem Inv.clean (inv : s.Inv order) (invalid : (s.buf b).flags.valid = false) :
    (s.buf b).flags.dirty = false := by
  cases dirty : (s.buf b).flags.dirty with
  | false => rfl
  | true =>
    have valid := inv.dirty_valid b dirty
    rw [invalid] at valid
    cases valid

/-- The list splits at a buffer in one way only. -/
theorem Inv.split_unique (inv : s.Inv order) {as bs as' bs' : List (Fin n)}
    (split : order = as ++ b :: bs) (split' : order = as' ++ b :: bs') : as = as' := by
  have nodup := inv.nodup
  rw [split] at nodup
  have not_as : b ∉ as := fun mem => (List.nodup_append.mp nodup).2.2 b mem b List.mem_cons_self rfl
  have not_bs : b ∉ bs := (List.nodup_cons.mp (List.nodup_append.mp nodup).2.1).1
  exact ((List.append_cons_inj_of_notMem not_as not_bs).mp (split.symm.trans split')).1

end Facts

/-! ### The frame of a step -/

section Frame

variable {s t : Bcache n k β} {order order' : List (Fin n)} {b : Fin n} {p : Fin k}

/-- The references when use `p` moves between two places on the same buffer. -/
theorem refs_setUse_of_eq {pc : BioPc n} (same : pc.buf? = (s.uses p).buf?) (c : Fin n) :
    (s.setUse p pc).refs c = s.refs c := by
  have moved := refs_setUse s p pc c
  rw [same] at moved
  omega

/-- **The frame of a step.** A step that changes buffer `b`, use `p`, the list and the disk keeps
the invariant everywhere else, so it keeps the invariant when it keeps it at `b` and `p`. -/
theorem Inv.change (inv : s.Inv order)
    (cycle : Lib.Cycle t.next t.prev .head (order'.map .buf)) (complete : ∀ c, c ∈ order')
    (bufs : ∀ c, c ≠ b → t.buf c = s.buf c) (others : ∀ q, q ≠ p → t.uses q = s.uses q)
    (disk : ∀ c, c ≠ b → (s.buf c).flags.synced →
      t.disk (s.buf c).dev (s.buf c).blockno = s.disk (s.buf c).dev (s.buf c).blockno)
    (refers : ∀ c, c ≠ b → ((t.uses p).buf? = some c ↔ (s.uses p).buf? = some c))
    (holds : ∀ c, c ≠ b → ((t.uses p).holds = some c ↔ (s.uses p).holds = some c))
    (counted : (t.buf b).refcnt = t.refs b)
    (locked : (t.buf b).lock.locked = true ↔ ∃ q, (t.uses q).holds = some b)
    (pid : ∀ q, (t.uses q).holds = some b → (t.buf b).lock.pid = pidOf q)
    (first : order'.Pairwise fun a c => t.sameBlock a c → t.untouched c)
    (valid : ∀ q c, t.uses q = .holding c ∨ t.uses q = .releasing c → q = p ∨ c = b →
      (t.buf c).flags.valid)
    (dirty : (t.buf b).flags.dirty → (t.buf b).flags.valid)
    (coherent : (t.buf b).flags.synced → (t.buf b).data = t.disk (t.buf b).dev (t.buf b).blockno) :
    t.Inv order' := by
  -- each use refers to and holds a buffer other than `b` in `t` exactly as in `s`
  have refers' : ∀ q c, c ≠ b → ((t.uses q).buf? = some c ↔ (s.uses q).buf? = some c) := by
    intro q c other
    by_cases here : q = p
    · subst here
      exact refers c other
    · rw [others q here]
  have holds' : ∀ q c, c ≠ b → ((t.uses q).holds = some c ↔ (s.uses q).holds = some c) := by
    intro q c other
    by_cases here : q = p
    · subst here
      exact holds c other
    · rw [others q here]
  refine ⟨cycle, complete, fun c => ?_, fun c => ?_, fun q c held => ?_, first,
    fun q c pc => ?_, fun c => ?_, fun c => ?_⟩
  · by_cases here : c = b
    · subst here
      exact counted
    · rw [bufs c here, inv.counted c, refs, refs]
      exact congrArg Finset.card (Finset.filter_congr fun q _ => (refers' q c here).symm)
  · by_cases here : c = b
    · subst here
      exact locked
    · rw [bufs c here, inv.locked c]
      exact exists_congr fun q => (holds' q c here).symm
  · by_cases here : c = b
    · subst here
      exact pid q held
    · rw [bufs c here]
      exact inv.pid q c ((holds' q c here).mp held)
  · by_cases touched : q = p ∨ c = b
    · exact valid q c pc touched
    · rw [not_or] at touched
      rw [bufs c touched.2]
      rw [others q touched.1] at pc
      exact inv.held_valid q c pc
  · by_cases here : c = b
    · subst here
      exact dirty
    · rw [bufs c here]
      exact inv.dirty_valid c
  · by_cases here : c = b
    · subst here
      exact coherent
    · rw [bufs c here]
      intro synced
      rw [inv.coherent c synced, disk c here synced]

/-- Two buffers that hold the same block and that uses touched are the same buffer. -/
theorem Inv.eq_of_sameBlock (inv : s.Inv order) {c : Fin n} (same : s.sameBlock b c)
    (touched : ¬s.untouched b) (touched' : ¬s.untouched c) : b = c := by
  by_contra apart
  obtain ⟨as, bs, split⟩ := List.append_of_mem (inv.complete b)
  have pairwise := inv.first
  rw [split, List.pairwise_append, List.pairwise_cons] at pairwise
  rcases List.mem_append.mp (split ▸ inv.complete c : c ∈ as ++ b :: bs) with before | after
  · exact touched (pairwise.2.2 c before b List.mem_cons_self ⟨same.1.symm, same.2.symm⟩)
  · rcases List.mem_cons.mp after with rfl | after
    · exact apart rfl
    · exact touched' (pairwise.2.1.1 c after same)

/-- A step that changes only buffer `b` and keeps its block keeps which buffers share a block. -/
theorem sameBlock_congr (bufs : ∀ c, c ≠ b → t.buf c = s.buf c)
    (dev : (t.buf b).dev = (s.buf b).dev) (blockno : (t.buf b).blockno = (s.buf b).blockno)
    (a c : Fin n) : t.sameBlock a c ↔ s.sameBlock a c := by
  have keys : ∀ c, (t.buf c).dev = (s.buf c).dev ∧ (t.buf c).blockno = (s.buf c).blockno := by
    intro c
    by_cases here : c = b
    · subst here
      exact ⟨dev, blockno⟩
    · rw [bufs c here]
      exact ⟨rfl, rfl⟩
  simp only [sameBlock, (keys a).1, (keys a).2, (keys c).1, (keys c).2]

/-- The order of the buffers is kept by a step that changes only buffer `b`, keeps its block, and
finds no buffer before `b` on the list with its block. -/
theorem Inv.first_keep (inv : s.Inv order) (bufs : ∀ c, c ≠ b → t.buf c = s.buf c)
    (dev : (t.buf b).dev = (s.buf b).dev) (blockno : (t.buf b).blockno = (s.buf b).blockno)
    (earlier : ∀ as bs, order = as ++ b :: bs → ∀ a ∈ as, ¬s.sameBlock a b) :
    order.Pairwise fun a c => t.sameBlock a c → t.untouched c := by
  obtain ⟨as, bs, split⟩ := List.append_of_mem (inv.complete b)
  have pairwise := inv.first
  have nodup := inv.nodup
  rw [split] at pairwise nodup ⊢
  have same := sameBlock_congr bufs dev blockno
  refine Lib.pairwise_of_agree pairwise nodup (fun x y _ other related blocks => ?_)
    (fun a mem _ blocks => absurd ((same a b).mp blocks) (earlier as bs split a mem))
    (fun c mem other blocks => ?_)
  · rw [untouched, bufs y other]
    exact related ((same x y).mp blocks)
  · rw [untouched, bufs c other]
    exact (List.pairwise_cons.mp (List.pairwise_append.mp pairwise).2.1).1 c mem
      ((same b c).mp blocks)

/-- The order with `b` moved to the front of the list, after a step that changes only buffer `b`
and keeps its block, when a use had touched `b`. -/
theorem Inv.first_moveToFront (inv : s.Inv order) (bufs : ∀ c, c ≠ b → t.buf c = s.buf c)
    (dev : (t.buf b).dev = (s.buf b).dev) (blockno : (t.buf b).blockno = (s.buf b).blockno)
    (touched : ¬s.untouched b) :
    (b :: order.erase b).Pairwise fun a c => t.sameBlock a c → t.untouched c := by
  obtain ⟨as, bs, split⟩ := List.append_of_mem (inv.complete b)
  have pairwise := inv.first
  have nodup := inv.nodup
  rw [split] at pairwise nodup
  have not_as : b ∉ as := fun mem => (List.nodup_append.mp nodup).2.2 b mem b List.mem_cons_self rfl
  rw [split, List.erase_append_right _ not_as, List.erase_cons_head]
  have same := sameBlock_congr bufs dev blockno
  refine Lib.pairwise_moveToFront pairwise nodup (fun x y _ other related blocks => ?_)
    (fun c _ other blocks => ?_)
  · rw [untouched, bufs y other]
    exact related ((same x y).mp blocks)
  · -- the touched `b` is the one touched buffer with its block
    rw [untouched, bufs c other]
    by_contra touched'
    exact other (inv.eq_of_sameBlock ((same b c).mp blocks) touched touched').symm

/-- Use `p` moves between two places where it holds no sleep-lock, or the same one. -/
theorem holds_setUse_of_eq (pc : BioPc n) (same : pc.holds = (s.uses p).holds) (q : Fin k) :
    ((s.setUse p pc).uses q).holds = (s.uses q).holds := by
  by_cases here : q = p
  · subst here
    simpa using same
  · simp [Function.update_of_ne here]

end Frame

/-! ### Each step keeps the invariant -/

section Steps

variable {s : Bcache n k β} {order : List (Fin n)} {b : Fin n} {p : Fin k}

/-- `acquiresleep` on a free lock: no use held it, and now `p` does. -/
theorem Inv.lock (inv : s.Inv order) (locking : s.uses p = .locking b)
    (free : (s.buf b).lock.locked = false) :
    ((s.acquiresleep p b).setUse p (.reading b)).Inv order := by
  have no_holder : ∀ q, (s.uses q).holds ≠ some b := fun q held => by
    rw [(inv.locked b).mpr ⟨q, held⟩] at free
    cases free
  have here : ((s.acquiresleep p b).setUse p (.reading b)).buf b =
      { s.buf b with lock := ⟨true, pidOf p⟩ } := by
    simp [acquiresleep]
  have bufs : ∀ c, c ≠ b → ((s.acquiresleep p b).setUse p (.reading b)).buf c = s.buf c := by
    intro c other
    simp [acquiresleep, Function.update_of_ne other]
  refine inv.change (b := b) (p := p) inv.cycle inv.complete bufs (fun q other => by simp [Function.update_of_ne other])
    (fun _ _ _ => rfl) (fun c _ => by simp [locking, BioPc.buf?])
    (fun c other => by simp [locking, BioPc.holds, Ne.symm other]) ?_ ?_ (fun q held => ?_)
    (inv.first_keep bufs (by rw [here]) (by rw [here])
      fun _ _ split => inv.no_earlier (inv.touched (by rw [locking]; rfl)) split)
    (fun q c pc changed => ?_) (by rw [here]; exact inv.dirty_valid b)
    (by rw [here]; exact inv.coherent b)
  · rw [here, refs_setUse_of_eq (by simp [locking, BioPc.buf?]), acquiresleep, refs_setBuf]
    exact inv.counted b
  · rw [here]
    exact ⟨fun _ => ⟨p, by simp [BioPc.holds]⟩, fun _ => rfl⟩
  · by_cases same : q = p
    · subst same
      rw [here]
    · simp only [setUse_uses, Function.update_of_ne same, acquiresleep, setBuf_uses] at held
      exact absurd held (no_holder q)
  · by_cases same : q = p
    · subst same
      simp at pc
    · have other : c = b := changed.resolve_left same
      subst other
      simp only [setUse_uses, Function.update_of_ne same, acquiresleep, setBuf_uses] at pc
      rw [here]
      exact inv.held_valid q c pc

/-- `brelse`'s `releasesleep` by the holder: no use holds the lock any more. -/
theorem Inv.unlock (inv : s.Inv order) (holding : s.uses p = .holding b) :
    ((s.unlock p b).setUse p (.releasing b)).Inv order := by
  have held : (s.uses p).holds = some b := by rw [holding]; rfl
  rw [unlock_of_held (inv.holdingsleep held)]
  have here : ((s.releasesleep b).setUse p (.releasing b)).buf b =
      { s.buf b with lock := ⟨false, 0⟩ } := by
    simp [releasesleep]
  have bufs : ∀ c, c ≠ b → ((s.releasesleep b).setUse p (.releasing b)).buf c = s.buf c := by
    intro c other
    simp [releasesleep, Function.update_of_ne other]
  have no_holder : ∀ q, ((s.releasesleep b).setUse p (.releasing b)).uses q ≠ .holding b ∧
      ((s.releasesleep b).setUse p (.releasing b)).uses q ≠ .reading b := by
    intro q
    by_cases same : q = p
    · subst same
      simp
    · simp only [setUse_uses, Function.update_of_ne same, releasesleep, setBuf_uses]
      constructor
      · exact fun holding' => same (inv.holder_unique (by rw [holding']; rfl) held)
      · exact fun reading => same (inv.holder_unique (by rw [reading]; rfl) held)
  have free : ∀ q, (((s.releasesleep b).setUse p (.releasing b)).uses q).holds ≠ some b := by
    intro q held'
    cases use : ((s.releasesleep b).setUse p (.releasing b)).uses q with
    | reading c =>
      rw [use] at held'
      cases held'
      exact (no_holder q).2 use
    | holding c =>
      rw [use] at held'
      cases held'
      exact (no_holder q).1 use
    | idle => rw [use] at held'; cases held'
    | locking c => rw [use] at held'; cases held'
    | releasing c => rw [use] at held'; cases held'
  refine inv.change (b := b) (p := p) inv.cycle inv.complete bufs (fun q other => by simp [Function.update_of_ne other])
    (fun _ _ _ => rfl) (fun c _ => by simp [holding, BioPc.buf?])
    (fun c other => by simp [holding, BioPc.holds, Ne.symm other]) ?_ ?_
    (fun q held' => absurd held' (free q))
    (inv.first_keep bufs (by rw [here]) (by rw [here])
      fun _ _ split => inv.no_earlier (inv.touched (by rw [holding]; rfl)) split)
    (fun q c pc changed => ?_) (by rw [here]; exact inv.dirty_valid b)
    (by rw [here]; exact inv.coherent b)
  · rw [here, refs_setUse_of_eq (by simp [holding, BioPc.buf?]), releasesleep, refs_setBuf]
    exact inv.counted b
  · rw [here]
    simp only [Bool.false_eq_true, false_iff, not_exists]
    exact free
  · -- the buffer keeps its flags, valid since `bread`
    have valid_b : (((s.releasesleep b).setUse p (.releasing b)).buf b).flags.valid := by
      rw [here]
      exact inv.held_valid p b (.inl holding)
    by_cases same : q = p
    · subst same
      simp only [setUse_uses, Function.update_self, reduceCtorEq, BioPc.releasing.injEq,
        false_or] at pc
      subst pc
      exact valid_b
    · have other : c = b := changed.resolve_left same
      subst other
      exact valid_b

/-- The references depend on the uses alone. -/
theorem refs_congr {t : Bcache n k β} (uses : t.uses = s.uses) (c : Fin n) : t.refs c = s.refs c := by
  rw [refs, refs, uses]

/-- **The holder changes its buffer's contents**: `bread`'s test, `bwrite`, `log_write`. The
buffer keeps its block, its reference and its lock, and becomes valid; the disk changes at most at
its block, and a clean result holds what the disk holds. -/
theorem Inv.contents (inv : s.Inv order) {t : Bcache n k β} {d : β} {f : BufFlags}
    (held : (s.uses p).holds = some b) (next : t.next = s.next) (prev : t.prev = s.prev)
    (bufs : ∀ c, c ≠ b → t.buf c = s.buf c) (here : t.buf b = { s.buf b with data := d, flags := f })
    (uses : t.uses = Function.update s.uses p (.holding b)) (valid : f.valid = true)
    (disk : ∀ dev blockno, (dev, blockno) ≠ ((s.buf b).dev, (s.buf b).blockno) →
      t.disk dev blockno = s.disk dev blockno)
    (coherent : f.synced = true → d = t.disk (s.buf b).dev (s.buf b).blockno) : t.Inv order := by
  have refers : (s.uses p).buf? = some b := BioPc.buf?_of_holds held
  have only : ∀ q, (s.uses q).holds = some b → q = p := fun q held' => inv.holder_unique held' held
  refine inv.change (b := b) (p := p) (by rw [next, prev]; exact inv.cycle) inv.complete bufs
    (fun q other => by rw [uses, Function.update_of_ne other]) (fun c other synced => ?_)
    (fun c other => ?_) (fun c other => ?_) ?_ ?_ (fun q held' => ?_)
    (inv.first_keep bufs (by rw [here]) (by rw [here])
      fun _ _ split => inv.no_earlier (inv.touched refers) split)
    (fun q c pc touched => ?_) (fun _ => by rw [here]; exact valid) (by rw [here]; exact coherent)
  · -- another valid buffer holds another block: two touched buffers never share one
    apply disk
    intro same
    have touched : ¬s.untouched c := fun blank => by
      have flags := blank.2
      simp [BufFlags.synced, flags] at synced
    exact other (inv.eq_of_sameBlock ⟨(Prod.mk.inj same).1, (Prod.mk.inj same).2⟩ touched
      (inv.touched refers))
  · rw [uses, Function.update_self, refers]
    exact ⟨fun same => absurd (Option.some.inj same) (Ne.symm other),
      fun same => absurd (Option.some.inj same) (Ne.symm other)⟩
  · rw [uses, Function.update_self, held]
    exact ⟨fun same => absurd (Option.some.inj same) (Ne.symm other),
      fun same => absurd (Option.some.inj same) (Ne.symm other)⟩
  · rw [here, refs_congr (s := s.setUse p (.holding b)) uses, refs_setUse_of_eq (by rw [refers]; rfl)]
    exact inv.counted b
  · rw [here]
    refine (inv.locked b).trans ⟨fun _ => ⟨p, by rw [uses, Function.update_self]; rfl⟩, fun _ => ⟨p, held⟩⟩
  · have same : q = p := by
      by_contra other
      rw [uses, Function.update_of_ne other] at held'
      exact other (only q held')
    subst same
    rw [here]
    exact inv.pid q b held
  · -- the buffer is valid now, whoever refers to it
    have valid_b : (t.buf b).flags.valid := by
      rw [here]
      exact valid
    rcases touched with rfl | rfl
    · rw [uses, Function.update_self] at pc
      rcases pc with same | same
      · cases same
        exact valid_b
      · cases same
    · exact valid_b

/-- `bread`'s test of `B_VALID`, and `iderw` on a buffer that is not valid. -/
theorem Inv.read (inv : s.Inv order) (reading : s.uses p = .reading b) :
    ((s.bread p b).setUse p (.holding b)).Inv order := by
  have held : (s.uses p).holds = some b := by rw [reading]; rfl
  by_cases valid : (s.buf b).flags.valid = true
  · rw [bread_of_valid valid]
    exact inv.contents (d := (s.buf b).data) (f := (s.buf b).flags) held rfl rfl (fun _ _ => rfl)
      rfl rfl valid (fun _ _ _ => rfl) (inv.coherent b)
  · -- a dirty buffer is valid, so this one is clean and `iderw` reads its block
    have invalid : (s.buf b).flags.valid = false := by simpa using valid
    rw [bread_of_invalid (inv.holdingsleep held) invalid (inv.clean invalid)]
    exact inv.contents (d := s.disk (s.buf b).dev (s.buf b).blockno) (f := ⟨true, false⟩) held
      rfl rfl (fun c other => by simp [Function.update_of_ne other]) (by simp) (by simp) rfl
      (fun _ _ _ => rfl) (fun _ => rfl)

/-- The disk after a write of block `(dev, blockno)` holds the other blocks as before. -/
theorem update_disk_of_ne {disk : Nat → Nat → β} {dev blockno dev' blockno' : Nat} {data : β}
    (other : (dev', blockno') ≠ (dev, blockno)) :
    Function.update disk dev (Function.update (disk dev) blockno data) dev' blockno' =
      disk dev' blockno' := by
  by_cases same : dev' = dev
  · subst same
    have apart : blockno' ≠ blockno := fun same' => other (by rw [same'])
    rw [Function.update_self, Function.update_of_ne apart]
  · rw [Function.update_of_ne same]

/-- `bwrite` by the holder: its block on the disk takes the new data. -/
theorem Inv.bwrite (inv : s.Inv order) (holding : s.uses p = .holding b) (data : β) :
    (s.bwrite p b data).Inv order := by
  have held : (s.uses p).holds = some b := by rw [holding]; rfl
  rw [bwrite_of_held (inv.holdingsleep held)]
  exact inv.contents (d := data) (f := ⟨true, false⟩) held rfl rfl
    (fun c other => by simp [Function.update_of_ne other]) (by simp) (by rw [← holding]; simp) rfl
    (fun _ _ other => update_disk_of_ne other) (fun _ => by simp)

/-- `log_write` by the holder: its buffer is dirty, and valid since `bread`. -/
theorem Inv.logWrite (inv : s.Inv order) (holding : s.uses p = .holding b) (data : β) :
    (s.logWrite b data).Inv order := by
  have held : (s.uses p).holds = some b := by rw [holding]; rfl
  -- inside this theorem the bare name is the theorem itself
  exact inv.contents (d := data) (f := { (s.buf b).flags with dirty := true }) held rfl rfl
    (fun c other => by simp [Bcache.logWrite, Function.update_of_ne other]) (by simp [Bcache.logWrite])
    (by rw [← holding]; simp [Bcache.logWrite]) (inv.held_valid p b (.inl holding)) (fun _ _ _ => rfl)
    (fun synced => by simp [BufFlags.synced] at synced)

/-- `bget`'s section handing buffer `b` to the idle use `p`: one more reference, and the lock as
it was. -/
theorem Inv.claim (inv : s.Inv order) (idle : s.uses p = .idle) {x : Buf β}
    (lock : x.lock = (s.buf b).lock) (refcnt : x.refcnt = (s.buf b).refcnt + 1)
    (first : order.Pairwise fun a c => ((s.setBuf b x).setUse p (.locking b)).sameBlock a c →
      ((s.setBuf b x).setUse p (.locking b)).untouched c)
    (valid : ∀ q, s.uses q = .holding b ∨ s.uses q = .releasing b → x.flags.valid)
    (dirty : x.flags.dirty → x.flags.valid)
    (coherent : x.flags.synced → x.data = s.disk x.dev x.blockno) :
    ((s.setBuf b x).setUse p (.locking b)).Inv order := by
  have here : ((s.setBuf b x).setUse p (.locking b)).buf b = x := by simp
  have bufs : ∀ c, c ≠ b → ((s.setBuf b x).setUse p (.locking b)).buf c = s.buf c := by
    intro c other
    simp [Function.update_of_ne other]
  have holds := holds_setUse_of_eq (s := s.setBuf b x) (p := p) (.locking b)
    (by simp [idle, BioPc.holds])
  refine inv.change (b := b) (p := p) inv.cycle inv.complete bufs
    (fun q other => by simp [Function.update_of_ne other]) (fun _ _ _ => rfl)
    (fun c other => by simp [idle, BioPc.buf?, Ne.symm other]) (fun c _ => by simp [idle, BioPc.holds])
    ?_ ?_ (fun q held => ?_) first (fun q c pc changed => ?_) (by rw [here]; exact dirty)
    (by rw [here]; exact coherent)
  · have moved := refs_setUse (s.setBuf b x) p (.locking b) b
    simp only [setBuf_uses, idle, BioPc.buf?, reduceCtorEq, if_false, if_true, refs_setBuf]
      at moved
    rw [here, refcnt, inv.counted b]
    omega
  · rw [here, lock, inv.locked b]
    simp only [holds, setBuf_uses]
  · rw [here, lock]
    rw [holds] at held
    exact inv.pid q b held
  · -- `p` waits for the lock, so a use past `bread` is another on `b`
    by_cases same : q = p
    · subst same
      simp at pc
    · have other : c = b := changed.resolve_left same
      subst other
      simp only [setUse_uses, Function.update_of_ne same, setBuf_uses] at pc
      rw [here]
      exact valid q pc

variable {dev blockno : Nat}

/-- `bget` of a block on the list: the first buffer with it takes one more reference. -/
theorem Inv.bget_cached (inv : s.Inv order) (idle : s.uses p = .idle)
    (found : order.find? (s.cached dev blockno ∘ .buf) = some b) :
    ((s.setBuf b { s.buf b with refcnt := (s.buf b).refcnt + 1 }).setUse p (.locking b)).Inv
      order := by
  obtain ⟨key, as, bs, split, before⟩ := List.find?_eq_some_iff_append.mp found
  refine inv.claim idle rfl rfl (inv.first_keep (b := b)
    (fun c other => by simp [Function.update_of_ne other])
    (by simp) (by simp) ?_) (inv.held_valid · b) (inv.dirty_valid b) (inv.coherent b)
  -- the list splits at `b` as the search found it, and no buffer before has the block
  intro as' bs' split' a mem same
  rw [← inv.split_unique split split'] at mem
  have missed := before a mem
  simp only [Function.comp_apply, cached, Bool.and_eq_true, beq_iff_eq] at key missed
  simp only [sameBlock] at same
  simp [same.1, same.2, key.1, key.2] at missed

/-- `bget` of a block not on the list: the last buffer with no reference and not dirty takes the
block, and the one reference. -/
theorem Inv.bget_recycled (inv : s.Inv order) (idle : s.uses p = .idle)
    (missing : order.find? (s.cached dev blockno ∘ .buf) = none)
    (found : order.reverse.find? (s.recyclable ∘ .buf) = some b) :
    ((s.setBuf b { s.buf b with dev, blockno, flags := ⟨false, false⟩, refcnt := 1 }).setUse p
      (.locking b)).Inv order := by
  have unused : (s.buf b).refcnt = 0 := by
    have free := List.find?_some found
    simp only [Function.comp_apply, recyclable, Bool.and_eq_true, beq_iff_eq] at free
    exact free.1
  have no_use : ∀ q, (s.uses q).buf? ≠ some b := fun q refers => by
    have positive := refs_pos refers
    rw [← inv.counted, unused] at positive
    exact Nat.lt_irrefl 0 positive
  -- no buffer holds the block, so none shares it with `b` once `b` takes it
  have elsewhere : ∀ c, c ≠ b →
      ¬((s.buf c).dev = dev ∧ (s.buf c).blockno = blockno) := fun c _ same => by
    have := List.find?_eq_none.mp missing c (inv.complete c)
    simp [cached, same.1, same.2] at this
  refine inv.claim idle rfl (by rw [unused]) ?_ (fun q pc => ?_) (fun dirty => by simp at dirty)
    (fun synced => by simp [BufFlags.synced] at synced)
  · obtain ⟨as, bs, split⟩ := List.append_of_mem (inv.complete b)
    have pairwise := inv.first
    have nodup := inv.nodup
    rw [split] at pairwise nodup ⊢
    refine Lib.pairwise_of_agree pairwise nodup (fun x y other other' related blocks => ?_)
      (fun a _ other blocks => ?_) (fun c _ other blocks => ?_)
    · simp only [sameBlock, untouched, setUse_buf, setBuf_buf, Function.update_of_ne other,
        Function.update_of_ne other'] at blocks ⊢
      exact related blocks
    · simp only [sameBlock, setUse_buf, setBuf_buf, Function.update_self,
        Function.update_of_ne other] at blocks
      exact absurd blocks (elsewhere a other)
    · simp only [sameBlock, setUse_buf, setBuf_buf, Function.update_self,
        Function.update_of_ne other] at blocks
      exact absurd ⟨blocks.1.symm, blocks.2.symm⟩ (elsewhere c other)
  · rcases pc with use | use <;> exact absurd (by rw [use]; rfl) (no_use q)

/-- `bget`, from its scans to its return, in each of its three outcomes. -/
theorem Inv.bget (inv : s.Inv order) (idle : s.uses p = .idle) (dev blockno : Nat) :
    (s.bget p dev blockno).Inv order := by
  rcases bget_cases inv.cycle inv.length_le p dev blockno with
    ⟨b, found, cached⟩ | ⟨b, missing, found, recycled⟩ | full
  · rw [cached]
    exact inv.bget_cached idle found
  · rw [recycled]
    exact inv.bget_recycled idle missing found
  · rw [full]
    -- the panic leaves every field the invariant reads
    exact ⟨inv.cycle, inv.complete, inv.counted, inv.locked, inv.pid, inv.first, inv.held_valid,
      inv.dirty_valid, inv.coherent⟩

/-- `brelse`'s section and the use's end: one reference less, the lock and contents as they
were, and the list as the step leaves it. -/
theorem Inv.drop (inv : s.Inv order) (releasing : s.uses p = .releasing b) {t : Bcache n k β}
    {order' : List (Fin n)} (cycle : Lib.Cycle t.next t.prev .head (order'.map .buf))
    (complete : ∀ c, c ∈ order') (bufs : ∀ c, c ≠ b → t.buf c = s.buf c)
    (here : t.buf b = { s.buf b with refcnt := (s.buf b).refcnt - 1 })
    (uses : t.uses = Function.update s.uses p .idle) (disk : t.disk = s.disk)
    (first : order'.Pairwise fun a c => t.sameBlock a c → t.untouched c) : t.Inv order' := by
  have holds : ∀ q, (t.uses q).holds = (s.uses q).holds := by
    rw [uses]
    exact holds_setUse_of_eq (s := s) .idle (by simp [releasing, BioPc.holds])
  refine inv.change (b := b) (p := p) cycle complete bufs
    (fun q other => by rw [uses, Function.update_of_ne other]) (fun _ _ _ => by rw [disk])
    (fun c other => by simp [uses, releasing, BioPc.buf?, Ne.symm other]) (fun c _ => by rw [holds])
    ?_ ?_ (fun q held => ?_) first (fun q c pc changed => ?_)
    (by rw [here]; exact inv.dirty_valid b) (by rw [here, disk]; exact inv.coherent b)
  · have moved := refs_setUse s p .idle b
    simp only [releasing, BioPc.buf?, reduceCtorEq, if_false, if_true] at moved
    rw [here, refs_congr (s := s.setUse p .idle) uses b, inv.counted b]
    dsimp only
    omega
  · rw [here]
    simp only [holds]
    exact inv.locked b
  · rw [here]
    exact inv.pid q b (by rwa [holds] at held)
  · -- `p` is done, so a use past `bread` is another on `b`
    by_cases same : q = p
    · subst same
      simp [uses] at pc
    · have other : c = b := changed.resolve_left same
      subst other
      rw [uses, Function.update_of_ne same] at pc
      rw [here]
      exact inv.held_valid q c pc

/-- `brelse` of a buffer others still refer to. -/
theorem Inv.release_shared (inv : s.Inv order) (releasing : s.uses p = .releasing b)
    (shared : 1 < (s.buf b).refcnt) : ((s.release b).setUse p .idle).Inv order := by
  rw [release_of_shared shared]
  have bufs : ∀ c, c ≠ b →
      ((s.setBuf b { s.buf b with refcnt := (s.buf b).refcnt - 1 }).setUse p .idle).buf c =
        s.buf c := by
    intro c other
    simp [Function.update_of_ne other]
  exact inv.drop releasing inv.cycle inv.complete bufs (by simp) rfl rfl
    (inv.first_keep bufs (by simp) (by simp)
      fun _ _ split => inv.no_earlier (inv.touched (by rw [releasing]; rfl)) split)

/-- `brelse` of the last reference: the buffer moves to the front of the list. -/
theorem Inv.release_last (inv : s.Inv order) (releasing : s.uses p = .releasing b)
    (last : (s.buf b).refcnt = 1) :
    ((s.release b).setUse p .idle).Inv (b :: order.erase b) := by
  rw [release_of_last last]
  have bufs : ∀ c, c ≠ b → ({ s.setBuf b { s.buf b with refcnt := 0 } with
      next := (Lib.pushFront (Lib.unlink s.next s.prev (.buf b)).1
        (Lib.unlink s.next s.prev (.buf b)).2 .head (.buf b)).1
      prev := (Lib.pushFront (Lib.unlink s.next s.prev (.buf b)).1
        (Lib.unlink s.next s.prev (.buf b)).2 .head (.buf b)).2 }.setUse p .idle).buf c =
      s.buf c := by
    intro c other
    simp [Function.update_of_ne other]
  have inj : Function.Injective (BufPtr.buf : Fin n → BufPtr n) := fun _ _ same => BufPtr.buf.inj same
  have cycle := inv.cycle.moveToFront (List.mem_map_of_mem (f := BufPtr.buf) (inv.complete b))
  rw [← List.map_erase inj] at cycle
  refine inv.drop releasing cycle (fun c => ?_) bufs (by simp [last]) rfl rfl
    (inv.first_moveToFront bufs (by simp) (by simp) (inv.touched (by rw [releasing]; rfl)))
  by_cases here : c = b
  · rw [here]
    exact List.mem_cons_self
  · exact List.mem_cons_of_mem b ((List.mem_erase_of_ne here).mpr (inv.complete c))

/-- `brelse`'s section, in both its outcomes. -/
theorem Inv.release (inv : s.Inv order) (releasing : s.uses p = .releasing b) :
    ∃ order', ((s.release b).setUse p .idle).Inv order' := by
  -- `p` refers to `b`, so it has at least one reference
  have positive : 0 < (s.buf b).refcnt := by
    rw [inv.counted b]
    exact refs_pos (by rw [releasing]; rfl)
  by_cases shared : 1 < (s.buf b).refcnt
  · exact ⟨order, inv.release_shared releasing shared⟩
  · exact ⟨b :: order.erase b, inv.release_last releasing (by omega)⟩

/-- **One step keeps the invariant**, with the list in its new order. -/
theorem Inv.step (inv : s.Inv order) {e : BioEvent n k β} {t : Bcache n k β}
    (stepped : s.step e = some t) : ∃ order', t.Inv order' := by
  obtain ⟨-, move⟩ := move_of_step stepped
  cases move with
  | bget idle dev blockno => exact ⟨order, inv.bget idle dev blockno⟩
  | lock locking free => exact ⟨order, inv.lock locking free⟩
  | read reading => exact ⟨order, inv.read reading⟩
  | bwrite holding data => exact ⟨order, inv.bwrite holding data⟩
  | logWrite holding data => exact ⟨order, inv.logWrite holding data⟩
  | unlock holding => exact ⟨order, inv.unlock holding⟩
  | release releasing => exact inv.release releasing

end Steps

/-! ### Every reachable state -/

section Reachable

variable {s : Bcache n k β}

/-- `binit` leaves the buffers on the list from the last to the first. -/
theorem binit_cycle :
    Lib.Cycle (binit n).1 (binit n).2 .head (((List.finRange n).reverse).map .buf) := by
  have inj : Function.Injective (BufPtr.buf : Fin n → BufPtr n) := fun _ _ same => BufPtr.buf.inj same
  have pushed := Lib.Cycle.pushFronts ((List.finRange n).map BufPtr.buf)
    (show Lib.Cycle (fun _ => BufPtr.head) (fun _ => .head) .head [] from Lib.Cycle.empty rfl rfl)
    (by simpa using (List.nodup_finRange n).map inj) (by simp)
  rw [List.append_nil, ← List.map_reverse] at pushed
  exact pushed

/-- `binit` sets up the invariant: no use has touched a buffer. -/
theorem Inv.initial (init : s.Initial) : s.Inv (List.finRange n).reverse := by
  obtain ⟨links, blank, idle, -⟩ := init
  have next : s.next = (binit n).1 := congrArg Prod.fst links
  have prev : s.prev = (binit n).2 := congrArg Prod.snd links
  have untouched_all : ∀ b, s.untouched b := fun b => by
    rw [untouched, blank b]
    exact ⟨rfl, rfl⟩
  refine ⟨by rw [next, prev]; exact binit_cycle, fun b => by simp, fun b => ?_, fun b => ?_,
    fun p b held => ?_, List.pairwise_of_forall fun _ c _ => untouched_all c,
    fun p b pc => ?_, fun b dirty => ?_, fun b synced => ?_⟩
  · simp [refs, idle, BioPc.buf?, (untouched_all b).1]
  · rw [blank b]
    simp [idle, BioPc.holds, Buf.blank]
  · simp [idle, BioPc.holds] at held
  · simp [idle] at pc
  · rw [blank b] at dirty
    simp [Buf.blank] at dirty
  · rw [blank b] at synced
    simp [Buf.blank, BufFlags.synced] at synced

/-- **The invariant holds in every reachable state**, for some order of the list. -/
theorem Reachable.inv (reach : s.Reachable) : ∃ order, s.Inv order :=
  Lib.Reachable.induction (fun s => ∃ order, s.Inv order)
    (fun _ init => ⟨_, Inv.initial init⟩)
    (fun _ _ _ kept stepped => by
      obtain ⟨order, inv⟩ := kept
      exact inv.step stepped) reach

/-! ### What every reachable state satisfies -/

/-- A run of two buffers and two uses from `binit` over a zeroed disk: use 0 reads block 7 of
device 1 and writes 5 to it, then use 1 asks for the same block and waits for its lock. -/
def sharedBlockEvents : List (BioEvent 2 2 Nat) :=
  -- `Fin.mk` rather than numerals, whose `NeZero` proofs become auxiliary lemmas other files share
  let first : Fin 2 := ⟨0, Nat.zero_lt_two⟩
  let second : Fin 2 := ⟨1, Nat.one_lt_two⟩
  [.bget first 1 7, .lock first, .read first, .bwrite first 5, .bget second 1 7]

/-- The state after `sharedBlockEvents`. -/
def sharedBlock : Bcache 2 2 Nat :=
  (Lib.run step (boot (fun _ => 0) fun _ _ => 0) sharedBlockEvents).get (by decide)

theorem sharedBlock_reachable : sharedBlock.Reachable :=
  Lib.Reachable.run (Lib.Reachable.init (boot_initial _ _)) (Option.some_get _).symm

example : sharedBlock.uses 0 = .holding 0 ∧ sharedBlock.uses 1 = .locking 0 ∧
    (sharedBlock.buf 0).refcnt = 2 ∧ (sharedBlock.buf 0).data = 5 := by decide

/-- **The one panic.** From a state that has not panicked, a step panics only in `bget`, when no
buffer is free: the checks of `holdingsleep` in `bwrite`, `brelse` and `iderw` pass, `iderw` always
has something to do, and `bget`'s scans end. -/
theorem Inv.halted_move {order : List (Fin n)} (inv : s.Inv order) (running : s.halted = none)
    {e : BioEvent n k β} {t : Bcache n k β} (move : s.Move e t) :
    t.halted = none ∨
      (∃ p dev blockno, e = .bget p dev blockno) ∧ t.halted = some "bget: no buffers" := by
  cases move with
  | @bget p _ dev blockno =>
    rcases bget_cases inv.cycle inv.length_le p dev blockno with
      ⟨b, -, cached⟩ | ⟨b, -, -, recycled⟩ | full
    · rw [cached]
      exact .inl running
    · rw [recycled]
      exact .inl running
    · rw [full]
      exact .inr ⟨⟨p, dev, blockno, rfl⟩, rfl⟩
  | lock => exact .inl running
  | @read p b reading =>
    have held : (s.uses p).holds = some b := by rw [reading]; rfl
    cases valid : (s.buf b).flags.valid with
    | true =>
      rw [bread_of_valid valid]
      exact .inl running
    | false =>
      rw [bread_of_invalid (inv.holdingsleep held) valid (inv.clean valid)]
      exact .inl running
  | @bwrite p b holding data =>
    rw [bwrite_of_held (inv.holdingsleep (by rw [holding]; rfl))]
    exact .inl running
  | logWrite => exact .inl running
  | @unlock p b holding =>
    rw [unlock_of_held (inv.holdingsleep (by rw [holding]; rfl))]
    exact .inl running
  | @release p b _ =>
    dsimp only [Bcache.release]
    split <;> exact .inl running

/-- **`bget: no buffers` is the only panic** of the buffer cache, in every reachable state. -/
theorem Reachable.halted (reach : s.Reachable) :
    s.halted = none ∨ s.halted = some "bget: no buffers" :=
  Lib.Reachable.induction_under (fun s => ∃ order, s.Inv order)
    (fun s => s.halted = none ∨ s.halted = some "bget: no buffers") (fun reach => Reachable.inv reach)
    (fun _ init => .inl init.2.2.2)
    (fun _ _ _ invariant before stepped => by
      obtain ⟨order, kept⟩ := invariant
      obtain ⟨running, move⟩ := move_of_step stepped
      rcases kept.halted_move running move with none | ⟨-, panic⟩
      · exact .inl none
      · exact .inr panic) reach

theorem sharedBlock_halted :
    sharedBlock.halted = none ∨ sharedBlock.halted = some "bget: no buffers" :=
  Reachable.halted sharedBlock_reachable

/-- **The list of the cache.** In every reachable state the list through `bcache.head` is a cycle,
both ways, through every buffer once: `bget`'s two scans each see every buffer once. -/
theorem Reachable.list_cycle (reach : s.Reachable) :
    ∃ order : List (Fin n), Lib.Cycle s.next s.prev .head (order.map .buf) ∧ ∀ b, b ∈ order := by
  obtain ⟨order, kept⟩ := reach.inv
  exact ⟨order, kept.cycle, kept.complete⟩

theorem sharedBlock_list_cycle :
    ∃ order : List (Fin 2),
      Lib.Cycle sharedBlock.next sharedBlock.prev .head (order.map .buf) ∧ ∀ b, b ∈ order :=
  Reachable.list_cycle sharedBlock_reachable

/-- **`refcnt` counts the uses** of a buffer, from `bget` to the end of `brelse`. -/
theorem Reachable.refcnt_eq (reach : s.Reachable) (b : Fin n) : (s.buf b).refcnt = s.refs b := by
  obtain ⟨order, kept⟩ := reach.inv
  exact kept.counted b

theorem sharedBlock_refcnt : (sharedBlock.buf 0).refcnt = sharedBlock.refs 0 :=
  Reachable.refcnt_eq sharedBlock_reachable 0

/-- **`holdingsleep` names the holder**: it answers yes for use `p` and buffer `b` exactly when
`p` is between `acquiresleep` and `releasesleep` on `b`. -/
theorem Reachable.holdingsleep_iff (reach : s.Reachable) (p : Fin k) (b : Fin n) :
    s.holdingsleep p b = true ↔ (s.uses p).holds = some b := by
  obtain ⟨order, kept⟩ := reach.inv
  constructor
  · intro yes
    simp only [holdingsleep, Bool.and_eq_true, beq_iff_eq] at yes
    -- the lock is held by some use, whose pid it records; that pid is `p`'s
    obtain ⟨q, held⟩ := (kept.locked b).mp yes.1
    have same : q = p := Fin.ext (by simpa [pidOf, kept.pid q b held] using yes.2)
    rwa [← same]
  · exact kept.holdingsleep

theorem sharedBlock_holdingsleep :
    (sharedBlock.holdingsleep 0 0 = true ↔ (sharedBlock.uses 0).holds = some 0) ∧
      (sharedBlock.holdingsleep 1 0 = true ↔ (sharedBlock.uses 1).holds = some 0) :=
  ⟨Reachable.holdingsleep_iff sharedBlock_reachable 0 0,
    Reachable.holdingsleep_iff sharedBlock_reachable 1 0⟩

/-- **One buffer per block.** Two buffers that hold the same block, each referred to by a use or
valid, are one buffer: `bget` never caches a block twice. -/
theorem Reachable.block_unique (reach : s.Reachable) {b c : Fin n}
    (used : (s.buf b).refcnt ≠ 0 ∨ (s.buf b).flags.valid = true)
    (used' : (s.buf c).refcnt ≠ 0 ∨ (s.buf c).flags.valid = true)
    (same : (s.buf b).dev = (s.buf c).dev ∧ (s.buf b).blockno = (s.buf c).blockno) : b = c := by
  obtain ⟨order, kept⟩ := reach.inv
  exact kept.eq_of_sameBlock same (not_untouched_of_used used) (not_untouched_of_used used')

theorem sharedBlock_block_unique :
    ((sharedBlock.buf 0).refcnt ≠ 0 ∨ (sharedBlock.buf 0).flags.valid = true) ∧ (0 : Fin 2) = 0 :=
  ⟨by decide, Reachable.block_unique sharedBlock_reachable (b := 0) (c := 0) (by decide) (by decide)
    ⟨rfl, rfl⟩⟩

end Reachable

end Bcache

end Xv6
