import Xv6.File.System

/-!
**The shape of the processes under the file calls.**

`Shape`: a slot not in use is outside the calls with no descriptor; the child of a `fork` in
progress is another slot, in use, not running, with no descriptor from the loop's position on,
and no other `fork` copies into it; `exit`'s loop has cleared every descriptor below its
position. `Reachable.shape`: every reachable state has this shape.

A step of a process inside `sys_open`, `sys_pipe`, `sys_dup` or `sys_close` (a `plain` call)
changes only that process and keeps the shape (`Shape.setProc_plain`); the steps of `fork` and
`exit` each have a lemma of their own.
-/

namespace Xv6

variable {nf nd k : Nat}

/-- A call that is not `fork`'s or `exit`'s loop, nor the child of a `fork`. -/
def FilePc.plain : FilePc nf nd k → Bool
  | .embryo | .forking _ _ | .exiting _ | .exitClosed _ _ => false
  | _ => true

namespace FileSystem

/-- The shape of the processes. -/
structure Shape (s : FileSystem nf nd k) : Prop where
  unused : ∀ p, (s.procs p).used = false →
    (s.procs p).pc = .idle ∧ ∀ fd, (s.procs p).ofile fd = none
  forking : ∀ p child fd, (s.procs p).pc = .forking child fd →
    child ≠ p ∧ (s.procs child).used = true ∧ (s.procs child).pc = .embryo ∧
      ∀ j : Fin nd, fd ≤ j.val → (s.procs child).ofile j = none
  forkOnce : ∀ p q child fd fd', (s.procs p).pc = .forking child fd →
    (s.procs q).pc = .forking child fd' → p = q
  exiting : ∀ p fd, (s.procs p).pc = .exiting fd →
    ∀ j : Fin nd, j.val < fd → (s.procs p).ofile j = none
  exitClosed : ∀ p fd d, (s.procs p).pc = .exitClosed fd d →
    ∀ j : Fin nd, j < fd → (s.procs p).ofile j = none

section Shape

variable {s t : FileSystem nf nd k} {p : Fin k}

theorem Shape.of_procs (shape : s.Shape) (procs : t.procs = s.procs) : t.Shape := by
  obtain ⟨unused, forking, forkOnce, exiting, exitClosed⟩ := shape
  exact ⟨procs ▸ unused, procs ▸ forking, procs ▸ forkOnce, procs ▸ exiting, procs ▸ exitClosed⟩

/-- A process that is not `EMBRYO` is the child of no `fork`. -/
theorem Shape.not_child (shape : s.Shape) (notEmbryo : (s.procs p).pc ≠ .embryo) :
    ∀ q child fd, (s.procs q).pc = .forking child fd → child ≠ p := by
  intro q child fd forkingQ same
  rw [same] at forkingQ
  exact notEmbryo (shape.forking q p fd forkingQ).2.2.1

/-- **One process changes alone.** A process that is no `fork`'s child keeps
the shape when it keeps its own part of it: no descriptor once the slot is free, a `fork` only
further along the one it was in, `exit`'s cleared descriptors. -/
theorem Shape.setProc_self (shape : s.Shape) (procs : t.procs = s.procs)
    {g : FileProc nf nd k → FileProc nf nd k}
    (notChild : ∀ q child fd, (s.procs q).pc = .forking child fd → child ≠ p)
    (unused : (g (s.procs p)).used = false →
      (g (s.procs p)).pc = .idle ∧ ∀ fd, (g (s.procs p)).ofile fd = none)
    (forking : ∀ child fd, (g (s.procs p)).pc = .forking child fd →
      ∃ earlier, (s.procs p).pc = .forking child earlier ∧ earlier ≤ fd)
    (exiting : ∀ fd, (g (s.procs p)).pc = .exiting fd →
      ∀ j : Fin nd, j.val < fd → (g (s.procs p)).ofile j = none)
    (exitClosed : ∀ fd d, (g (s.procs p)).pc = .exitClosed fd d →
      ∀ j : Fin nd, j < fd → (g (s.procs p)).ofile j = none) :
    (t.setProc p g).Shape := by
  have childNe : ∀ {q child fd}, (s.procs q).pc = .forking child fd → child ≠ p :=
    fun forkingQ => notChild _ _ _ forkingQ
  -- what `p` or another process is, after the step, in terms of before
  have before : ∀ {q pc}, ((Function.update s.procs p (g (s.procs p))) q).pc = pc →
      (q = p ∧ (g (s.procs p)).pc = pc) ∨ (q ≠ p ∧ (s.procs q).pc = pc) := by
    intro q pc here
    by_cases same : q = p
    · subst same
      rw [Function.update_self] at here
      exact .inl ⟨rfl, here⟩
    · rw [Function.update_of_ne same] at here
      exact .inr ⟨same, here⟩
  -- a `fork` after the step is one that was in progress
  have was : ∀ {r child later},
      ((Function.update s.procs p (g (s.procs p))) r).pc = .forking child later →
      ∃ earlier, (s.procs r).pc = .forking child earlier ∧ earlier ≤ later := by
    intro r child later here
    rcases before here with ⟨rfl, forkingP⟩ | ⟨-, forkingS⟩
    · exact forking child later forkingP
    · exact ⟨later, forkingS, le_rfl⟩
  refine ⟨fun q free => ?_, fun q child fd forkingQ => ?_,
    fun q q' child fd fd' forkingQ forkingQ' => ?_, fun q fd exitingQ => ?_,
    fun q fd d closed => ?_⟩
  all_goals simp only [setProc_procs, procs] at *
  · by_cases same : q = p
    · subst same
      rw [Function.update_self] at free ⊢
      exact unused free
    · rw [Function.update_of_ne same] at free ⊢
      exact shape.unused q free
  · obtain ⟨earlier, forkingS, le⟩ := was forkingQ
    obtain ⟨ne, childUsed, embryo, none⟩ := shape.forking q child earlier forkingS
    rw [Function.update_of_ne (childNe forkingS)]
    exact ⟨ne, childUsed, embryo, fun j after => none j (by omega)⟩
  · obtain ⟨_, forkingS, -⟩ := was forkingQ
    obtain ⟨_, forkingS', -⟩ := was forkingQ'
    exact shape.forkOnce q q' child _ _ forkingS forkingS'
  · rcases before exitingQ with ⟨rfl, exitingP⟩ | ⟨notP, exitingS⟩
    · rw [Function.update_self]
      exact exiting fd exitingP
    · rw [Function.update_of_ne notP]
      exact shape.exiting q fd exitingS
  · rcases before closed with ⟨rfl, closedP⟩ | ⟨notP, closedS⟩
    · rw [Function.update_self]
      exact exitClosed fd d closedP
    · rw [Function.update_of_ne notP]
      exact shape.exitClosed q fd d closedS

/-- **A plain step.** A process in use, in a plain call before and after, changes alone. -/
theorem Shape.setProc_plain (shape : s.Shape) (procs : t.procs = s.procs)
    {g : FileProc nf nd k → FileProc nf nd k} (plainBefore : (s.procs p).pc.plain = true)
    (usedAfter : (g (s.procs p)).used = true) (plainAfter : (g (s.procs p)).pc.plain = true) :
    (t.setProc p g).Shape := by
  apply shape.setProc_self procs
  · apply shape.not_child
    intro embryo
    rw [embryo] at plainBefore
    cases plainBefore
  all_goals intros
  all_goals simp_all [FilePc.plain]

/-- A process inside a call is in use. -/
theorem Shape.used_of_ne_idle (shape : s.Shape) (busy : (s.procs p).pc ≠ .idle) :
    (s.procs p).used = true := by
  cases used : (s.procs p).used with
  | false => exact absurd (shape.unused p used).1 busy
  | true => rfl

/-- The child of the `fork` of `p` is nobody else's, and `p` is nobody's child. -/
theorem Shape.forking_other (shape : s.Shape) {child : Fin k} {fd : Nat}
    (forkingP : (s.procs p).pc = .forking child fd) {q c : Fin k} {fd' : Nat}
    (forkingQ : (s.procs q).pc = .forking c fd') (other : q ≠ p) : c ≠ child ∧ c ≠ p := by
  refine ⟨fun same => other (shape.forkOnce q p child fd' fd (same ▸ forkingQ) forkingP), ?_⟩
  exact shape.not_child (by rw [forkingP]; simp) q c fd' forkingQ

/-- **`fork`'s parent and child change together.** After the step `p` is in `fork`'s loop at
`fd`, copying into `child`, which is in use, `EMBRYO`, and has no descriptor from `fd` on; every
other process is as it was, and no other `fork` copies into `p` or `child`. -/
theorem Shape.forkPair (shape : s.Shape) {child : Fin k} (fd : Nat) (ne : child ≠ p)
    (usedP : (t.procs p).used = true) (forkingP : (t.procs p).pc = .forking child fd)
    (usedChild : (t.procs child).used = true) (embryo : (t.procs child).pc = .embryo)
    (unopened : ∀ j : Fin nd, fd ≤ j.val → (t.procs child).ofile j = none)
    (other : ∀ q, q ≠ p → q ≠ child → t.procs q = s.procs q)
    (childOf : ∀ q c fd', q ≠ p → (s.procs q).pc = .forking c fd' → c ≠ child ∧ c ≠ p) :
    t.Shape := by
  -- a process of `t` in a call other than `EMBRYO` is `p`, or was in that call in `s`
  have was : ∀ {q pc}, (t.procs q).pc = pc → pc ≠ .embryo →
      (q = p ∧ pc = .forking child fd) ∨ (q ≠ p ∧ q ≠ child ∧ (s.procs q).pc = pc) := by
    intro q pc here notEmbryo
    by_cases isP : q = p
    · subst isP
      exact .inl ⟨rfl, here.symm.trans forkingP⟩
    · by_cases isChild : q = child
      · subst isChild
        exact absurd (here.symm.trans embryo) notEmbryo
      · rw [other q isP isChild] at here
        exact .inr ⟨isP, isChild, here⟩
  refine ⟨fun q free => ?_, fun q c fd' forkingQ => ?_,
    fun q q' c fd' fd'' forkingQ forkingQ' => ?_, fun q fd' exitingQ => ?_,
    fun q fd' d closed => ?_⟩
  · by_cases isP : q = p
    · subst isP
      rw [usedP] at free
      cases free
    by_cases isChild : q = child
    · subst isChild
      rw [usedChild] at free
      cases free
    rw [other q isP isChild] at free ⊢
    exact shape.unused q free
  · rcases was forkingQ (by simp) with ⟨rfl, same⟩ | ⟨isP, -, forkingS⟩
    · obtain ⟨rfl, rfl⟩ : child = c ∧ fd = fd' := by simpa using same.symm
      exact ⟨ne, usedChild, embryo, unopened⟩
    · obtain ⟨notChild, notP⟩ := childOf q c fd' isP forkingS
      rw [other c notP notChild]
      exact shape.forking q c fd' forkingS
  · rcases was forkingQ (by simp) with ⟨rfl, same⟩ | ⟨isP, -, forkingS⟩ <;>
      rcases was forkingQ' (by simp) with ⟨rfl, same'⟩ | ⟨isP', -, forkingS'⟩
    · rfl
    · -- the child is nobody else's
      obtain ⟨rfl, -⟩ : child = c ∧ fd = fd' := by simpa using same.symm
      exact absurd rfl (childOf q' child fd'' isP' forkingS').1
    · obtain ⟨rfl, -⟩ : child = c ∧ fd = fd'' := by simpa using same'.symm
      exact absurd rfl (childOf q child fd' isP forkingS).1
    · exact shape.forkOnce q q' c fd' fd'' forkingS forkingS'
  · rcases was exitingQ (by simp) with ⟨-, same⟩ | ⟨isP, isChild, exitingS⟩
    · cases same
    · rw [other q isP isChild]
      exact shape.exiting q fd' exitingS
  · rcases was closed (by simp) with ⟨-, same⟩ | ⟨isP, isChild, closedS⟩
    · cases same
    · rw [other q isP isChild]
      exact shape.exitClosed q fd' d closedS

/-- **`fork` starts.** The first slot not in use becomes the child, not yet `RUNNABLE`, and
`fork`'s loop starts at descriptor `0`. -/
theorem Shape.startFork (shape : s.Shape) {child : Fin k} (used : (s.procs p).used = true)
    (idle : (s.procs p).pc = .idle) (free : (s.procs child).used = false) :
    ((s.setProc child fun c => { c with used := true, pc := .embryo }).setPc p
      (.forking child 0)).Shape := by
  have ne : child ≠ p := by
    rintro rfl
    rw [used] at free
    cases free
  obtain ⟨-, noFiles⟩ := shape.unused child free
  refine shape.forkPair 0 ne (by simp [Function.update_of_ne ne.symm, used]) (by simp)
    (by simp [Function.update_of_ne ne])
    (by simp [Function.update_of_ne ne]) (fun j _ => by simp [Function.update_of_ne ne, noFiles j])
    (fun q isP isChild => by simp [Function.update_of_ne isP, Function.update_of_ne isChild])
    fun q c fd' _ forkingQ => ?_
  -- a `fork` in progress copies into a slot in use, not `EMBRYO`: neither this one nor `p`
  obtain ⟨-, cUsed, embryo, -⟩ := shape.forking q c fd' forkingQ
  refine ⟨fun same => ?_, fun same => ?_⟩
  · rw [same, free] at cUsed
    cases cUsed
  · rw [same, idle] at embryo
    cases embryo

/-- **`fork` copies a descriptor.** `np->ofile[fd] = filedup(f)`, and the loop goes on. -/
theorem Shape.forkCopy (shape : s.Shape) {child : Fin k} {fd : Nat} (h : fd < nd)
    (forkingP : (s.procs p).pc = .forking child fd) (procs : t.procs = s.procs) (f : Fin nf) :
    ((t.setProc child fun c => { c with ofile := Function.update c.ofile ⟨fd, h⟩ (some f) }).setPc p
      (.forking child (fd + 1))).Shape := by
  obtain ⟨ne, childUsed, embryo, none⟩ := shape.forking p child fd forkingP
  have used := shape.used_of_ne_idle (p := p) (by rw [forkingP]; simp)
  refine shape.forkPair (fd + 1) ne (by simp [procs, Function.update_of_ne ne.symm, used]) (by simp)
    (by simp [procs, Function.update_of_ne ne, childUsed])
    (by simp [procs, Function.update_of_ne ne, embryo]) (fun j after => ?_)
    (fun q isP isChild => by simp [procs, Function.update_of_ne isP, Function.update_of_ne isChild])
    fun q c fd' isP forkingQ => shape.forking_other forkingP forkingQ isP
  -- the copy is below the loop's new position
  have below : j ≠ ⟨fd, h⟩ := by
    intro same
    rw [same] at after
    exact absurd after (by simp)
  simp [procs, Function.update_of_ne ne, Function.update_of_ne below, none j (by omega)]

/-- **`fork` ends.** The child becomes `RUNNABLE` and `fork` returns: both are outside the
calls. -/
theorem Shape.forkDone (shape : s.Shape) {child : Fin k} {fd : Nat}
    (forkingP : (s.procs p).pc = .forking child fd) :
    ((s.setPc child .idle).setPc p .idle).Shape := by
  obtain ⟨ne, childUsed, embryo, -⟩ := shape.forking p child fd forkingP
  -- first the parent leaves its `fork`; then no `fork` copies into the child
  have parentUsed := shape.used_of_ne_idle (p := p) (by rw [forkingP]; simp)
  have parentDone : (s.setPc p .idle).Shape := by
    apply shape.setProc_self rfl (shape.not_child (by rw [forkingP]; simp))
    all_goals simp [parentUsed]
  have swapped : (s.setPc child .idle).setPc p .idle = (s.setPc p .idle).setPc child .idle := by
    simp only [setPc_eq, setProc, Function.update_comm ne.symm, Function.update_of_ne ne,
      Function.update_of_ne ne.symm]
  rw [swapped]
  apply parentDone.setProc_self rfl
  · intro q c fd' forkingQ same
    have isP : q ≠ p := by
      rintro rfl
      simp at forkingQ
    simp only [setPc_eq, setProc_procs, Function.update_of_ne isP] at forkingQ
    exact (shape.forking_other forkingP forkingQ isP).1 same
  all_goals simp [Function.update_of_ne ne, childUsed]

/-- `fileclose`'s critical section keeps the shape when its outcome for the caller does. -/
theorem Shape.closeSection (shape : s.Shape) {f : Fin nf}
    {next : Option (Dropped nf) → FilePc nf nd k}
    (kept : ∀ ftable d, (({ s with ftable }).setPc p (next d)).Shape) :
    (s.closeSection p f next).Shape := by
  rcases closeSection_cases f next with panicked | ⟨ftable, d, closed⟩
  · rw [panicked]
    exact shape.of_procs rfl
  · rw [closed]
    exact kept ftable d

/-- **`exit`'s loop at a descriptor**, with those below it cleared. -/
theorem Shape.setExiting (shape : s.Shape) (procs : t.procs = s.procs)
    (notEmbryo : (s.procs p).pc ≠ .embryo) {g : FileProc nf nd k → FileProc nf nd k} {fd : Nat}
    (used : (g (s.procs p)).used = true) (exiting : (g (s.procs p)).pc = .exiting fd)
    (cleared : ∀ j : Fin nd, j.val < fd → (g (s.procs p)).ofile j = none) :
    (t.setProc p g).Shape := by
  apply shape.setProc_self procs (shape.not_child notEmbryo)
  · intro free
    rw [used] at free
    cases free
  · intro child fd' forking
    rw [exiting] at forking
    cases forking
  · intro fd' exiting'
    rw [exiting] at exiting'
    cases exiting'
    exact cleared
  · intro fd' d closed
    rw [exiting] at closed
    cases closed

/-- **`exit` has closed a descriptor** and not yet cleared it; those below it are cleared. -/
theorem Shape.setExitClosed (shape : s.Shape) (procs : t.procs = s.procs)
    (notEmbryo : (s.procs p).pc ≠ .embryo) {g : FileProc nf nd k → FileProc nf nd k}
    {fd : Fin nd} {d : Option (Dropped nf)} (used : (g (s.procs p)).used = true)
    (closed : (g (s.procs p)).pc = .exitClosed fd d)
    (cleared : ∀ j : Fin nd, j < fd → (g (s.procs p)).ofile j = none) :
    (t.setProc p g).Shape := by
  apply shape.setProc_self procs (shape.not_child notEmbryo)
  · intro free
    rw [used] at free
    cases free
  · intro child fd' forking
    rw [closed] at forking
    cases forking
  · intro fd' exiting
    rw [closed] at exiting
    cases exiting
  · intro fd' d' closed'
    rw [closed] at closed'
    cases closed'
    exact cleared

/-- **`exit` ends**: every descriptor is cleared, and `wait` frees the slot. -/
theorem Shape.exitDone (shape : s.Shape) {fd : Nat} (exiting : (s.procs p).pc = .exiting fd)
    (past : ¬fd < nd) : (s.setProc p fun q => { q with used := false, pc := .idle }).Shape := by
  apply shape.setProc_self rfl (shape.not_child (by rw [exiting]; simp))
  · intro _
    exact ⟨rfl, fun j => shape.exiting p fd exiting j (by omega)⟩
  all_goals simp

/-- **`fork`'s loop passes a descriptor** that is not open. -/
theorem Shape.forkNext (shape : s.Shape) {child : Fin k} {fd : Nat}
    (forkingP : (s.procs p).pc = .forking child fd) :
    (s.setPc p (.forking child (fd + 1))).Shape := by
  have used := shape.used_of_ne_idle (p := p) (by rw [forkingP]; simp)
  apply shape.setProc_self rfl (shape.not_child (by rw [forkingP]; simp))
  · intro free
    rw [used] at free
    cases free
  · intro child' fd' forking
    obtain ⟨rfl, rfl⟩ : child = child' ∧ fd + 1 = fd' := by simpa using forking
    exact ⟨fd, forkingP, by omega⟩
  · intro fd' exiting
    cases exiting
  · intro fd' d closed
    cases closed

/-- **Every move keeps the shape**, one case per path of the calls. -/
theorem Shape.move (shape : s.Shape) (move : s.Move t) : t.Shape := by
  cases move with
  | same => exact shape
  | dupPanic => exact shape.of_procs rfl
  | forkPanic => exact shape.of_procs rfl
  | «open» _ _ used idle => exact shape.setProc_plain (alloc_procs _ _ _) (by rw [idle]; rfl) used rfl
  | pipe used idle => exact shape.setProc_plain (alloc_procs _ _ _) (by rw [idle]; rfl) used rfl
  | @dup p _ _ _ _ _ used idle =>
    have plain : (s.procs p).pc.plain = true := by rw [idle]; rfl
    exact shape.setProc_plain (by rfl) plain used plain
  | @close p fd f used idle =>
    have plain : (s.procs p).pc.plain = true := by rw [idle]; rfl
    -- the descriptor is cleared first, then `fileclose`'s critical section
    have cleared := shape.setProc_plain (t := s) (p := p)
      (g := fun q => { q with ofile := Function.update (s.procs p).ofile fd none }) rfl plain used
      plain
    refine cleared.closeSection fun _ d => cleared.setProc_plain (by rfl) ?_ ?_ (by cases d <;> rfl)
    · simp [plain]
    · simp [used]
  | fork used idle free => exact shape.startFork used idle (by simpa using Lib.find?_finRange_some free)
  | exit used idle =>
    exact shape.setExiting rfl (by rw [idle]; simp) used rfl fun j below => absurd below (by simp)
  | kalloc used both => exact shape.setProc_plain (makePipe_procs _ _ _) (by rw [both]; rfl) used rfl
  | kallocFail used both => exact shape.setProc_plain rfl (by rw [both]; rfl) used rfl
  | install used opened =>
    rw [setPc_eq, setOfile_eq, setFile_setProc, setProc_setProc]
    exact shape.setProc_plain (setFile_procs _ _ _) (by rw [opened]; rfl) used rfl
  | installFail used opened => exact shape.setProc_plain rfl (by rw [opened]; rfl) used rfl
  | allocWrite used piped => exact shape.setProc_plain (alloc_procs _ _ _) (by rw [piped]; rfl) used rfl
  | allocWriteFail used piped => exact shape.setProc_plain rfl (by rw [piped]; rfl) used rfl
  | installPipe used made =>
    rw [setPc_eq, setOfile_eq, setProc_setProc]
    exact shape.setProc_plain rfl (by rw [made]; rfl) used rfl
  | installPipeFail used made => exact shape.setProc_plain rfl (by rw [made]; rfl) used rfl
  | closed used done => exact shape.setProc_plain rfl (by rw [done]; rfl) used rfl
  | closeNext used closing =>
    -- the critical section goes on to release or to the next file: both plain
    exact shape.closeSection fun _ d =>
      shape.setProc_plain (by rfl) (by rw [closing]; rfl) used (by cases d <;> rfl)
  | release used releasing =>
    exact shape.setProc_plain (release_procs _ _) (by rw [releasing]; rfl) used rfl
  | forkSkip _ forking => exact shape.forkNext forking
  | forkCopy _ forking h => exact shape.forkCopy h forking (by rfl) _
  | forkDone _ forking => exact shape.forkDone forking
  | @exitSkip p fd used exiting h unopened =>
    refine shape.setExiting rfl (by rw [exiting]; simp) used rfl fun j below => ?_
    -- descriptor `fd` is not open, those below it are cleared
    rcases Nat.lt_succ_iff_lt_or_eq.mp below with lt | rfl
    · exact shape.exiting p fd exiting j lt
    · exact unopened
  | @exitClose p fd f used exiting =>
    exact shape.closeSection fun _ _ =>
      shape.setExitClosed (by rfl) (by rw [exiting]; simp) used rfl fun j below =>
        shape.exiting p fd exiting j below
  | exitDone _ exiting past => exact shape.exitDone exiting past
  | @exitClear p fd d used closed =>
    rw [setPc_eq, setOfile_eq, setProc_setProc]
    refine shape.setExiting (by cases d <;> simp) (by rw [closed]; simp) used rfl fun j below => ?_
    -- the descriptor just closed is cleared now, those below it were
    dsimp only
    by_cases same : j = fd
    · rw [same, Function.update_self]
    · rw [Function.update_of_ne same]
      exact shape.exitClosed p fd d closed j (Fin.lt_def.mpr (by
        have : j.val ≠ fd.val := Fin.val_ne_of_ne same
        omega))

/-- **Every step keeps the shape.** -/
theorem Shape.step (shape : s.Shape) {e : FileEvent nf nd k} (stepped : s.step e = some t) :
    t.Shape :=
  shape.move (move_of_step stepped).2

/-- The kernel as `main` leaves it has the shape: no process is inside a call or holds a
descriptor. -/
theorem Shape.initial (init : s.Initial) : s.Shape := by
  obtain ⟨-, idle, -⟩ := init
  refine ⟨fun p _ => idle p, fun p child fd forking => ?_, fun p q child fd fd' forking _ => ?_,
    fun p fd exiting => ?_, fun p fd d closed => ?_⟩
  · rw [(idle p).1] at forking
    cases forking
  · rw [(idle p).1] at forking
    cases forking
  · rw [(idle p).1] at exiting
    cases exiting
  · rw [(idle p).1] at closed
    cases closed

/-- **Every reachable state has the shape.** -/
theorem Reachable.shape (reach : s.Reachable) : s.Shape :=
  Lib.Reachable.induction Shape (fun _ init => Shape.initial init)
    (fun _ _ _ shape stepped => shape.step stepped) reach

end Shape

end FileSystem

end Xv6
