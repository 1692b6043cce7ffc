import Mathlib.Algebra.Order.BigOperators.Group.Finset
import Xv6.File.Shape

/-!
**Reference counts of the file table.**

What each process holds: `FileProc.holds q f`, the descriptors of `q` that point to `f` (all but
the one `exit` has closed and not yet cleared, `closedSlot`) and the references its call holds
outside `ofile` (`held`: the files `sys_open` and `pipealloc` allocated and not yet installed,
those `fileclose` is still to close). `owners s f` sums them over the processes.

* `Counted` — every count of `ftable` is the references the processes hold, and no step has
  panicked. Every move is `Balanced` (the count of each file changes by as much as the
  references to it), and `filedup` and `fileclose` find a reference in every move that calls
  them (`Counted.one_le_ref`), so `Reachable.counted`: every reachable state is `Counted`.
-/

namespace Xv6

variable {nf nd k : Nat}

namespace FilePc

/-- The references to files that the call in progress holds outside `ofile`. -/
def held : FilePc nf nd k → List (Fin nf)
  | .opened f _ _ => [f]
  | .piped rf => [rf]
  | .pipedBoth rf wf => [rf, wf]
  | .pipeMade rf wf => [rf, wf]
  | .closing files => files
  | .releasing _ files => files
  | _ => []

/-- The descriptor whose file `exit` has closed and not yet cleared. -/
def closedSlot : FilePc nf nd k → Option (Fin nd)
  | .exitClosed fd _ => some fd
  | _ => none

@[simp] theorem afterClose_held (files : List (Fin nf)) (d : Option (Dropped nf)) :
    (afterClose files d : FilePc nf nd k).held = files := by
  cases d <;> rfl

@[simp] theorem afterClose_closedSlot (files : List (Fin nf)) (d : Option (Dropped nf)) :
    (afterClose files d : FilePc nf nd k).closedSlot = none := by
  cases d <;> rfl

end FilePc

/-- What the release of `d` records: the file and its allocation, when it was a pipe end or an
inode. -/
def Dropped.entry (d : Dropped nf) : Option (Fin nf × Nat) :=
  if d.ff.type = .none then none else some (d.file, d.gen)

/-- The release a process makes next. -/
def FilePc.pending : FilePc nf nd k → Option (Fin nf × Nat)
  | .releasing d _ => d.entry
  | .exitClosed _ (some d) => d.entry
  | _ => none

namespace FileProc

/-- The descriptors of `q` that hold a reference: all but the one `exit` has closed. -/
def live (q : FileProc nf nd k) (fd : Fin nd) : Option (Fin nf) :=
  if q.pc.closedSlot = some fd then none else q.ofile fd

/-- The references `q` holds to `f`: its descriptors and the call it is in. -/
def holds (q : FileProc nf nd k) (f : Fin nf) : Nat :=
  (Finset.univ.filter fun fd => q.live fd = some f).card + q.pc.held.count f

/-! ### What a change of one process does to its references -/

section Holds

variable (q : FileProc nf nd k) (f : Fin nf)

theorem live_of_open (slot : q.pc.closedSlot = none) : q.live = q.ofile := by
  funext fd
  simp [live, slot]

theorem live_of_closed {fd : Fin nd} (slot : q.pc.closedSlot = some fd) :
    q.live = Function.update q.ofile fd none := by
  funext j
  by_cases same : j = fd
  · subst same
    simp [live, slot]
  · simp [live, slot, Function.update_of_ne same, Ne.symm same]

/-- The descriptors that point to `f` after one of them changes. -/
theorem card_update (ofile : Fin nd → Option (Fin nf)) (fd : Fin nd) (v : Option (Fin nf)) :
    (Finset.univ.filter fun j => Function.update ofile fd v j = some f).card +
        (ofile fd).toList.count f =
      (Finset.univ.filter fun j => ofile j = some f).card + v.toList.count f := by
  have counted : ∀ o : Option (Fin nf), (if o = some f then 1 else 0) = o.toList.count f := by
    intro o
    cases o <;> simp [List.count_singleton]
  have moved := Lib.card_filter_update ofile (fun o => o = some f) fd v
  rw [counted, counted] at moved
  exact moved

/-- The references of a process are those of its descriptors, its closed slot and its call. -/
theorem holds_congr {q' : FileProc nf nd k} (ofile : q'.ofile = q.ofile)
    (slot : q'.pc.closedSlot = q.pc.closedSlot) (held : q'.pc.held = q.pc.held) :
    q'.holds f = q.holds f := by
  unfold holds live
  rw [ofile, slot, held]

/-- The call moves on, and no descriptor changes. -/
theorem holds_setPc (pc : FilePc nf nd k) (slot : pc.closedSlot = q.pc.closedSlot) :
    ({ q with pc }).holds f + q.pc.held.count f = q.holds f + pc.held.count f := by
  unfold holds live
  dsimp only
  rw [slot]
  omega

/-- **One descriptor changes** and the call moves on, outside `exit`'s closed slot. -/
theorem holds_update (fd : Fin nd) (v : Option (Fin nf)) (pc : FilePc nf nd k)
    (before : q.pc.closedSlot = none) (after : pc.closedSlot = none) :
    ({ q with ofile := Function.update q.ofile fd v, pc }).holds f + (q.ofile fd).toList.count f +
        q.pc.held.count f =
      q.holds f + v.toList.count f + pc.held.count f := by
  have moved := card_update f q.ofile fd v
  unfold holds
  rw [live_of_open q before, live_of_open _ after]
  dsimp only
  omega

/-- **`exit` closes a descriptor**: the slot stops holding a reference. -/
theorem holds_close {fd : Fin nd} (pc : FilePc nf nd k) (before : q.pc.closedSlot = none)
    (after : pc.closedSlot = some fd) (held : pc.held = q.pc.held) :
    ({ q with pc }).holds f + (q.ofile fd).toList.count f = q.holds f := by
  have moved := card_update f q.ofile fd none
  unfold holds
  rw [live_of_open q before, live_of_closed _ after]
  dsimp only
  rw [held]
  simp only [Option.toList_none, List.count_nil, add_zero] at moved
  omega

/-- **`exit` clears the descriptor it closed**: no reference changes. -/
theorem holds_clear {fd : Fin nd} (pc : FilePc nf nd k) (before : q.pc.closedSlot = some fd)
    (after : pc.closedSlot = none) (held : pc.held = q.pc.held) :
    ({ q with ofile := Function.update q.ofile fd none, pc }).holds f = q.holds f := by
  unfold holds
  rw [live_of_closed q before, live_of_open _ after]
  dsimp only
  rw [held]

theorem one_le_holds_of_live {fd : Fin nd} (live : q.live fd = some f) : 1 ≤ q.holds f := by
  have : 0 < (Finset.univ.filter fun fd => q.live fd = some f).card :=
    Finset.card_pos.mpr ⟨fd, by simpa using live⟩
  unfold holds
  omega

theorem one_le_holds_of_held (mem : f ∈ q.pc.held) : 1 ≤ q.holds f := by
  have : 0 < q.pc.held.count f := List.count_pos_iff.mpr mem
  unfold holds
  omega

end Holds

end FileProc

/-! ### Counts of a file after `filealloc`, `filedup` and `fileclose` -/

section Refs

theorem ref_update_of_succ {ftable : Fin nf → File} {f : Fin nf} {file : File}
    (grow : file.ref = (ftable f).ref + 1) (g : Fin nf) :
    (Function.update ftable f file g).ref = (ftable g).ref + [f].count g := by
  by_cases same : g = f
  · subst same
    simp [grow]
  · simp [Function.update_of_ne same, Ne.symm same]

theorem ref_filealloc {ftable ftable' : Fin nf → File} {f : Fin nf}
    (alloc : filealloc ftable = some (f, ftable')) (g : Fin nf) :
    (ftable' g).ref = (ftable g).ref + [f].count g := by
  obtain ⟨free, rfl⟩ := filealloc_eq_some alloc
  exact ref_update_of_succ (by simp [free]) g

theorem ref_filedup {ftable ftable' : Fin nf → File} {f : Fin nf}
    (dup : filedup ftable f = .ok ftable') (g : Fin nf) :
    (ftable' g).ref = (ftable g).ref + [f].count g := by
  obtain ⟨-, rfl⟩ := filedup_eq_ok dup
  exact ref_update_of_succ rfl g

theorem ref_closeSection {s : FileSystem nf nd k} {p : Fin k} {f : Fin nf}
    (held : 1 ≤ (s.ftable f).ref) (next : Option (Dropped nf) → FilePc nf nd k) (g : Fin nf) :
    ((s.closeSection p f next).ftable g).ref + [f].count g = (s.ftable g).ref := by
  rw [FileSystem.closeSection_ftable held]
  by_cases same : g = f
  · subst same
    simp only [Function.update_self, List.count_singleton_self]
    omega
  · simp [Function.update_of_ne same, Ne.symm same]

end Refs

namespace FileSystem

/-- The references to `f` that the processes hold. -/
def owners (s : FileSystem nf nd k) (f : Fin nf) : Nat := ∑ p, (s.procs p).holds f

/-- A step that changes the count of each file by as much as the references to it. -/
def Balanced (s s' : FileSystem nf nd k) : Prop :=
  ∀ f, (s'.ftable f).ref + s.owners f = (s.ftable f).ref + s'.owners f

theorem Balanced.refl (s : FileSystem nf nd k) : Balanced s s := fun _ => rfl

theorem Balanced.trans {s t u : FileSystem nf nd k} (first : Balanced s t) (second : Balanced t u) :
    Balanced s u := fun f => by
  have := first f
  have := second f
  omega

theorem holds_le_owners (s : FileSystem nf nd k) (p : Fin k) (f : Fin nf) :
    (s.procs p).holds f ≤ s.owners f :=
  Finset.single_le_sum (f := fun q => (s.procs q).holds f) (fun _ _ => Nat.zero_le _)
    (Finset.mem_univ p)

/-- **One process changes.** The step is balanced when the count of each file changes by as
much as that process's references to it. -/
theorem balanced_of_procs {s t : FileSystem nf nd k} {p : Fin k} {x : FileProc nf nd k}
    (procs : t.procs = Function.update s.procs p x)
    (changed : ∀ f, (t.ftable f).ref + (s.procs p).holds f = (s.ftable f).ref + x.holds f) :
    Balanced s t := fun f => by
  have moved := Lib.sum_update s.procs (fun q => q.holds f) p x
  have := changed f
  unfold owners
  rw [procs]
  omega

theorem balanced_setProc {s t : FileSystem nf nd k} (procs : t.procs = s.procs) (p : Fin k)
    (g : FileProc nf nd k → FileProc nf nd k)
    (changed : ∀ f, (t.ftable f).ref + (s.procs p).holds f =
      (s.ftable f).ref + (g (s.procs p)).holds f) :
    Balanced s (t.setProc p g) :=
  balanced_of_procs (by rw [setProc_procs, procs]) changed

/-- A process moves on in its call and no reference moves. -/
theorem balanced_setPc {s t : FileSystem nf nd k} (procs : t.procs = s.procs)
    (refs : ∀ f, (t.ftable f).ref = (s.ftable f).ref) {p : Fin k} {pc : FilePc nf nd k}
    (slot : pc.closedSlot = (s.procs p).pc.closedSlot) (held : pc.held = (s.procs p).pc.held) :
    Balanced s (t.setPc p pc) :=
  balanced_setProc procs p _ fun f => by
    have same : ({ s.procs p with pc }).holds f = (s.procs p).holds f :=
      FileProc.holds_congr (s.procs p) f (by rfl) slot held
    rw [refs, same]

/-- A process moves on in its call, holding one more file `f`, which `filealloc` just gave. -/
theorem balanced_setPc_alloc {s t : FileSystem nf nd k} (procs : t.procs = s.procs) {f : Fin nf}
    (refs : ∀ g, (t.ftable g).ref = (s.ftable g).ref + [f].count g) {p : Fin k}
    {pc : FilePc nf nd k} (slot : pc.closedSlot = (s.procs p).pc.closedSlot)
    (held : ∀ g, pc.held.count g = (s.procs p).pc.held.count g + [f].count g) :
    Balanced s (t.setPc p pc) :=
  balanced_setProc procs p _ fun g => by
    have moved := FileProc.holds_setPc (s.procs p) g pc slot
    rw [refs g]
    have := held g
    omega


/-! ### The invariant -/

/-- The counts of `ftable` are the references the processes hold, and no step has panicked. -/
structure Counted (s : FileSystem nf nd k) : Prop where
  counts : ∀ f, (s.ftable f).ref = s.owners f
  running : s.halted = none

section Counted

variable {s t : FileSystem nf nd k} {p : Fin k}

theorem Counted.of_balanced (counted : s.Counted) (balanced : Balanced s t)
    (running : t.halted = none) : t.Counted where
  counts f := by
    have := balanced f
    have := counted.counts f
    omega
  running := running

/-- A file some process holds a reference to has a count. -/
theorem Counted.one_le_ref (counted : s.Counted) {f : Fin nf} (holding : 1 ≤ (s.procs p).holds f) :
    1 ≤ (s.ftable f).ref := by
  rw [counted.counts f]
  exact le_trans holding (holds_le_owners s p f)

/-- The file behind an open descriptor of a process outside `exit`'s loop has a count. -/
theorem Counted.one_le_ref_of_ofile (counted : s.Counted) {fd : Fin nd} {f : Fin nf}
    (slot : (s.procs p).pc.closedSlot = none) (opened : (s.procs p).ofile fd = some f) :
    1 ≤ (s.ftable f).ref := by
  apply counted.one_le_ref (p := p)
  apply FileProc.one_le_holds_of_live _ _
    (show (s.procs p).live fd = some f by rw [FileProc.live_of_open _ slot, opened])

/-- The kernel as `main` leaves it: no file has a count and no process holds one. -/
theorem Counted.initial (init : s.Initial) : s.Counted where
  counts f := by
    obtain ⟨zero, idle, -⟩ := init
    have none : ∀ p, (s.procs p).holds f = 0 := by
      intro p
      unfold FileProc.holds
      rw [FileProc.live_of_open _ (by rw [(idle p).1]; rfl), (idle p).1]
      simp [(idle p).2, FilePc.held]
    simp [zero f, File.zero, owners, none]
  running := init.2.2.2.2.2

/-- **Every move is balanced and panics nowhere**, one case per path of the calls: `filedup` and
`fileclose` are called on files the caller holds, so they find a count. -/
theorem Counted.move (shape : s.Shape) (counted : s.Counted) (move : s.Move t) : t.Counted := by
  have running := counted.running
  cases move with
  | same => exact counted
  | @dupPanic p fd f _ _ _ _ idle opened _ dup =>
    have held := counted.one_le_ref_of_ofile (by rw [idle]; rfl) opened
    unfold filedup at dup
    rw [if_neg (by omega)] at dup
    cases dup
  | @forkPanic p _ fd f _ _ forking h opened dup =>
    have held := counted.one_le_ref_of_ofile (by rw [forking]; rfl) opened
    unfold filedup at dup
    rw [if_neg (by omega)] at dup
    cases dup
  | @«open» p f _ _ _ _ idle alloc =>
    refine counted.of_balanced (balanced_setPc_alloc (alloc_procs _ _ _) (ref_filealloc alloc)
      (by rw [idle]; rfl) fun g => ?_) (by simp [running])
    simp [idle, FilePc.held]
  | @pipe p f _ _ idle alloc =>
    refine counted.of_balanced (balanced_setPc_alloc (alloc_procs _ _ _) (ref_filealloc alloc)
      (by rw [idle]; rfl) fun g => ?_) (by simp [running])
    simp [idle, FilePc.held]
  | @allocWrite p rf wf _ _ piped alloc =>
    refine counted.of_balanced (balanced_setPc_alloc (alloc_procs _ _ _) (ref_filealloc alloc)
      (by rw [piped]; rfl) fun g => ?_) (by simp [running])
    rw [piped]
    show ([rf] ++ [wf]).count g = [rf].count g + [wf].count g
    exact List.count_append
  | @dup p fd f fd' ofile _ _ idle opened free dup =>
    obtain ⟨unopened, -, rfl⟩ := fdalloc_lowest free
    refine counted.of_balanced (balanced_setProc (by rfl) p _ fun g => ?_) (by simp [running])
    -- the new descriptor holds one more reference, which `filedup` counts
    have moved := FileProc.holds_update (s.procs p) g fd' (some f) (s.procs p).pc
      (by rw [idle]; rfl) (by rw [idle]; rfl)
    rw [unopened, ref_filedup dup g] at *
    simp only [Option.toList_none, List.count_nil, Option.toList_some, add_zero] at moved
    omega
  | @close p fd f _ idle opened =>
    have held : 1 ≤ ((s.setOfile p (Function.update (s.procs p).ofile fd none)).ftable f).ref :=
      counted.one_le_ref_of_ofile (by rw [idle]; rfl) opened
    have procs := closeSection_procs (p := p) held (FilePc.afterClose [])
    simp only [setOfile_eq, setProc_procs, Function.update_idem, Function.update_self,
      dropped_setProc] at procs
    refine counted.of_balanced (balanced_of_procs procs fun g => ?_)
      (by rw [closeSection_halted held]; simp [running])
    -- the descriptor's reference is the one `fileclose` drops
    have moved := FileProc.holds_update (s.procs p) g fd none (FilePc.afterClose [] (s.dropped f))
      (by rw [idle]; rfl) (FilePc.afterClose_closedSlot _ _)
    have dropped := ref_closeSection held (FilePc.afterClose []) (p := p) g
    rw [opened, idle, FilePc.afterClose_held] at moved
    have cleared : ((s.setOfile p (Function.update (s.procs p).ofile fd none)).ftable g).ref =
        (s.ftable g).ref := rfl
    rw [cleared] at dropped
    simp only [Option.toList_some, Option.toList_none, List.count_nil, FilePc.held, add_zero]
      at moved
    omega
  | @fork p child used idle free =>
    have unused : (s.procs child).used = false := by simpa using Lib.find?_finRange_some free
    have ne : child ≠ p := by
      rintro rfl
      rw [used] at unused
      cases unused
    -- the child is taken with no descriptor and no call, the parent starts its loop
    have childIdle := (shape.unused child unused).1
    refine counted.of_balanced (Balanced.trans (balanced_setProc (by rfl) child _ fun g => ?_)
      (balanced_setPc (by rfl) (fun _ => by rfl) ?_ ?_)) (by simp [running])
    · have same : ({ s.procs child with used := true, pc := .embryo }).holds g =
          (s.procs child).holds g :=
        FileProc.holds_congr _ g (by rfl) (by rw [childIdle]; rfl) (by rw [childIdle]; rfl)
      rw [same]
    · simp [Function.update_of_ne ne.symm, idle, FilePc.closedSlot]
    · simp [Function.update_of_ne ne.symm, idle, FilePc.held]
  | exit _ idle =>
    exact counted.of_balanced (balanced_setPc (by rfl) (fun _ => by rfl) (by rw [idle]; rfl)
      (by rw [idle]; rfl)) (by simp [running])
  | kalloc _ both =>
    exact counted.of_balanced (balanced_setPc (makePipe_procs _ _ _) (makePipe_ref _ _ _)
      (by rw [both]; rfl) (by rw [both]; rfl)) (by simp [running])
  | kallocFail _ both =>
    exact counted.of_balanced (balanced_setPc (by rfl) (fun _ => by rfl) (by rw [both]; rfl)
      (by rw [both]; rfl)) (by simp [running])
  | @install p f _ _ fd _ _ opened free =>
    obtain ⟨unopened, -, rfl⟩ := fdalloc_lowest free
    rw [setPc_eq, setOfile_eq, setFile_setProc, setProc_setProc]
    refine counted.of_balanced (balanced_setProc (setFile_procs _ _ _) p _ fun g => ?_)
      (by simp [running])
    -- the reference `filealloc` took moves from the call to the new descriptor
    have moved := FileProc.holds_update (s.procs p) g fd (some f) .idle (by rw [opened]; rfl) rfl
    rw [unopened, opened] at moved
    simp only [Option.toList_none, Option.toList_some, List.count_nil, FilePc.held,
      add_zero] at moved
    rw [setFile_ref _ _ g]
    · dsimp only
      omega
    · intro
      rfl
  | installFail _ opened =>
    exact counted.of_balanced (balanced_setPc (by rfl) (fun _ => by rfl) (by rw [opened]; rfl)
      (by rw [opened]; rfl)) (by simp [running])
  | allocWriteFail _ piped =>
    exact counted.of_balanced (balanced_setPc (by rfl) (fun _ => by rfl) (by rw [piped]; rfl)
      (by rw [piped]; rfl)) (by simp [running])
  | @installPipe p rf wf fd0 ofile fd1 ofile' _ made first second =>
    obtain ⟨unopened0, -, rfl⟩ := fdalloc_lowest first
    obtain ⟨unopened1, -, rfl⟩ := fdalloc_lowest second
    rw [setPc_eq, setOfile_eq, setProc_setProc]
    refine counted.of_balanced (balanced_setProc (by rfl) p _ fun g => ?_) (by simp [running])
    -- the two references of the call move to the two new descriptors
    have readEnd := FileProc.holds_update (s.procs p) g fd0 (some rf) (s.procs p).pc
      (by rw [made]; rfl) (by rw [made]; rfl)
    have writeEnd := FileProc.holds_update
      { s.procs p with ofile := Function.update (s.procs p).ofile fd0 (some rf) } g fd1 (some wf)
      .idle (by rw [made]; rfl) rfl
    dsimp only at writeEnd unopened1 ⊢
    rw [unopened0] at readEnd
    rw [unopened1] at writeEnd
    have ends : [rf, wf].count g = [rf].count g + [wf].count g := by
      simp only [List.count_cons, List.count_nil]
      omega
    rw [made] at readEnd writeEnd
    simp only [Option.toList_none, Option.toList_some, List.count_nil, FilePc.held, add_zero]
      at readEnd writeEnd
    omega
  | installPipeFail _ made =>
    exact counted.of_balanced (balanced_setPc (by rfl) (fun _ => by rfl) (by rw [made]; rfl)
      (by rw [made]; rfl)) (by simp [running])
  | closed _ done =>
    exact counted.of_balanced (balanced_setPc (by rfl) (fun _ => by rfl) (by rw [done]; rfl)
      (by rw [done]; rfl)) (by simp [running])
  | @closeNext p f files _ closing =>
    have held : 1 ≤ (s.ftable f).ref :=
      counted.one_le_ref (p := p) (FileProc.one_le_holds_of_held _ _ (by
        rw [closing]
        simp [FilePc.held]))
    refine counted.of_balanced (balanced_of_procs (closeSection_procs held _) fun g => ?_)
      (by rw [closeSection_halted held]; exact running)
    -- the call's reference is the one `fileclose` drops
    have moved := FileProc.holds_setPc (s.procs p) g (FilePc.afterClose files (s.dropped f))
      (by rw [closing, FilePc.afterClose_closedSlot]; rfl)
    have dropped := ref_closeSection held (FilePc.afterClose files) (p := p) g
    have first : (f :: files).count g = files.count g + [f].count g := by
      simp only [List.count_cons, List.count_nil]
      omega
    rw [FilePc.afterClose_held, closing] at moved
    simp only [FilePc.held] at moved
    dsimp only
    omega
  | release _ releasing =>
    exact counted.of_balanced (balanced_setPc (release_procs _ _) (by simp) (by rw [releasing]; rfl)
      (by rw [releasing]; rfl)) (by simp [running])
  | forkSkip _ forking =>
    exact counted.of_balanced (balanced_setPc (by rfl) (fun _ => by rfl) (by rw [forking]; rfl)
      (by rw [forking]; rfl)) (by simp [running])
  | @forkCopy p child fd f ftable _ forking h opened dup =>
    obtain ⟨ne, -, embryo, unopened⟩ := shape.forking p child fd forking
    refine counted.of_balanced (Balanced.trans
      (balanced_setProc (s := s) (t := { s with ftable }) rfl child _ fun g => ?_)
      (balanced_setPc (by rfl) (fun _ => by rfl) ?_ ?_)) (by simp [running])
    · -- the child's new descriptor holds the reference `filedup` counts
      have moved := FileProc.holds_update (s.procs child) g ⟨fd, h⟩ (some f) (s.procs child).pc
        (by rw [embryo]; rfl) (by rw [embryo]; rfl)
      rw [unopened ⟨fd, h⟩ le_rfl, ref_filedup dup g] at *
      simp only [Option.toList_none, List.count_nil, Option.toList_some, add_zero] at moved
      omega
    · simp [Function.update_of_ne ne.symm, forking, FilePc.closedSlot]
    · simp [Function.update_of_ne ne.symm, forking, FilePc.held]
  | @forkDone p child fd _ forking =>
    obtain ⟨ne, -, embryo, -⟩ := shape.forking p child fd forking
    refine counted.of_balanced (Balanced.trans (balanced_setPc (by rfl) (fun _ => by rfl) ?_ ?_)
      (balanced_setPc (by rfl) (fun _ => by rfl) ?_ ?_)) (by simp [running])
    · rw [embryo]; rfl
    · rw [embryo]; rfl
    · simp [Function.update_of_ne ne.symm, forking, FilePc.closedSlot]
    · simp [Function.update_of_ne ne.symm, forking, FilePc.held]
  | exitSkip _ exiting =>
    exact counted.of_balanced (balanced_setPc (by rfl) (fun _ => by rfl) (by rw [exiting]; rfl)
      (by rw [exiting]; rfl)) (by simp [running])
  | @exitClose p fd f _ exiting h opened =>
    have held : 1 ≤ (s.ftable f).ref := counted.one_le_ref_of_ofile (by rw [exiting]; rfl) opened
    refine counted.of_balanced (balanced_of_procs (closeSection_procs held _) fun g => ?_)
      (by rw [closeSection_halted held]; exact running)
    -- the closed slot stops holding the reference `fileclose` drops
    have moved := FileProc.holds_close (s.procs p) g (FilePc.exitClosed ⟨fd, h⟩ (s.dropped f))
      (by rw [exiting]; rfl) rfl (by rw [exiting]; rfl)
    have dropped := ref_closeSection held (.exitClosed ⟨fd, h⟩) (p := p) g
    rw [opened] at moved
    simp only [Option.toList_some] at moved
    dsimp only
    omega
  | @exitDone p fd _ exiting _ =>
    refine counted.of_balanced (balanced_setProc (by rfl) p _ fun g => ?_) (by simp [running])
    have same : ({ s.procs p with used := false, pc := .idle }).holds g = (s.procs p).holds g :=
      FileProc.holds_congr _ g (by rfl) (by rw [exiting]; rfl) (by rw [exiting]; rfl)
    rw [same]
  | @exitClear p fd d _ closed =>
    rw [setPc_eq, setOfile_eq, setProc_setProc]
    refine counted.of_balanced (balanced_setProc (by cases d <;> simp) p _ fun g => ?_)
      (by cases d <;> simp [running])
    -- the closed slot held no reference, and holds none once cleared
    have cleared := FileProc.holds_clear (s.procs p) g (FilePc.exiting (fd.val + 1))
      (by rw [closed]; rfl) rfl (by rw [closed]; rfl)
    have refs : ((d.elim s s.release).ftable g).ref = (s.ftable g).ref := by cases d <;> simp
    dsimp only
    rw [refs, cleared]

/-- **Every reachable state is counted**: the counts of `ftable` are the references the
processes hold, and no `filedup` or `fileclose` panics. -/
theorem Reachable.counted (reach : s.Reachable) : s.Counted :=
  Lib.Reachable.induction_under Shape Counted Reachable.shape
    (fun _ init => Counted.initial init)
    (fun _ _ _ shape counted stepped => counted.move shape (move_of_step stepped).2) reach

end Counted

end FileSystem

end Xv6
