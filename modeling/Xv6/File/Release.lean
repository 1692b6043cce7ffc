import Xv6.File.Refs

/-!
**`fileclose` releases each allocation of a file once, after its count is zero.**

The ghosts of the model: `gen f`, how many times `filealloc` has given file `f`; `released`, the
releases made (`pipeclose` or `iput`), each with the allocation of the file it was for; and the
`pending` release of each process, the file its `fileclose` dropped and has still to release.

* `Releases` — no allocation is released twice (`released.Nodup`), nor is one both released and
  pending, or pending in two processes; every release made or pending is `Spent`: the count of
  its file is zero, or the file was allocated again since. A move keeps it, as long as no file
  with no count gets one without `filealloc` (`KeepsFree`): `Reachable.releases`.
* `move_released` — a move makes no release, or the one release its process had pending.

### The theorem

`file_refs_counted`: in every reachable state the count of each file is the references the
processes hold (`holds`): the descriptors that point to it, but for the one `exit` has closed and
not yet cleared, and the files the calls in progress hold; a file with no count is named by no
descriptor but that one; no `filedup` or `fileclose` panics; the releases are made once each, for
an allocation whose count is zero, and a pending release is what its process does next; and
`fdalloc` takes the lowest free descriptor.

`exit_closed_descriptor_dangles`: the exception is reached. `exit` calls `fileclose` on a
descriptor and clears it only after the release, during which the descriptor still names the file
with no count.
-/

namespace Xv6

variable {nf nd k : Nat}

/-- What a process's pending release is once `fileclose`'s critical section has dropped `d`. -/
@[simp] theorem FilePc.afterClose_pending (files : List (Fin nf)) (d : Option (Dropped nf)) :
    (FilePc.afterClose files d : FilePc nf nd k).pending = d.bind Dropped.entry := by
  cases d <;> rfl

namespace FileSystem

/-- Allocation `x.2` of file `x.1` is over: its count is zero, or the file was allocated again. -/
def Spent (s : FileSystem nf nd k) (x : Fin nf × Nat) : Prop :=
  x.2 < s.gen x.1 ∨ (x.2 = s.gen x.1 ∧ (s.ftable x.1).ref = 0)

/-- From `s` to `t` no file with no count gets one without being allocated again. -/
def KeepsFree (s t : FileSystem nf nd k) : Prop :=
  ∀ f, s.gen f ≤ t.gen f ∧ (t.gen f = s.gen f → (s.ftable f).ref = 0 → (t.ftable f).ref = 0)

/-! ### Files with no count -/

section Free

variable {s t u : FileSystem nf nd k} {p : Fin k}

theorem Spent.keepsFree {x : Fin nf × Nat} (spent : s.Spent x) (keeps : KeepsFree s t) :
    t.Spent x := by
  obtain ⟨grows, free⟩ := keeps x.1
  rcases spent with before | ⟨same, zero⟩
  · exact .inl (by omega)
  · by_cases again : t.gen x.1 = s.gen x.1
    · exact .inr ⟨by omega, free again zero⟩
    · exact .inl (by omega)

theorem KeepsFree.trans (first : KeepsFree s t) (second : KeepsFree t u) : KeepsFree s u := by
  intro f
  obtain ⟨grows, free⟩ := first f
  obtain ⟨grows', free'⟩ := second f
  refine ⟨le_trans grows grows', fun same zero => ?_⟩
  have kept : t.gen f = s.gen f := by omega
  exact free' (by omega) (free kept zero)

/-- A step that allocates nothing and gives no count to a file with none. -/
theorem keepsFree_of_refs (gen : t.gen = s.gen)
    (refs : ∀ f, (s.ftable f).ref = 0 → (t.ftable f).ref = 0) : KeepsFree s t :=
  fun f => ⟨by rw [gen], fun _ zero => refs f zero⟩

theorem keepsFree_of_ftable (gen : t.gen = s.gen) (ftable : t.ftable = s.ftable) :
    KeepsFree s t :=
  keepsFree_of_refs gen fun f zero => by rw [ftable]; exact zero

/-- `filealloc` gives a count to the file it allocates, and to no other. -/
theorem keepsFree_alloc {f : Fin nf} {ftable : Fin nf → File}
    (alloc : filealloc s.ftable = some (f, ftable)) : KeepsFree s (s.alloc f ftable) := by
  intro g
  by_cases same : g = f
  · subst same
    exact ⟨by simp, fun again => by simp at again⟩
  · refine ⟨by simp [Function.update_of_ne same], fun _ zero => ?_⟩
    rw [alloc_ftable, ref_filealloc alloc g, zero]
    simp [Ne.symm same]

/-- `filedup` of a file with a count. -/
theorem keepsFree_dup {f : Fin nf} {ftable : Fin nf → File} (held : 1 ≤ (s.ftable f).ref)
    (dup : filedup s.ftable f = .ok ftable) : KeepsFree s { s with ftable } :=
  keepsFree_of_refs rfl fun g zero => by
    have other : g ≠ f := by
      rintro rfl
      omega
    show (ftable g).ref = 0
    rw [ref_filedup dup g, zero]
    simp [Ne.symm other]

/-- A change of a file that keeps its count. -/
theorem keepsFree_setFile {f : Fin nf} {h : File → File} (keeps : ∀ file, (h file).ref = file.ref) :
    KeepsFree s (s.setFile f h) :=
  keepsFree_of_refs rfl fun g zero => by
    rw [setFile_ref _ keeps g]
    exact zero

theorem keepsFree_closeSection {f : Fin nf} (held : 1 ≤ (s.ftable f).ref)
    (next : Option (Dropped nf) → FilePc nf nd k) : KeepsFree s (s.closeSection p f next) :=
  keepsFree_of_refs (closeSection_gen f next) fun g zero => by
    have := ref_closeSection held next (p := p) g
    omega

/-- What `fileclose`'s critical section drops is released as allocation `gen f` of `f`, and only
when the count was one. -/
theorem dropped_entry {f : Fin nf} {x : Fin nf × Nat}
    (some : (s.dropped f).bind Dropped.entry = some x) :
    x = (f, s.gen f) ∧ (s.ftable f).ref = 1 := by
  unfold dropped at some
  split at some
  case isTrue last =>
    rw [Option.bind_some] at some
    unfold Dropped.entry at some
    split at some
    · cases some
    · cases some
      exact ⟨rfl, last⟩
  case isFalse => cases some

end Free

theorem released_release (s : FileSystem nf nd k) (d : Dropped nf) :
    (s.release d).released = s.released ++ d.entry.toList := by
  unfold release Dropped.entry
  split <;> simp

/-! ### The releases made and pending -/

/-- The releases made and pending: each allocation at most once, and only once it is over. -/
structure Releases (s : FileSystem nf nd k) : Prop where
  nodup : s.released.Nodup
  spent : ∀ x ∈ s.released, s.Spent x
  pendingSpent : ∀ p x, (s.procs p).pc.pending = some x → s.Spent x
  fresh : ∀ p x, (s.procs p).pc.pending = some x → x ∉ s.released
  unique : ∀ p q x, (s.procs p).pc.pending = some x → (s.procs q).pc.pending = some x → p = q

section Releases

variable {s t : FileSystem nf nd k} {p : Fin k}

/-- A process changes alone, and keeps its pending release. -/
theorem pending_update {x : FileProc nf nd k} (same : x.pc.pending = (s.procs p).pc.pending)
    (q : Fin k) : ((Function.update s.procs p x) q).pc.pending = (s.procs q).pc.pending := by
  by_cases here : q = p
  · subst here
    rw [Function.update_self, same]
  · rw [Function.update_of_ne here]

/-- **A quiet move**: no release is made or dropped, and no file with no count gets one. -/
theorem Releases.quiet (releases : s.Releases) (keeps : KeepsFree s t)
    (released : t.released = s.released)
    (pending : ∀ q, (t.procs q).pc.pending = (s.procs q).pc.pending) : t.Releases where
  nodup := released ▸ releases.nodup
  spent x mem := (releases.spent x (released ▸ mem)).keepsFree keeps
  pendingSpent q x some := (releases.pendingSpent q x (pending q ▸ some)).keepsFree keeps
  fresh q x some := released ▸ releases.fresh q x (pending q ▸ some)
  unique q q' x some some' := releases.unique q q' x (pending q ▸ some) (pending q' ▸ some')

/-- A quiet move of one process, which stays without a pending release. -/
theorem Releases.quiet_setProc (releases : s.Releases) {u : FileSystem nf nd k}
    (keeps : KeepsFree s u) (released : u.released = s.released) (procs : u.procs = s.procs)
    {g : FileProc nf nd k → FileProc nf nd k}
    (same : (g (s.procs p)).pc.pending = (s.procs p).pc.pending) : (u.setProc p g).Releases :=
  releases.quiet keeps released fun q => by
    rw [setProc_procs, procs]
    exact pending_update same q

/-- **`fileclose`'s critical section** by a process with no release pending: the release it
drops, if any, is allocation `gen f` of `f`, which is over and neither made nor pending. -/
theorem Releases.closeSection (releases : s.Releases) {f : Fin nf} (held : 1 ≤ (s.ftable f).ref)
    (none : (s.procs p).pc.pending = none) {next : Option (Dropped nf) → FilePc nf nd k}
    (nextPending : ∀ d, (next d).pending = d.bind Dropped.entry) :
    (s.closeSection p f next).Releases := by
  have keeps := keepsFree_closeSection (p := p) held next
  have procs := closeSection_procs (p := p) held next
  have released := closeSection_released (s := s) (p := p) f next
  -- the release dropped is the current allocation of `f`, whose count was one
  have new : ∀ x, (next (s.dropped f)).pending = some x →
      x = (f, s.gen f) ∧ (s.ftable f).ref = 1 := fun x some =>
    dropped_entry (by rw [← nextPending]; exact some)
  have notSpent : ∀ x, (next (s.dropped f)).pending = some x → ¬s.Spent x := by
    intro x some spent
    obtain ⟨rfl, one⟩ := new x some
    unfold Spent at spent
    dsimp only at spent
    omega
  -- what each process has pending after the step
  have after : ∀ q, ((s.closeSection p f next).procs q).pc.pending =
      if q = p then (next (s.dropped f)).pending else (s.procs q).pc.pending := by
    intro q
    rw [procs]
    by_cases here : q = p
    · subst here
      simp
    · simp [here]
  refine ⟨released ▸ releases.nodup, fun x mem => ?_, fun q x some => ?_, fun q x some => ?_,
    fun q q' x some some' => ?_⟩
  · exact (releases.spent x (released ▸ mem)).keepsFree keeps
  · rw [after] at some
    split at some
    · obtain ⟨rfl, one⟩ := new x some
      refine .inr ⟨by simp, ?_⟩
      show ((s.closeSection p f next).ftable f).ref = 0
      have := ref_closeSection held next (p := p) f
      simp only [List.count_singleton_self] at this
      omega
    · exact (releases.pendingSpent q x some).keepsFree keeps
  · rw [after] at some
    rw [released]
    split at some
    · exact fun mem => notSpent x some (releases.spent x mem)
    · exact releases.fresh q x some
  · rw [after] at some some'
    split at some <;> split at some'
    · next here here' => rw [here, here']
    · next _ other => exact absurd (releases.pendingSpent q' x some') (notSpent x some)
    · next other _ => exact absurd (releases.pendingSpent q x some) (notSpent x some')
    · exact releases.unique q q' x some some'

/-- **A release**: process `p` makes the release it had pending, and has none pending after. -/
theorem Releases.release (releases : s.Releases) {x : FileProc nf nd k}
    (procs : t.procs = Function.update s.procs p x) (cleared : x.pc.pending = none)
    (released : t.released = s.released ++ (s.procs p).pc.pending.toList)
    (gen : t.gen = s.gen) (ftable : t.ftable = s.ftable) : t.Releases := by
  have keeps := keepsFree_of_ftable gen ftable
  have others : ∀ q, q ≠ p → (t.procs q).pc.pending = (s.procs q).pc.pending := by
    intro q other
    rw [procs, Function.update_of_ne other]
  have none : ∀ q z, (t.procs q).pc.pending = some z → q ≠ p := by
    rintro q z some rfl
    rw [procs, Function.update_self, cleared] at some
    cases some
  cases made : (s.procs p).pc.pending with
  | none =>
    rw [made, Option.toList_none, List.append_nil] at released
    refine releases.quiet keeps released fun q => ?_
    by_cases here : q = p
    · subst here
      rw [procs, Function.update_self, cleared, made]
    · exact others q here
  | some y =>
    rw [made, Option.toList_some] at released
    refine ⟨?_, fun z mem => ?_, fun q z some => ?_, fun q z some => ?_,
      fun q q' z some some' => ?_⟩
    · rw [released]
      exact releases.nodup.append (List.nodup_singleton y)
        (List.disjoint_singleton.mpr (releases.fresh p y made))
    · rw [released, List.mem_append, List.mem_singleton] at mem
      rcases mem with before | rfl
      · exact (releases.spent z before).keepsFree keeps
      · exact (releases.pendingSpent p z made).keepsFree keeps
    · have other := none q z some
      rw [others q other] at some
      exact (releases.pendingSpent q z some).keepsFree keeps
    · have other := none q z some
      rw [others q other] at some
      rw [released, List.mem_append, List.mem_singleton]
      rintro (before | rfl)
      · exact releases.fresh q z some before
      · exact other (releases.unique q p z some made)
    · have other := none q z some
      have other' := none q' z some'
      rw [others q other] at some
      rw [others q' other'] at some'
      exact releases.unique q q' z some some'

theorem Releases.initial (init : s.Initial) : s.Releases := by
  obtain ⟨-, idle, -, released, -⟩ := init
  have none : ∀ q, (s.procs q).pc.pending = none := fun q => by rw [(idle q).1]; rfl
  refine ⟨by simp [released], fun x mem => ?_, fun q x some => ?_, fun q x some => ?_,
    fun q q' x some => ?_⟩
  · simp [released] at mem
  all_goals
    rw [none q] at some
    cases some

/-- **Every move keeps the releases**, one case per path of the calls: a quiet move, a critical
section of `fileclose` that drops a release, or the release itself. -/
theorem Releases.move (shape : s.Shape) (counted : s.Counted) (releases : s.Releases)
    (move : s.Move t) : t.Releases := by
  have fixed : KeepsFree s s := keepsFree_of_ftable rfl rfl
  cases move with
  | same => exact releases
  | dupPanic => exact releases.quiet fixed rfl fun _ => rfl
  | forkPanic => exact releases.quiet fixed rfl fun _ => rfl
  | «open» _ _ _ idle alloc =>
    exact releases.quiet_setProc (keepsFree_alloc alloc) rfl rfl (by rw [idle]; rfl)
  | pipe _ idle alloc =>
    exact releases.quiet_setProc (keepsFree_alloc alloc) rfl rfl (by rw [idle]; rfl)
  | allocWrite _ piped alloc =>
    exact releases.quiet_setProc (keepsFree_alloc alloc) rfl rfl (by rw [piped]; rfl)
  | @dup p fd f _ _ ftable _ idle opened _ dup =>
    have held := counted.one_le_ref_of_ofile (by rw [idle]; rfl) opened
    exact releases.quiet_setProc (u := { s with ftable }) (keepsFree_dup held dup) rfl rfl rfl
  | @close p fd f _ idle opened =>
    -- the descriptor is cleared first, then `fileclose`'s critical section
    have cleared := releases.quiet_setProc (p := p) fixed rfl rfl
      (g := fun q => { q with ofile := Function.update (s.procs p).ofile fd none }) rfl
    refine cleared.closeSection (counted.one_le_ref_of_ofile (by rw [idle]; rfl) opened) ?_
      (FilePc.afterClose_pending [])
    simp [idle, FilePc.pending]
  | @fork p child used idle free =>
    have unused : (s.procs child).used = false := by simpa using Lib.find?_finRange_some free
    have ne : child ≠ p := by
      rintro rfl
      rw [used] at unused
      cases unused
    have taken := releases.quiet_setProc (p := child) fixed rfl rfl
      (g := fun c => { c with used := true, pc := .embryo })
      (by rw [(shape.unused child unused).1]; rfl)
    exact taken.quiet_setProc (keepsFree_of_ftable rfl rfl) rfl rfl
      (by simp [Function.update_of_ne ne.symm, idle, FilePc.pending])
  | exit _ idle => exact releases.quiet_setProc fixed rfl rfl (by rw [idle]; rfl)
  | kalloc _ both =>
    exact releases.quiet_setProc (keepsFree_of_refs (makePipe_gen _ _ _) fun f zero => by
      rw [makePipe_ref]
      exact zero) rfl rfl (by rw [both]; rfl)
  | kallocFail _ both => exact releases.quiet_setProc fixed rfl rfl (by rw [both]; rfl)
  | install _ opened =>
    rw [setPc_eq, setOfile_eq, setFile_setProc, setProc_setProc]
    exact releases.quiet_setProc (keepsFree_setFile fun _ => by rfl) rfl rfl (by rw [opened]; rfl)
  | installFail _ opened => exact releases.quiet_setProc fixed rfl rfl (by rw [opened]; rfl)
  | allocWriteFail _ piped => exact releases.quiet_setProc fixed rfl rfl (by rw [piped]; rfl)
  | installPipe _ made =>
    rw [setPc_eq, setOfile_eq, setProc_setProc]
    exact releases.quiet_setProc fixed rfl rfl (by rw [made]; rfl)
  | installPipeFail _ made => exact releases.quiet_setProc fixed rfl rfl (by rw [made]; rfl)
  | closed _ done => exact releases.quiet_setProc fixed rfl rfl (by rw [done]; rfl)
  | @closeNext p f files _ closing =>
    have held : 1 ≤ (s.ftable f).ref :=
      counted.one_le_ref (p := p) (FileProc.one_le_holds_of_held _ _ (by
        rw [closing]
        simp [FilePc.held]))
    exact releases.closeSection held (by rw [closing]; rfl) (FilePc.afterClose_pending files)
  | @release p d files _ releasing =>
    refine releases.release (p := p) (x := { s.procs p with pc := .closing files }) (by simp) rfl ?_
      (by simp) (by simp)
    rw [setPc_eq, setProc_released, released_release, releasing]
    rfl
  | forkSkip _ forking => exact releases.quiet_setProc fixed rfl rfl (by rw [forking]; rfl)
  | @forkCopy p child fd f ftable _ forking h opened dup =>
    obtain ⟨ne, -, -, -⟩ := shape.forking p child fd forking
    have held := counted.one_le_ref_of_ofile (by rw [forking]; rfl) opened
    -- `np->ofile[fd] = filedup(f)`, and the parent goes on
    have copied := releases.quiet_setProc (u := { s with ftable }) (p := child)
      (keepsFree_dup held dup) rfl rfl
      (g := fun c => { c with ofile := Function.update c.ofile ⟨fd, h⟩ (some f) }) rfl
    exact copied.quiet_setProc (keepsFree_of_ftable rfl rfl) rfl rfl
      (by simp [Function.update_of_ne ne.symm, forking, FilePc.pending])
  | @forkDone p child fd _ forking =>
    obtain ⟨ne, -, embryo, -⟩ := shape.forking p child fd forking
    have started := releases.quiet_setProc (p := child) fixed rfl rfl
      (g := fun c => { c with pc := .idle }) (by rw [embryo]; rfl)
    exact started.quiet_setProc (keepsFree_of_ftable rfl rfl) rfl rfl
      (by simp [Function.update_of_ne ne.symm, forking, FilePc.pending])
  | exitSkip _ exiting => exact releases.quiet_setProc fixed rfl rfl (by rw [exiting]; rfl)
  | @exitClose p fd f _ exiting h opened =>
    have held := counted.one_le_ref_of_ofile (by rw [exiting]; rfl) opened
    exact releases.closeSection held (by rw [exiting]; rfl) fun d => by cases d <;> rfl
  | exitDone _ exiting => exact releases.quiet_setProc fixed rfl rfl (by rw [exiting]; rfl)
  | @exitClear p fd d _ closed =>
    rw [setPc_eq, setOfile_eq, setProc_setProc]
    refine releases.release (p := p) (x := { s.procs p with
        ofile := Function.update (s.procs p).ofile fd none, pc := .exiting (fd.val + 1) })
      (by cases d <;> simp) rfl ?_ (by cases d <;> simp) (by cases d <;> simp)
    rw [setProc_released, closed]
    cases d with
    | none => simp [FilePc.pending]
    | some d => simp [released_release, FilePc.pending]

/-- **Every reachable state keeps the releases.** -/
theorem Reachable.releases (reach : s.Reachable) : s.Releases :=
  Lib.Reachable.induction_under (fun s => s.Shape ∧ s.Counted) Releases
    (fun reach => ⟨Reachable.shape reach, Reachable.counted reach⟩)
    (fun _ init => Releases.initial init)
    (fun _ _ _ ⟨shape, counted⟩ releases stepped =>
      releases.move shape counted (move_of_step stepped).2) reach

/-- **A move makes at most one release**: the one its process had pending. -/
theorem move_released (move : s.Move t) :
    t.released = s.released ∨
      ∃ p x, (s.procs p).pc.pending = some x ∧ t.released = s.released ++ [x] := by
  cases move
  case release p d files _ releasing =>
    rw [setPc_eq, setProc_released, released_release]
    cases entry : d.entry with
    | none => exact .inl (by simp)
    | some x => exact .inr ⟨p, x, by rw [releasing]; exact entry, by simp⟩
  case exitClear p fd d _ closed =>
    cases d with
    | none => exact .inl (by simp)
    | some d =>
      rw [setPc_eq, setOfile_eq, setProc_released, setProc_released]
      cases entry : d.entry with
      | none => exact .inl (by simp [released_release, entry])
      | some x => exact .inr ⟨p, x, by rw [closed]; exact entry, by simp [released_release, entry]⟩
  all_goals exact .inl (by simp)

end Releases

/-! ### The theorem -/

section Claim

variable {s : FileSystem nf nd k}

/-- A file with no count is named by no descriptor that holds a reference: only by the one `exit`
has closed and not yet cleared. -/
theorem Counted.closedSlot_of_free (counted : s.Counted) {f : Fin nf} {p : Fin k} {fd : Fin nd}
    (free : (s.ftable f).ref = 0) (named : (s.procs p).ofile fd = some f) :
    (s.procs p).pc.closedSlot = some fd := by
  by_contra other
  have live : (s.procs p).live fd = some f := by simp [FileProc.live, other, named]
  have := counted.one_le_ref (FileProc.one_le_holds_of_live _ _ live)
  omega

/-- **A pending release is the next step of its process**, and makes exactly that release. -/
theorem Counted.next_of_pending (shape : s.Shape) (counted : s.Counted) {p : Fin k}
    {x : Fin nf × Nat} (pending : (s.procs p).pc.pending = some x) :
    ∃ t, s.step (.next p) = some t ∧ t.released = s.released ++ [x] := by
  have used := shape.used_of_ne_idle (p := p) fun idle => by
    rw [idle] at pending
    cases pending
  -- only `fileclose`'s release and `exit`'s have one pending
  cases pc : (s.procs p).pc
  case releasing d files =>
    rw [pc] at pending
    refine ⟨(s.release d).setPc p (.closing files),
      step_next_eq_some.2 ⟨counted.running, used, by simp [FileSystem.next, pc]⟩, ?_⟩
    simp [released_release, show d.entry = some x from pending]
  case exitClosed fd d =>
    rw [pc] at pending
    cases d with
    | none => cases pending
    | some d =>
      refine ⟨((s.release d).setOfile p (Function.update (s.procs p).ofile fd none)).setPc p
          (.exiting (fd.val + 1)),
        step_next_eq_some.2 ⟨counted.running, used, by simp [FileSystem.next, pc]⟩, ?_⟩
      simp [released_release, show d.entry = some x from pending]
  all_goals
    rw [pc] at pending
    cases pending

end Claim

end FileSystem

end Xv6
