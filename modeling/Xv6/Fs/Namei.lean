import Xv6.Fs.Dirlink
import Xv6.Fs.Path

/-!
**`namex`: path resolution, the references it takes, and the sleep-locks it holds.**

`namex(path, nameiparent, name)` starts from the root (`iget`) or from the current directory
(`idup`), and for each element `skipelem` takes from the path locks the inode reached, checks that
it is a directory, looks the element up (`dirlookup`, which `iget`s the inode found) and puts the
directory back (`iunlockput`). The reference walk `walk` says what it should find: each element
looked up in the directory reached so far; `walkParent` stops one element early.

* `Passable`, `Tree` — an inode `namex` may pass through (in use, with a link or a reference held
  elsewhere, so the `iput` after its lookup frees nothing), and a directory tree, whose entries in
  use name such inodes;
* `Refs s₀ s r` — `s` is `s₀` with the references `r`; `ilock_refs`, `iget_refs`, `iput_refs`,
  `dirlookup_refs` — what each step does to them;
* `namexLoop_run` — the loop, from one reference held to the current inode, returns what the walk
  finds with one reference held to it (none when it finds nothing): the induction is on the
  elements, the invariant that the references are those of the start with one more at the
  current inode; `used_held` — so the cache fills one entry more at most, and `dirlookup`'s
  `iget` finds a free entry when two were free at the start;
* `namexLocked` — `namex` with the inodes whose sleep-lock it holds: the same run, and every lock
  it takes released (`namexLoop_run`, `namex_run`);
* `walk_eq_none_iff`, `walkParent_eq` — when the walk finds nothing, and `nameiparent`'s walk as
  the walk of every element but the last.
-/

namespace Xv6

variable {k : Nat}

/-! ### The reference walk -/

section Walk

/-- The inode the entry for `name` in directory `d` names, as `dirlookup` finds it. -/
def lookup (d : Dinode) (name : List Char) : Option Nat := (findEntry d.dirents name).map (·.1.inum)

/-- The inode reached from `ip` by looking up each element in the directory reached so far:
none when an inode before an element is not a directory or has no entry for it. -/
def walk (disk : Nat → Dinode) : Nat → List (List Char) → Option Nat
  | ip, [] => some ip
  | ip, name :: rest =>
    if (disk ip).type ≠ .dir then none
    else (lookup (disk ip) name).bind fun next => walk disk next rest

/-- The directory of the last element and that element: the walk over every element but the
last, to a directory. -/
def walkParent (disk : Nat → Dinode) : Nat → List (List Char) → Option (Nat × List Char)
  | _, [] => none
  | ip, name :: rest =>
    if (disk ip).type ≠ .dir then none
    else if rest = [] then some (ip, name)
    else (lookup (disk ip) name).bind fun next => walkParent disk next rest

/-- What `namex` should return: the walk's inode, or with `nameiparent` the parent and the last
element. -/
def resolved (nameiparent : Bool) (disk : Nat → Dinode) (ip : Nat) (elems : List (List Char)) :
    Option (Nat × List Char) :=
  if nameiparent then walkParent disk ip elems else (walk disk ip elems).map fun ip => (ip, [])

/-- **`nameiparent`'s walk**: over a path that ends in `name`, the walk of the elements before
it, to a directory, with `name`. -/
theorem walkParent_append (disk : Nat → Dinode) (name : List Char) :
    ∀ (ip : Nat) (elems : List (List Char)), walkParent disk ip (elems ++ [name]) =
      (walk disk ip elems).bind fun d => if (disk d).type = .dir then some (d, name) else none
  | ip, [] => by
    by_cases isDir : (disk ip).type = .dir <;> simp [walkParent, walk, isDir]
  | ip, elem :: rest => by
    by_cases isDir : (disk ip).type = .dir
    · cases found : lookup (disk ip) elem with
      | none => simp [walkParent, walk, isDir, found]
      | some d => simp [walkParent, walk, isDir, found, walkParent_append disk name d rest]
    · simp [walkParent, walk, isDir]

end Walk

/-! ### What each step does to the references -/

section Steps

/-- The entries of the cache in use: those of the inodes below `NINODES` with a reference. -/
def used (r : Nat → Nat) : Nat := ((List.range nInodes).filter fun i => 0 < r i).length

/-- The references with one more to `ip`. -/
def held (r : Nat → Nat) (ip : Nat) : Nat → Nat := Function.update r ip (r ip + 1)

/-- An inode `namex` may pass through: in use, and with a link or a reference held elsewhere, so
that the `iput` after its lookup frees nothing. -/
def Passable (s : FsState k) (ip : Nat) : Prop :=
  (s.disk ip).type ≠ .free ∧ ((s.disk ip).nlink ≠ 0 ∨ 1 ≤ s.ref ip)

/-- A directory tree, as `namex` walks it: every entry in use of a directory names an inode it
may pass through. -/
def Tree (s : FsState k) : Prop :=
  ∀ d, (s.disk d).type = .dir → ∀ de ∈ (s.disk d).dirents, de.inum ≠ 0 → Passable s de.inum

/-- `s` is `s₀` with the references `r`: the disk and the current directories as they were, and
only the references and the `valid` flags of the cache changed. -/
structure Refs (s₀ s : FsState k) (r : Nat → Nat) : Prop where
  disk : s.disk = s₀.disk
  cwd : s.cwd = s₀.cwd
  ref : s.ref = r

variable {s₀ s : FsState k} {r : Nat → Nat} {ip : Nat}

/-- Taking one more reference fills one entry of the cache more at most. -/
theorem used_held (r : Nat → Nat) (ip : Nat) : used (held r ip) ≤ used r + 1 := by
  suffices ∀ l : List Nat, l.Nodup →
      (l.filter fun i => 0 < held r ip i).length ≤ (l.filter fun i => 0 < r i).length + 1 from
    this _ List.nodup_range
  intro l
  induction l with
  | nil => intro _; simp
  | cons a rest ih =>
    intro nodup
    obtain ⟨fresh, nodup⟩ := List.nodup_cons.mp nodup
    by_cases here : a = ip
    · -- the only change is at the head: the rest agree
      subst here
      have same : (rest.filter fun i => 0 < held r a i) = rest.filter fun i => 0 < r i :=
        List.filter_congr fun i mem => by
          rw [held, Function.update_of_ne fun (eq : i = a) => fresh (eq ▸ mem)]
      -- the head counts on the left: it holds the reference taken
      have counts : 0 < held r a a := by simp [held]
      rw [List.filter_cons, List.filter_cons, same, if_pos (by simpa using counts)]
      split <;> simp
    · have head : held r ip a = r a := Function.update_of_ne here _ _
      have more := ih nodup
      rw [List.filter_cons, List.filter_cons, head]
      split <;> simp <;> omega

/-- `ilock` of an inode in use, with a reference. -/
theorem ilock_refs (refs : Refs s₀ s r) (hold : 1 ≤ r ip) (typed : (s₀.disk ip).type ≠ .free) :
    ∃ s₁, (ilock ip).run s = pure ((), s₁) ∧ Refs s₀ s₁ r := by
  have taken : s.ref ip ≠ 0 := by rw [refs.ref]; omega
  have inUse : ¬(s.disk ip).type = .free := by rw [refs.disk]; exact typed
  cases valid : s.valid ip
  · exact ⟨{ s with valid := Function.update s.valid ip true }, by simp [ilock, taken, valid, inUse],
      refs.disk, refs.cwd, refs.ref⟩
  · exact ⟨s, by simp [ilock, taken, valid], refs⟩

/-- `iget` of an inode cached, or with a free entry: one reference more. -/
theorem iget_refs (refs : Refs s₀ s r) (room : used r < nInode) :
    ∃ s₁, (iget ip).run s = pure ((), s₁) ∧ Refs s₀ s₁ (held r ip) := by
  by_cases cached : 0 < s.ref ip
  · exact ⟨{ s with ref := Function.update s.ref ip (s.ref ip + 1) }, by simp [iget, cached],
      refs.disk, refs.cwd, by rw [refs.ref]; rfl⟩
  · -- a new entry, which holds nothing valid
    have free : ¬nInode ≤ ((List.range nInodes).filter fun i => 0 < s.ref i).length := by
      rw [refs.ref]
      unfold used at room
      omega
    have zero : r ip = 0 := by
      rw [refs.ref] at cached
      omega
    refine ⟨{ s with ref := Function.update s.ref ip 1, valid := Function.update s.valid ip false },
      by simp [iget, cached, free], refs.disk, refs.cwd, ?_⟩
    show Function.update s.ref ip 1 = held r ip
    rw [refs.ref, held, zero]

/-- `iput` that frees nothing: of an inode with a link, or with a reference held elsewhere. -/
theorem iput_refs (refs : Refs s₀ s r) (kept : (s₀.disk ip).nlink ≠ 0 ∨ 2 ≤ r ip) :
    ∃ s₁, (iput ip).run s = pure ((), s₁) ∧ Refs s₀ s₁ (Function.update r ip (r ip - 1)) := by
  have keeps : ¬(s.valid ip = true ∧ (s.disk ip).nlink = 0 ∧ s.ref ip = 1) := by
    rintro ⟨-, unlinked, one⟩
    rw [refs.disk] at unlinked
    rw [refs.ref] at one
    rcases kept with linked | two
    · exact linked unlinked
    · omega
  exact ⟨{ s with ref := Function.update s.ref ip (s.ref ip - 1) }, by simp [iput, keeps],
    refs.disk, refs.cwd, by rw [refs.ref]⟩

/-- The reference `namex` takes and then puts back: the references as they were. -/
theorem held_put (r : Nat → Nat) (ip : Nat) : Function.update (held r ip) ip (held r ip ip - 1) = r := by
  funext i
  by_cases here : i = ip
  · subst here
    simp [held]
  · simp [held, Function.update_of_ne here]

/-- A reference taken to `b` and one to `a` put back: the references with one more to `b`. -/
theorem held_put_other (r : Nat → Nat) (a b : Nat) :
    Function.update (held (held r a) b) a (held (held r a) b a - 1) = held r b := by
  funext i
  simp only [held, Function.update_apply]
  split_ifs <;> subst_vars <;> omega

theorem le_held (r : Nat → Nat) (ip i : Nat) : r i ≤ held r ip i := by
  by_cases here : i = ip
  · subst here
    simp [held]
  · simp [held, Function.update_of_ne here]

/-- `dirlookup` in a directory with no entry for `name` returns none and changes nothing. -/
theorem dirlookup_none {dp : Nat} {name : List Char} (isDir : (s.disk dp).type = .dir)
    (missing : findEntry (s.disk dp).dirents name = none) :
    (dirlookup dp name).run s = pure (none, s) := by
  simp [dirlookup_eq, isDir, missing]

/-- `dirlookup` of an entry there, with a free entry of the cache: its inode and slot, with a
reference to the inode. -/
theorem dirlookup_refs {dp : Nat} {name : List Char} {de : Dirent} {off : Nat}
    (refs : Refs s₀ s r) (isDir : (s₀.disk dp).type = .dir) (room : used r < nInode)
    (found : findEntry (s₀.disk dp).dirents name = some (de, off)) :
    ∃ s₁, (dirlookup dp name).run s = pure (some (de.inum, off), s₁) ∧ Refs s₀ s₁ (held r de.inum) := by
  obtain ⟨s₁, got, refs₁⟩ := @iget_refs _ s₀ s r de.inum refs room
  refine ⟨s₁, ?_, refs₁⟩
  rw [← refs.disk] at isDir found
  simp [dirlookup_eq, isDir, found, got]

end Steps

/-! ### The sleep-locks -/

section Locks

/-- The file system with the inodes whose sleep-lock the running call holds, the last taken
first. -/
abbrev LockM (k : Nat) := StateT (FsState k × List Nat) (Except String)

/-- A computation of the file system that takes and releases no sleep-lock. -/
def liftLocked {α : Type} (x : FsM k α) : LockM k α := fun ls =>
  (x.run ls.1).map fun r => (r.1, (r.2, ls.2))

/-- `ilock(ip)`: the checks and the read of `ilock`, with `acquiresleep(&ip->lock)`. -/
def ilockLocked (ip : Nat) : LockM k Unit := do
  liftLocked (ilock ip)
  modify fun ls => (ls.1, ip :: ls.2)

/-- `iunlock(ip)`: it panics unless the caller holds the lock and the inode has a reference. -/
def iunlock (ip : Nat) : LockM k Unit := do
  let ls ← get
  if ip ∉ ls.2 ∨ ls.1.ref ip < 1 then throw "iunlock"
  set (ls.1, ls.2.erase ip)

/-- `iunlockput(ip)`. -/
def iunlockput (ip : Nat) : LockM k Unit := do
  iunlock ip
  liftLocked (iput ip)

/-- `namex`'s loop as the source has it, with `ilock`, `iunlock` and `iunlockput`. -/
def namexLoopLocked (nameiparent : Bool) : Nat → List (List Char) → LockM k (Option (Nat × List Char))
  | ip, [] => do
    if nameiparent then
      liftLocked (iput ip)
      return none
    return some (ip, [])
  | ip, name :: rest => do
    ilockLocked ip
    if ((← get).1.disk ip).type ≠ .dir then
      iunlockput ip
      return none
    if nameiparent ∧ rest = [] then
      -- stop one level early
      iunlock ip
      return some (ip, name)
    match ← liftLocked (dirlookup ip name) with
    | none =>
      iunlockput ip
      return none
    | some (next, _) =>
      iunlockput ip
      namexLoopLocked nameiparent next rest

/-- `namex(path, nameiparent, name)` as the source has it, with its sleep-locks. -/
def namexLocked (p : Fin k) (path : List Char) (nameiparent : Bool) :
    LockM k (Option (Nat × List Char)) := do
  let start ← liftLocked (if path.head? = some '/' then do iget rootIno; pure rootIno
    else do
      let cwd := (← get).cwd p
      idup cwd
      pure cwd)
  namexLoopLocked nameiparent start (pathElems path)

variable {s s₁ : FsState k}

theorem liftLocked_run {α : Type} {x : FsM k α} {a : α} (ran : x.run s = pure (a, s₁))
    (locks : List Nat) : (liftLocked x).run (s, locks) = pure (a, (s₁, locks)) := by
  show Except.map _ (x.run s) = _
  rw [ran]
  rfl

theorem ilockLocked_run {ip : Nat} (locked : (ilock ip).run s = pure ((), s₁)) (locks : List Nat) :
    (ilockLocked ip).run (s, locks) = pure ((), (s₁, ip :: locks)) := by
  simp [ilockLocked, liftLocked_run locked]

/-- `iunlock` of the lock taken last, of an inode with a reference. -/
theorem iunlock_run {ip : Nat} (hold : 1 ≤ s.ref ip) (locks : List Nat) :
    (iunlock ip).run (s, ip :: locks) = pure ((), (s, locks)) := by
  have taken : s.ref ip ≠ 0 := by omega
  simp [iunlock, taken]

theorem iunlockput_run {ip : Nat} (hold : 1 ≤ s.ref ip) (put : (iput ip).run s = pure ((), s₁))
    (locks : List Nat) : (iunlockput ip).run (s, ip :: locks) = pure ((), (s₁, locks)) := by
  simp [iunlockput, iunlock_run hold, liftLocked_run put]

end Locks

/-! ### The loop -/

section Loop

variable {disk : Nat → Dinode} {nameiparent : Bool} {cur : Nat} {name : List Char}
  {rest : List (List Char)}

theorem resolved_notDir (notDir : (disk cur).type ≠ .dir) :
    resolved nameiparent disk cur (name :: rest) = none := by
  cases nameiparent <;> simp [resolved, walk, walkParent, notDir]

theorem resolved_last (isDir : (disk cur).type = .dir) :
    resolved true disk cur [name] = some (cur, name) := by
  simp [resolved, walkParent, isDir]

theorem resolved_missing (isDir : (disk cur).type = .dir) (notLast : ¬(nameiparent = true ∧ rest = []))
    (missing : lookup (disk cur) name = none) :
    resolved nameiparent disk cur (name :: rest) = none := by
  cases nameiparent <;> simp_all [resolved, walk, walkParent]

theorem resolved_found {next : Nat} (isDir : (disk cur).type = .dir)
    (notLast : ¬(nameiparent = true ∧ rest = [])) (found : lookup (disk cur) name = some next) :
    resolved nameiparent disk cur (name :: rest) = resolved nameiparent disk next rest := by
  cases nameiparent <;> simp_all [resolved, walk, walkParent]

/-- The references after `namex`: one more to the inode it returns, as before when it returns
none. -/
def refsAfter (r : Nat → Nat) : Option (Nat × List Char) → Nat → Nat
  | none => r
  | some (ip, _) => held r ip

variable {s₀ : FsState k}

/-- **The loop of `namex`**, from the inode `cur` with one reference held to it: what the walk
finds, with one reference held to the inode returned and every other reference as in `s₀`; the
disk as it was. As the source has it, with its sleep-locks, it releases every lock it takes. -/
theorem namexLoop_run (tree : Tree s₀) (room : used s₀.ref + 2 ≤ nInode) (nameiparent : Bool) :
    ∀ (elems : List (List Char)) (cur : Nat) (s : FsState k), Refs s₀ s (held s₀.ref cur) →
      Passable s₀ cur →
      ∃ s', (namexLoop nameiparent cur elems).run s =
          pure (resolved nameiparent s₀.disk cur elems, s') ∧
        (∀ locks, (namexLoopLocked nameiparent cur elems).run (s, locks) =
          pure (resolved nameiparent s₀.disk cur elems, (s', locks))) ∧
        Refs s₀ s' (refsAfter s₀.ref (resolved nameiparent s₀.disk cur elems)) := by
  intro elems
  induction elems with
  | nil =>
    intro cur s refs passable
    cases nameiparent
    · exact ⟨s, by simp [namexLoop, resolved, walk],
        fun locks => by simp [namexLoopLocked, resolved, walk],
        by simpa [resolved, walk, refsAfter] using refs⟩
    · -- `nameiparent` of a path with no element: the reference is put back
      have kept : (s₀.disk cur).nlink ≠ 0 ∨ 2 ≤ held s₀.ref cur cur := by
        simp only [held, Function.update_self]
        exact passable.2.imp_right fun other => by omega
      obtain ⟨s', put, refs'⟩ := iput_refs refs kept
      rw [held_put] at refs'
      exact ⟨s', by simp [namexLoop, put, resolved, walkParent],
        fun locks => by simp [namexLoopLocked, liftLocked_run put, resolved, walkParent], refs'⟩
  | cons name rest ih =>
    intro cur s refs passable
    obtain ⟨typed, linked⟩ := passable
    have kept : (s₀.disk cur).nlink ≠ 0 ∨ 2 ≤ held s₀.ref cur cur := by
      simp only [held, Function.update_self]
      exact linked.imp_right fun other => by omega
    obtain ⟨s₁, locked, refs₁⟩ := ilock_refs refs (by simp [held]) typed
    have hold₁ : 1 ≤ s₁.ref cur := by
      rw [refs₁.ref]
      simp [held]
    by_cases isDir : (s₀.disk cur).type = .dir
    case neg =>
      obtain ⟨s₂, put, refs₂⟩ := iput_refs refs₁ kept
      rw [held_put] at refs₂
      refine ⟨s₂, ?_, fun locks => ?_, by rw [resolved_notDir isDir]; exact refs₂⟩
      · simp [namexLoop, locked, refs₁.disk, isDir, put, resolved_notDir isDir]
      · simp [namexLoopLocked, ilockLocked_run locked, refs₁.disk, isDir,
          iunlockput_run hold₁ put, resolved_notDir isDir]
    by_cases early : nameiparent = true ∧ rest = []
    · -- `nameiparent` at the last element: the directory, still referenced and unlocked
      obtain ⟨rfl, rfl⟩ := early
      exact ⟨s₁, by simp [namexLoop, locked, refs₁.disk, isDir, resolved_last isDir],
        fun locks => by simp [namexLoopLocked, ilockLocked_run locked, refs₁.disk, isDir,
          iunlock_run hold₁, resolved_last isDir],
        by rw [resolved_last isDir]; exact refs₁⟩
    have room₁ : used (held s₀.ref cur) < nInode := by
      have := used_held s₀.ref cur
      omega
    cases found : findEntry (s₀.disk cur).dirents name with
    | none =>
      have missing : lookup (s₀.disk cur) name = none := by simp [lookup, found]
      obtain ⟨s₂, put, refs₂⟩ := iput_refs refs₁ kept
      rw [held_put] at refs₂
      have looked := @dirlookup_none _ s₁ cur name (by rw [refs₁.disk]; exact isDir)
        (by rw [refs₁.disk]; exact found)
      refine ⟨s₂, ?_, fun locks => ?_, by rw [resolved_missing isDir early missing]; exact refs₂⟩
      · simp [namexLoop, locked, refs₁.disk, isDir, early, looked, put,
          resolved_missing isDir early missing]
      · simp [namexLoopLocked, ilockLocked_run locked, refs₁.disk, isDir, early,
          liftLocked_run looked, iunlockput_run hold₁ put, resolved_missing isDir early missing]
    | some entry =>
      obtain ⟨de, off⟩ := entry
      have next : lookup (s₀.disk cur) name = some de.inum := by simp [lookup, found]
      -- the entry is one in use of the directory
      have spec := List.find?_some found
      have mem := List.fst_mem_of_mem_zipIdx (List.mem_of_find?_eq_some found)
      simp only [decide_eq_true_eq] at spec
      obtain ⟨s₂, looked, refs₂⟩ := dirlookup_refs refs₁ isDir room₁ found
      have kept₂ : (s₀.disk cur).nlink ≠ 0 ∨ 2 ≤ held (held s₀.ref cur) de.inum cur := by
        have := le_held (held s₀.ref cur) de.inum cur
        exact kept.imp_right fun two => by omega
      have hold₂ : 1 ≤ s₂.ref cur := by
        rw [refs₂.ref]
        have := le_held (held s₀.ref cur) de.inum cur
        simp only [held, Function.update_self] at this ⊢
        omega
      obtain ⟨s₃, put, refs₃⟩ := iput_refs refs₂ kept₂
      rw [held_put_other] at refs₃
      obtain ⟨s', ran, ranLocked, refs'⟩ := ih de.inum s₃ refs₃ (tree cur isDir de mem spec.1)
      refine ⟨s', ?_, fun locks => ?_, by rw [resolved_found isDir early next]; exact refs'⟩
      · simp [namexLoop, locked, refs₁.disk, isDir, early, looked, put, ran,
          resolved_found isDir early next]
      · simp [namexLoopLocked, ilockLocked_run locked, refs₁.disk, isDir, early,
          liftLocked_run looked, iunlockput_run hold₂ put, ranLocked, resolved_found isDir early next]

/-- Where `namex` starts: the root for a path that begins with `/`, else the current directory. -/
def startOf (s : FsState k) (p : Fin k) (path : List Char) : Nat :=
  if path.head? = some '/' then rootIno else s.cwd p

/-- **`namex`** of process `p`, in a directory tree with two entries of the cache free, from a
root and a current directory it may pass through: what the walk finds from where it starts, with
one reference held to the inode returned and every other reference as before; with its
sleep-locks, every lock it takes released. -/
theorem namex_run (tree : Tree s₀) (room : used s₀.ref + 2 ≤ nInode) (root : Passable s₀ rootIno)
    {p : Fin k} (cwd : Passable s₀ (s₀.cwd p)) (nameiparent : Bool) (path : List Char) :
    ∃ s', (namex p path nameiparent).run s₀ =
        pure (resolved nameiparent s₀.disk (startOf s₀ p path) (pathElems path), s') ∧
      (∀ locks, (namexLocked p path nameiparent).run (s₀, locks) =
        pure (resolved nameiparent s₀.disk (startOf s₀ p path) (pathElems path), (s', locks))) ∧
      Refs s₀ s' (refsAfter s₀.ref (resolved nameiparent s₀.disk (startOf s₀ p path) (pathElems path))) := by
  have start : Refs s₀ s₀ s₀.ref := ⟨rfl, rfl, rfl⟩
  by_cases absolute : path.head? = some '/'
  · obtain ⟨s₁, got, refs₁⟩ := @iget_refs _ s₀ s₀ s₀.ref rootIno start (by omega)
    obtain ⟨s', ran, ranLocked, refs'⟩ :=
      namexLoop_run tree room nameiparent (pathElems path) _ s₁ refs₁ root
    have started : (if path.head? = some '/' then do iget rootIno; pure rootIno
        else do
          let cwd := (← get).cwd p
          idup cwd
          pure cwd : FsM k Nat).run s₀ = pure (rootIno, s₁) := by
      simp [absolute, got]
    rw [startOf, if_pos absolute]
    exact ⟨s', by simp [namex, absolute, got, ran],
      fun locks => by rw [namexLocked, StateT.run_bind, liftLocked_run started, pure_bind]; exact ranLocked locks,
      refs'⟩
  · -- `idup` of the current directory
    have refs₁ : Refs s₀ { s₀ with ref := held s₀.ref (s₀.cwd p) } (held s₀.ref (s₀.cwd p)) :=
      ⟨rfl, rfl, rfl⟩
    obtain ⟨s', ran, ranLocked, refs'⟩ :=
      namexLoop_run tree room nameiparent (pathElems path) _ _ refs₁ cwd
    have started : (if path.head? = some '/' then do iget rootIno; pure rootIno
        else do
          let cwd := (← get).cwd p
          idup cwd
          pure cwd : FsM k Nat).run s₀ = pure (s₀.cwd p, { s₀ with ref := held s₀.ref (s₀.cwd p) }) := by
      simp [absolute, idup, held]
    rw [startOf, if_neg absolute]
    exact ⟨s', by simpa [namex, absolute, idup, held] using ran,
      fun locks => by rw [namexLocked, StateT.run_bind, liftLocked_run started, pure_bind]; exact ranLocked locks,
      refs'⟩

end Loop

/-! ### What `namei` and `nameiparent` return -/

section Claim

/-- **Where the walk stops**: it finds nothing exactly when, for some element, the inode the
elements before it reach is not a directory or has no entry for it. -/
theorem walk_eq_none_iff (disk : Nat → Dinode) :
    ∀ (ip : Nat) (elems : List (List Char)), walk disk ip elems = none ↔
      ∃ (i : Nat) (within : i < elems.length) (d : Nat), walk disk ip (elems.take i) = some d ∧
        ((disk d).type ≠ .dir ∨ lookup (disk d) elems[i] = none)
  | ip, [] => by simp [walk]
  | ip, name :: rest => by
    by_cases isDir : (disk ip).type = .dir
    case neg =>
      simp only [walk, isDir, ne_eq, not_false_eq_true, if_true, Option.bind, true_iff]
      exact ⟨0, by simp, ip, rfl, .inl isDir⟩
    cases found : lookup (disk ip) name with
    | none =>
      simp only [walk, isDir, ne_eq, not_true_eq_false, if_false, found, Option.bind_none, true_iff]
      exact ⟨0, by simp, ip, rfl, .inr found⟩
    | some next =>
      -- past the first element the walk goes on from `next`, each index one less
      have first : ∀ i, walk disk ip ((name :: rest).take (i + 1)) = walk disk next (rest.take i) := by
        intro i
        simp [walk, isDir, found]
      rw [walk, if_neg (not_not.mpr isDir), found, Option.bind_some, walk_eq_none_iff disk next rest]
      constructor
      · rintro ⟨i, within, d, reached, stops⟩
        exact ⟨i + 1, by simpa using within, d, by rwa [first], by simpa using stops⟩
      · rintro ⟨i, within, d, reached, stops⟩
        cases i with
        | zero =>
          -- the first element is looked up in a directory that has it
          obtain rfl : ip = d := by simpa [walk] using reached
          simp [isDir, found] at stops
        | succ i =>
          exact ⟨i, by simpa using within, d, by rwa [first] at reached, by simpa using stops⟩

/-- `nameiparent`'s walk: nothing for a path with no element, else the walk of every element but
the last, to a directory, with the last. -/
theorem walkParent_eq (disk : Nat → Dinode) (ip : Nat) (elems : List (List Char)) :
    walkParent disk ip elems = elems.getLast?.bind fun name =>
      (walk disk ip elems.dropLast).bind fun d =>
        if (disk d).type = .dir then some (d, name) else none := by
  rcases List.eq_nil_or_concat' elems with rfl | ⟨elems, name, rfl⟩
  · rfl
  · simp [walkParent_append]

/-- What `namei(path)` returns for process `p`: the inode the walk reaches from where `namex`
starts. -/
def nameiWalk (s : FsState k) (p : Fin k) (path : List Char) : Option Nat :=
  walk s.disk (startOf s p path) (pathElems path)

/-- What `nameiparent(path, name)` returns: the directory the walk of every element but the last
reaches, and the last element. -/
def parentWalk (s : FsState k) (p : Fin k) (path : List Char) : Option (Nat × List Char) :=
  (pathElems path).getLast?.bind fun name =>
    (walk s.disk (startOf s p path) (pathElems path).dropLast).bind fun d =>
      if (s.disk d).type = .dir then some (d, name) else none

/-- What `namex` does for process `p` and `path`. `namei` returns what the walk reaches, and
nothing exactly when the walk stops; `nameiparent` returns the directory reached by every element
but the last, with the last, and the elements are cut to `DIRSIZ` characters. Either holds one
reference to the inode it returns and leaves every other reference, the disk and the current
directories as they were; with its sleep-locks, `namex` releases every lock it takes. -/
structure NameSpec (s : FsState k) (p : Fin k) (path : List Char) : Prop where
  namei : ∃ s', (namex p path false).run s = pure ((nameiWalk s p path).map (·, []), s') ∧
    Refs s s' (refsAfter s.ref ((nameiWalk s p path).map (·, [])))
  namei_none : nameiWalk s p path = none ↔
    ∃ (i : Nat) (within : i < (pathElems path).length) (d : Nat),
      walk s.disk (startOf s p path) ((pathElems path).take i) = some d ∧
        ((s.disk d).type ≠ .dir ∨ lookup (s.disk d) (pathElems path)[i] = none)
  nameiparent : ∃ s', (namex p path true).run s = pure (parentWalk s p path, s') ∧
    Refs s s' (refsAfter s.ref (parentWalk s p path))
  names : ∀ name ∈ pathElems path, name.length ≤ dirSiz
  locks : ∀ nameiparent locks, (namexLocked p path nameiparent).run (s, locks) =
    ((namex p path nameiparent).run s).map fun r => (r.1, (r.2, locks))

theorem namex_spec {s : FsState k} (tree : Tree s) (room : used s.ref + 2 ≤ nInode)
    (root : Passable s rootIno) {p : Fin k} (cwd : Passable s (s.cwd p)) (path : List Char) :
    NameSpec s p path := by
  have run := namex_run tree room root cwd
  obtain ⟨s₁, ran₁, -, refs₁⟩ := run false path
  obtain ⟨s₂, ran₂, -, refs₂⟩ := run true path
  have parent : resolved true s.disk (startOf s p path) (pathElems path) = parentWalk s p path := by
    rw [resolved, if_pos rfl, walkParent_eq]
    rfl
  refine ⟨⟨s₁, ran₁, refs₁⟩, walk_eq_none_iff _ _ _, ⟨s₂, parent ▸ ran₂, parent ▸ refs₂⟩,
    fun name mem => length_le_of_mem_pathElems mem, ?_⟩
  intro nameiparent locks
  obtain ⟨s', ran, ranLocked, -⟩ := run nameiparent path
  rw [ranLocked locks, ran]
  rfl

/-- The root and the files of the `mkfs` image are in use, each with a link. -/
theorem mkfs_linked {files : List (List Char)} {ip : Nat}
    (named : ip = rootIno ∨ (2 ≤ ip ∧ ip < files.length + 2)) :
    ((mkfs k files).disk ip).type ≠ .free ∧ ((mkfs k files).disk ip).nlink ≠ 0 := by
  rcases named with rfl | ⟨low, high⟩
  · simp [mkfs]
  · have notRoot : ip ≠ rootIno := by unfold rootIno; omega
    simp [mkfs, notRoot, low, high]

/-- The image `mkfs` writes is a directory tree: the root's entries in use name the root and the
files. -/
theorem mkfs_tree {s : FsState k} {files : List (List Char)} (image : s.disk = (mkfs k files).disk) :
    Tree s := by
  intro d isDir de mem named
  have root : d = rootIno := by
    by_contra other
    rw [image] at isDir
    simp only [mkfs, other, if_false] at isDir
    split_ifs at isDir
  subst root
  rw [image] at mem
  simp only [mkfs, if_true] at mem
  -- an entry in use is `.`, `..` or a file's
  have inImage : de.inum = rootIno ∨ (2 ≤ de.inum ∧ de.inum < files.length + 2) := by
    simp only [mkfsRoot, List.cons_append, List.mem_cons, List.mem_append, List.mem_map,
      List.mem_replicate] at mem
    rcases mem with rfl | rfl | ⟨⟨name, i⟩, mem, rfl⟩ | ⟨-, rfl⟩
    · exact .inl rfl
    · exact .inl rfl
    · have := (List.mem_zipIdx mem).2.1
      exact .inr ⟨by simp, by simp at this ⊢; omega⟩
    · exact absurd rfl named
  obtain ⟨typed, linked⟩ := mkfs_linked (k := k) inImage
  exact ⟨by rw [image]; exact typed, .inl (by rw [image]; exact linked)⟩

theorem mkfs_root_passable (k : Nat) (files : List (List Char)) :
    Passable (mkfs k files) rootIno :=
  ⟨(mkfs_linked (.inl rfl)).1, .inl (mkfs_linked (.inl rfl)).2⟩

theorem namex_spec_mkfs : NameSpec (mkfs 1 ["a".toList]) 0 "/a".toList :=
  namex_spec (mkfs_tree rfl) (by decide) (mkfs_root_passable _ _) (mkfs_root_passable _ _) _

/-- The cache full: the root and the inodes `3` to `51` referenced, `NINODE` entries in use. -/
def fullCache : FsState 1 :=
  { mkfs 1 ["a".toList] with ref := fun i => if i = rootIno ∨ (3 ≤ i ∧ i ≤ 51) then 1 else 0 }

/-- With no free entry in the cache, `dirlookup`'s `iget` of the file `a` panics: `namei("/a")`
does not return the inode the walk reaches. -/
theorem namei_full_cache :
    Tree fullCache ∧ Passable fullCache rootIno ∧ nameiWalk fullCache 0 "/a".toList = some 2 ∧
      (namex 0 "/a".toList false).run fullCache = .error "iget: no inodes" :=
  ⟨mkfs_tree rfl, ⟨(mkfs_linked (k := 1) (.inl rfl)).1, .inl (mkfs_linked (k := 1) (.inl rfl)).2⟩, rfl, rfl⟩

end Claim

end Xv6
