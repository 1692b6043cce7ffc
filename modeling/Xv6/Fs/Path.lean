import Xv6.Fs.Inode
import Xv6.Lib.Place
import Mathlib.Logic.Function.Iterate

/-!
**`skipelem`: a path read one element at a time.**

`namex` calls `skipelem(path, name)` until it returns 0, feeding back the pointer it returns. What
the iteration should yield is `components path`: the path split on `/` with the empty pieces (those
of leading, repeated and trailing slashes) removed.

* `skipelem_eq_none_iff`, `head_ne_slash_of_skipelem` — `skipelem` returns 0 exactly on a string of
  slashes, and never returns a pointer at a `/`; `length_lt_of_skipelem` — what it returns is
  shorter than what it was given, so the iteration stops (`skipelemStep_iterate`);
* `splitOn_eq_cons`, `components_dropWhile` — the first piece of a split, and that leading slashes
  only add empty pieces;
* `pathElems_eq_components` — the elements `namex` takes are the components, each cut to `DIRSIZ`
  characters; the induction is on the fuel, which the length of the path bounds;
* `skipelemName` — what `skipelem` leaves in `name`: the element's first `DIRSIZ` characters, with a
  `0` after them when the element is shorter.
-/

namespace Xv6

open Lib

/-! ### One call -/

section Skipelem

variable {path name rest : List Char}

/-- The characters of the next element: from the first one that is not a slash to the next slash
or the end of the string. -/
def nextElem (path : List Char) : List Char := (path.dropWhile (· = '/')).takeWhile (· ≠ '/')

theorem skipelem_eq (path : List Char) :
    skipelem path = if path.dropWhile (· = '/') = [] then none
      else some ((nextElem path).take dirSiz,
        ((path.dropWhile (· = '/')).dropWhile (· ≠ '/')).dropWhile (· = '/')) := by
  unfold skipelem nextElem
  split
  next empty => rw [if_pos empty]
  next nonempty => rw [if_neg nonempty]

@[simp] theorem skipelem_slash (path : List Char) : skipelem ('/' :: path) = skipelem path := by
  simp [skipelem_eq, nextElem]

@[simp] theorem skipelem_nil : skipelem [] = none := rfl

/-- At an element's first character: the element, cut to `DIRSIZ`, and what follows its slashes. -/
theorem skipelem_cons {c : Char} (notSlash : c ≠ '/') (path : List Char) :
    skipelem (c :: path) = some ((c :: path.takeWhile (· ≠ '/')).take dirSiz,
      (path.dropWhile (· ≠ '/')).dropWhile (· = '/')) := by
  simp [skipelem_eq, nextElem, notSlash]

/-- `skipelem` returns 0 exactly on a string of slashes. -/
theorem skipelem_eq_none_iff : skipelem path = none ↔ ∀ c ∈ path, c = '/' := by
  induction path with
  | nil => simp
  | cons c path ih =>
    by_cases slash : c = '/'
    · subst slash
      simp [ih]
    · simp [skipelem_cons slash, slash]

/-- What `skipelem` returns is shorter than what it was given. -/
theorem length_lt_of_skipelem (stepped : skipelem path = some (name, rest)) :
    rest.length < path.length := by
  induction path with
  | nil => cases stepped
  | cons c path ih =>
    by_cases slash : c = '/'
    · subst slash
      rw [skipelem_slash] at stepped
      exact Nat.lt_succ_of_lt (ih stepped)
    · rw [skipelem_cons slash] at stepped
      obtain ⟨-, rfl⟩ := Prod.mk.inj (Option.some.inj stepped)
      have first : ((path.dropWhile (· ≠ '/')).dropWhile (· = '/')).length ≤
          (path.dropWhile (· ≠ '/')).length := (List.dropWhile_sublist _).length_le
      have second : (path.dropWhile (· ≠ '/')).length ≤ path.length :=
        (List.dropWhile_sublist _).length_le
      simp only [List.length_cons]
      omega

/-- A pointer `skipelem` returns never points at a slash. -/
theorem head_ne_slash_of_skipelem (stepped : skipelem path = some (name, rest)) :
    rest.head? ≠ some '/' := by
  rw [skipelem_eq] at stepped
  split at stepped
  · cases stepped
  · obtain ⟨-, rfl⟩ := Prod.mk.inj (Option.some.inj stepped)
    intro slashed
    have := List.head?_dropWhile_not (· = '/') ((path.dropWhile (· = '/')).dropWhile (· ≠ '/'))
    rw [slashed] at this
    simp at this

theorem length_le_of_skipelem (stepped : skipelem path = some (name, rest)) :
    name.length ≤ dirSiz := by
  rw [skipelem_eq] at stepped
  split at stepped
  · cases stepped
  · obtain ⟨rfl, -⟩ := Prod.mk.inj (Option.some.inj stepped)
    exact List.length_take_le _ _

end Skipelem

/-! ### The iteration -/

section Iterate

/-- One call of `skipelem` in `namex`'s loop on the pointer it was given; `none` is the 0 it
returns, after which the loop stops. -/
def skipelemStep (path : Option (List Char)) : Option (List Char) :=
  path.bind fun path => (skipelem path).map Prod.snd

/-- **The iteration stops**: from a string of `n` characters, `n + 1` calls reach 0. -/
theorem skipelemStep_iterate : ∀ (n : Nat) (path : List Char), path.length < n →
    skipelemStep^[n] (some path) = none
  | 0, _, short => absurd short (Nat.not_lt_zero _)
  | n + 1, path, short => by
    rw [Function.iterate_succ_apply]
    cases stepped : skipelem path with
    | none =>
      have stopped : ∀ m, skipelemStep^[m] none = none := fun m =>
        Function.iterate_fixed (f := skipelemStep) rfl m
      simp [skipelemStep, stepped, stopped]
    | some next =>
      obtain ⟨name, rest⟩ := next
      have shorter := length_lt_of_skipelem stepped
      simpa [skipelemStep, stepped] using skipelemStep_iterate n rest (by omega)

/-- The path split on `/`, with the empty pieces removed: the elements of a path. -/
def components (path : List Char) : List (List Char) :=
  (path.splitOn '/').filter (· ≠ [])

/-- **The first piece of a split** is the characters up to the first slash; the rest is the split
of what follows that slash. -/
theorem splitOn_eq_cons (path : List Char) :
    path.splitOn '/' = path.takeWhile (· ≠ '/') ::
      match path.dropWhile (· ≠ '/') with
      | [] => []
      | _ :: after => after.splitOn '/' := by
  induction path with
  | nil => rfl
  | cons c path ih =>
    by_cases slash : c = '/'
    · subst slash
      simp [List.splitOn, List.splitOnP_cons_eq_if_modifyHead]
    · have split : (c :: path).splitOn '/' = ((path.splitOn '/').modifyHead (c :: ·)) := by
        simp [List.splitOn, List.splitOnP_cons_eq_if_modifyHead, slash]
      rw [split, ih]
      simp [slash]

theorem components_slash (path : List Char) : components ('/' :: path) = components path := by
  simp [components, List.splitOn, List.splitOnP_cons_eq_if_modifyHead]

/-- Leading slashes add only empty pieces. -/
theorem components_dropWhile (path : List Char) :
    components (path.dropWhile (· = '/')) = components path := by
  induction path with
  | nil => rfl
  | cons c path ih =>
    by_cases slash : c = '/'
    · subst slash
      simp [components_slash, ih]
    · simp [slash]

/-- At an element's first character: that element, then the components after it. -/
theorem components_cons {c : Char} (notSlash : c ≠ '/') (path : List Char) :
    components (c :: path) = (c :: path.takeWhile (· ≠ '/')) ::
      components ((path.dropWhile (· ≠ '/')).dropWhile (· = '/')) := by
  rw [components_dropWhile]
  unfold components
  rw [splitOn_eq_cons]
  simp only [List.takeWhile_cons, List.dropWhile_cons, ne_eq, notSlash, not_false_eq_true,
    decide_true, if_true]
  rw [List.filter_cons_of_pos (by simp)]
  congr 1
  -- what follows the element starts at its slash, if anything follows
  cases after : path.dropWhile (· ≠ '/') with
  | nil => rfl
  | cons slash after' =>
    have isSlash : slash = '/' := by
      have := List.head?_dropWhile_not (· ≠ '/') path
      rw [after] at this
      simpa using this
    subst isSlash
    simp [List.splitOn, List.splitOnP_cons_eq_if_modifyHead]

/-- `namex`'s loop with `fuel` calls to spare, from a string no longer than the fuel: the
components, each cut to `DIRSIZ` characters. The induction is on the fuel; within a step the
leading slashes are skipped first. -/
theorem pathElems_go_eq : ∀ (fuel : Nat) (path : List Char), path.length ≤ fuel →
    pathElems.go fuel path = (components path).map (·.take dirSiz)
  | 0, path, short => by
    rw [List.length_eq_zero_iff.mp (Nat.le_zero.mp short)]
    rfl
  | fuel + 1, path, short => by
    induction path with
    | nil => rfl
    | cons c path ih =>
      by_cases slash : c = '/'
      · subst slash
        simp only [pathElems.go, skipelem_slash] at ih ⊢
        rw [components_slash, ih (by simp at short; omega)]
      · have shorter : ((path.dropWhile (· ≠ '/')).dropWhile (· = '/')).length ≤ path.length :=
          ((List.dropWhile_sublist _).trans (List.dropWhile_sublist _)).length_le
        have room : path.length ≤ fuel := by simpa using short
        simp only [pathElems.go, skipelem_cons slash, components_cons slash, List.map_cons]
        rw [pathElems_go_eq fuel _ (Nat.le_trans shorter room)]

/-- **The elements `namex` takes are the path's components**, each cut to `DIRSIZ` characters. -/
theorem pathElems_eq_components (path : List Char) :
    pathElems path = (components path).map (·.take dirSiz) :=
  pathElems_go_eq _ path (Nat.le_refl _)

theorem length_le_of_mem_pathElems {path name : List Char} (mem : name ∈ pathElems path) :
    name.length ≤ dirSiz := by
  rw [pathElems_eq_components] at mem
  obtain ⟨piece, -, rfl⟩ := List.mem_map.mp mem
  exact List.length_take_le _ _

end Iterate

/-! ### The name buffer -/

section Name

/-- What `skipelem` leaves in the `DIRSIZ` bytes of `name`: `memmove(name, s, DIRSIZ)` for an
element of `DIRSIZ` characters or more, else `memmove(name, s, len)` and `name[len] = 0`. -/
def skipelemName (path : List Char) (name : Nat → Char) : Nat → Char :=
  let s := nextElem path
  if s.length ≥ dirSiz then place name 0 (s.take dirSiz)
  else Function.update (place name 0 s) s.length '\x00'

/-- A `0` among the first `DIRSIZ` bytes of a buffer: the name in it is terminated. -/
def Terminated (name : Nat → Char) : Prop := ∃ i < dirSiz, name i = '\x00'

variable {path name rest : List Char}

theorem nextElem_sublist (path : List Char) : List.Sublist (nextElem path) path :=
  (List.takeWhile_sublist _).trans (List.dropWhile_sublist _)

/-- **The name `skipelem` copies**: its buffer starts with the element it returns, and holds a `0`
exactly when the element is shorter than `DIRSIZ`. -/
theorem skipelemName_spec (noNul : '\x00' ∉ path) (stepped : skipelem path = some (name, rest))
    (buf : Nat → Char) :
    window (skipelemName path buf) 0 name.length = name ∧
      (Terminated (skipelemName path buf) ↔ name.length < dirSiz) := by
  rw [skipelem_eq] at stepped
  split at stepped
  · cases stepped
  obtain ⟨rfl, -⟩ := Prod.mk.inj (Option.some.inj stepped)
  have noNulElem : '\x00' ∉ nextElem path := fun mem => noNul ((nextElem_sublist path).subset mem)
  unfold skipelemName Terminated
  by_cases long : (nextElem path).length ≥ dirSiz
  · -- `DIRSIZ` characters and no terminator
    have cut : ((nextElem path).take dirSiz).length = dirSiz := by simp; omega
    simp only [long, if_true, cut]
    refine ⟨by simpa [cut] using window_place_self buf 0 ((nextElem path).take dirSiz), ?_⟩
    simp only [Nat.lt_irrefl, iff_false, not_exists, not_and]
    intro i within nul
    rw [show i = 0 + i by omega, place_add (by omega)] at nul
    exact noNulElem (nul ▸ List.mem_of_mem_take (List.getElem_mem _))
  · have short : (nextElem path).length < dirSiz := by omega
    have whole : (nextElem path).take dirSiz = nextElem path := List.take_of_length_le (by omega)
    simp only [long, if_false, whole, short, iff_true]
    refine ⟨?_, ⟨(nextElem path).length, short, by simp⟩⟩
    rw [window_congr (g := place buf 0 (nextElem path)) fun j within =>
      Function.update_of_ne (by omega) _ _]
    exact window_place_self buf 0 _

end Name

/-! ### What `namex` reads of a path -/

section Claim

/-- What `skipelem` does with a path: called again and again on what it returns, it returns 0
after one call more than the path has characters at most, having yielded the components cut to
`DIRSIZ` characters; it returns 0 exactly on a string of slashes and never returns a pointer at a
slash; it leaves in `name` the element it yields, terminated exactly when it is shorter than
`DIRSIZ`. -/
structure SkipelemSpec (path : List Char) : Prop where
  stops : skipelemStep^[path.length + 1] (some path) = none
  elems : pathElems path = (components path).map (·.take dirSiz)
  none_iff : skipelem path = none ↔ ∀ c ∈ path, c = '/'
  not_slash : ∀ name rest, skipelem path = some (name, rest) → rest.head? ≠ some '/'
  name : ∀ name rest, skipelem path = some (name, rest) → ∀ buf,
    window (skipelemName path buf) 0 name.length = name ∧
      (Terminated (skipelemName path buf) ↔ name.length < dirSiz)

theorem skipelem_splits_path (path : List Char) (noNul : '\x00' ∉ path) : SkipelemSpec path where
  stops := skipelemStep_iterate _ path (Nat.lt_succ_self _)
  elems := pathElems_eq_components path
  none_iff := skipelem_eq_none_iff
  not_slash _ _ stepped := head_ne_slash_of_skipelem stepped
  name _ _ stepped := skipelemName_spec noNul stepped

theorem skipelem_splits_path_slashes : SkipelemSpec "///a//bb".toList :=
  skipelem_splits_path _ (by decide)

end Claim

end Xv6
