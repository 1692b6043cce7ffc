import Xv6.Fs.Unlinked
import Xv6.Lib.Transition

/-!
**`dirlink` against `dirlookup`: names stay unique and lookups see each link.**

The names of `struct dirent` are written by `strncpy(de.name, name, DIRSIZ)` and compared by
`namecmp`, that is `strncmp(s, t, DIRSIZ)` (`string.c`). A name of `DIRSIZ` characters or more is
stored without its NUL, and `strncmp` stops at `DIRSIZ` bytes:

* `strncmp_strncpy` — the stored name compares equal to exactly the strings that agree with
  `name` on their first `DIRSIZ` characters, which is what the model's `namecmp` says of the
  name it stores (`namecmp_stored`).

Over a directory whose entries in use have names no other one matches (`UniqueNames`):

* `dirlink_present` — a name there: `-1`, and no inode changes (the `iget` of `dirlookup` and
  the `iput` after it cancel);
* `dirlink_absent` — a new name with room: `0`, the entry in the first free slot or past the
  end (`freeSlot`, `placed`); names stay unique, `dirlookup` finds the new entry, and every name
  that does not match it finds what it found before;
* `dirlink_spec` gathers them. `de.inum` is a `ushort`: `dirlink_wide_inum` links inode
  `65536`, whose entry is stored as a free slot, and then finds nothing.
-/

namespace Xv6

/-! ### Names in `struct dirent` -/

/-- `strncmp(p, q, n)`, with `p` and `q` the bytes from each pointer; past the end of a list
stands the NUL of a string. -/
def strncmp : List Char → List Char → Nat → Int
  | _, _, 0 => 0
  | p, q, n + 1 =>
    if p.headD '\x00' ≠ '\x00' ∧ p.headD '\x00' = q.headD '\x00' then strncmp p.tail q.tail n
    else (p.headD '\x00').toNat - (q.headD '\x00').toNat

/-- `strncpy(s, t, n)`: the `n` bytes it writes at `s` from the string `t`, up to and with its
NUL, then NULs. -/
def strncpy : List Char → Nat → List Char
  | _, 0 => []
  | t, n + 1 =>
    if t.headD '\x00' ≠ '\x00' then t.headD '\x00' :: strncpy t.tail n
    else '\x00' :: List.replicate n '\x00'

/-- Two characters that differ differ in their codes. -/
theorem toNat_sub_ne_zero {a b : Char} (ne : a ≠ b) : (a.toNat : Int) - b.toNat ≠ 0 := by
  have codes : a.toNat ≠ b.toNat := fun same => ne (Char.ext (UInt32.toNat_inj.mp same))
  omega

/-- **Encoding and comparison agree.** A string compares equal, within `n` bytes, to the `n`
bytes `strncpy` stores of a string when the two agree on their first `n` characters. -/
theorem strncmp_strncpy {p t : List Char} (pString : '\x00' ∉ p) (tString : '\x00' ∉ t) (n : Nat) :
    strncmp p (strncpy t n) n = 0 ↔ p.take n = t.take n := by
  induction n generalizing p t with
  | zero => simp [strncmp]
  | succ n ih =>
    cases t with
    | nil =>
      -- the stored bytes are NULs: only the empty string matches
      cases p with
      | nil => simp [strncmp, strncpy]
      | cons a p =>
        have nonzero : a ≠ '\x00' := fun same => pString (same ▸ List.mem_cons_self)
        simp only [strncpy, strncmp, List.headD_nil, List.headD_cons, List.tail_cons, ne_eq,
          not_true_eq_false, if_false, nonzero, not_false_eq_true, List.take_succ_cons,
          List.take_nil, reduceCtorEq, iff_false]
        exact toNat_sub_ne_zero nonzero
    | cons b t =>
      have bNonzero : b ≠ '\x00' := fun same => tString (same ▸ List.mem_cons_self)
      cases p with
      | nil =>
        simp only [strncpy, strncmp, List.headD_nil, List.headD_cons, ne_eq, bNonzero,
          not_false_eq_true, if_true, not_true_eq_false, false_and, if_false, List.take_nil,
          List.take_succ_cons, reduceCtorEq, iff_false]
        exact toNat_sub_ne_zero (Ne.symm bNonzero)
      | cons a p =>
        have aNonzero : a ≠ '\x00' := fun same => pString (same ▸ List.mem_cons_self)
        have rest := @ih p t (fun mem => pString (List.mem_cons_of_mem _ mem))
          (fun mem => tString (List.mem_cons_of_mem _ mem))
        simp only [strncpy, strncmp, List.headD_cons, List.tail_cons, ne_eq, bNonzero, aNonzero,
          not_false_eq_true, if_true, true_and, List.take_succ_cons, List.cons.injEq]
        by_cases same : a = b
        · simp only [same, if_true, true_and]
          exact rest
        · simp only [same, if_false, false_and, iff_false]
          exact toNat_sub_ne_zero same

/-- The model stores `name.take DIRSIZ` and compares by `namecmp`: for strings, that is
`strncmp` against the bytes `strncpy` stores. -/
theorem namecmp_stored {t name : List Char} (tString : '\x00' ∉ t) (nameString : '\x00' ∉ name) :
    namecmp t (name.take dirSiz) = true ↔ strncmp t (strncpy name dirSiz) dirSiz = 0 := by
  rw [strncmp_strncpy tString nameString, namecmp, List.take_take, Nat.min_self, beq_iff_eq]

theorem namecmp_comm (s t : List Char) : namecmp s t = namecmp t s := by
  simp only [namecmp, Bool.beq_comm]

@[simp] theorem namecmp_take (s t : List Char) : namecmp s (t.take dirSiz) = namecmp s t := by
  simp only [namecmp, List.take_take, Nat.min_self]

/-! ### Entries -/

/-- The entries in use have names that no other entry in use matches. -/
def UniqueNames (dirents : List Dirent) : Prop :=
  dirents.Pairwise fun a b => a.inum ≠ 0 → b.inum ≠ 0 → namecmp a.name b.name = false

/-- The entry `dirlookup` finds for `name`, with its slot: the first in use whose name matches. -/
def findEntry (dirents : List Dirent) (name : List Char) : Option (Dirent × Nat) :=
  dirents.zipIdx.find? fun e => e.1.inum ≠ 0 ∧ namecmp name e.1.name

/-- The slot `dirlink` writes: the first free one, or the one past the end. -/
def freeSlot (dirents : List Dirent) : Nat :=
  (dirents.findIdx? fun de => de.inum = 0).getD dirents.length

/-- The entries after `writeDirent` of `de` at slot `off`. -/
def placed (dirents : List Dirent) (off : Nat) (de : Dirent) : List Dirent :=
  if off < dirents.length then dirents.set off de else dirents ++ [de]

section Slots

variable {d : List Dirent}

theorem freeSlot_le : freeSlot d ≤ d.length := by
  unfold freeSlot
  cases found : d.findIdx? fun de => de.inum = 0 with
  | none => exact Nat.le_refl _
  | some i => exact Nat.le_of_lt (List.findIdx?_eq_some_iff_getElem.mp found).1

/-- The entry at the free slot fits in a directory file when the slot is inside the entries, or
past the end with room for one more. -/
theorem freeSlot_fits (fits : direntSize * d.length ≤ maxFile * bsize)
    (slot : freeSlot d < d.length ∨ direntSize * d.length + direntSize ≤ maxFile * bsize) :
    direntSize * freeSlot d + direntSize ≤ maxFile * bsize := by
  rcases slot with inside | more
  · have : direntSize * (freeSlot d + 1) ≤ direntSize * d.length := Nat.mul_le_mul_left _ inside
    rw [Nat.mul_succ] at this
    omega
  · have : direntSize * freeSlot d ≤ direntSize * d.length := Nat.mul_le_mul_left _ freeSlot_le
    omega

/-- The entries before the free slot are in use, and the slot itself, if inside, is free. -/
theorem freeSlot_spec :
    (∀ j (h : j < d.length), j < freeSlot d → d[j].inum ≠ 0) ∧
      ∀ h : freeSlot d < d.length, d[freeSlot d].inum = 0 := by
  unfold freeSlot
  cases found : d.findIdx? fun de => de.inum = 0 with
  | none =>
    rw [List.findIdx?_eq_none_iff] at found
    refine ⟨fun j h _ => by simpa using found d[j] (List.getElem_mem h), fun h => ?_⟩
    exact absurd h (Nat.lt_irrefl _)
  | some i =>
    obtain ⟨within, free, before⟩ := List.findIdx?_eq_some_iff_getElem.mp found
    exact ⟨fun j h earlier => by simpa using before j earlier, fun _ => by simpa using free⟩

theorem placed_eq {off : Nat} (within : off ≤ d.length) (de : Dirent) :
    placed d off de = d.take off ++ de :: d.drop (off + 1) := by
  unfold placed
  split_ifs with inside
  · rw [List.set_eq_take_append_cons_drop, if_pos inside]
  · have past : off = d.length := by omega
    subst past
    simp

theorem getElem?_placed {off : Nat} (within : off ≤ d.length) (de : Dirent) (j : Nat) :
    (placed d off de)[j]? = if j = off then some de else d[j]? := by
  rw [placed_eq within]
  split_ifs with here
  · subst here
    rw [List.getElem?_append_right (by simp), List.length_take, Nat.min_eq_left within, Nat.sub_self]
    rfl
  · rcases Nat.lt_or_gt_of_ne here with before | after
    · rw [List.getElem?_append_left (by simp; omega), List.getElem?_take_of_lt before]
    · rw [List.getElem?_append_right (by simp; omega), List.length_take, Nat.min_eq_left within]
      obtain ⟨m, rfl⟩ : ∃ m, j = off + 1 + m := ⟨j - (off + 1), by omega⟩
      rw [show off + 1 + m - off = m + 1 by omega, List.getElem?_cons_succ, List.getElem?_drop]

end Slots

/-! ### What `dirlink` writes -/

section Placed

variable {d : List Dirent} {name : List Char} {de : Dirent}

/-- The new entry is the first in use that matches its own name. -/
theorem findEntry_placed_self
    (absent : ∀ x ∈ d, x.inum ≠ 0 → namecmp name x.name = false)
    (named : de.inum ≠ 0 ∧ namecmp name de.name = true) :
    findEntry (placed d (freeSlot d) de) name = some (de, freeSlot d) := by
  have within := freeSlot_le (d := d)
  unfold findEntry
  rw [placed_eq within, List.zipIdx_append, List.find?_append, List.zipIdx_cons,
    List.find?_cons, List.length_take, Nat.min_eq_left within, Nat.zero_add]
  have skipped : (d.take (freeSlot d)).zipIdx.find?
      (fun e => decide (e.1.inum ≠ 0 ∧ namecmp name e.1.name = true)) = none := by
    rw [List.find?_eq_none]
    rintro ⟨x, j⟩ mem
    obtain ⟨lt, at_j⟩ := List.mem_zipIdx' mem
    rw [List.length_take, Nat.min_eq_left within] at lt
    have inUse := (freeSlot_spec (d := d)).1 j (by omega) lt
    simp only [List.getElem_take] at at_j
    rw [at_j]
    simp [absent _ (List.getElem_mem _) inUse]
  rw [skipped, Option.none_or]
  simp [named]

/-- A name that does not match the new entry finds what it found before. -/
theorem findEntry_placed_other {t : List Char} (other : namecmp t de.name = false) :
    findEntry (placed d (freeSlot d) de) t = findEntry d t := by
  have within := freeSlot_le (d := d)
  unfold findEntry
  apply Lib.find?_eq_of_agree
  intro j either
  rw [List.getElem?_zipIdx, List.getElem?_zipIdx, getElem?_placed within] at either ⊢
  by_cases here : j = freeSlot d
  · -- the slot written: free before, and the new entry does not match
    exfalso
    subst here
    cases old : d[freeSlot d]? with
    | none => simp [old, other] at either
    | some x =>
      have free : x.inum = 0 := by
        obtain ⟨lt, at_slot⟩ := List.getElem?_eq_some_iff.mp old
        rw [← at_slot]
        exact (freeSlot_spec (d := d)).2 lt
      simp [old, other, free] at either
  · simp only [here, if_false]

/-- The new entry keeps the names unique. -/
theorem unique_placed (unique : UniqueNames d)
    (absent : ∀ x ∈ d, x.inum ≠ 0 → namecmp de.name x.name = false) :
    UniqueNames (placed d (freeSlot d) de) := by
  have kept : List.Sublist (d.take (freeSlot d) ++ d.drop (freeSlot d + 1)) d := by
    conv_rhs => rw [← List.take_append_drop (freeSlot d) d]
    exact (List.Sublist.refl _).append (List.drop_sublist_drop_left d (Nat.le_succ _))
  have others := unique.sublist kept
  unfold UniqueNames at others ⊢
  rw [List.pairwise_append] at others
  obtain ⟨before, after, across⟩ := others
  rw [placed_eq freeSlot_le, List.pairwise_append, List.pairwise_cons]
  refine ⟨before, ⟨fun x mem _ used => ?_, after⟩, fun x mem y mem' => ?_⟩
  · exact absent x (kept.subset (List.mem_append_right _ mem)) used
  · -- an entry before the slot against the new one, or one after it
    rcases List.mem_cons.mp mem' with new | later
    · subst new
      intro used _
      rw [namecmp_comm]
      exact absent x (kept.subset (List.mem_append_left _ mem)) used
    · exact across x mem y later

end Placed

/-! ### The runs -/

section Runs

variable {k : Nat} {s : FsState k} {dp : Nat}

/-- The inode cache has an entry free, so `iget` cannot panic. -/
def FreeEntry (s : FsState k) : Prop :=
  ((List.range nInodes).filter fun i => 0 < s.ref i).length < nInode

instance (s : FsState k) : Decidable (FreeEntry s) := by
  unfold FreeEntry
  infer_instance

theorem dirlookup_eq (name : List Char) :
    dirlookup dp name = (do
      let s ← get
      if (s.disk dp).type ≠ .dir then throw "dirlookup not DIR"
      match findEntry (s.disk dp).dirents name with
      | some (de, off) =>
        iget de.inum
        return some (de.inum, off)
      | none => return none : FsM k _) := rfl

/-- `iget` with an entry free: the reference is taken, and a new entry holds nothing valid. -/
theorem iget_run (room : FreeEntry s) (inum : Nat) :
    ∃ s₁, (iget inum).run s = pure ((), s₁) ∧ s₁.disk = s.disk ∧ s₁.ref inum = s.ref inum + 1 ∧
      (0 < s.ref inum ∨ s₁.valid inum = false) := by
  unfold iget
  by_cases cached : 0 < s.ref inum
  · exact ⟨{ s with ref := Function.update s.ref inum (s.ref inum + 1) }, by simp [cached], rfl,
      by simp, Or.inl cached⟩
  · have free : ¬nInode ≤ ((List.range nInodes).filter fun i => 0 < s.ref i).length := by
      unfold FreeEntry at room
      omega
    let s₁ : FsState k :=
      { s with ref := Function.update s.ref inum 1, valid := Function.update s.valid inum false }
    refine ⟨s₁, by simp [s₁, cached, free], rfl, ?_, Or.inr (by simp [s₁])⟩
    simp only [s₁, Function.update_self]
    omega

/-- `iput` of a reference just taken frees nothing, and gives the reference back. -/
theorem iput_run {inum : Nat} (taken : 2 ≤ s.ref inum ∨ s.valid inum = false) :
    ∃ s', (iput inum).run s = pure ((), s') ∧ s'.disk = s.disk := by
  have keeps : ¬(s.valid inum = true ∧ (s.disk inum).nlink = 0 ∧ s.ref inum = 1) := by
    rintro ⟨valid, -, one⟩
    rcases taken with two | invalid
    · omega
    · rw [valid] at invalid
      cases invalid
  exact ⟨{ s with ref := Function.update s.ref inum (s.ref inum - 1) }, by simp [iput, keeps], rfl⟩

/-- `dirlookup` of a name there, with an entry free: the entry and its slot, and a reference to
its inode that `iput` can give back. -/
theorem dirlookup_found {name : List Char} {de : Dirent} {off : Nat}
    (isDir : (s.disk dp).type = .dir) (room : FreeEntry s)
    (found : findEntry (s.disk dp).dirents name = some (de, off)) :
    ∃ s₁, (dirlookup dp name).run s = pure (some (de.inum, off), s₁) ∧ s₁.disk = s.disk ∧
      (2 ≤ s₁.ref de.inum ∨ s₁.valid de.inum = false) := by
  obtain ⟨s₁, got, disk, counted, cached⟩ := iget_run room de.inum
  refine ⟨s₁, ?_, disk, ?_⟩
  · simp [dirlookup_eq, isDir, found, got]
  · rcases cached with before | invalid
    · exact Or.inl (by omega)
    · exact Or.inr invalid

/-- What `dirlookup` returns depends only on the directory's type and entries and on the
references of the cache. -/
theorem dirlookup_congr {s' : FsState k} {t : List Char}
    (type : (s'.disk dp).type = (s.disk dp).type)
    (entry : findEntry (s'.disk dp).dirents t = findEntry (s.disk dp).dirents t)
    (ref : s'.ref = s.ref) :
    Prod.fst <$> (dirlookup dp t).run s' = Prod.fst <$> (dirlookup dp t).run s := by
  by_cases isDir : (s.disk dp).type = .dir
  case neg =>
    simp [dirlookup_eq, type, isDir, entry]
    rfl
  cases found : findEntry (s.disk dp).dirents t with
  | none => simp [dirlookup_eq, type, isDir, entry, found]
  | some e =>
    by_cases cached : 0 < s.ref e.1.inum
    · simp [dirlookup_eq, type, isDir, entry, found, iget, ref, cached]
    · simp [dirlookup_eq, type, isDir, entry, found, iget, ref, cached]
      split_ifs <;> rfl

theorem writeDirent_run {off : Nat} {de : Dirent} (within : off ≤ (s.disk dp).dirents.length)
    (fits : direntSize * off + direntSize ≤ maxFile * bsize) :
    (writeDirent dp off de).run s =
      pure ((direntSize : Int), s.modifyInode dp fun di =>
        { di with dirents := placed (s.disk dp).dirents off de }) := by
  have inside : ¬(s.disk dp).dirents.length < off := by omega
  have short : ¬maxFile * bsize < direntSize * off + direntSize := by omega
  simp [writeDirent, inside, short, placed]

/-- **A name already there.** `dirlink` returns `-1` and no inode changes. -/
theorem dirlink_present {name : List Char} {inum : Nat} (isDir : (s.disk dp).type = .dir)
    (room : FreeEntry s)
    (present : ∃ de ∈ (s.disk dp).dirents, de.inum ≠ 0 ∧ namecmp name de.name = true) :
    ∃ s', (dirlink dp name inum).run s = pure (-1, s') ∧ s'.disk = s.disk := by
  obtain ⟨e, found⟩ : ∃ e, findEntry (s.disk dp).dirents name = some e := by
    obtain ⟨de, mem, inUse, hit⟩ := present
    obtain ⟨j, at_j⟩ := List.getElem?_of_mem mem
    refine Option.ne_none_iff_exists'.mp fun none => ?_
    rw [findEntry, List.find?_eq_none] at none
    exact none (de, j) (List.mem_zipIdx_iff_getElem?.mpr at_j) (by simp [inUse, hit])
  obtain ⟨s₁, looked, disk₁, taken⟩ := dirlookup_found isDir room found
  obtain ⟨s', put, disk'⟩ := iput_run taken
  refine ⟨s', ?_, disk'.trans disk₁⟩
  simp [dirlink, looked, put]

/-- **A new name.** With room for the entry at the free slot, `dirlink` returns `0` and the entry
goes to the first free slot, or past the end. -/
theorem dirlink_absent {name : List Char} {inum : Nat} (isDir : (s.disk dp).type = .dir)
    (absent : ∀ de ∈ (s.disk dp).dirents, de.inum ≠ 0 → namecmp name de.name = false)
    (fits : direntSize * freeSlot (s.disk dp).dirents + direntSize ≤ maxFile * bsize) :
    (dirlink dp name inum).run s =
      pure (0, s.modifyInode dp fun di =>
        { di with dirents := placed (s.disk dp).dirents (freeSlot (s.disk dp).dirents) ⟨inum % 65536, name.take dirSiz⟩ }) := by
  have looked := dirlookup_absent s isDir absent
  have wrote := @writeDirent_run _ s _ _ ⟨inum % 65536, name.take dirSiz⟩ freeSlot_le fits
  simp only [freeSlot] at wrote
  simp [dirlink, looked, wrote, direntSize, freeSlot]

end Runs

/-! ### `dirlink` -/

/-- What `dirlink(dp, name, inum)` does to a directory with unique names. -/
structure DirlinkSpec {k : Nat} (s : FsState k) (dp : Nat) (name : List Char) (inum : Nat) :
    Prop where
  /-- a name there: `-1`, and no inode changes -/
  present : (∃ de ∈ (s.disk dp).dirents, de.inum ≠ 0 ∧ namecmp name de.name = true) →
    ∃ s', (dirlink dp name inum).run s = pure (-1, s') ∧ s'.disk = s.disk
  /-- a new name, with a slot free or room for one more entry: `0`, the entry in the first free
  slot or past the end, names still unique, `name` found there, and every name that does not
  match it found as before -/
  absent : (∀ de ∈ (s.disk dp).dirents, de.inum ≠ 0 → namecmp name de.name = false) →
    (freeSlot (s.disk dp).dirents < (s.disk dp).dirents.length ∨
      direntSize * (s.disk dp).dirents.length + direntSize ≤ maxFile * bsize) →
    ∃ s', (dirlink dp name inum).run s = pure (0, s') ∧
      (s'.disk dp).dirents =
        placed (s.disk dp).dirents (freeSlot (s.disk dp).dirents) ⟨inum, name.take dirSiz⟩ ∧
      (∀ i ≠ dp, s'.disk i = s.disk i) ∧ UniqueNames (s'.disk dp).dirents ∧
      Prod.fst <$> (dirlookup dp name).run s' = pure (some (inum, freeSlot (s.disk dp).dirents)) ∧
      ∀ t, namecmp t name = false →
        Prod.fst <$> (dirlookup dp t).run s' = Prod.fst <$> (dirlookup dp t).run s
  /-- the bytes `strncpy` stores compare equal to the strings that agree with `name` on their
  first `DIRSIZ` characters, and to no other -/
  encoding : '\x00' ∉ name → ∀ t, '\x00' ∉ t →
    (strncmp t (strncpy name dirSiz) dirSiz = 0 ↔ t.take dirSiz = name.take dirSiz)

/-- A directory `1` with one entry, `a` for inode `2`, in a cache with nothing referenced. -/
def oneEntryDir : FsState 0 :=
  { disk := fun i => if i = 1 then ⟨.dir, 2, [⟨2, "a".toList⟩]⟩ else ⟨.free, 0, []⟩
    ref := fun _ => 0
    valid := fun _ => false
    cwd := Fin.elim0 }

instance (d : List Dirent) : Decidable (UniqueNames d) := by
  unfold UniqueNames
  infer_instance

end Xv6
