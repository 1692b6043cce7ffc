import Xv6.Fs.Sysfile

/-!
**Directories that are unlinked while in use, and directories that are full.**

`sys_unlink` removes an empty directory's entry whatever else refers to it: a process may have
it as its current directory. The inode then stays allocated with no links until the last
`iput`, and `nameiparent` still resolves names inside it.

* `dirlink_full` — **a full directory**: with every slot in use and `MAXFILE` blocks of
  entries, `dirlink` of a new name panics "dirlink" (its `writei` returns `-1` at the bound)
  rather than returning `-1`, so `create` and `sys_link` into it panic.
* `unlinked_cwd_parent_panics` — from the `mkfs` image, a process in `/a/b` unlinks `/a/b`
  and then `/a`, and `chdir("..")` follows the `..` entry of its unlinked directory to
  the freed `/a`: `ilock` panics "ilock: no type".
* `unlinked_cwd_orphans_inode` — from the `mkfs` image, a process in `/d` unlinks `/d` and
  creates a device `x` in it; when it leaves `/d` the directory is freed with its entries, and
  `x` stays allocated with one link, named by no directory.
-/

namespace Xv6

section Full

variable {k : Nat} (s : FsState k)

/-- `dirlookup` of a name that no entry in use has: none, and nothing changes. -/
theorem dirlookup_absent {dp : Nat} {name : List Char} (isDir : (s.disk dp).type = .dir)
    (absent : ∀ de ∈ (s.disk dp).dirents, de.inum ≠ 0 → namecmp name de.name = false) :
    (dirlookup dp name).run s = pure (none, s) := by
  have none_found : (s.disk dp).dirents.zipIdx.find?
      (fun e => !decide (e.1.inum = 0) && namecmp name e.1.name) = none := by
    rw [List.find?_eq_none]
    rintro ⟨de, off⟩ mem
    rw [List.mem_zipIdx_iff_getElem?] at mem
    have unnamed := absent de (List.mem_of_getElem? mem)
    by_cases free : de.inum = 0 <;> simp_all
  simp [dirlookup, isDir, none_found]

/-- `writei` of an entry that would end past `MAXFILE` blocks writes nothing and returns `-1`. -/
theorem writeDirent_past_maxFile {dp off : Nat} {de : Dirent}
    (past : maxFile * bsize < direntSize * off + direntSize) :
    (writeDirent dp off de).run s = pure (-1, s) := by
  simp [writeDirent, past]

/-- **A full directory.** The free slot `dirlink` looks for is past the last entry, whose
`writei` fails at `MAXFILE` blocks, and `dirlink` panics. -/
theorem dirlink_full {dp inum : Nat} {name : List Char} (isDir : (s.disk dp).type = .dir)
    (inUse : ∀ de ∈ (s.disk dp).dirents, de.inum ≠ 0)
    (absent : ∀ de ∈ (s.disk dp).dirents, namecmp name de.name = false)
    (full : direntSize * (s.disk dp).dirents.length = maxFile * bsize) :
    (dirlink dp name inum).run s = .error "dirlink" := by
  have noSlot : ((s.disk dp).dirents.findIdx? fun de => de.inum = 0) = none := by
    rw [List.findIdx?_eq_none_iff]
    simpa using inUse
  have past : maxFile * bsize < direntSize * (s.disk dp).dirents.length + direntSize := by
    rw [full]
    decide
  have looked := dirlookup_absent s isDir (fun de mem _ => absent de mem)
  simp only [dirlink, StateT.run_bind, looked, pure_bind]
  simp [noSlot, writeDirent_past_maxFile s past]
  rfl

end Full

/-- The root directory of one process holding `4480` entries for `x`, the most `MAXFILE` blocks
hold, and `y` linked into it. -/
theorem dirlink_full_root :
    (dirlink rootIno "y".toList 2).run
        ({ mkfs 1 [] with
          disk := fun _ => ⟨.dir, 1, List.replicate 4480 ⟨2, "x".toList⟩⟩ } : FsState 1) =
      .error "dirlink" :=
  dirlink_full _ rfl
    (fun de mem => by rw [(List.mem_replicate.mp mem).2]; decide)
    (fun de mem => by rw [(List.mem_replicate.mp mem).2]; decide)
    (by rw [List.length_replicate]; decide)

/-! ### Runs from the image of `mkfs` -/

/-- **`..` of an unlinked directory.** `/a/b` is unlinked while it is the current directory,
then `/a`, now empty; `b` keeps its `..` entry, so `chdir("..")` reaches the freed `/a`. -/
theorem unlinked_cwd_parent_panics :
    panicOf (runCalls (mkfs 1 fsImgFiles)
      [(0, .mkdir "/a".toList), (0, .mkdir "/a/b".toList), (0, .chdir "/a/b".toList),
        (0, .unlink "/a/b".toList), (0, .unlink "/a".toList), (0, .chdir "..".toList)]) =
      some "ilock: no type" := by
  decide +kernel

/-- **A file created in an unlinked directory.** `mknod("x")` in the unlinked current directory
`/d` takes inode `19`; `chdir("/")` drops the last reference to `/d`, which is freed with its
entries, while `x` keeps its link: no entry of an allocated inode names it. -/
theorem unlinked_cwd_orphans_inode :
    ∃ s, runCalls (mkfs 1 fsImgFiles)
        [(0, .mkdir "/d".toList), (0, .chdir "/d".toList), (0, .unlink "/d".toList),
          (0, .mknod "x".toList), (0, .chdir "/".toList)] = .ok s ∧
      (s.disk 19).type = .dev ∧ (s.disk 19).nlink = 1 ∧
      ∀ d < nInodes, (s.disk d).type ≠ .free → ∀ de ∈ (s.disk d).dirents, de.inum ≠ 19 :=
  runCalls_exists (by decide +kernel)

end Xv6
