import Xv6.Param
import Xv6.Lib.Transition

/-!
**The file table of `file.c`, and `fdalloc`.**

`ftable.file[NFILE]`, and the descriptor table `ofile[NOFILE]` of a process, whose entries point
into `ftable` (`none` for a null pointer): here a table of `nf` files and `nd` descriptors. Each
function of `file.c` is its `ftable.lock` critical section:

* `filealloc` — the first file with no reference gets one;
* `filedup` — one more reference, or the panic "filedup";
* `filecloseLocked` — the critical section of `fileclose`: one reference less, or the panic
  "fileclose"; the last one makes the file `FD_NONE` and hands back its copy `ff`, whose pipe
  end or inode `fileclose` releases after the lock;
* `fdalloc` — the lowest free descriptor of the caller now points to the file
  (`fdalloc_lowest`).
-/

namespace Xv6

/-- `enum { FD_NONE, FD_PIPE, FD_INODE }` of `struct file`. -/
inductive FileType
  | none
  | pipe
  | inode
  deriving DecidableEq, Repr

/-- `struct file`; `pipe` names a pipe, and `ip` an inode by its number. -/
structure File where
  type : FileType
  ref : Nat
  readable : Bool
  writable : Bool
  pipe : Nat
  ip : Nat
  off : Nat
  deriving DecidableEq, Repr

/-- A file of `ftable` as the kernel is loaded: all zero. -/
def File.zero : File := ⟨.none, 0, false, false, 0, 0, 0⟩

section Table

variable {nf nd : Nat}

/-- `filealloc()`: the first file with `ref == 0` gets `ref = 1`; none when all are in use. -/
def filealloc (ftable : Fin nf → File) : Option (Fin nf × (Fin nf → File)) :=
  ((List.finRange nf).find? fun f => (ftable f).ref = 0).map fun f =>
    (f, Function.update ftable f { ftable f with ref := 1 })

/-- `filedup(f)`. -/
def filedup (ftable : Fin nf → File) (f : Fin nf) : Except String (Fin nf → File) :=
  if (ftable f).ref < 1 then .error "filedup"
  else .ok (Function.update ftable f { ftable f with ref := (ftable f).ref + 1 })

/-- The critical section of `fileclose(f)`: with the last reference gone, the copy `ff` that the
caller releases. -/
def filecloseLocked (ftable : Fin nf → File) (f : Fin nf) :
    Except String (Option File × (Fin nf → File)) :=
  if (ftable f).ref < 1 then .error "fileclose"
  else if 0 < (ftable f).ref - 1 then
    .ok (none, Function.update ftable f { ftable f with ref := (ftable f).ref - 1 })
  else
    .ok (some { ftable f with ref := 0 },
      Function.update ftable f { ftable f with ref := 0, type := .none })

/-- `fdalloc(f)` on the descriptors of the calling process: the lowest free one now points to
`f`; none when all are in use. -/
def fdalloc (ofile : Fin nd → Option (Fin nf)) (f : Fin nf) :
    Option (Fin nd × (Fin nd → Option (Fin nf))) :=
  ((List.finRange nd).find? fun fd => ofile fd = none).map fun fd =>
    (fd, Function.update ofile fd (some f))

/-! ### Spec lemmas -/

theorem filealloc_eq_some {ftable ftable' : Fin nf → File} {f : Fin nf}
    (alloc : filealloc ftable = some (f, ftable')) :
    (ftable f).ref = 0 ∧ ftable' = Function.update ftable f { ftable f with ref := 1 } := by
  unfold filealloc at alloc
  cases found : (List.finRange nf).find? (fun f => (ftable f).ref = 0) with
  | none => simp [found] at alloc
  | some g =>
    simp only [found, Option.map_some, Option.some.injEq, Prod.mk.injEq] at alloc
    obtain ⟨rfl, rfl⟩ := alloc
    exact ⟨by simpa using Lib.find?_finRange_some found, rfl⟩

theorem filealloc_eq_none {ftable : Fin nf → File} (full : filealloc ftable = none) (f : Fin nf) :
    (ftable f).ref ≠ 0 := by
  unfold filealloc at full
  simpa using Lib.find?_finRange_none (Option.map_eq_none_iff.mp full) f

theorem filedup_eq_ok {ftable ftable' : Fin nf → File} {f : Fin nf}
    (dup : filedup ftable f = .ok ftable') :
    1 ≤ (ftable f).ref ∧
      ftable' = Function.update ftable f { ftable f with ref := (ftable f).ref + 1 } := by
  unfold filedup at dup
  split at dup
  case isTrue => cases dup
  case isFalse held =>
    cases dup
    exact ⟨by omega, rfl⟩

/-- `fileclose` of a file with a reference takes one off, and hands back the file when it was
the last. -/
theorem filecloseLocked_eq_ok {ftable ftable' : Fin nf → File} {f : Fin nf} {ff : Option File}
    (close : filecloseLocked ftable f = .ok (ff, ftable')) :
    1 ≤ (ftable f).ref ∧
      ftable' = Function.update ftable f
        { ftable f with
          ref := (ftable f).ref - 1
          type := if (ftable f).ref = 1 then .none else (ftable f).type } ∧
      ff = if (ftable f).ref = 1 then some { ftable f with ref := 0 } else none := by
  unfold filecloseLocked at close
  split at close
  case isTrue => cases close
  case isFalse held =>
    split at close
    case isTrue more =>
      cases close
      have other : (ftable f).ref ≠ 1 := by omega
      exact ⟨by omega, by simp [other], by simp [other]⟩
    case isFalse last =>
      cases close
      have one : (ftable f).ref = 1 := by omega
      exact ⟨by omega, by simp [one], by simp [one]⟩

/-- **`fdalloc` takes the lowest free descriptor**, which the shell's `close(0); dup(fd)`
redirection relies on. -/
theorem fdalloc_lowest {ofile ofile' : Fin nd → Option (Fin nf)} {f : Fin nf} {fd : Fin nd}
    (alloc : fdalloc ofile f = some (fd, ofile')) :
    ofile fd = none ∧ (∀ j < fd, ofile j ≠ none) ∧
      ofile' = Function.update ofile fd (some f) := by
  unfold fdalloc at alloc
  cases found : (List.finRange nd).find? (fun fd => ofile fd = none) with
  | none => simp [found] at alloc
  | some g =>
    simp only [found, Option.map_some, Option.some.injEq, Prod.mk.injEq] at alloc
    obtain ⟨rfl, rfl⟩ := alloc
    refine ⟨by simpa using Lib.find?_finRange_some found, fun j before => ?_, rfl⟩
    simpa using Lib.find?_finRange_lt found before

theorem fdalloc_eq_none {ofile : Fin nd → Option (Fin nf)} {f : Fin nf}
    (full : fdalloc ofile f = none) (fd : Fin nd) : ofile fd ≠ none := by
  unfold fdalloc at full
  simpa using Lib.find?_finRange_none (Option.map_eq_none_iff.mp full) fd

end Table

end Xv6
