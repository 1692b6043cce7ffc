import Mathlib.Data.List.Nodup
import Xv6.Log.Disk

/-!
**The log routines of `log.c`.**

`install_trans` and `write_log` are the same loop (`copyLoop`): for `tail < lh.n` read one block,
copy it over another block's buffer and `bwrite` that buffer; they differ in the direction of
the copy. `read_head`, `write_head`, `recover_from_log` and `commit` are built from them as in
the source.

The spec lemmas say which writes each routine issues, in order:

* `copyLoop_spec` — a copy loop whose destinations are never read by it writes, for each `tail`,
  the block read at `src tail` in the state it started from;
* `commit_writes` — a commit of `n > 0` blocks writes the `n` log blocks (from the cached home
  blocks), the header, the `n` home blocks (from the log blocks), and the cleared header;
* `recover_writes` — a recovery writes each home block named in the on-disk header from its log
  block, then the cleared header.
-/

namespace Xv6

open Xv6.Lib

/-- The loop shared by `install_trans` and `write_log`: for `tail < count`, read the block
`src tail`, copy it over the buffer of `dst tail`, and write that buffer. -/
def copyLoop (src dst : Nat → Nat) (count : Nat) (m : Storage) : Storage :=
  (List.range count).foldl (fun m tail => bwrite m (dst tail) (bread m (src tail))) m

/-- `install_trans`: copy committed blocks from the log to their home location. -/
def installTrans (m : Storage) : Storage :=
  copyLoop (fun tail => m.log.start + tail + 1) (fun tail => m.log.lh.block.getD tail 0)
    m.log.lh.n m

/-- `write_log`: copy modified blocks from the cache to the log. -/
def writeLog (m : Storage) : Storage :=
  copyLoop (fun tail => m.log.lh.block.getD tail 0) (fun tail => m.log.start + tail + 1)
    m.log.lh.n m

/-- `read_head`: read the log header from disk into the in-memory log header. -/
def readHead (m : Storage) : Storage :=
  { m with log := { m.log with lh := readHeader (bread m m.log.start) } }

/-- `write_head`: write the in-memory log header to disk. This is the point at which a
transaction commits. -/
def writeHead (m : Storage) : Storage :=
  bwrite m m.log.start (headerWords (bread m m.log.start) m.log.lh)

/-- `log.lh.n = 0`. -/
def Storage.clearHeader (m : Storage) : Storage :=
  { m with log := { m.log with lh := LogHeader.empty } }

/-- `recover_from_log`: install a committed transaction, if there is one, and clear the log. -/
def recoverFromLog (m : Storage) : Storage :=
  writeHead (installTrans (readHead m)).clearHeader

/-- `commit`: write the log, commit by writing the header, install, and erase the
transaction. -/
def commit (m : Storage) : Storage :=
  if 0 < m.log.lh.n then
    writeHead (installTrans (writeHead (writeLog m))).clearHeader
  else m

@[simp] theorem writeHead_log (m : Storage) : (writeHead m).log = m.log := rfl

@[simp] theorem clearHeader_log (m : Storage) :
    m.clearHeader.log = { m.log with lh := LogHeader.empty } := rfl

@[simp] theorem bread_clearHeader (m : Storage) : bread m.clearHeader = bread m := rfl

@[simp] theorem writes_clearHeader (m : Storage) : m.clearHeader.writes = m.writes := rfl

@[simp] theorem readHead_log (m : Storage) :
    (readHead m).log = { m.log with lh := readHeader (bread m m.log.start) } := rfl

@[simp] theorem bread_readHead (m : Storage) : bread (readHead m) = bread m := rfl

@[simp] theorem writes_readHead (m : Storage) : (readHead m).writes = m.writes := rfl

theorem writeHead_writes (m : Storage) :
    (writeHead m).writes = m.writes ++ [(m.log.start, headerWords (bread m m.log.start) m.log.lh)] :=
  rfl

theorem bread_writeHead (m : Storage) :
    bread (writeHead m) =
      Function.update (bread m) m.log.start (headerWords (bread m m.log.start) m.log.lh) :=
  bread_bwrite _ _ _

/-- `m'` is `m` after the writes it issued since `m`: the disk moved by exactly those writes. -/
def Storage.Traced (m m' : Storage) : Prop :=
  ∃ ws, m'.writes = m.writes ++ ws ∧ m'.disk = patch m.disk ws

theorem Storage.Traced.of_eq {m m' : Storage} (writes : m'.writes = m.writes)
    (disk : m'.disk = m.disk) : m.Traced m' :=
  ⟨[], by rw [writes, List.append_nil], disk⟩

theorem Storage.Traced.trans {m m' m'' : Storage} (first : m.Traced m') (second : m'.Traced m'') :
    m.Traced m'' := by
  obtain ⟨ws, writes, disk⟩ := first
  obtain ⟨ws', writes', disk'⟩ := second
  exact ⟨ws ++ ws', by rw [writes', writes, List.append_assoc], by rw [disk', disk, patch_append]⟩

theorem traced_bwrite (m : Storage) (blockno : Nat) (data : Block) :
    m.Traced (bwrite m blockno data) :=
  ⟨[(blockno, data)], rfl, rfl⟩

theorem traced_copyLoop (src dst : Nat → Nat) (count : Nat) (m : Storage) :
    m.Traced (copyLoop src dst count m) := by
  induction count with
  | zero => exact Storage.Traced.of_eq rfl rfl
  | succ count ih =>
    have unfold : copyLoop src dst (count + 1) m =
        bwrite (copyLoop src dst count m) (dst count) (bread (copyLoop src dst count m) (src count)) := by
      simp only [copyLoop, List.range_succ, List.foldl_append, List.foldl_cons, List.foldl_nil]
    rw [unfold]
    exact ih.trans (traced_bwrite _ _ _)

/-- A complete recovery moves the disk by exactly the writes it issues. -/
theorem traced_recoverFromLog (m : Storage) : m.Traced (recoverFromLog m) := by
  have read : m.Traced (readHead m) := Storage.Traced.of_eq rfl rfl
  have install : (readHead m).Traced (installTrans (readHead m)) := traced_copyLoop _ _ _ _
  have clear : (installTrans (readHead m)).Traced (installTrans (readHead m)).clearHeader :=
    Storage.Traced.of_eq rfl rfl
  exact read.trans (install.trans (clear.trans (traced_bwrite _ _ _)))

theorem copyLoop_log (src dst : Nat → Nat) (count : Nat) (m : Storage) :
    (copyLoop src dst count m).log = m.log := by
  induction count with
  | zero => rfl
  | succ count ih =>
    simp only [copyLoop, List.range_succ, List.foldl_append, List.foldl_cons, List.foldl_nil,
      bwrite_log] at ih ⊢
    exact ih

/-- The writes of the first `count` passes of a copy loop, read in the state `m` it started
from. -/
def copyWrites (src dst : Nat → Nat) (count : Nat) (m : Storage) : List (Nat × Block) :=
  (List.range count).map fun tail => (dst tail, bread m (src tail))

/-- **The copy loop.** When no pass writes a block that a pass reads, the loop issues one write
per pass, of the block read at `src tail` in the starting state; the disk and the cache move by
exactly those writes, and the in-memory log is untouched. -/
theorem copyLoop_spec (src dst : Nat → Nat) (count : Nat) (m : Storage)
    (unread : ∀ i < count, ∀ j < count, dst i ≠ src j) :
    (copyLoop src dst count m).writes = m.writes ++ copyWrites src dst count m ∧
      (copyLoop src dst count m).disk = patch m.disk (copyWrites src dst count m) ∧
      bread (copyLoop src dst count m) = patch (bread m) (copyWrites src dst count m) ∧
      (copyLoop src dst count m).log = m.log := by
  induction count with
  | zero => exact ⟨(List.append_nil _).symm, rfl, rfl, rfl⟩
  | succ count ih =>
    obtain ⟨writes, disk, view, log⟩ :=
      ih fun i lt j lt' => unread i (by omega) j (by omega)
    -- the last pass reads a block that no earlier pass wrote
    have fresh : bread (copyLoop src dst count m) (src count) = bread m (src count) := by
      rw [view, patch_apply_of_forall_ne]
      intro w mem
      obtain ⟨i, lt, rfl⟩ := List.mem_map.mp mem
      exact unread i (by simp at lt; omega) count (by omega)
    have unfold : copyLoop src dst (count + 1) m =
        bwrite (copyLoop src dst count m) (dst count) (bread (copyLoop src dst count m) (src count)) := by
      simp only [copyLoop, List.range_succ, List.foldl_append, List.foldl_cons, List.foldl_nil]
    have grown : copyWrites src dst (count + 1) m =
        copyWrites src dst count m ++ [(dst count, bread m (src count))] := by
      simp only [copyWrites, List.range_succ, List.map_append, List.map_singleton]
    rw [unfold, grown, fresh]
    refine ⟨?_, ?_, ?_, log⟩
    · rw [bwrite_writes, writes, List.append_assoc]
    · rw [bwrite_disk, disk, patch_concat]
    · rw [bread_bwrite, view, patch_concat]

/-- The log blocks `start + 1 .. start + n` and the header block `start` are not among the home
blocks of the header `lh`. -/
def LogHeader.Apart (lh : LogHeader) (start : Nat) : Prop :=
  ∀ b ∈ lh.block, b < start ∨ start + lh.n < b

theorem LogHeader.Apart.ne_log {lh : LogHeader} {start : Nat} (apart : lh.Apart start)
    {i j : Nat} (home : i < lh.n) (slot : j < lh.n) : lh.block.getD i 0 ≠ start + j + 1 := by
  have mem : lh.block.getD i 0 ∈ lh.block := by
    rw [List.getD_eq_getElem _ _ home]
    exact List.getElem_mem _
  rcases apart _ mem with below | above <;> omega

theorem LogHeader.Apart.ne_start {lh : LogHeader} {start : Nat} (apart : lh.Apart start)
    {i : Nat} (home : i < lh.n) : lh.block.getD i 0 ≠ start := by
  have mem : lh.block.getD i 0 ∈ lh.block := by
    rw [List.getD_eq_getElem _ _ home]
    exact List.getElem_mem _
  rcases apart _ mem with below | above <;> omega

/-- The writes of `write_log`: log block `start + tail + 1` gets the (cached) home block
`block[tail]`. -/
def logWrites (m : Storage) : List (Nat × Block) :=
  copyWrites (fun tail => m.log.lh.block.getD tail 0) (fun tail => m.log.start + tail + 1)
    m.log.lh.n m

/-- The writes of `install_trans`: home block `block[tail]` gets log block `start + tail + 1`. -/
def installCopies (m : Storage) : List (Nat × Block) :=
  copyWrites (fun tail => m.log.start + tail + 1) (fun tail => m.log.lh.block.getD tail 0)
    m.log.lh.n m

theorem writeLog_spec (m : Storage) (apart : m.log.lh.Apart m.log.start) :
    (writeLog m).writes = m.writes ++ logWrites m ∧
      bread (writeLog m) = patch (bread m) (logWrites m) ∧ (writeLog m).log = m.log := by
  obtain ⟨written, -, view, logged⟩ :=
    copyLoop_spec (fun tail => m.log.lh.block.getD tail 0) (fun tail => m.log.start + tail + 1)
      m.log.lh.n m fun i home j slot => (apart.ne_log slot home).symm
  exact ⟨written, view, logged⟩

theorem installTrans_spec (m : Storage) (apart : m.log.lh.Apart m.log.start) :
    (installTrans m).writes = m.writes ++ installCopies m ∧
      bread (installTrans m) = patch (bread m) (installCopies m) ∧ (installTrans m).log = m.log := by
  obtain ⟨installed, -, view, logged⟩ :=
    copyLoop_spec (fun tail => m.log.start + tail + 1) (fun tail => m.log.lh.block.getD tail 0)
      m.log.lh.n m fun i home j slot => apart.ne_log home slot
  exact ⟨installed, view, logged⟩

theorem logWrites_keys_nodup (m : Storage) : ((logWrites m).map Prod.fst).Nodup := by
  simp only [logWrites, copyWrites, List.map_map]
  refine List.Nodup.map (fun i j same => ?_) List.nodup_range
  simp only [Function.comp_apply] at same
  omega

theorem logWrites_ne_start (m : Storage) : ∀ w ∈ logWrites m, w.1 ≠ m.log.start := by
  intro w mem
  obtain ⟨i, -, rfl⟩ := List.mem_map.mp mem
  show m.log.start + i + 1 ≠ m.log.start
  omega

theorem installCopies_ne_start (m : Storage) (apart : m.log.lh.Apart m.log.start) :
    ∀ w ∈ installCopies m, w.1 ≠ m.log.start := by
  intro w mem
  obtain ⟨i, lt, rfl⟩ := List.mem_map.mp mem
  exact apart.ne_start (List.mem_range.mp lt)

/-- The home-block writes of the `install_trans` that follows `write_log` and `write_head`:
home block `block[tail]` gets the contents `write_log` copied out of the cache. -/
def installWrites (m : Storage) : List (Nat × Block) :=
  (List.range m.log.lh.n).map fun tail =>
    (m.log.lh.block.getD tail 0, bread m (m.log.lh.block.getD tail 0))

/-- The header block as `commit`'s first `write_head` leaves it. -/
def committedHeader (m : Storage) : Block := headerWords (bread m m.log.start) m.log.lh

/-- **The writes of a commit.** With the home blocks apart from the log, a commit of `n > 0`
blocks issues, in order: the `n` log blocks, the header (the commit point), the `n` home
blocks, and the header again with `n = 0`. -/
theorem commit_writes (m : Storage) (positive : 0 < m.log.lh.n)
    (apart : m.log.lh.Apart m.log.start) :
    (commit m).writes = m.writes ++ (logWrites m ++ (m.log.start, committedHeader m) ::
      installWrites m ++ [(m.log.start, headerWords (committedHeader m) LogHeader.empty)]) := by
  obtain ⟨written, view, logged⟩ := writeLog_spec m apart
  have headLog : (writeHead (writeLog m)).log = m.log := by rw [writeHead_log, logged]
  have headView : bread (writeHead (writeLog m)) =
      Function.update (bread (writeLog m)) m.log.start (committedHeader m) := by
    rw [bread_writeHead, logged, view, patch_apply_of_forall_ne _ _ _ (logWrites_ne_start m)]
    rfl
  -- `install_trans` reads back what `write_log` copied out of the cache
  have logRead : ∀ i < m.log.lh.n, bread (writeHead (writeLog m)) (m.log.start + i + 1) =
      bread m (m.log.lh.block.getD i 0) := by
    intro i lt
    rw [headView, Function.update_of_ne (by omega), view]
    exact patch_apply_of_mem _ _ (logWrites_keys_nodup m)
      (List.mem_map.mpr ⟨i, List.mem_range.mpr lt, rfl⟩)
  obtain ⟨installed, view', installLog⟩ :=
    installTrans_spec (writeHead (writeLog m)) (by rw [headLog]; exact apart)
  have copies : installCopies (writeHead (writeLog m)) = installWrites m := by
    rw [installCopies, headLog]
    exact List.map_congr_left fun i mem => by rw [logRead i (List.mem_range.mp mem)]
  -- the last `write_head` reads the header block the first one wrote
  have headerRead : bread (installTrans (writeHead (writeLog m))) m.log.start =
      committedHeader m := by
    rw [view', patch_apply_of_forall_ne, headView, Function.update_self]
    have := installCopies_ne_start _ (by rw [headLog]; exact apart)
    rwa [headLog] at this
  simp only [commit, if_pos positive, writeHead_writes, writes_clearHeader, bread_clearHeader,
    clearHeader_log, installLog, headerRead, installed, copies, writeHead_log, logged, written]
  simp [committedHeader, view, patch_apply_of_forall_ne _ _ _ (logWrites_ne_start m)]

/-- The state right after boot, before `initlog` recovers: `log.start` and `log.size` from the
superblock, the rest of `struct log` zero, and an empty buffer cache. -/
def Storage.boot (start size : Nat) (d : Nat → Block) : Storage :=
  { log := { start, size, outstanding := 0, committing := false, lh := LogHeader.empty }
    disk := d
    cache := fun _ => none
    writes := [] }

@[simp] theorem bread_boot (start size : Nat) (d : Nat → Block) :
    bread (Storage.boot start size d) = d := rfl

/-- Recovery from boot leaves the image patched by the writes it issued. -/
theorem recoverFromLog_boot_disk (start size : Nat) (d : Nat → Block) :
    (recoverFromLog (Storage.boot start size d)).disk =
      patch d (recoverFromLog (Storage.boot start size d)).writes := by
  obtain ⟨ws, writes, disk⟩ := traced_recoverFromLog (Storage.boot start size d)
  rw [disk, writes]
  rfl

/-- `commit` leaves the header empty and the rest of `struct log` as it was. -/
theorem commit_log (m : Storage) : (commit m).log = { m.log with lh := LogHeader.empty } := by
  unfold commit
  split
  case isTrue positive =>
    simp only [writeHead_log, clearHeader_log, installTrans, copyLoop_log, writeLog]
  case isFalse empty =>
    obtain ⟨⟨start, size, outstanding, committing, ⟨block⟩⟩, disk, cache, writes⟩ := m
    have none : block = [] :=
      List.eq_nil_of_length_eq_zero (by unfold LogHeader.n at empty; simpa using empty)
    subst none
    rfl

/-- `initlog`: boot with the log where the superblock puts it, and recover. -/
def initlog (start size : Nat) (d : Nat → Block) : Storage :=
  recoverFromLog (Storage.boot start size d)

/-- After `initlog` no operation is outstanding, none commits, and the header is empty. -/
theorem initlog_log (start size : Nat) (d : Nat → Block) :
    (initlog start size d).log =
      { start, size, outstanding := 0, committing := false, lh := LogHeader.empty } := by
  simp only [initlog, recoverFromLog, writeHead_log, clearHeader_log, installTrans, copyLoop_log,
    readHead_log]
  rfl

/-- The writes of `install_trans` during recovery from the image `d`: each home block named in
the on-disk header gets its log block. -/
def recoverInstallWrites (start : Nat) (d : Nat → Block) : List (Nat × Block) :=
  (List.range (readHeader (d start)).n).map fun tail =>
    ((readHeader (d start)).block.getD tail 0, d (start + tail + 1))

/-- **The writes of a recovery.** With the home blocks of the on-disk header apart from the log,
`recover_from_log` writes each of them from its log block, then the header with `n = 0`. -/
theorem recover_writes (start size : Nat) (d : Nat → Block)
    (apart : (readHeader (d start)).Apart start) :
    (recoverFromLog (Storage.boot start size d)).writes =
      recoverInstallWrites start d ++ [(start, headerWords (d start) LogHeader.empty)] := by
  obtain ⟨installed, view, installLog⟩ := installTrans_spec (readHead (Storage.boot start size d)) apart
  have copies : installCopies (readHead (Storage.boot start size d)) = recoverInstallWrites start d :=
    rfl
  have headerRead : bread (installTrans (readHead (Storage.boot start size d))) start = d start := by
    rw [view, patch_apply_of_forall_ne]
    · rfl
    · exact installCopies_ne_start _ apart
  simp only [recoverFromLog, writeHead_writes, writes_clearHeader, bread_clearHeader,
    clearHeader_log, installLog, installed, copies]
  rw [show (readHead (Storage.boot start size d)).log.start = start from rfl, headerRead]
  rfl

end Xv6
