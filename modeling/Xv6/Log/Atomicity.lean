import Xv6.Log.Commit

/-!
**Crash atomicity of the redo log.**

A transaction in memory (`lh` with `n` home blocks, their modified copies `C b` pinned in the
buffer cache) is committed by `commit`, which may crash after any prefix of its `2n + 2` block
writes. The machine then boots and runs `recover_from_log`, which may crash again after any
prefix of its own writes, any number of times, until one recovery runs to the end.

`commit_crash_atomic`: whatever the crash points, the home blocks all hold their pre-commit
contents (when the crash came before the header write) or all hold `C b` (when it came after),
every other block outside the log region is unchanged, and the on-disk header says `n = 0`.

The proof follows the images a crash can leave:

* `Settled v` — the header says `n = 0` and the home blocks hold `v`;
* `Committed` — the header names the transaction, the log blocks hold the `C b`, and each home
  block holds its old contents or `C b`.

`write_log` keeps `Settled` (old contents) (`logged_settled`), its header write reaches
`Committed` (`logged_committed`), and installing keeps `Committed` until the clearing header
write reaches `Settled C` (`committed_install`, `committed_installed`). Recovery keeps `Settled`
(`settled_recover`) and takes `Committed` through the same installation
(`committed_recover`), which is why a recovery that crashes can be run again.
-/

namespace Xv6

open Xv6.Lib

/-- The block writes of one recovery of the image `d`, booting with the log at
`start .. start + size`. -/
def recoveryWrites (start size : Nat) (d : Nat → Block) : List (Nat × Block) :=
  (recoverFromLog (Storage.boot start size d)).writes

/-- The block writes `commit` issues from `m`, in order. -/
def commitWrites (m : Storage) : List (Nat × Block) := (commit { m with writes := [] }).writes

/-- The disk after `commit` from `m` crashed after `k` writes, recovery crashed after the
numbers of writes in `points`, one after the other, and a last recovery ran to the end. -/
def recoveredImage (m : Storage) (k : Nat) (points : List Nat) : Nat → Block :=
  (recoverFromLog (Storage.boot m.log.start m.log.size
    (crashRuns (recoveryWrites m.log.start m.log.size)
      (patch m.disk ((commitWrites m).take k)) points))).disk

theorem readHeader_of_zero {buf : Block} (zero : buf 0 = 0) : readHeader buf = LogHeader.empty := by
  simp [readHeader, zero, LogHeader.empty]

theorem headerWords_empty (buf : Block) :
    headerWords buf LogHeader.empty = Function.update buf 0 0 := rfl

/-- Recovery of an image whose header says `n = 0` only rewrites the header. -/
theorem recoveryWrites_of_zero (start size : Nat) (d : Nat → Block) (zero : d start 0 = 0) :
    recoveryWrites start size d = [(start, headerWords (d start) LogHeader.empty)] := by
  rw [recoveryWrites, recover_writes]
  · rw [recoverInstallWrites, readHeader_of_zero zero]
    rfl
  · rw [readHeader_of_zero zero]
    intro b mem
    cases mem

section Transaction

variable (m : Storage) (C : Nat → Block)

/-- The home block `block[i]` of the transaction. -/
def home (i : Nat) : Nat := m.log.lh.block.getD i 0

/-- The blocks outside the log region that the transaction does not log hold their contents
from before the commit. -/
def FrameKept (d : Nat → Block) : Prop :=
  ∀ b, b ∉ m.log.lh.block → (b < m.log.start ∨ m.log.start + m.log.size ≤ b) → d b = m.disk b

/-- No transaction in the log: the header says `n = 0` and every home block holds `v b`. -/
def Settled (v d : Nat → Block) : Prop :=
  FrameKept m d ∧ d m.log.start 0 = 0 ∧ ∀ b ∈ m.log.lh.block, d b = v b

/-- The transaction is committed: the header names it, the log blocks hold the `C b`, and each
home block holds its contents from before the commit or `C b`. -/
def Committed (d : Nat → Block) : Prop :=
  FrameKept m d ∧ readHeader (d m.log.start) = m.log.lh ∧
    (∀ i < m.log.lh.n, d (m.log.start + i + 1) = C (home m i)) ∧
    ∀ b ∈ m.log.lh.block, d b = m.disk b ∨ d b = C b

/-- An image the transaction may be recovered from once it has committed. -/
def NewImage (d : Nat → Block) : Prop := Settled m C d ∨ Committed m C d

/-- The home-block writes of an installation: `block[i]` gets `C block[i]`. -/
def homeWrites : List (Nat × Block) :=
  (List.range m.log.lh.n).map fun i => (home m i, C (home m i))

variable {m}

theorem home_mem {i : Nat} (lt : i < m.log.lh.n) : home m i ∈ m.log.lh.block := by
  rw [home, List.getD_eq_getElem _ _ lt]
  exact List.getElem_mem _

theorem mem_homeWrites_keys {b : Nat} (mem : b ∈ m.log.lh.block) :
    b ∈ (homeWrites m C).map Prod.fst := by
  obtain ⟨i, lt, rfl⟩ := List.getElem_of_mem mem
  refine List.mem_map.mpr ⟨(home m i, C (home m i)), List.mem_map.mpr ⟨i, List.mem_range.mpr lt, rfl⟩, ?_⟩
  simp [home, List.getElem?_eq_getElem lt]

theorem homeWrites_agree : ∀ w ∈ homeWrites m C, w.2 = C w.1 := by
  intro w mem
  obtain ⟨i, -, rfl⟩ := List.mem_map.mp mem
  rfl

section Layout

-- the log holds the transaction: `n + 1 ≤ size`, that is `n ≤ log.size - 1`
variable (room : m.log.lh.n + 1 ≤ m.log.size)
-- the home blocks lie outside the log region
variable (outside : ∀ b ∈ m.log.lh.block, b < m.log.start ∨ m.log.start + m.log.size ≤ b)

include room outside in
theorem apart_of_outside : m.log.lh.Apart m.log.start := by
  intro b mem
  rcases outside b mem with below | above
  · exact Or.inl below
  · exact Or.inr (by omega)

include room in
/-- The header block and the log blocks are in the log region, so outside every frame. -/
theorem frame_ne_log {b : Nat} (frame : b < m.log.start ∨ m.log.start + m.log.size ≤ b)
    {j : Nat} (slot : j ≤ m.log.lh.n) : b ≠ m.log.start + j := by
  omega

include room outside in
/-- **Recovery of a settled image** rewrites the header and nothing else. -/
theorem settled_recover {v d : Nat → Block} (settled : Settled m v d) (k : Nat) :
    Settled m v (patch d ((recoveryWrites m.log.start m.log.size d).take k)) := by
  obtain ⟨frame, zero, homes⟩ := settled
  rw [recoveryWrites_of_zero _ _ _ zero]
  cases k with
  | zero => exact ⟨frame, zero, homes⟩
  | succ k =>
    simp only [List.take_succ_cons, List.take_nil, patch_cons, patch_nil]
    refine ⟨fun b unlogged outer => ?_, ?_, fun b mem => ?_⟩
    · rw [Function.update_of_ne (by simpa using frame_ne_log room outer (Nat.zero_le _))]
      exact frame b unlogged outer
    · rw [Function.update_self, headerWords_empty, Function.update_self]
    · have apart := apart_of_outside room outside b mem
      rw [Function.update_of_ne (by omega)]
      exact homes b mem

include room outside in
/-- Installing any prefix of the home writes keeps a committed image committed. -/
theorem committed_install {d : Nat → Block} (committed : Committed m C d) (j : Nat) :
    Committed m C (patch d ((homeWrites m C).take j)) := by
  obtain ⟨frame, header, logs, homes⟩ := committed
  have writesHomes : ∀ w ∈ (homeWrites m C).take j, w.1 ∈ m.log.lh.block := by
    intro w mem
    obtain ⟨i, lt, rfl⟩ := List.mem_map.mp (List.mem_of_mem_take mem)
    exact home_mem (List.mem_range.mp lt)
  -- a block that is not a home block is not written
  have kept : ∀ b, b ∉ m.log.lh.block → patch d ((homeWrites m C).take j) b = d b :=
    fun b unlogged => patch_apply_of_forall_ne _ _ _ fun w mem same =>
      unlogged (same ▸ writesHomes w mem)
  have apart := apart_of_outside room outside
  refine ⟨fun b unlogged outer => ?_, ?_, fun i lt => ?_, fun b mem => ?_⟩
  · rw [kept b unlogged]
    exact frame b unlogged outer
  · rw [kept _ fun mem => by have := apart _ mem; omega]
    exact header
  · rw [kept _ fun mem => by have := apart _ mem; omega]
    exact logs i lt
  · rcases patch_apply_of_agree d C _ (fun w mem => homeWrites_agree C w (List.mem_of_mem_take mem))
      b with same | written
    · rw [same]
      exact homes b mem
    · exact Or.inr written

include room outside in
/-- Installing every home block and then clearing the header settles the image on `C`. -/
theorem committed_installed {d : Nat → Block} (committed : Committed m C d) (header : Block) :
    Settled m C (patch d (homeWrites m C ++ [(m.log.start, headerWords header LogHeader.empty)])) := by
  obtain ⟨frame, -, -, -⟩ := committed_install C room outside committed (homeWrites m C).length
  rw [List.take_length] at frame
  have apart := apart_of_outside room outside
  refine ⟨fun b unlogged outer => ?_, ?_, fun b mem => ?_⟩
  · rw [patch_concat, Function.update_of_ne (by simpa using frame_ne_log room outer (Nat.zero_le _))]
    exact frame b unlogged outer
  · rw [patch_concat_self, headerWords_empty, Function.update_self]
  · rw [patch_concat, Function.update_of_ne (by have := apart _ mem; omega)]
    exact patch_apply_of_agree_mem d C _ (homeWrites_agree C) (mem_homeWrites_keys C mem)

include room outside in
/-- Recovery of a committed image installs exactly the home writes. -/
theorem recoveryWrites_of_committed {d : Nat → Block} (committed : Committed m C d) :
    recoveryWrites m.log.start m.log.size d =
      homeWrites m C ++ [(m.log.start, headerWords (d m.log.start) LogHeader.empty)] := by
  obtain ⟨-, header, logs, -⟩ := committed
  rw [recoveryWrites, recover_writes]
  · rw [recoverInstallWrites, header]
    congr 1
    exact List.map_congr_left fun i mem => by rw [logs i (List.mem_range.mp mem)]; rfl
  · rw [header]
    exact apart_of_outside room outside

include room outside in
/-- **Recovery of a committed image**, crashed anywhere, leaves an image the transaction can
still be recovered from; run to the end, it settles the image on `C`. -/
theorem committed_recover {d : Nat → Block} (committed : Committed m C d) :
    (∀ k, NewImage m C (patch d ((recoveryWrites m.log.start m.log.size d).take k))) ∧
      Settled m C (patch d (recoveryWrites m.log.start m.log.size d)) := by
  rw [recoveryWrites_of_committed C room outside committed]
  refine ⟨fun k => ?_, committed_installed C room outside committed _⟩
  rw [take_append_eq_ite]
  split
  case isTrue inside => exact Or.inr (committed_install C room outside committed k)
  case isFalse past =>
    obtain ⟨j, after⟩ : ∃ j, k - (homeWrites m C).length = j + 1 := ⟨k - (homeWrites m C).length - 1, by omega⟩
    rw [after, List.take_succ_cons, List.take_nil]
    exact Or.inl (committed_installed C room outside committed _)

include room outside in
theorem newImage_recover {d : Nat → Block} (image : NewImage m C d) (k : Nat) :
    NewImage m C (patch d ((recoveryWrites m.log.start m.log.size d).take k)) := by
  rcases image with settled | committed
  · exact Or.inl (settled_recover room outside settled k)
  · exact (committed_recover C room outside committed).1 k

/-- The complete recovery that ends every run leaves the image patched by all its writes. -/
theorem recovered_eq_patch (d : Nat → Block) :
    (recoverFromLog (Storage.boot m.log.start m.log.size d)).disk =
      patch d ((recoveryWrites m.log.start m.log.size d).take
        (recoveryWrites m.log.start m.log.size d).length) := by
  rw [List.take_length, recoverFromLog_boot_disk]
  rfl

theorem logWrites_addr : ∀ w ∈ logWrites m, ∃ i < m.log.lh.n, w.1 = m.log.start + i + 1 := by
  intro w mem
  obtain ⟨i, lt, rfl⟩ := List.mem_map.mp mem
  exact ⟨i, List.mem_range.mp lt, rfl⟩

theorem length_logWrites : (logWrites m).length = m.log.lh.n := by
  simp [logWrites, copyWrites]

section Commit

-- the modified copies of the logged blocks are pinned in the buffer cache
variable (cached : ∀ b ∈ m.log.lh.block, m.cache b = some (C b))
-- the on-disk header says `n = 0`
variable (clean : m.disk m.log.start 0 = 0)

include room outside cached in
/-- The writes of the commit, with the cached copies read out of the cache. -/
theorem commitWrites_eq (positive : 0 < m.log.lh.n) :
    commitWrites m = logWrites m ++ ((m.log.start, committedHeader m) ::
      (homeWrites m C ++ [(m.log.start, headerWords (committedHeader m) LogHeader.empty)])) := by
  have installed : installWrites { m with writes := [] } = homeWrites m C := by
    refine List.map_congr_left fun i mem => ?_
    have cache := cached _ (home_mem (List.mem_range.mp mem))
    show (home m i, (m.cache (home m i)).getD (m.disk (home m i))) = (home m i, C (home m i))
    rw [cache]
    rfl
  have writes := commit_writes { m with writes := [] } positive (apart_of_outside room outside)
  rw [commitWrites, writes, List.nil_append, installed]
  simp only [List.append_assoc, List.cons_append]
  rfl

include room outside clean in
/-- **A crash inside `write_log`** leaves the header at `n = 0` and every home block as it was. -/
theorem logged_settled (k : Nat) :
    Settled m m.disk (patch m.disk ((logWrites m).take k)) := by
  have apart := apart_of_outside room outside
  have kept : ∀ b, (∀ i < m.log.lh.n, b ≠ m.log.start + i + 1) →
      patch m.disk ((logWrites m).take k) b = m.disk b := by
    intro b avoids
    refine patch_apply_of_forall_ne _ _ _ fun w mem same => ?_
    obtain ⟨i, lt, addr⟩ := logWrites_addr w (List.mem_of_mem_take mem)
    exact avoids i lt (same ▸ addr)
  refine ⟨fun b unlogged outer => ?_, ?_, fun b mem => ?_⟩
  · exact kept b fun i lt => by simpa [Nat.add_assoc] using frame_ne_log room outer (j := i + 1) lt
  · rw [kept _ fun i _ => by omega]
    exact clean
  · exact kept b fun i lt => by have := apart b mem; omega

include room outside cached in
/-- **The header write commits**: after all the log blocks and the header, the image is
committed. -/
theorem logged_committed :
    Committed m C (patch m.disk (logWrites m ++ [(m.log.start, committedHeader m)])) := by
  have apart := apart_of_outside room outside
  have kept : ∀ b, b ≠ m.log.start → (∀ i < m.log.lh.n, b ≠ m.log.start + i + 1) →
      patch m.disk (logWrites m ++ [(m.log.start, committedHeader m)]) b = m.disk b := by
    intro b notHeader avoids
    rw [patch_concat, Function.update_of_ne notHeader]
    refine patch_apply_of_forall_ne _ _ _ fun w mem same => ?_
    obtain ⟨i, lt, addr⟩ := logWrites_addr w mem
    exact avoids i lt (same ▸ addr)
  refine ⟨fun b unlogged outer => ?_, ?_, fun i lt => ?_, fun b mem => ?_⟩
  · refine kept b (by simpa using frame_ne_log room outer (Nat.zero_le _)) fun i lt => ?_
    simpa [Nat.add_assoc] using frame_ne_log room outer (j := i + 1) lt
  · rw [patch_concat_self, committedHeader, readHeader_headerWords]
  · rw [patch_concat, Function.update_of_ne (by omega)]
    rw [patch_apply_of_mem _ _ (logWrites_keys_nodup m)
      (List.mem_map.mpr ⟨i, List.mem_range.mpr lt, rfl⟩)]
    show (m.cache (home m i)).getD (m.disk (home m i)) = C (home m i)
    rw [cached _ (home_mem lt)]
    rfl
  · exact Or.inl (kept b (by have := apart b mem; omega) fun i _ => by have := apart b mem; omega)

include room outside cached clean in
/-- A crash no later than the last log-block write: nothing committed. -/
theorem crashed_commit_early {k : Nat} (early : k ≤ m.log.lh.n) :
    Settled m m.disk (patch m.disk ((commitWrites m).take k)) := by
  by_cases positive : 0 < m.log.lh.n
  · have inside : k ≤ (logWrites m).length := by
      rw [length_logWrites]
      exact early
    rw [commitWrites_eq C room outside cached positive, take_append_eq_ite, if_pos inside]
    exact logged_settled room outside clean k
  · have empty : commitWrites m = [] := by
      simp [commitWrites, commit, positive]
    rw [empty, List.take_nil, patch_nil]
    exact ⟨fun _ _ _ => rfl, clean, fun _ _ => rfl⟩

include room outside cached clean in
/-- A crash after the header write: the transaction is committed. -/
theorem crashed_commit_late {k : Nat} (late : m.log.lh.n < k) :
    NewImage m C (patch m.disk ((commitWrites m).take k)) := by
  by_cases positive : ¬ 0 < m.log.lh.n
  · -- an empty transaction: `commit` writes nothing
    have empty : commitWrites m = [] := by
      simp [commitWrites, commit, positive]
    have none : m.log.lh.block = [] := List.eq_nil_of_length_eq_zero (by unfold LogHeader.n at positive; omega)
    rw [empty, List.take_nil, patch_nil]
    exact Or.inl ⟨fun _ _ _ => rfl, clean, fun b mem => by rw [none] at mem; cases mem⟩
  rw [not_not] at positive
  obtain ⟨j, after⟩ : ∃ j, k - (logWrites m).length = j + 1 :=
    ⟨k - m.log.lh.n - 1, by rw [length_logWrites]; omega⟩
  have past : ¬ k ≤ (logWrites m).length := by
    rw [length_logWrites]
    omega
  rw [commitWrites_eq C room outside cached positive, take_append_eq_ite, if_neg past, after,
    List.take_succ_cons, List.append_cons, patch_append]
  have committed := logged_committed C room outside cached
  rw [take_append_eq_ite]
  split
  case isTrue inside => exact Or.inr (committed_install C room outside committed j)
  case isFalse past =>
    obtain ⟨i, rest⟩ : ∃ i, j - (homeWrites m C).length = i + 1 := ⟨j - (homeWrites m C).length - 1, by omega⟩
    rw [rest, List.take_succ_cons, List.take_nil]
    exact Or.inl (committed_installed C room outside committed _)

end Commit

end Layout

end Transaction

/-- **Crash atomicity of the redo log.** Take a transaction of `n ≤ log.size - 1` home blocks
outside the log region, whose modified copies `C b` are cached, and an on-disk header saying
`n = 0`. Crash `commit` after any number `k` of its block writes, then run `recover_from_log`
crashing after each number of writes in `points`, and finally once to the end. Then the home
blocks hold their old contents if the crash came before the header write (`k ≤ n`) and `C b`
if it came after; every other block outside the log region is unchanged; and the on-disk header
says `n = 0`. -/
theorem commit_crash_atomic (m : Storage) (C : Nat → Block)
    (room : m.log.lh.n + 1 ≤ m.log.size)
    (outside : ∀ b ∈ m.log.lh.block, b < m.log.start ∨ m.log.start + m.log.size ≤ b)
    (cached : ∀ b ∈ m.log.lh.block, m.cache b = some (C b))
    (clean : m.disk m.log.start 0 = 0) (k : Nat) (points : List Nat) :
    (∀ b ∈ m.log.lh.block,
        recoveredImage m k points b = if k ≤ m.log.lh.n then m.disk b else C b) ∧
      (∀ b, b ∉ m.log.lh.block → (b < m.log.start ∨ m.log.start + m.log.size ≤ b) →
        recoveredImage m k points b = m.disk b) ∧
      recoveredImage m k points m.log.start 0 = 0 := by
  suffices settled :
      Settled m (if k ≤ m.log.lh.n then m.disk else C) (recoveredImage m k points) by
    obtain ⟨frame, zero, homes⟩ := settled
    refine ⟨fun b mem => ?_, frame, zero⟩
    rw [homes b mem]
    split <;> rfl
  rw [recoveredImage, recovered_eq_patch]
  by_cases early : k ≤ m.log.lh.n
  · rw [if_pos early]
    have crashed := crashed_commit_early C room outside cached clean early
    have recovered := crashRuns_induction _ (Settled m m.disk)
      (fun _ k settled => settled_recover room outside settled k) points _ crashed
    exact settled_recover room outside recovered _
  · rw [if_neg early]
    have crashed := crashed_commit_late C room outside cached clean (Nat.lt_of_not_le early)
    have recovered := crashRuns_induction _ (NewImage m C)
      (fun _ k image => newImage_recover C room outside image k) points _ crashed
    rcases recovered with settled | committed
    · exact settled_recover room outside settled _
    · rw [List.take_length]
      exact (committed_recover C room outside committed).2

/-- A transaction logging blocks `40` and `41`, whose modified copies (all words `7`) are
cached, with the log at blocks `2 .. 31` and a clean header. -/
def twoBlockStorage : Storage :=
  { log := { start := 2, size := 30, outstanding := 0, committing := true, lh := ⟨[40, 41]⟩ }
    disk := fun _ _ => 0
    cache := fun b => if b = 40 ∨ b = 41 then some (fun _ => 7) else none
    writes := [] }

theorem commit_crash_atomic_twoBlocks :
    twoBlockStorage.log.lh.n + 1 ≤ twoBlockStorage.log.size ∧
      (∀ b ∈ twoBlockStorage.log.lh.block, b < twoBlockStorage.log.start ∨
        twoBlockStorage.log.start + twoBlockStorage.log.size ≤ b) ∧
      (∀ b ∈ twoBlockStorage.log.lh.block, twoBlockStorage.cache b = some (fun _ => 7)) ∧
      twoBlockStorage.disk twoBlockStorage.log.start 0 = 0 ∧
      ((∀ b ∈ twoBlockStorage.log.lh.block, recoveredImage twoBlockStorage 3 [1] b =
          if 3 ≤ twoBlockStorage.log.lh.n then twoBlockStorage.disk b else fun _ => 7) ∧
        (∀ b, b ∉ twoBlockStorage.log.lh.block →
          (b < twoBlockStorage.log.start ∨ twoBlockStorage.log.start + twoBlockStorage.log.size ≤ b) →
          recoveredImage twoBlockStorage 3 [1] b = twoBlockStorage.disk b) ∧
        recoveredImage twoBlockStorage 3 [1] twoBlockStorage.log.start 0 = 0) := by
  have room : twoBlockStorage.log.lh.n + 1 ≤ twoBlockStorage.log.size := by decide
  have outside : ∀ b ∈ twoBlockStorage.log.lh.block, b < twoBlockStorage.log.start ∨
      twoBlockStorage.log.start + twoBlockStorage.log.size ≤ b := by decide
  have cached : ∀ b ∈ twoBlockStorage.log.lh.block,
      twoBlockStorage.cache b = some ((fun _ _ => 7 : Nat → Block) b) := by
    intro b mem
    have logged : b = 40 ∨ b = 41 := by simpa [twoBlockStorage] using mem
    simp [twoBlockStorage, logged]
  exact ⟨room, outside, cached, rfl,
    commit_crash_atomic twoBlockStorage (fun _ _ => 7) room outside cached rfl 3 [1]⟩

end Xv6
