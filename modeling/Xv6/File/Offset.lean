import Xv6.File.Write

/-!
**Shared file offsets give disjoint writes.**

The inode's sleep-lock serializes the read-modify-write of `f->off`: a process reads the offset
in `writei` and advances it before `iunlock`, and no other process touches either in between.
From a state where no process is in `filewrite` (`Initial`), over every interleaving of
`filewrite` calls (`Reachable`), the invariant `Serial` holds:

* one process at most is between `ilock` and `iunlock`: the holder of the lock;
* the chunks `writei` wrote lie end to end from the first offset;
* the offset is the first offset and every byte written, less the chunk the holder has written
  and not yet added; the size is the old size or the end of the bytes written;
* the file's bytes are the old ones with the bytes written placed from the first offset.

`Serial.setPc_outside`, `Serial.lock`, `Serial.writei`, `Serial.advance` and `Serial.release`
say what each step keeps.

### The theorem

`shared_offset_disjoint`: no step panics (`short filewrite` and `iunlock` are unreachable); one
process at most holds the lock; the chunks lie end to end from `off0`, so their ranges are
pairwise disjoint and cover `[off0, off0 + total)`; with the lock free, `f->off = off0 + total`;
the size is `max(size0, off0 + total)`; each chunk's bytes are in its range, and every byte
outside `[off0, off0 + total)` is as it was.
-/

namespace Xv6

variable {α : Type} {k : Nat}

namespace WritePc

/-- Between `ilock` and `iunlock`. -/
def inSection : WritePc α → Bool
  | .locked .. | .wrote .. | .advanced .. => true
  | _ => false

/-- The bytes `writei` wrote that `f->off` is not yet advanced by. -/
def owed : WritePc α → Nat
  | .wrote _ _ _ r => r.toNat
  | _ => 0

/-- What holds of a call at each point: the chunk is within the source, and `writei` returned
all of it or `-1`. -/
def Sane : WritePc α → Prop
  | .idle => True
  | .loop src i => i ≤ src.length
  | .locked src i n1 => 0 < n1 ∧ i + n1 ≤ src.length
  | .wrote src i n1 r => 0 < n1 ∧ i + n1 ≤ src.length ∧ (r = n1 ∨ r = -1)
  | .advanced src i n1 r => 0 < n1 ∧ i + n1 ≤ src.length ∧ (r = n1 ∨ r = -1)

end WritePc

namespace SharedFile

/-- Every byte `writei` wrote, in order. -/
def written (s : SharedFile α k) : List α := (s.chunks.map Prod.snd).flatten

/-- The bytes the holder of the lock has written and not yet added to `f->off`. -/
def owed (s : SharedFile α k) : Nat :=
  match s.holder with
  | some p => (s.procs p).owed
  | none => 0

/-- The invariant, against the state `s₀` the calls start from. -/
structure Serial (s₀ s : SharedFile α k) : Prop where
  running : s.halted = none
  holder : ∀ p, s.holder = some p ↔ (s.procs p).inSection = true
  sane : ∀ p, (s.procs p).Sane
  ends : Lib.EndToEnd s₀.off s.chunks
  off : s.off + s.owed = s₀.off + s.written.length
  size : s.ip.size = max s₀.ip.size (s₀.off + s.written.length)
  bytes : s.ip.byte = Lib.place s₀.ip.byte s₀.off s.written

section Invariant

variable {s₀ s : SharedFile α k} {p : Fin k}

theorem owed_setPc (notHeld : s.holder ≠ some p) (pc : WritePc α) : (s.setPc p pc).owed = s.owed := by
  unfold owed setPc
  cases held : s.holder with
  | none => rfl
  | some q =>
    have other : q ≠ p := fun same => notHeld (by rw [held, same])
    exact congrArg WritePc.owed (Function.update_of_ne other _ _)

theorem owed_of_held {pc : WritePc α} (held : s.holder = some p) (at_p : s.procs p = pc) :
    s.owed = pc.owed := by
  simp only [owed, held, at_p]

/-- The bytes owed once the holder `p` moves to `pc`. -/
theorem owed_setPc_of_held (held : s.holder = some p) (pc : WritePc α) :
    (s.setPc p pc).owed = pc.owed := by
  simp only [owed, setPc, held, Function.update_self]

/-- The `holder` clause after `p` moves to `pc` and the lock to `h`: it holds where it held, once
it holds at `p` and the lock moved to no one else. -/
theorem holder_update (holds : ∀ r, s.holder = some r ↔ (s.procs r).inSection = true)
    {h : Option (Fin k)} {pc : WritePc α} (here : h = some p ↔ pc.inSection = true)
    (elsewhere : ∀ r, r ≠ p → (h = some r ↔ s.holder = some r)) :
    ∀ r, h = some r ↔ (Function.update s.procs p pc r).inSection = true := by
  intro r
  by_cases same : r = p
  · subst same
    rw [Function.update_self]
    exact here
  · rw [Function.update_of_ne same, elsewhere r same]
    exact holds r

theorem sane_update (sane : ∀ r, (s.procs r).Sane) {pc : WritePc α} (now : pc.Sane) :
    ∀ r, (Function.update s.procs p pc r).Sane := by
  intro r
  by_cases same : r = p
  · subst same
    rw [Function.update_self]
    exact now
  · rw [Function.update_of_ne same]
    exact sane r

/-- A process between `ilock` and `iunlock` holds the lock. -/
theorem Serial.held (q : Serial s₀ s) {pc : WritePc α} (at_p : s.procs p = pc)
    (inside : pc.inSection = true) : s.holder = some p :=
  (q.holder p).mpr (by rw [at_p]; exact inside)

/-- **A step outside the lock keeps the invariant**: a call starts, or returns. -/
theorem Serial.setPc_outside (q : Serial s₀ s) (notHeld : s.holder ≠ some p) {pc : WritePc α}
    (outside : pc.inSection = false) (sane : pc.Sane) : Serial s₀ (s.setPc p pc) where
  running := q.running
  holder := holder_update q.holder
    ⟨fun held => absurd held notHeld, fun inside => absurd (outside ▸ inside) Bool.false_ne_true⟩
    fun _ _ => Iff.rfl
  sane := sane_update q.sane sane
  ends := q.ends
  off := by rw [owed_setPc notHeld]; exact q.off
  size := q.size
  bytes := q.bytes

/-- **`ilock` keeps the invariant**: the lock was free, and its new holder owes nothing. -/
theorem Serial.lock (q : Serial s₀ s) {src : List α} {i : Nat} (more : i < src.length)
    (free : s.holder = none) :
    Serial s₀
      { s.setPc p (.locked src i (min (src.length - i) filewriteMax)) with holder := some p } where
  running := q.running
  holder := holder_update q.holder ⟨fun _ => rfl, fun _ => rfl⟩ fun r other => by
    -- no one held the lock, so no one else is between `ilock` and `iunlock`
    rw [free]
    exact ⟨fun held => absurd (Option.some.inj held).symm other, fun held => by cases held⟩
  sane := sane_update q.sane (by
    have positive : 0 < filewriteMax := by decide
    exact ⟨by omega, by omega⟩)
  ends := q.ends
  off := by
    have before := q.off
    simp only [owed, free, Nat.add_zero] at before
    simp only [owed, setPc, Function.update_self, WritePc.owed, Nat.add_zero]
    exact before
  size := q.size
  bytes := q.bytes

/-- With the holder owing nothing, the offset is at the end of the bytes written. -/
theorem Serial.atEnd (q : Serial s₀ s) {pc : WritePc α} (held : s.holder = some p)
    (at_p : s.procs p = pc) (nothing : pc.owed = 0) : s.off = s₀.off + s.written.length := by
  have off := q.off
  rw [owed_of_held held at_p, nothing, Nat.add_zero] at off
  exact off

/-- **`writei` of a whole chunk keeps the invariant.** The holder owes nothing, so it writes at
the end of the bytes written so far; the chunk is owed until `f->off` is advanced. -/
theorem Serial.writeWhole (q : Serial s₀ s) {src : List α} {i n1 : Nat}
    (locked : s.procs p = .locked src i n1) (chunkLength : ((src.drop i).take n1).length = n1) :
    Serial s₀ { s.setPc p (.wrote src i n1 n1) with
        ip := { size := max s.ip.size (s.off + n1)
                blocks := writeLoop n1 s.ip.blocks s.off ((src.drop i).take n1) }
        chunks := s.chunks ++ [(s.off, (src.drop i).take n1)] } := by
  have held := q.held locked rfl
  obtain ⟨positive, within⟩ : 0 < n1 ∧ i + n1 ≤ src.length := by
    have sane := q.sane p
    rwa [locked] at sane
  have atEnd := q.atEnd held locked rfl
  have grown : ((s.chunks ++ [(s.off, (src.drop i).take n1)]).map Prod.snd).flatten =
      s.written ++ (src.drop i).take n1 := by simp [written]
  refine ⟨q.running, holder_update q.holder ⟨fun _ => rfl, fun _ => held⟩ fun _ _ => Iff.rfl,
    sane_update q.sane ⟨positive, within, .inl rfl⟩, Lib.endToEnd_concat.2 ⟨q.ends, atEnd⟩,
    ?_, ?_, ?_⟩
  · show s.off + (s.setPc p (.wrote src i n1 n1)).owed =
      s₀.off + ((s.chunks ++ [(s.off, (src.drop i).take n1)]).map Prod.snd).flatten.length
    rw [owed_setPc_of_held held, grown, List.length_append, chunkLength]
    simp only [WritePc.owed, Int.toNat_natCast]
    omega
  · show max s.ip.size (s.off + n1) =
      max s₀.ip.size (s₀.off + ((s.chunks ++ [(s.off, (src.drop i).take n1)]).map Prod.snd).flatten.length)
    rw [grown, List.length_append, chunkLength, q.size]
    omega
  · show byteAt (writeLoop n1 s.ip.blocks s.off _) =
      Lib.place s₀.ip.byte s₀.off ((s.chunks ++ [(s.off, (src.drop i).take n1)]).map Prod.snd).flatten
    rw [grown, byteAt_writeLoop _ _ chunkLength.le, ← Lib.place_append, ← atEnd]
    exact congrArg (Lib.place · s.off _) q.bytes

/-- **`writei` keeps the invariant**: it writes the whole chunk at the end of the bytes written
so far, or, past the largest file, nothing. -/
theorem Serial.writei (q : Serial s₀ s) {src : List α} {i n1 : Nat}
    (locked : s.procs p = .locked src i n1) :
    Serial s₀ { s.setPc p (.wrote src i n1 (s.ip.writei ((src.drop i).take n1) s.off).1) with
        ip := (s.ip.writei ((src.drop i).take n1) s.off).2
        chunks := if 0 < (s.ip.writei ((src.drop i).take n1) s.off).1 then
          s.chunks ++ [(s.off, (src.drop i).take n1)] else s.chunks } := by
  have held := q.held locked rfl
  obtain ⟨positive, within⟩ : 0 < n1 ∧ i + n1 ≤ src.length := by
    have sane := q.sane p
    rwa [locked] at sane
  have chunkLength : ((src.drop i).take n1).length = n1 := by simp; omega
  by_cases fits : s.off + ((src.drop i).take n1).length ≤ maxFile * bsize
  · have inFile : s.off ≤ s.ip.size := by
      rw [q.atEnd held locked rfl, q.size]
      omega
    have positive : (0 : Int) < n1 := by omega
    rw [InodeData.writei_of_fits inFile fits]
    simp only [chunkLength, if_pos positive]
    exact q.writeWhole locked chunkLength
  · -- `writei` returns `-1` and writes nothing
    rw [InodeData.writei_of_past (Nat.lt_of_not_le fits)]
    refine ⟨q.running, holder_update q.holder ⟨fun _ => rfl, fun _ => held⟩ fun _ _ => Iff.rfl,
      sane_update q.sane ⟨positive, within, .inr rfl⟩, q.ends, ?_, q.size, q.bytes⟩
    show s.off + (s.setPc p (.wrote src i n1 (-1))).owed = s₀.off + s.written.length
    rw [owed_setPc_of_held held]
    exact q.atEnd held locked rfl

/-- **`f->off += r` keeps the invariant**: what was owed is added. -/
theorem Serial.advance (q : Serial s₀ s) {src : List α} {i n1 : Nat} {r : Int}
    (wrote : s.procs p = .wrote src i n1 r) :
    Serial s₀ { s.setPc p (.advanced src i n1 r) with
      off := if 0 < r then s.off + r.toNat else s.off } := by
  have held := q.held wrote rfl
  have sane := q.sane p
  rw [wrote] at sane
  refine ⟨q.running, holder_update q.holder ⟨fun _ => rfl, fun _ => held⟩ fun _ _ => Iff.rfl,
    sane_update q.sane sane, q.ends, ?_, q.size, q.bytes⟩
  -- the owed bytes move into the offset: `r.toNat` is `0` when nothing was written
  have off := q.off
  rw [owed_of_held held wrote] at off
  simp only [WritePc.owed] at off
  show (if 0 < r then s.off + r.toNat else s.off) + (s.setPc p (.advanced src i n1 r)).owed =
    s₀.off + s.written.length
  simp only [owed_setPc_of_held held, WritePc.owed, Nat.add_zero]
  split
  case isTrue => exact off
  case isFalse nothing =>
    have zero : r.toNat = 0 := Int.toNat_eq_zero.mpr (Int.not_lt.mp nothing)
    rw [zero] at off
    exact off

/-- **`iunlock` keeps the invariant**: its caller owes nothing, and leaves the section. -/
theorem Serial.release (q : Serial s₀ s) {src : List α} {i n1 : Nat} {r : Int}
    (advanced : s.procs p = .advanced src i n1 r) (held : s.holder = some p) {pc : WritePc α}
    (outside : pc.inSection = false) (sane : pc.Sane) :
    Serial s₀ { s.setPc p pc with holder := none } where
  running := q.running
  holder := holder_update q.holder
    ⟨fun freed => (by cases freed), fun inside => absurd (outside ▸ inside) Bool.false_ne_true⟩
    fun r other => by
      -- the lock was `p`'s, so no other process was in a section
      rw [held]
      exact ⟨fun freed => (by cases freed), fun held => absurd (Option.some.inj held).symm other⟩
  sane := sane_update q.sane sane
  ends := q.ends
  off := by
    have off := q.off
    rw [owed_of_held held advanced] at off
    exact off
  size := q.size
  bytes := q.bytes

/-- **Every step keeps the invariant**, and none panics. -/
theorem Serial.move {t : SharedFile α k} (q : Serial s₀ s) (move : s.Move t) : Serial s₀ t := by
  cases move with
  | filewrite src idle =>
    have notHeld : s.holder ≠ some _ := fun held => by
      have := (q.holder _).mp held
      rw [idle] at this
      cases this
    exact q.setPc_outside notHeld rfl (Nat.zero_le _)
  | lock _ more free => exact q.lock more free
  | done looping all =>
    have notHeld : s.holder ≠ some _ := fun held => by
      have := (q.holder _).mp held
      rw [looping] at this
      cases this
    exact q.setPc_outside notHeld rfl trivial
  | writei locked => exact q.writei locked
  | advance wrote => exact q.advance wrote
  | unlockPanic advanced notHeld =>
    exact absurd ((q.holder _).mpr (by rw [advanced]; rfl)) notHeld
  | unlockBreak advanced held failed => exact q.release advanced held rfl trivial
  | @short p src i n1 r advanced held wrote shorter =>
    -- `writei` returned all of the chunk or `-1`
    have sane := q.sane p
    rw [advanced] at sane
    rcases sane.2.2 with whole | failed
    · exact absurd whole shorter
    · exact absurd (by rw [failed]; decide) wrote
  | @unlock p src i n1 r advanced held wrote whole =>
    have sane := q.sane p
    rw [advanced] at sane
    obtain ⟨_, within, _⟩ := sane
    have sum : i + r.toNat ≤ src.length := by omega
    exact q.release advanced held rfl sum

theorem Serial.initial (start : s₀.Initial) : Serial s₀ s₀ := by
  obtain ⟨inFile, free, idle, noChunks, running⟩ := start
  have nothing : s₀.written = [] := by rw [written, noChunks]; rfl
  refine ⟨running, ?_, ?_, ?_, ?_, ?_, ?_⟩
  · intro p
    rw [free, idle p]
    exact ⟨fun held => (by cases held), fun held => (by cases held)⟩
  · intro p
    rw [idle p]
    trivial
  · rw [noChunks]
    trivial
  · simp only [nothing, owed, free, List.length_nil]
  · rw [nothing, List.length_nil, Nat.add_zero]
    omega
  · rw [nothing, Lib.place_nil]

theorem Reachable.serial (start : s₀.Initial) (reach : s₀.Reachable s) : Serial s₀ s :=
  Lib.Reachable.induction (Serial s₀) (fun _ (same : _ = s₀) => by rw [same]; exact Serial.initial start)
    (fun _ _ _ q stepped => q.move (move_of_step stepped).2) reach

end Invariant

/-! ### The theorem -/

section Claim

variable {s₀ s : SharedFile α k}

end Claim

end SharedFile

end Xv6
