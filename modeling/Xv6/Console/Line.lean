import Xv6.Lib.Ring

/-!
**The console's line editor: the `input` ring and `consoleintr`.**

`input.buf[INPUT_BUF]` is a ring buffer (`Xv6.Lib.Ring`) with three 32-bit counters that wrap:
the bytes from `r` to `w` are committed and wait for `consoleread`, those from `w` to `e` are the
line being edited. `Input.intr` is one character of `consoleintr`'s loop, its echo through
`consputc` left out: `^P` asks for a process listing and leaves the line alone, `^U` erases the
line, backspace and DEL erase its last byte, and any other byte but NUL is stored (`'\r'` as
`'\n'`) while the ring has room; a `'\n'`, a `^D` or a full ring commits the line.

`Line` says what the ring is for: the committed bytes and the line as lists, and (ghost) every
byte committed so far; `Line.type` is the editor over them. `Input.Holds` relates a ring to the
lists it holds, and `Holds.intr` shows that `Input.intr` acts on them as `Line.type` does, wrapped
counters included. The counters then stay within one turn of the ring (`Holds.counters`).
-/

namespace Xv6

/-- `INPUT_BUF`. -/
def inputBuf : Nat := 128

instance : NeZero inputBuf := ⟨by decide⟩

/-- `C(x)`, control-`x`. -/
def ctrl (x : Char) : UInt8 := x.toUInt8 - '@'.toUInt8

/-- The console's `input` ring. -/
structure Input where
  buf : Fin inputBuf → UInt8
  /-- read index -/
  r : UInt32
  /-- write index -/
  w : UInt32
  /-- edit index -/
  e : UInt32

namespace Input

/-- `input.buf[input.e++ % INPUT_BUF] = c`. -/
def put (s : Input) (c : UInt8) : Input :=
  { s with buf := Function.update s.buf (Lib.cell inputBuf s.e.toNat) c, e := s.e + 1 }

theorem sub_one_sub_lt {e w : UInt32} (ne : e ≠ w) : (e - 1 - w).toNat < (e - w).toNat := by
  have := e.toNat_lt
  have := w.toNat_lt
  have apart : e.toNat ≠ w.toNat := fun same => ne (UInt32.toNat_inj.mp same)
  simp only [UInt32.toNat_sub, UInt32.toNat_one, Nat.reducePow] at *
  omega

/-- The loop of `C('U')`: erase back to `w` or to a `'\n'`. -/
def killLine (s : Input) : Input :=
  if s.e ≠ s.w ∧ s.buf (Lib.cell inputBuf (s.e - 1).toNat) ≠ '\n'.toUInt8 then
    killLine { s with e := s.e - 1 }
  else s
termination_by (s.e - s.w).toNat
decreasing_by exact sub_one_sub_lt ‹_ ∧ _›.1

/-- One character `c` of `consoleintr`'s loop. -/
def intr (s : Input) (c : UInt8) : Input :=
  -- `doprocdump = 1`: the listing comes after the loop and leaves the ring alone
  if c = ctrl 'P' then s
  else if c = ctrl 'U' then s.killLine
  else if c = ctrl 'H' ∨ c = 0x7f then
    if s.e ≠ s.w then { s with e := s.e - 1 } else s
  else if c ≠ 0 ∧ s.e - s.r < UInt32.ofNat inputBuf then
    let c := if c = '\r'.toUInt8 then '\n'.toUInt8 else c
    let s := s.put c
    if c = '\n'.toUInt8 ∨ c = ctrl 'D' ∨ s.e = s.r + UInt32.ofNat inputBuf then { s with w := s.e }
    else s
  else s

/-- The unsigned difference `w - r`: how many committed bytes wait. -/
def pending (s : Input) : Nat := (s.w - s.r).toNat

/-- The unsigned difference `e - w`: the length of the line. -/
def editing (s : Input) : Nat := (s.e - s.w).toNat

/-- The committed bytes not yet read, oldest first. -/
def ready (s : Input) : List UInt8 := Lib.ringContents s.buf s.r.toNat s.pending

/-- The line being edited. -/
def edit (s : Input) : List UInt8 := Lib.ringContents s.buf s.w.toNat s.editing

end Input

/-- What the ring is for: the committed bytes and the line, as lists. -/
structure Line where
  /-- committed, not yet read -/
  ready : List UInt8
  /-- the line being edited -/
  edit : List UInt8
  /-- (ghost) every byte committed so far -/
  log : List UInt8

/-- A byte added to the line, which a `'\n'`, a `^D` or a full buffer commits. -/
def Line.add (l : Line) (c : UInt8) : Line :=
  let edit := l.edit ++ [c]
  if c = '\n'.toUInt8 ∨ c = ctrl 'D' ∨ l.ready.length + edit.length = inputBuf then
    { ready := l.ready ++ edit, edit := [], log := l.log ++ edit }
  else { l with edit }

/-- A character typed at the line: `^P` changes nothing, `^U` erases the line, backspace and DEL
its last byte; any other byte but NUL is added (`'\r'` as `'\n'`) while fewer than `INPUT_BUF`
bytes are held. -/
def Line.type (l : Line) (c : UInt8) : Line :=
  if c = ctrl 'P' then l
  else if c = ctrl 'U' then { l with edit := [] }
  else if c = ctrl 'H' ∨ c = 0x7f then { l with edit := l.edit.dropLast }
  else if c ≠ 0 ∧ l.ready.length + l.edit.length < inputBuf then
    l.add (if c = '\r'.toUInt8 then '\n'.toUInt8 else c)
  else l

namespace Line

variable {l : Line}

theorem add_committed (c : UInt8) :
    ∃ more, (l.add c).ready = l.ready ++ more ∧ (l.add c).log = l.log ++ more := by
  dsimp only [add]
  split_ifs
  · exact ⟨_, rfl, rfl⟩
  · exact ⟨[], (List.append_nil _).symm, (List.append_nil _).symm⟩

/-- Typing adds to the committed bytes only what it adds to the log. -/
theorem type_committed (c : UInt8) :
    ∃ more, (l.type c).ready = l.ready ++ more ∧ (l.type c).log = l.log ++ more := by
  unfold type
  -- the bytes added, or a change of the line alone
  split_ifs
  all_goals first
    | exact add_committed _
    | exact ⟨[], (List.append_nil _).symm, (List.append_nil _).symm⟩

/-- No character erases a committed byte. -/
theorem ready_prefix_type (c : UInt8) : l.ready <+: (l.type c).ready := by
  obtain ⟨more, ready, -⟩ := type_committed (l := l) c
  rw [ready]
  exact List.prefix_append _ _

/-- A `'\n'` never stays in the line: it commits it. -/
theorem noNewline_add (noNewline : '\n'.toUInt8 ∉ l.edit) (c : UInt8) :
    '\n'.toUInt8 ∉ (l.add c).edit := by
  dsimp only [add]
  split_ifs with commit
  · exact List.not_mem_nil
  · simp only [List.mem_append, List.mem_singleton, not_or]
    exact ⟨noNewline, fun same => commit (Or.inl same.symm)⟩

theorem noNewline_type (noNewline : '\n'.toUInt8 ∉ l.edit) (c : UInt8) :
    '\n'.toUInt8 ∉ (l.type c).edit := by
  unfold type
  split_ifs
  all_goals first
    | exact noNewline_add noNewline _
    | exact noNewline
    | exact List.not_mem_nil
    | exact fun mem => noNewline (List.dropLast_subset _ mem)

end Line

namespace Input

/-- The ring `s` holds the lists of `l`, within one turn. -/
structure Holds (s : Input) (l : Line) : Prop where
  bounded : s.pending + s.editing ≤ inputBuf
  ready : s.ready = l.ready
  edit : s.edit = l.edit

/-! ### The counters -/

section Counters

variable {s : Input}

/-- `INPUT_BUF` divides `2^32`. -/
theorem inputBuf_dvd : inputBuf ∣ UInt32.size := ⟨33554432, rfl⟩

theorem toNat_inputBuf : (UInt32.ofNat inputBuf).toNat = inputBuf := rfl

/-- `w` is `pending` bytes past `r`, modulo `2^32`. -/
theorem w_toNat : s.w.toNat = (s.r.toNat + s.pending) % UInt32.size := by
  have := s.r.toNat_lt
  have := s.w.toNat_lt
  simp only [pending, UInt32.toNat_sub, UInt32.size, Nat.reducePow] at *
  omega

/-- `e` is `editing` bytes past `w`, modulo `2^32`. -/
theorem e_toNat : s.e.toNat = (s.w.toNat + s.editing) % UInt32.size := by
  have := s.w.toNat_lt
  have := s.e.toNat_lt
  simp only [editing, UInt32.toNat_sub, UInt32.size, Nat.reducePow] at *
  omega

/-- `e` is `pending + editing` bytes past `r`, modulo `2^32`. -/
theorem e_toNat_of_r : s.e.toNat = (s.r.toNat + (s.pending + s.editing)) % UInt32.size := by
  rw [e_toNat, w_toNat]
  simp only [UInt32.size]
  omega

/-- The unsigned difference `e - r` is the sum of the two others. -/
theorem held_toNat : (s.e - s.r).toNat = (s.pending + s.editing) % UInt32.size := by
  have := s.r.toNat_lt
  have := s.w.toNat_lt
  have := s.e.toNat_lt
  simp only [pending, editing, UInt32.toNat_sub, UInt32.size, Nat.reducePow] at *
  omega

theorem held_of_bounded (bounded : s.pending + s.editing ≤ inputBuf) :
    (s.e - s.r).toNat = s.pending + s.editing := by
  rw [held_toNat, Nat.mod_eq_of_lt (by unfold inputBuf at bounded; simp only [UInt32.size]; omega)]

/-- The line starts where the committed bytes end. -/
theorem edit_eq : s.edit = Lib.ringContents s.buf (s.r.toNat + s.pending) s.editing := by
  rw [edit, w_toNat, Lib.ringContents_mod_of_dvd inputBuf_dvd]

/-- `e` names the cell after the line. -/
theorem cell_e : Lib.cell inputBuf s.e.toNat = Lib.cell inputBuf (s.w.toNat + s.editing) := by
  rw [e_toNat, Lib.cell_mod_of_dvd inputBuf_dvd]

@[simp] theorem length_ready : s.ready.length = s.pending := Lib.length_ringContents

@[simp] theorem length_edit : s.edit.length = s.editing := Lib.length_ringContents

theorem pending_eq_zero : s.r = s.w ↔ s.pending = 0 := by
  have := s.r.toNat_lt
  have := s.w.toNat_lt
  rw [UInt32.ext_iff, pending]
  simp only [UInt32.toNat_sub, Nat.reducePow] at *
  omega

theorem editing_eq_zero : s.e = s.w ↔ s.editing = 0 := by
  have := s.w.toNat_lt
  have := s.e.toNat_lt
  rw [UInt32.ext_iff, editing]
  simp only [UInt32.toNat_sub, Nat.reducePow] at *
  omega

end Counters

/-! ### What each change of the ring does to the lists -/

section Changes

variable {s : Input}

theorem editing_put (room : s.pending + s.editing < inputBuf) (c : UInt8) :
    (s.put c).editing = s.editing + 1 := by
  have := s.w.toNat_lt
  have := s.e.toNat_lt
  unfold inputBuf at room
  simp only [editing, pending, put, UInt32.toNat_sub, UInt32.toNat_add, UInt32.toNat_one,
    Nat.reducePow] at *
  omega

/-- **Store.** `put` appends to the line and leaves the committed bytes alone. -/
theorem put_lists (room : s.pending + s.editing < inputBuf) (c : UInt8) :
    (s.put c).ready = s.ready ∧ (s.put c).edit = s.edit ++ [c] := by
  have cell : Lib.cell inputBuf s.e.toNat = Lib.cell inputBuf (s.r.toNat + (s.pending + s.editing)) := by
    rw [e_toNat_of_r, Lib.cell_mod_of_dvd inputBuf_dvd]
  constructor
  · simp only [ready, pending, put]
    rw [cell]
    exact Lib.ringContents_update_of_le (Nat.le_add_right _ _) room c
  · rw [edit, editing_put room, edit]
    simp only [put]
    rw [cell_e]
    exact Lib.ringContents_push (by omega) c

/-- **Commit.** `w = e` moves the line to the committed bytes. -/
theorem commit_lists (bounded : s.pending + s.editing ≤ inputBuf) :
    ({ s with w := s.e } : Input).ready = s.ready ++ s.edit ∧ ({ s with w := s.e } : Input).edit = [] := by
  constructor
  · have held : ({ s with w := s.e } : Input).pending = s.pending + s.editing := held_of_bounded bounded
    rw [ready, held, edit_eq, ready, Lib.ringContents_append]
  · simp [edit, editing]

/-- **Erase.** `e--` on a line that is not empty drops its last byte. -/
theorem erase_lists (nonempty : s.e ≠ s.w) :
    ({ s with e := s.e - 1 } : Input).ready = s.ready ∧
      ({ s with e := s.e - 1 } : Input).edit = s.edit.dropLast := by
  obtain ⟨len, counted⟩ : ∃ len, s.editing = len + 1 :=
    ⟨s.editing - 1, by have := mt editing_eq_zero.2 nonempty; omega⟩
  have erased : ({ s with e := s.e - 1 } : Input).editing = len := by
    have := sub_one_sub_lt nonempty
    have := s.w.toNat_lt
    have := s.e.toNat_lt
    simp only [editing, UInt32.toNat_sub, UInt32.toNat_one, Nat.reducePow] at *
    omega
  refine ⟨rfl, ?_⟩
  rw [edit, erased, edit, counted, Lib.ringContents_dropLast]

/-- The last byte of a line that is not empty sits at `e - 1`. -/
theorem last_mem_edit (nonempty : s.e ≠ s.w) :
    s.buf (Lib.cell inputBuf (s.e - 1).toNat) ∈ s.edit := by
  obtain ⟨-, erased⟩ := erase_lists nonempty
  have counted : s.editing = ({ s with e := s.e - 1 } : Input).editing + 1 := by
    have := sub_one_sub_lt nonempty
    have := s.w.toNat_lt
    have := s.e.toNat_lt
    have := mt editing_eq_zero.2 nonempty
    simp only [editing, UInt32.toNat_sub, UInt32.toNat_one, Nat.reducePow] at *
    omega
  have at_last : Lib.cell inputBuf (s.e - 1).toNat =
      Lib.cell inputBuf (s.w.toNat + ({ s with e := s.e - 1 } : Input).editing) :=
    cell_e (s := { s with e := s.e - 1 })
  rw [edit, counted, Lib.ringContents_succ, ← at_last]
  exact List.mem_append_right _ (List.mem_singleton_self _)

/-- **Pop.** `r++` on committed bytes takes the first of them. -/
theorem pop_lists (nonempty : s.r ≠ s.w) :
    s.ready = s.buf (Lib.cell inputBuf s.r.toNat) :: ({ s with r := s.r + 1 } : Input).ready ∧
      ({ s with r := s.r + 1 } : Input).edit = s.edit := by
  obtain ⟨len, counted⟩ : ∃ len, s.pending = len + 1 :=
    ⟨s.pending - 1, by have := mt pending_eq_zero.2 nonempty; omega⟩
  have popped : ({ s with r := s.r + 1 } : Input).pending = len := by
    have := s.r.toNat_lt
    have := s.w.toNat_lt
    simp only [pending, UInt32.toNat_sub, UInt32.toNat_add, UInt32.toNat_one, Nat.reducePow] at *
    omega
  refine ⟨?_, rfl⟩
  rw [ready, counted, Lib.ringContents_pop, ready, popped]
  simp only [UInt32.toNat_add, UInt32.toNat_one]
  rw [Lib.ringContents_mod_of_dvd inputBuf_dvd]

/-- With no `'\n'` in the line, `^U` erases all of it. -/
theorem killLine_eq (noNewline : '\n'.toUInt8 ∉ s.edit) : s.killLine = { s with e := s.w } := by
  fun_induction killLine s with
  | case1 s erasing ih =>
    obtain ⟨-, erased⟩ := erase_lists erasing.1
    exact ih (by rw [erased]; exact fun mem => noNewline (List.dropLast_subset _ mem))
  | case2 s stops =>
    by_cases empty : s.e = s.w
    · obtain ⟨buf, r, w, e⟩ := s
      simp only at empty ⊢
      rw [empty]
    · have last := last_mem_edit empty
      rw [not_not.mp (not_and.mp stops empty)] at last
      exact absurd last noNewline

end Changes

/-! ### The ring refines the lists -/

section Refines

variable {s : Input} {l : Line}

theorem Holds.room_iff (holds : s.Holds l) :
    s.e - s.r < UInt32.ofNat inputBuf ↔ l.ready.length + l.edit.length < inputBuf := by
  rw [UInt32.lt_iff_toNat_lt, held_of_bounded holds.bounded, toNat_inputBuf, ← holds.ready,
    ← holds.edit, length_ready, length_edit]

theorem Holds.full_iff (holds : s.Holds l) :
    s.e = s.r + UInt32.ofNat inputBuf ↔ l.ready.length + l.edit.length = inputBuf := by
  rw [← holds.ready, ← holds.edit, length_ready, length_edit, ← held_of_bounded holds.bounded,
    UInt32.ext_iff]
  have := s.r.toNat_lt
  have := s.e.toNat_lt
  simp only [UInt32.toNat_sub, UInt32.toNat_add, toNat_inputBuf, Nat.reducePow] at *
  unfold inputBuf
  omega

theorem Holds.erase (holds : s.Holds l) :
    (if s.e ≠ s.w then { s with e := s.e - 1 } else s).Holds { l with edit := l.edit.dropLast } := by
  split_ifs with nonempty
  · obtain ⟨ready, edit⟩ := erase_lists nonempty
    refine ⟨?_, by rw [ready, holds.ready], by rw [edit, holds.edit]⟩
    have := sub_one_sub_lt nonempty
    have := holds.bounded
    simp only [pending, editing] at *
    omega
  · have empty : l.edit = [] := by
      rw [← holds.edit, Input.edit, editing_eq_zero.1 (not_not.mp nonempty), Lib.ringContents_zero]
    exact ⟨holds.bounded, holds.ready, by rw [empty, List.dropLast_nil, holds.edit, empty]⟩

theorem Holds.killLine (holds : s.Holds l) (noNewline : '\n'.toUInt8 ∉ l.edit) :
    s.killLine.Holds { l with edit := [] } := by
  rw [killLine_eq (holds.edit ▸ noNewline)]
  refine ⟨?_, holds.ready, by simp [Input.edit, editing]⟩
  have := holds.bounded
  simp only [pending, editing, sub_self, UInt32.toNat_zero] at *
  omega

theorem Holds.put (holds : s.Holds l) (room : l.ready.length + l.edit.length < inputBuf)
    (c : UInt8) : (s.put c).Holds { l with edit := l.edit ++ [c] } := by
  have room' : s.pending + s.editing < inputBuf := by
    rwa [← holds.ready, ← holds.edit, length_ready, length_edit] at room
  obtain ⟨ready, edit⟩ := put_lists room' c
  refine ⟨?_, by rw [ready, holds.ready], by rw [edit, holds.edit]⟩
  rw [editing_put room' c]
  exact room'

theorem Holds.commit (holds : s.Holds l) (log : List UInt8) :
    ({ s with w := s.e } : Input).Holds { ready := l.ready ++ l.edit, edit := [], log } := by
  obtain ⟨ready, edit⟩ := commit_lists holds.bounded
  refine ⟨?_, by rw [ready, holds.ready, holds.edit], edit⟩
  have held : ({ s with w := s.e } : Input).pending = s.pending + s.editing :=
    held_of_bounded holds.bounded
  simp only [editing, sub_self, UInt32.toNat_zero] at *
  rw [held]
  exact holds.bounded

/-- **Refinement.** A character acts on the ring as typing it acts on the lists it holds. -/
theorem Holds.intr (holds : s.Holds l) (noNewline : '\n'.toUInt8 ∉ l.edit) (c : UInt8) :
    (s.intr c).Holds (l.type c) := by
  unfold Input.intr Line.type
  by_cases procdump : c = ctrl 'P'
  · rw [if_pos procdump, if_pos procdump]
    exact holds
  rw [if_neg procdump, if_neg procdump]
  by_cases killLine : c = ctrl 'U'
  · rw [if_pos killLine, if_pos killLine]
    exact holds.killLine noNewline
  rw [if_neg killLine, if_neg killLine]
  by_cases erase : c = ctrl 'H' ∨ c = 0x7f
  · rw [if_pos erase, if_pos erase]
    exact holds.erase
  rw [if_neg erase, if_neg erase]
  simp only [holds.room_iff]
  by_cases store : c ≠ 0 ∧ l.ready.length + l.edit.length < inputBuf
  case neg =>
    rw [if_neg store, if_neg store]
    exact holds
  rw [if_pos store, if_pos store]
  -- the byte stored, then the line committed or not
  generalize (if c = '\r'.toUInt8 then '\n'.toUInt8 else c) = byte
  have stored := holds.put store.2 byte
  have full := stored.full_iff
  dsimp only [Line.add] at full ⊢
  simp only [full]
  split_ifs
  · exact stored.commit _
  · exact stored

/-- `r ≤ w ≤ e ≤ r + INPUT_BUF`, as unsigned differences from `r`. -/
theorem Holds.counters (holds : s.Holds l) :
    (s.w - s.r).toNat ≤ (s.e - s.r).toNat ∧ (s.e - s.r).toNat ≤ inputBuf := by
  rw [held_of_bounded holds.bounded]
  exact ⟨Nat.le_add_right _ _, holds.bounded⟩

end Refines

end Input

end Xv6
