import Mathlib.Data.List.Pairwise
import Mathlib.Data.List.Flatten

/-!
**Lists written into a byte-addressed store, and pieces laid end to end.**

A file's content is a map from offsets to bytes; a write puts a list of bytes at an offset.

* `place f off l` — `f` with `l` written from `off` on; `place_append` — two writes, the second
  where the first ends, are one write of the two lists; `place_cons` — a write is a store of its
  first entry and the write of the rest, as a copy loop does it;
* `window f off n` — the `n` entries read from `off` on, `window_add` — in two pieces;
  `window_place_self` — a write reads back, `window_place_of_disjoint` — and leaves the windows
  it does not overlap; `window_place` — a write into the first `size` entries is those before it,
  the list written, and those after it;
* `EndToEnd off l` — the pieces `(o, c)` of `l` lie end to end from `off`, each starting where the
  one before it ends; `EndToEnd.pairwise` — so their ranges are pairwise disjoint, in order;
  `EndToEnd.place_of_mem` — writing them all leaves each piece's bytes in its own range.

Nothing here is specific to a particular file system.
-/

namespace Xv6.Lib

section Place

variable {α : Type}

/-- `f` with the list `l` written from offset `off` on. -/
def place (f : Nat → α) (off : Nat) (l : List α) : Nat → α :=
  fun x => if off ≤ x then (l[x - off]?).getD (f x) else f x

@[simp] theorem place_nil (f : Nat → α) (off : Nat) : place f off [] = f := by
  funext x
  by_cases after : off ≤ x <;> simp [place, after]

theorem place_of_lt {f : Nat → α} {off x : Nat} (l : List α) (before : x < off) :
    place f off l x = f x := by
  simp [place, Nat.not_le.mpr before]

theorem place_of_le {f : Nat → α} {off x : Nat} {l : List α} (past : off + l.length ≤ x) :
    place f off l x = f x := by
  have none : l[x - off]? = none := List.getElem?_eq_none (by omega)
  simp [place, none]

theorem place_add {f : Nat → α} {off j : Nat} {l : List α} (within : j < l.length) :
    place f off l (off + j) = l[j] := by
  simp [place, List.getElem?_eq_getElem within]

theorem place_update_comm {f : Nat → α} {off x : Nat} {l : List α} (a : α)
    (apart : x < off ∨ off + l.length ≤ x) :
    place (Function.update f x a) off l = Function.update (place f off l) x a := by
  funext y
  by_cases here : y = x
  · subst here
    rcases apart with before | past
    · rw [place_of_lt _ before, Function.update_self, Function.update_self]
    · rw [place_of_le past, Function.update_self, Function.update_self]
  · simp only [place, Function.update_of_ne here]

/-- **Two writes end to end are one write** of the two lists. -/
theorem place_append (f : Nat → α) (off : Nat) (l₁ l₂ : List α) :
    place (place f off l₁) (off + l₁.length) l₂ = place f off (l₁ ++ l₂) := by
  funext x
  by_cases first : x < off + l₁.length
  · rw [place_of_lt _ first]
    by_cases before : x < off
    · rw [place_of_lt _ before, place_of_lt _ before]
    · -- inside the first write: both sides read `l₁`
      obtain ⟨j, rfl⟩ := Nat.exists_eq_add_of_le (Nat.le_of_not_lt before)
      have within : j < l₁.length := by omega
      rw [place_add within, place_add (by simp; omega), List.getElem_append_left within]
  · -- from the second write on: both sides read `l₂`, or `f` past its end
    obtain ⟨j, rfl⟩ := Nat.exists_eq_add_of_le (Nat.le_of_not_lt first)
    by_cases within : j < l₂.length
    · rw [place_add within, Nat.add_assoc, place_add (by simp; omega),
        List.getElem_append_right (by omega)]
      simp
    · have total : (l₁ ++ l₂).length = l₁.length + l₂.length := List.length_append
      have past : off + l₁.length + l₂.length ≤ off + l₁.length + j := by omega
      rw [place_of_le past, place_of_le (show off + l₁.length ≤ off + l₁.length + j by omega),
        place_of_le (show off + (l₁ ++ l₂).length ≤ off + l₁.length + j by omega)]

theorem place_singleton (f : Nat → α) (off : Nat) (a : α) :
    place f off [a] = Function.update f off a := by
  funext x
  by_cases here : x = off
  · subst here
    simp [place]
  · rw [Function.update_of_ne here]
    rcases Nat.lt_or_gt_of_ne here with before | after
    · exact place_of_lt _ before
    · exact place_of_le (by simp; omega)

/-- A write is a store of its first entry, then the write of the rest after it. -/
theorem place_cons (f : Nat → α) (off : Nat) (a : α) (l : List α) :
    place f off (a :: l) = place (Function.update f off a) (off + 1) l := by
  rw [← place_singleton, show off + 1 = off + [a].length from rfl, place_append]
  rfl

/-- The `n` entries of `f` from `off` on: what a copy out of the store reads. -/
def window (f : Nat → α) (off n : Nat) : List α := (List.range n).map fun j => f (off + j)

@[simp] theorem length_window (f : Nat → α) (off n : Nat) : (window f off n).length = n := by
  simp [window]

/-- Two windows of one length agree where their entries do. -/
theorem window_eq_window {f g : Nat → α} {off off' n : Nat}
    (agree : ∀ j < n, f (off + j) = g (off' + j)) : window f off n = window g off' n := by
  simp only [window]
  exact List.map_congr_left fun j mem => agree j (List.mem_range.mp mem)

theorem window_congr {f g : Nat → α} {off n : Nat} (agree : ∀ j < n, f (off + j) = g (off + j)) :
    window f off n = window g off n :=
  window_eq_window agree

/-- A window is the window up to a point and the window from it. -/
theorem window_add (f : Nat → α) (off a b : Nat) :
    window f off (a + b) = window f off a ++ window f (off + a) b := by
  simp [window, List.range_add, Nat.add_assoc]

theorem window_succ (f : Nat → α) (off n : Nat) :
    window f off (n + 1) = f off :: window f (off + 1) n := by
  rw [Nat.add_comm, window_add]
  simp [window]

theorem window_concat (f : Nat → α) (off n : Nat) :
    window f off (n + 1) = window f off n ++ [f (off + n)] := by
  rw [window_add]
  simp [window]

theorem window_take (f : Nat → α) (off n k : Nat) :
    (window f off n).take k = window f off (min k n) := by
  rw [window, window, ← List.map_take, List.take_range]

theorem window_drop (f : Nat → α) (off n k : Nat) :
    (window f off n).drop k = window f (off + k) (n - k) := by
  apply List.ext_getElem (by simp)
  intro j _ _
  simp [window, Nat.add_assoc]

/-- **A write reads back**: the window a write covers holds what was written. -/
theorem window_place_self (f : Nat → α) (off : Nat) (l : List α) :
    window (place f off l) off l.length = l := by
  apply List.ext_getElem (by simp)
  intro j within _
  simp only [window, List.getElem_map, List.getElem_range]
  exact place_add (by simpa using within)

/-- A write leaves every window it does not overlap. -/
theorem window_place_of_disjoint {f : Nat → α} {off o n : Nat} {l : List α}
    (apart : o + n ≤ off ∨ off + l.length ≤ o) : window (place f off l) o n = window f o n := by
  apply window_congr
  intro j within
  rcases apart with before | after
  · exact place_of_lt _ (by omega)
  · exact place_of_le (by omega)

/-- **A write into the first `size` entries**: the entries before `off`, the list written, and
the entries after it up to `size`; the entries now end at `max size (off + l.length)`. -/
theorem window_place (f : Nat → α) (off size : Nat) (l : List α) :
    window (place f off l) 0 (max size (off + l.length)) =
      window f 0 off ++ l ++ window f (off + l.length) (size - (off + l.length)) := by
  have total : max size (off + l.length) = off + (l.length + (size - (off + l.length))) := by omega
  rw [total, window_add, Nat.zero_add, window_add, window_place_self,
    window_place_of_disjoint (by omega), window_place_of_disjoint (by omega), List.append_assoc]

end Place

section EndToEnd

variable {α : Type}

/-- The pieces `(o, c)` of `l` lie end to end from `off`: each starts where the one before it
ends. -/
def EndToEnd : Nat → List (Nat × List α) → Prop
  | _, [] => True
  | off, (o, c) :: rest => o = off ∧ EndToEnd (off + c.length) rest

@[simp] theorem endToEnd_nil (off : Nat) : EndToEnd off ([] : List (Nat × List α)) := trivial

theorem endToEnd_concat {off o : Nat} {c : List α} {l : List (Nat × List α)} :
    EndToEnd off (l ++ [(o, c)]) ↔ EndToEnd off l ∧ o = off + (l.map Prod.snd).flatten.length := by
  induction l generalizing off with
  | nil => simp [EndToEnd]
  | cons piece l ih =>
    obtain ⟨o', c'⟩ := piece
    simp only [List.cons_append, EndToEnd, ih, List.map_cons, List.flatten_cons,
      List.length_append]
    constructor
    · rintro ⟨rfl, rest, rfl⟩
      exact ⟨⟨rfl, rest⟩, by omega⟩
    · rintro ⟨⟨rfl, rest⟩, rfl⟩
      exact ⟨rfl, rest, by omega⟩

/-- Every piece starts at or after `off`. -/
theorem EndToEnd.le_of_mem {off : Nat} {l : List (Nat × List α)} (ends : EndToEnd off l)
    {b : Nat × List α} (mem : b ∈ l) : off ≤ b.1 := by
  induction l generalizing off with
  | nil => cases mem
  | cons piece l ih =>
    obtain ⟨o, c⟩ := piece
    obtain ⟨rfl, rest⟩ := ends
    rcases List.mem_cons.mp mem with rfl | mem
    · exact Nat.le_refl _
    · exact Nat.le_trans (Nat.le_add_right _ _) (ih rest mem)

/-- **Pieces end to end are disjoint**: each ends before the next one starts. -/
theorem EndToEnd.pairwise {off : Nat} {l : List (Nat × List α)} (ends : EndToEnd off l) :
    l.Pairwise fun a b => a.1 + a.2.length ≤ b.1 := by
  induction l generalizing off with
  | nil => exact List.Pairwise.nil
  | cons piece l ih =>
    obtain ⟨o, c⟩ := piece
    obtain ⟨rfl, rest⟩ := ends
    exact List.Pairwise.cons (fun b mem => rest.le_of_mem mem) (ih rest)

/-- **Each piece is where it was put**: writing pieces laid end to end from `off` leaves each
piece's bytes in its own range. -/
theorem EndToEnd.place_of_mem {f : Nat → α} {off : Nat} {l : List (Nat × List α)}
    (ends : EndToEnd off l) {o : Nat} {piece : List α} (mem : (o, piece) ∈ l) {j : Nat}
    (within : j < piece.length) : place f off (l.map Prod.snd).flatten (o + j) = piece[j] := by
  induction l generalizing off f with
  | nil => cases mem
  | cons first l ih =>
    obtain ⟨o', c'⟩ := first
    obtain ⟨rfl, rest⟩ := ends
    simp only [List.map_cons, List.flatten_cons]
    rw [← place_append]
    rcases List.mem_cons.mp mem with same | mem
    · -- this piece: the later ones start at its end
      obtain ⟨rfl, rfl⟩ := Prod.mk.inj same
      have before : o + j < o + piece.length := by omega
      rw [place_of_lt _ before, place_add within]
    · exact ih rest mem

end EndToEnd

end Xv6.Lib
