import Mathlib

/-!
**Ring buffers with free-running counters.**

A ring buffer of `N` cells holds the elements between a read counter and a write counter: the
element `k` places after read counter `r` sits in cell `(r + k) mod N`. The counters themselves
are never reduced modulo `N`; a counter of a fixed width wraps modulo `M` instead, and reads the
same cells as long as `N` divides `M` (`ringContents_mod_of_dvd`).

* `ringContents data r len` — the `len` elements from read counter `r`, in order;
* `ringContents_push` — a write into cell `(r + len) mod N` with `len < N` appends its element;
* `ringContents_pop` — the first element is cell `r mod N`; the rest start at `r + 1`;
* `ringContents_dropLast` — the last element goes when the length shrinks, and
  `ringContents_update_of_le` — a write past the elements leaves them alone.

Nothing here is specific to a particular system.
-/

namespace Xv6.Lib

section Ring

variable {α : Type} {N : Nat} [NeZero N]

/-- The cell of counter value `c`. -/
def cell (N : Nat) [NeZero N] (c : Nat) : Fin N := Fin.ofNat N c

/-- The `len` elements of the buffer from read counter `r`, in order. -/
def ringContents (data : Fin N → α) (r len : Nat) : List α :=
  (List.range len).map fun k => data (cell N (r + k))

variable {data : Fin N → α} {r len : Nat}

@[simp] theorem length_ringContents : (ringContents data r len).length = len := by
  simp [ringContents]

@[simp] theorem ringContents_zero : ringContents data r 0 = [] := rfl

theorem ringContents_succ :
    ringContents data r (len + 1) = ringContents data r len ++ [data (cell N (r + len))] := by
  simp [ringContents, List.range_succ]

/-- **Pop.** The first element is the cell of `r`; the others follow from `r + 1`. -/
theorem ringContents_pop :
    ringContents data r (len + 1) = data (cell N r) :: ringContents data (r + 1) len := by
  simp only [ringContents, List.range_succ_eq_map, List.map_cons, List.map_map, Nat.add_zero]
  congr 1
  apply List.map_congr_left
  intro k _
  simp only [Function.comp, Nat.succ_eq_add_one]
  rw [Nat.add_comm k 1, Nat.add_assoc]

/-- Within one turn of the buffer, distinct counters use distinct cells. -/
theorem cell_ne {k : Nat} (before : k < len) (within : len < N) :
    cell N (r + k) ≠ cell N (r + len) := by
  intro same
  have values : (r + k) % N = (r + len) % N := by
    simpa [cell, Fin.val_ofNat] using congrArg Fin.val same
  -- `N` divides the distance `len - k`, which is positive and below `N`
  have divides : N ∣ (r + len) - (r + k) :=
    Nat.dvd_of_mod_eq_zero (Nat.sub_mod_eq_zero_of_mod_eq values.symm)
  have zero : (r + len) - (r + k) = 0 := Nat.eq_zero_of_dvd_of_lt divides (by omega)
  omega

/-- **Push.** Writing the cell after the last element, while the buffer is not full, appends. -/
theorem ringContents_push (within : len < N) (x : α) :
    ringContents (Function.update data (cell N (r + len)) x) r (len + 1) =
      ringContents data r len ++ [x] := by
  rw [ringContents_succ, Function.update_self]
  congr 1
  apply List.map_congr_left
  intro k mem
  rw [Function.update_of_ne (cell_ne (List.mem_range.mp mem) within)]

/-- A write past the last element, within one turn of the buffer, leaves the elements alone. -/
theorem ringContents_update_of_le {k : Nat} (past : len ≤ k) (within : k < N) (x : α) :
    ringContents (Function.update data (cell N (r + k)) x) r len = ringContents data r len := by
  apply List.map_congr_left
  intro j mem
  have before : j < k := Nat.lt_of_lt_of_le (List.mem_range.mp mem) past
  rw [Function.update_of_ne (cell_ne before within)]

/-- The elements from `r` followed by those after them are the elements of both runs. -/
theorem ringContents_append (first second : Nat) :
    ringContents data r first ++ ringContents data (r + first) second =
      ringContents data r (first + second) := by
  simp only [ringContents, List.range_add, List.map_append, List.map_map]
  congr 1
  apply List.map_congr_left
  intro k _
  simp only [Function.comp, Nat.add_assoc]

/-- **Erase.** Dropping the last element leaves the elements before it. -/
theorem ringContents_dropLast : (ringContents data r (len + 1)).dropLast = ringContents data r len := by
  rw [ringContents_succ, List.dropLast_concat]

/-- A counter that wraps modulo a multiple of `N` names the same cell. -/
theorem cell_mod_of_dvd {M : Nat} (dvd : N ∣ M) (c : Nat) : cell N (c % M) = cell N c :=
  Fin.ext (by simp [cell, Nat.mod_mod_of_dvd c dvd])

/-- A read counter that wraps modulo a multiple of `N` reads the same elements. -/
theorem ringContents_mod_of_dvd {M : Nat} (dvd : N ∣ M) :
    ringContents data (r % M) len = ringContents data r len := by
  apply List.map_congr_left
  intro k _
  rw [← cell_mod_of_dvd dvd (r + k), ← cell_mod_of_dvd dvd (r % M + k), Nat.add_mod,
    Nat.mod_mod, ← Nat.add_mod]

end Ring

end Xv6.Lib
