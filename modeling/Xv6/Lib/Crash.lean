import Mathlib.Logic.Function.Basic
import Mathlib.Data.List.Basic

/-!
**Crash semantics of a sequence of atomic writes.**

A storage device is a map `α → β` from addresses to contents, and a run of a program against
it is observed as the list of single-address writes it performs, in order. A crash stops the
run after some prefix of that list: the device then holds the image `patch d (ws.take k)`.
Recovery code runs against that image, may itself crash, and is run again.

* `patch` — the image after a list of writes;
* `patch_apply_of_forall_ne` — the frame rule: an address no write names keeps its contents;
* `patch_apply_of_mem` — an address written exactly once holds what was written;
* `crashRuns` — a run repeated after crashes at the given points;
* `crashRuns_induction` — a property of images kept by every crashed run is kept by any
  number of them.

Nothing here is specific to a particular device or log format.
-/

namespace Xv6.Lib

variable {α β : Type} [DecidableEq α]

/-- The image `d` after the writes `ws`, applied in order. -/
def patch (d : α → β) (ws : List (α × β)) : α → β :=
  ws.foldl (fun image write => Function.update image write.1 write.2) d

@[simp] theorem patch_nil (d : α → β) : patch d [] = d := rfl

@[simp] theorem patch_cons (d : α → β) (w : α × β) (ws : List (α × β)) :
    patch d (w :: ws) = patch (Function.update d w.1 w.2) ws := rfl

theorem patch_append (d : α → β) (ws ws' : List (α × β)) :
    patch d (ws ++ ws') = patch (patch d ws) ws' := by
  simp only [patch, List.foldl_append]

theorem patch_concat (d : α → β) (ws : List (α × β)) (w : α × β) :
    patch d (ws ++ [w]) = Function.update (patch d ws) w.1 w.2 := by
  rw [patch_append]
  rfl

/-- **The frame rule.** An address that no write names keeps its contents. -/
theorem patch_apply_of_forall_ne (d : α → β) (ws : List (α × β)) (a : α)
    (untouched : ∀ w ∈ ws, w.1 ≠ a) : patch d ws a = d a := by
  induction ws generalizing d with
  | nil => rfl
  | cons w ws ih =>
    have head : w.1 ≠ a := untouched w List.mem_cons_self
    rw [patch_cons, ih _ fun w' mem => untouched w' (List.mem_cons_of_mem _ mem),
      Function.update_of_ne head.symm]

/-- The last write to an address decides its contents. -/
theorem patch_concat_self (d : α → β) (ws : List (α × β)) (a : α) (b : β) :
    patch d (ws ++ [(a, b)]) a = b := by
  rw [patch_concat, Function.update_self]

/-- An address written exactly once holds the value written there. -/
theorem patch_apply_of_mem (d : α → β) (ws : List (α × β)) {a : α} {b : β}
    (nodup : (ws.map Prod.fst).Nodup) (mem : (a, b) ∈ ws) : patch d ws a = b := by
  induction ws generalizing d with
  | nil => cases mem
  | cons w ws ih =>
    rw [List.map_cons, List.nodup_cons] at nodup
    rw [patch_cons]
    rcases List.mem_cons.mp mem with first | later
    · subst first
      rw [patch_apply_of_forall_ne, Function.update_self]
      intro w' mem' same
      apply nodup.1
      rw [← same]
      exact List.mem_map.mpr ⟨w', mem', rfl⟩
    · exact ih _ nodup.2 later

/-- Writes that each put `f a` at their address `a` leave every address either as it was or
holding `f a`. -/
theorem patch_apply_of_agree (d f : α → β) (ws : List (α × β)) (agree : ∀ w ∈ ws, w.2 = f w.1)
    (a : α) : patch d ws a = d a ∨ patch d ws a = f a := by
  induction ws generalizing d with
  | nil => exact Or.inl rfl
  | cons w ws ih =>
    rw [patch_cons]
    rcases ih (Function.update d w.1 w.2) (fun w' mem => agree w' (List.mem_cons_of_mem _ mem))
      with kept | written
    · by_cases same : a = w.1
      · subst same
        rw [kept, Function.update_self]
        exact Or.inr (agree w List.mem_cons_self)
      · rw [kept, Function.update_of_ne same]
        exact Or.inl rfl
    · exact Or.inr written

/-- Writes that each put `f a` at their address `a` leave `f a` at every address they name. -/
theorem patch_apply_of_agree_mem (d f : α → β) (ws : List (α × β))
    (agree : ∀ w ∈ ws, w.2 = f w.1) {a : α} (named : a ∈ ws.map Prod.fst) : patch d ws a = f a := by
  induction ws generalizing d with
  | nil => cases named
  | cons w ws ih =>
    rw [patch_cons]
    have rest : ∀ w' ∈ ws, w'.2 = f w'.1 := fun w' mem => agree w' (List.mem_cons_of_mem _ mem)
    by_cases later : a ∈ ws.map Prod.fst
    · exact ih _ rest later
    · have first : a = w.1 := by
        rcases List.mem_cons.mp named with here | there
        · exact here
        · exact absurd there later
      subst first
      rw [patch_apply_of_forall_ne, Function.update_self, agree w List.mem_cons_self]
      intro w' mem same
      exact later (same ▸ List.mem_map.mpr ⟨w', mem, rfl⟩)

/-- A crash after `k` writes of `ws ++ ws'` stops inside `ws`, or after all of `ws` and a
prefix of `ws'`. -/
theorem take_append_eq_ite {γ : Type} (ws ws' : List γ) (k : Nat) :
    (ws ++ ws').take k = if k ≤ ws.length then ws.take k else ws ++ ws'.take (k - ws.length) := by
  split
  case isTrue inside => exact List.take_append_of_le_length inside
  case isFalse past =>
    rw [List.take_append, List.take_of_length_le (by omega)]

/-- A run repeated after crashes: the run started on each image is cut after the number of
writes given by the next crash point. -/
def crashRuns (run : (α → β) → List (α × β)) (d : α → β) (points : List Nat) : α → β :=
  points.foldl (fun image k => patch image ((run image).take k)) d

@[simp] theorem crashRuns_nil (run : (α → β) → List (α × β)) (d : α → β) :
    crashRuns run d [] = d := rfl

@[simp] theorem crashRuns_cons (run : (α → β) → List (α × β)) (d : α → β) (k : Nat)
    (points : List Nat) :
    crashRuns run d (k :: points) = crashRuns run (patch d ((run d).take k)) points := rfl

/-- **Induction over crashed runs.** A property of images that every crashed run keeps holds
after any number of them. -/
theorem crashRuns_induction (run : (α → β) → List (α × β)) (P : (α → β) → Prop)
    (kept : ∀ d k, P d → P (patch d ((run d).take k))) :
    ∀ (points : List Nat) (d : α → β), P d → P (crashRuns run d points) := by
  intro points
  induction points with
  | nil => exact fun _ holds => holds
  | cons k points ih => exact fun d holds => ih _ (kept d k holds)

end Xv6.Lib
