import Mathlib.Control.Lawful

/-!
**How a state-passing computation that may fail ends.**

`Ends x s E P`: run from state `s`, the computation `x : StateT σ (Except ε) α` either returns a
result `a` in a state `s'` with `P a s'`, or fails with an error `e` with `E e`. Taking
`E := fun _ => False` says that `x` does not fail from `s`.

The rules follow the program: `Ends.pure`, `Ends.throw`, `Ends.get`, `Ends.set`,
`Ends.modify`, `Ends.bind` (the postcondition of the first computation is the precondition of
the rest), `Ends.ite`, and `Ends.forM` for a loop over a list with an invariant on what is left
of it; `Ends.mono` and `Ends.weaken` weaken, `Ends.of_run` takes a known run, and `Ends.run_ok`,
`Ends.run_error`, `Ends.exists_ok` read an outcome back.
`okWith` checks a result of a run on a fixed input, and `exists_of_okWith` reads it back.

Nothing here is specific to a particular program.
-/

namespace Xv6.Lib

section Ends

variable {σ ε α β : Type}

/-- From `s`, `x` returns a result and a state satisfying `P`, or fails with an error
satisfying `E`. It is irreducible: the rules below are the way to prove it, and elaboration
never runs a computation on a concrete state to unfold it. -/
@[irreducible] def Ends (x : StateT σ (Except ε) α) (s : σ) (E : ε → Prop) (P : α → σ → Prop) : Prop :=
  match x.run s with
  | .ok (a, s') => P a s'
  | .error e => E e

variable {x : StateT σ (Except ε) α} {s : σ} {E : ε → Prop} {P Q : α → σ → Prop}

theorem Ends.run_ok (ends : Ends x s E P) {a : α} {s' : σ} (ran : x.run s = .ok (a, s')) :
    P a s' := by
  unfold Ends at ends
  rw [ran] at ends
  exact ends

theorem Ends.run_error (ends : Ends x s E P) {e : ε} (ran : x.run s = .error e) : E e := by
  unfold Ends at ends
  rw [ran] at ends
  exact ends

/-- A computation whose run is known ends as that run does. -/
theorem Ends.of_run {a : α} {s' : σ} (ran : x.run s = .ok (a, s')) (holds : P a s') :
    Ends x s E P := by
  unfold Ends
  rw [ran]
  exact holds

/-- A computation that cannot fail returns. -/
theorem Ends.exists_ok (ends : Ends x s (fun _ => False) P) :
    ∃ a s', x.run s = .ok (a, s') ∧ P a s' := by
  unfold Ends at ends
  cases ran : x.run s with
  | error e =>
    rw [ran] at ends
    exact ends.elim
  | ok result =>
    rw [ran] at ends
    exact ⟨result.1, result.2, rfl, ends⟩

theorem Ends.mono (ends : Ends x s E P) (weaker : ∀ a s', P a s' → Q a s') : Ends x s E Q := by
  unfold Ends at ends ⊢
  split at ends
  · exact weaker _ _ ends
  · exact ends

/-- Weakening both outcomes: the errors and the results. -/
theorem Ends.weaken {E' : ε → Prop} (ends : Ends x s E P) (errors : ∀ e, E e → E' e)
    (results : ∀ a s', P a s' → Q a s') : Ends x s E' Q := by
  unfold Ends at ends ⊢
  split at ends
  · exact results _ _ ends
  · exact errors _ ends

theorem Ends.pure {a : α} (holds : P a s) : Ends (Pure.pure a) s E P := by
  unfold Ends
  exact holds

theorem Ends.throw {e : ε} (holds : E e) : Ends (MonadExcept.throw e : StateT σ (Except ε) α) s E P := by
  unfold Ends
  exact holds

theorem Ends.get {P : σ → σ → Prop} (holds : P s s) : Ends (MonadState.get : StateT σ (Except ε) σ) s E P := by
  unfold Ends
  exact holds

theorem Ends.set {P : PUnit → σ → Prop} {s' : σ} (holds : P ⟨⟩ s') :
    Ends (MonadStateOf.set s' : StateT σ (Except ε) PUnit) s E P := by
  unfold Ends
  exact holds

theorem Ends.modify {P : PUnit → σ → Prop} {f : σ → σ} (holds : P ⟨⟩ (f s)) :
    Ends (MonadState.modifyGet fun s => (⟨⟩, f s) : StateT σ (Except ε) PUnit) s E P := by
  unfold Ends
  exact holds

/-- A step that returns a value and a new state. -/
theorem Ends.modifyGet {P : β → σ → Prop} {f : σ → β × σ} (holds : P (f s).1 (f s).2) :
    Ends (MonadState.modifyGet f : StateT σ (Except ε) β) s E P := by
  unfold Ends
  exact holds

/-- **Sequencing.** The rest runs from every result and state the first part can end in. -/
theorem Ends.bind {f : α → StateT σ (Except ε) β} {Q : β → σ → Prop}
    (first : Ends x s E fun a s' => Ends (f a) s' E Q) : Ends (x >>= f) s E Q := by
  unfold Ends at first ⊢
  rw [StateT.run_bind]
  cases ran : x.run s with
  | error e =>
    rw [ran] at first
    exact first
  | ok result =>
    rw [ran] at first
    exact first

theorem Ends.ite {c : Prop} [Decidable c] {y : StateT σ (Except ε) α}
    (pos : c → Ends x s E P) (neg : ¬c → Ends y s E P) : Ends (if c then x else y) s E P := by
  by_cases holds : c
  · rw [if_pos holds]
    exact pos holds
  · rw [if_neg holds]
    exact neg holds

/-- **A loop over a list.** `I rest s` holds while `rest` is what is left of the list; each
element keeps it for the elements after it. -/
theorem Ends.forM {f : α → StateT σ (Except ε) PUnit} (I : List α → σ → Prop)
    (step : ∀ a rest s, I (a :: rest) s → Ends (f a) s E fun _ => I rest) :
    ∀ (xs : List α) (s : σ), I xs s → Ends (xs.forM f) s E fun _ => I [] := by
  intro xs
  induction xs with
  | nil =>
    intro s holds
    exact Ends.pure holds
  | cons a rest ih =>
    intro s holds
    change Ends (f a >>= fun _ => rest.forM f) s E _
    exact Ends.bind ((step a rest s holds).mono fun _ s' kept => ih s' kept)

end Ends

section Check

variable {ε β : Type}

/-- Whether a computation returned a result with the decidable property `P`: what a run on a
fixed input is checked by. -/
def okWith (P : β → Prop) [DecidablePred P] : Except ε β → Bool
  | .ok b => decide (P b)
  | .error _ => false

/-- A result that computes to one with a decidable property is one. -/
theorem exists_of_okWith {x : Except ε β} {P : β → Prop} [DecidablePred P]
    (check : okWith P x = true) : ∃ b, x = .ok b ∧ P b := by
  cases ran : x with
  | error =>
    rw [ran] at check
    cases check
  | ok b =>
    rw [ran] at check
    exact ⟨b, rfl, of_decide_eq_true check⟩

end Check

end Xv6.Lib
