import Mathlib

/-!
**Transition systems and counting over a pool of agents.**

* `Reachable` — the states reached from an initial state by any sequence of steps, and
  `Reachable.induction`: a property that holds initially and that every step keeps holds in every
  reachable state, and `Reachable.induction_under`, the same with an invariant already known;
  `run`, the state after a given list of steps, which `Reachable.run` shows reachable;
  `run_invariant`, what every step keeps holds after a run; `run_simulation`, a run of one system
  is a run of another that matches each of its steps;
* `find?_finRange_some`, `find?_finRange_none`, `find?_finRange_lt` — a scan of a table from
  its first slot finds a slot that matches, and the first one; `find?_eq_of_agree`, a scan sees
  only the elements that match;
* `forall_update` — a relation between old and new values, after one agent changed;
* `injOn_support_update`, `injOn_support_of_zero_or_eq` — resources held by owners (`0` for
  none) stay held once each when an owner is given a fresh one, or when some are taken away;
* `card_filter_update` — how many agents satisfy a predicate after one agent changes, and
  `sum_update` — what a sum over the agents is then;
  `card_filter_map` — the count is kept by a map that keeps the predicate.

Nothing here is specific to a particular system.
-/

namespace Xv6.Lib

section Reach

variable {σ ε : Type}

/-- The states reached from a state satisfying `init` by steps `step s e = some s'`. -/
inductive Reachable (init : σ → Prop) (step : σ → ε → Option σ) : σ → Prop
  | init {s : σ} : init s → Reachable init step s
  | step {s s' : σ} (e : ε) : Reachable init step s → step s e = some s' → Reachable init step s'

/-- **Invariant induction.** A property that holds initially and that every step keeps holds
in every reachable state. -/
theorem Reachable.induction {init : σ → Prop} {step : σ → ε → Option σ} (P : σ → Prop)
    (initial : ∀ s, init s → P s) (kept : ∀ s e s', P s → step s e = some s' → P s')
    {s : σ} (reach : Reachable init step s) : P s := by
  induction reach with
  | init start => exact initial _ start
  | step e _ taken ih => exact kept _ e _ ih taken

/-- Invariant induction under an invariant `Q` already known to hold in every reachable
state: a step need keep `P` only from states where `Q` holds. -/
theorem Reachable.induction_under {init : σ → Prop} {step : σ → ε → Option σ} (Q P : σ → Prop)
    (known : ∀ {s}, Reachable init step s → Q s) (initial : ∀ s, init s → P s)
    (kept : ∀ s e s', Q s → P s → step s e = some s' → P s') {s : σ}
    (reach : Reachable init step s) : P s := by
  induction reach with
  | init start => exact initial _ start
  | step e before taken ih => exact kept _ e _ (known before) ih taken

/-- The state after the steps `events`, from `s`, if each is enabled in turn. -/
def run (step : σ → ε → Option σ) (s : σ) (events : List ε) : Option σ :=
  events.foldlM step s

/-- **Run induction.** A property that every step keeps holds after a run. -/
theorem run_invariant {step : σ → ε → Option σ} (P : σ → Prop)
    (kept : ∀ s e s', P s → step s e = some s' → P s') {s s' : σ} {events : List ε}
    (holds : P s) (ran : run step s events = some s') : P s' := by
  induction events generalizing s with
  | nil =>
    simp only [run, List.foldlM_nil, Option.pure_def, Option.some.injEq] at ran
    exact ran ▸ holds
  | cons e events ih =>
    simp only [run, List.foldlM_cons, Option.bind_eq_bind, Option.bind_eq_some_iff] at ran
    obtain ⟨middle, stepped, rest⟩ := ran
    exact ih (kept _ e _ holds stepped) rest

/-- The states a run reaches from a reachable state are reachable. -/
theorem Reachable.run {init : σ → Prop} {step : σ → ε → Option σ} {s s' : σ} {events : List ε}
    (reach : Reachable init step s) (ran : Lib.run step s events = some s') :
    Reachable init step s' :=
  run_invariant (Reachable init step) (fun _ e _ before stepped => before.step e stepped) reach ran

/-- **Forward simulation.** When each step of one system, from a state related to a state of
another, is the same step of the other to a related state, each run of the first is a run of
the second. -/
theorem run_simulation {τ : Type} {step : σ → ε → Option σ} {step' : τ → ε → Option τ}
    (R : σ → τ → Prop)
    (matched : ∀ {s a e s'}, R s a → step s e = some s' → ∃ a', step' a e = some a' ∧ R s' a')
    {s s' : σ} {a : τ} {events : List ε} (related : R s a) (ran : run step s events = some s') :
    ∃ a', run step' a events = some a' ∧ R s' a' := by
  induction events generalizing s a with
  | nil =>
    simp only [run, List.foldlM_nil, Option.pure_def, Option.some.injEq] at ran ⊢
    exact ⟨a, rfl, ran ▸ related⟩
  | cons e events ih =>
    simp only [run, List.foldlM_cons, Option.bind_eq_bind, Option.bind_eq_some_iff] at ran ⊢
    obtain ⟨middle, stepped, rest⟩ := ran
    obtain ⟨a₁, stepped', related₁⟩ := matched related stepped
    obtain ⟨a', ran', related'⟩ := ih related₁ rest
    exact ⟨a', ⟨a₁, stepped', ran'⟩, related'⟩

/-- A run from an initial state that ends in a state satisfying `P` shows a reachable one. -/
theorem Reachable.exists_of_run {init : σ → Prop} {step : σ → ε → Option σ} {P : σ → Prop}
    [DecidablePred P] {s : σ} (start : init s) (events : List ε)
    (ends : (Lib.run step s events).any (fun s' => decide (P s')) = true) :
    ∃ s', Reachable init step s' ∧ P s' := by
  cases ran : Lib.run step s events with
  | none =>
    rw [ran] at ends
    cases ends
  | some s' =>
    rw [ran, Option.any_some] at ends
    exact ⟨s', (Reachable.init start).run ran, of_decide_eq_true ends⟩

end Reach

section First

variable {n : Nat} {f : Fin n → Bool} {p : Fin n}

/-! A scan of a table from its first slot, `(List.finRange n).find? f`, as the loops of the kernel
over `ptable.proc`, `ftable.file` and `ofile` make it. -/

theorem find?_finRange_some (found : (List.finRange n).find? f = some p) : f p = true :=
  List.find?_some found

theorem find?_finRange_none (none : (List.finRange n).find? f = none) (q : Fin n) : f q = false := by
  rw [List.find?_eq_none] at none
  simpa using none q (List.mem_finRange q)

/-- The slot the scan finds is the first that matches. -/
theorem find?_finRange_lt (found : (List.finRange n).find? f = some p) {q : Fin n}
    (before : q < p) : f q = false := by
  obtain ⟨-, i, bound, at_i, earlier⟩ := List.find?_eq_some_iff_getElem.mp found
  have index : i = p.val := by
    rw [← at_i, List.getElem_finRange]
    rfl
  have skipped := earlier q.val (by rw [index]; exact before)
  simpa using skipped

/-- A list none of whose elements satisfies the predicate, index by index, finds none. -/
theorem find?_eq_none_of_getElem? {α : Type} {p : α → Bool} {l : List α}
    (none : ∀ i : Nat, l[i]?.any p = false) : l.find? p = Option.none := by
  rw [List.find?_eq_none]
  intro x mem found
  obtain ⟨i, at_i⟩ := List.getElem?_of_mem mem
  simpa [at_i, found] using none i

/-- **A scan sees only what matches.** Two lists that agree, index by index, wherever either has
an element that satisfies the predicate find the same element. -/
theorem find?_eq_of_agree {α : Type} {p : α → Bool} : ∀ {l₁ l₂ : List α},
    (∀ i : Nat, (l₁[i]?.any p || l₂[i]?.any p) = true → l₁[i]? = l₂[i]?) → l₁.find? p = l₂.find? p
  | [], l₂, agree => by
    rw [List.find?_nil, find?_eq_none_of_getElem?]
    intro i
    by_contra found
    have same := agree i (by simpa using found)
    rw [List.getElem?_nil] at same
    rw [← same] at found
    exact found rfl
  | a :: l₁, [], agree => by
    rw [List.find?_nil, find?_eq_none_of_getElem?]
    intro i
    by_contra found
    have same := agree i (by simpa using found)
    rw [List.getElem?_nil] at same
    rw [same] at found
    exact found rfl
  | a :: l₁, b :: l₂, agree => by
    have rest := @find?_eq_of_agree _ p l₁ l₂ fun i either => by
      simpa using agree (i + 1) (by simpa using either)
    rw [List.find?_cons, List.find?_cons]
    by_cases first : (p a || p b) = true
    · -- the heads agree
      have same : a = b := by simpa using agree 0 (by simpa using first)
      subst same
      simp only [rest]
    · simp only [Bool.or_eq_true, not_or, Bool.not_eq_true] at first
      simp only [first.1, first.2, rest]

end First

section Update

variable {ι α : Type} [DecidableEq ι]

/-- A relation between each agent's old and new value that holds where nothing changed holds
everywhere once it holds at the one agent that changed. -/
theorem forall_update {f : ι → α} {i : ι} {a : α} {R : ι → α → α → Prop} (here : R i (f i) a)
    (elsewhere : ∀ j, R j (f j) (f j)) : ∀ j, R j (f j) (Function.update f i a j) := by
  intro j
  by_cases same : j = i
  · subst same
    rw [Function.update_self]
    exact here
  · rw [Function.update_of_ne same]
    exact elsewhere j

end Update

section Owners

variable {ι : Type} {f : ι → Nat}

/-- **A fresh resource.** Giving one owner a resource that no owner holds keeps every resource
held by one owner at most (`0` is no resource). -/
theorem injOn_support_update [DecidableEq ι] (inj : Set.InjOn f (Function.support f)) (i : ι)
    {b : Nat} (fresh : ∀ j, f j ≠ b) :
    Set.InjOn (Function.update f i b) (Function.support (Function.update f i b)) := by
  intro j held k _ same
  by_cases here : j = i <;> by_cases there : k = i
  · rw [here, there]
  · rw [here, Function.update_self, Function.update_of_ne there] at same
    exact (fresh k same.symm).elim
  · rw [there, Function.update_self, Function.update_of_ne here] at same
    exact (fresh j same).elim
  · rw [Function.update_of_ne here, Function.update_of_ne there] at same
    have held' : f j ≠ 0 := by rwa [Function.mem_support, Function.update_of_ne here] at held
    exact inj held' (by rw [Function.mem_support, ← same]; exact held') same

/-- Taking resources away from owners keeps every resource held by one owner at most. -/
theorem injOn_support_of_zero_or_eq (inj : Set.InjOn f (Function.support f)) {g : ι → Nat}
    (fewer : ∀ j, g j = 0 ∨ g j = f j) : Set.InjOn g (Function.support g) := by
  intro j held k held' same
  have kept : ∀ {j}, j ∈ Function.support g → g j = f j := fun {j} mem =>
    (fewer j).resolve_left mem
  rw [kept held, kept held'] at same
  exact inj (by rw [Function.mem_support, ← kept held]; exact held)
    (by rw [Function.mem_support, ← kept held']; exact held') same

end Owners

section Count

variable {ι α : Type} [Fintype ι] [DecidableEq ι]

/-- **Counting after one change.** When agent `i` moves from `f i` to `a`, the number of agents
satisfying `p` loses `f i`'s vote and gains `a`'s. -/
theorem card_filter_update (f : ι → α) (p : α → Prop) [DecidablePred p] (i : ι) (a : α) :
    (Finset.univ.filter fun j => p (Function.update f i a j)).card + (if p (f i) then 1 else 0) =
      (Finset.univ.filter fun j => p (f j)).card + (if p a then 1 else 0) := by
  have rest : ∀ j ∈ Finset.univ \ {i},
      (if p (Function.update f i a j) then 1 else 0) = (if p (f j) then 1 else 0) := by
    intro j mem
    rw [Function.update_of_ne (by simpa using mem)]
  rw [Finset.card_filter, Finset.card_filter,
    Finset.sum_eq_add_sum_sdiff_singleton_of_mem (Finset.mem_univ i),
    Finset.sum_eq_add_sum_sdiff_singleton_of_mem (Finset.mem_univ i) (fun j => if p (f j) then 1 else 0),
    Finset.sum_congr rfl rest, Function.update_self]
  omega

/-- **Summing after one change.** When agent `i` moves from `f i` to `a`, the sum of `g` over the
agents loses `g (f i)` and gains `g a`. -/
theorem sum_update (f : ι → α) (g : α → Nat) (i : ι) (a : α) :
    (∑ j, g (Function.update f i a j)) + g (f i) = (∑ j, g (f j)) + g a := by
  have rest : ∀ j ∈ Finset.univ \ {i}, g (Function.update f i a j) = g (f j) := by
    intro j mem
    rw [Function.update_of_ne (by simpa using mem)]
  rw [Finset.sum_eq_add_sum_sdiff_singleton_of_mem (Finset.mem_univ i),
    Finset.sum_eq_add_sum_sdiff_singleton_of_mem (Finset.mem_univ i) (fun j => g (f j)),
    Finset.sum_congr rfl rest, Function.update_self]
  omega

omit [DecidableEq ι] in
/-- A map of every agent that keeps `p` keeps the count. -/
theorem card_filter_map (f : ι → α) (g : α → α) (p : α → Prop) [DecidablePred p]
    (keeps : ∀ a, p (g a) ↔ p a) :
    (Finset.univ.filter fun j => p (g (f j))).card = (Finset.univ.filter fun j => p (f j)).card := by
  rw [Finset.filter_congr fun j _ => keeps (f j)]

end Count

end Xv6.Lib
