import Mathlib.Data.List.Nodup

/-!
**Lists linked through one pointer in each element.**

A queue kept as a head pointer and a `next` pointer in each element: `Linked next head l` says
that following `next` from `head` visits exactly the elements `l`, in order, and ends at the null
pointer.

* `Linked.unique` — the head and the pointers determine the list; `Linked.nodup` — such a list
  visits no element twice: it is finite, acyclic, and its elements are distinct.
* `Linked.frame` — the pointers of elements off the list do not matter.
* `tailPlace` — the loop `for(pp = &head; *pp; pp = &(*pp)->next)` that finds the null pointer
  at the end, with `fuel` steps at most; on a linked list, `l.length` steps are enough
  (`Linked.tailPlace`), and storing a new element there links it last (`Linked.setPlace`).

Nothing here is specific to a particular system.
-/

namespace Xv6.Lib

section Linked

variable {α : Type} (next : α → Option α)

/-- Following `next` from `head` visits `l` and ends at the null pointer. -/
def Linked : Option α → List α → Prop
  | none, [] => True
  | some a, b :: l => a = b ∧ Linked (next b) l
  | _, _ => False

@[simp] theorem linked_none_nil : Linked next none [] := trivial

@[simp] theorem linked_none_cons (b : α) (l : List α) : ¬Linked next none (b :: l) := id

@[simp] theorem linked_some_nil (a : α) : ¬Linked next (some a) [] := id

@[simp] theorem linked_some_cons (a b : α) (l : List α) :
    Linked next (some a) (b :: l) ↔ a = b ∧ Linked next (next b) l := Iff.rfl

variable {next}

/-- The head and the pointers determine the list. -/
theorem Linked.unique {head : Option α} {l l' : List α} (linked : Linked next head l)
    (linked' : Linked next head l') : l = l' := by
  induction l generalizing head l' with
  | nil =>
    cases head with
    | none => cases l' with
      | nil => rfl
      | cons b l' => exact absurd linked' (linked_none_cons next b l')
    | some a => exact absurd linked (linked_some_nil next a)
  | cons b l ih =>
    cases head with
    | none => exact absurd linked (linked_none_cons next b l)
    | some a =>
      cases l' with
      | nil => exact absurd linked' (linked_some_nil next a)
      | cons b' l' =>
        obtain ⟨rfl, rest⟩ := linked
        obtain ⟨rfl, rest'⟩ := linked'
        rw [ih rest rest']

/-- The head pointer points to the first element. -/
theorem Linked.head_eq {head : Option α} {l : List α} (linked : Linked next head l) :
    head = l.head? := by
  cases l with
  | nil =>
    cases head with
    | none => rfl
    | some a => exact absurd linked (linked_some_nil next a)
  | cons b l =>
    cases head with
    | none => exact absurd linked (linked_none_cons next b l)
    | some a => exact congrArg some linked.1

/-- The part of a linked list from one of its elements on is linked from that element. -/
theorem Linked.from_mem {head : Option α} {l₁ l₂ : List α} {a : α}
    (linked : Linked next head (l₁ ++ a :: l₂)) : Linked next (some a) (a :: l₂) := by
  induction l₁ generalizing head with
  | nil =>
    cases head with
    | none => exact absurd linked (linked_none_cons next a l₂)
    | some b =>
      obtain ⟨rfl, rest⟩ := linked
      exact ⟨rfl, rest⟩
  | cons c l₁ ih =>
    cases head with
    | none => exact absurd linked (linked_none_cons next c _)
    | some b => exact ih linked.2

/-- **A linked list visits no element twice.** An element met again would start two different
lists, one a proper suffix of the other. -/
theorem Linked.nodup {head : Option α} {l : List α} (linked : Linked next head l) : l.Nodup := by
  induction l generalizing head with
  | nil => exact List.nodup_nil
  | cons b l ih =>
    cases head with
    | none => exact absurd linked (linked_none_cons next b l)
    | some a =>
      obtain ⟨rfl, rest⟩ := linked
      refine List.nodup_cons.mpr ⟨fun mem => ?_, ih rest⟩
      obtain ⟨l₁, l₂, rfl⟩ := List.append_of_mem mem
      -- from `a` on, the list is both `a :: l₁ ++ a :: l₂` and `a :: l₂`
      have again := rest.from_mem
      have same := Linked.unique (show Linked next (some a) (a :: (l₁ ++ a :: l₂)) from ⟨rfl, rest⟩)
        again
      have := congrArg List.length same
      simp at this
      omega

/-- The pointers of elements off the list do not matter. -/
theorem Linked.frame {next' : α → Option α} {head : Option α} {l : List α}
    (linked : Linked next head l) (same : ∀ a ∈ l, next' a = next a) : Linked next' head l := by
  induction l generalizing head with
  | nil =>
    cases head with
    | none => trivial
    | some a => exact absurd linked (linked_some_nil next a)
  | cons b l ih =>
    cases head with
    | none => exact absurd linked (linked_none_cons next b l)
    | some a =>
      obtain ⟨rfl, rest⟩ := linked
      refine ⟨rfl, ?_⟩
      rw [same a List.mem_cons_self]
      exact ih rest fun c mem => same c (List.mem_cons_of_mem a mem)

/-- Setting the pointer of an element off the list keeps it linked. -/
theorem Linked.update_of_not_mem [DecidableEq α] {head : Option α} {l : List α}
    (linked : Linked next head l) {b : α} (fresh : b ∉ l) (v : Option α) :
    Linked (Function.update next b v) head l :=
  linked.frame fun a mem => Function.update_of_ne (fun (same : a = b) => fresh (same ▸ mem)) _ _

end Linked

/-! ### The loop to the end of the list -/

section Tail

variable {α : Type}

/-- What the place `pp` points to: the head for `none`, the `next` of `a` for `some a`. -/
def deref (head : Option α) (next : α → Option α) : Option α → Option α
  | none => head
  | some a => next a

/-- The loop `for(pp = &head; *pp; pp = &(*pp)->next)`: the place of the null pointer it stops
at, or `none` once `fuel` steps are taken. -/
def tailPlace (head : Option α) (next : α → Option α) : Nat → Option α → Option (Option α)
  | fuel, place =>
    match deref head next place, fuel with
    | none, _ => some place
    | some _, 0 => none
    | some a, fuel + 1 => tailPlace head next fuel (some a)

/-- `*pp = v`: the head or the `next` of an element becomes `v`. -/
def setPlace [DecidableEq α] (head : Option α) (next : α → Option α) (v : Option α) :
    Option α → Option α × (α → Option α)
  | none => (v, next)
  | some a => (head, Function.update next a v)

variable {head : Option α} {next : α → Option α}

theorem tailPlace_of_linked {a : α} {l : List α} (linked : Linked next (next a) l) {fuel : Nat}
    (enough : l.length ≤ fuel) : tailPlace head next fuel (some a) = some ((a :: l).getLast?) := by
  induction l generalizing a fuel with
  | nil =>
    cases fuel <;>
    · unfold tailPlace
      rw [show deref head next (some a) = none by cases h : next a <;> simp_all [deref]]
      rfl
  | cons b l ih =>
    obtain ⟨fuel, rfl⟩ : ∃ fuel', fuel = fuel' + 1 := ⟨fuel - 1, by simp at enough; omega⟩
    cases found : next a with
    | none => rw [found] at linked; exact absurd linked (linked_none_cons next b l)
    | some c =>
      rw [found] at linked
      obtain ⟨rfl, rest⟩ := linked
      unfold tailPlace
      rw [show deref head next (some a) = some c from found]
      show Lib.tailPlace head next fuel (some c) = _
      rw [ih rest (by simpa using enough)]
      simp

/-- **The loop finds the end** of a linked list within `l.length` steps: the last element's
`next`, or the head when the list is empty. -/
theorem Linked.tailPlace {l : List α} (linked : Linked next head l) {fuel : Nat}
    (enough : l.length ≤ fuel) : tailPlace head next fuel none = some l.getLast? := by
  cases l with
  | nil =>
    cases head with
    | none => cases fuel <;> rfl
    | some a => exact absurd linked (linked_some_nil next a)
  | cons b l =>
    cases head with
    | none => exact absurd linked (linked_none_cons next b l)
    | some a =>
      obtain ⟨rfl, rest⟩ := linked
      obtain ⟨fuel, rfl⟩ : ∃ fuel', fuel = fuel' + 1 := ⟨fuel - 1, by simp at enough; omega⟩
      unfold Lib.tailPlace
      rw [show deref (some a) next none = some a from rfl]
      show Lib.tailPlace (some a) next fuel (some a) = _
      rw [tailPlace_of_linked rest (by simpa using enough)]

/-- A new element linked after the last one. -/
theorem Linked.snoc [DecidableEq α] {l : List α} (linked : Linked next head l) (ne : l ≠ []) {b : α}
    (fresh : b ∉ l) (ends : next b = none) :
    Linked (Function.update next (l.getLast ne) (some b)) head (l ++ [b]) := by
  induction l generalizing head with
  | nil => exact absurd rfl ne
  | cons c l ih =>
    cases head with
    | none => exact absurd linked (linked_none_cons next c l)
    | some a =>
      obtain ⟨rfl, rest⟩ := linked
      have other : b ≠ a := fun same => fresh (same ▸ List.mem_cons_self)
      cases l with
      | nil =>
        -- `a` was the last element: it now points to `b`, whose `next` is still null
        refine ⟨rfl, ?_⟩
        simp only [List.getLast_singleton, Function.update_self]
        exact ⟨rfl, by rw [Function.update_of_ne other, ends]; trivial⟩
      | cons d l =>
        -- `a` is not the last element, so its pointer is unchanged
        have notLast : a ≠ (d :: l).getLast (List.cons_ne_nil d l) := by
          intro same
          have := (List.nodup_cons.mp
            (Linked.nodup (show Linked next (some a) (a :: d :: l) from ⟨rfl, rest⟩))).1
          exact this (same ▸ List.getLast_mem _)
        refine ⟨rfl, ?_⟩
        rw [List.getLast_cons (List.cons_ne_nil d l), Function.update_of_ne notLast]
        exact ih rest (List.cons_ne_nil d l) fun mem => fresh (List.mem_cons_of_mem a mem)

/-- Storing at the end changes the head only when the list was empty. -/
theorem Linked.setPlace_fst [DecidableEq α] {l : List α} (linked : Linked next head l)
    (next' : α → Option α) (v : Option α) : (Lib.setPlace head next' v l.getLast?).1 = head.or v := by
  cases l with
  | nil =>
    cases head with
    | none => rfl
    | some a => exact absurd linked (linked_some_nil next a)
  | cons c l =>
    cases head with
    | none => exact absurd linked (linked_none_cons next c l)
    | some a =>
      rw [List.getLast?_eq_some_getLast (List.cons_ne_nil c l)]
      rfl

/-- **Storing at the end links a new element last.** With `b` off the list and its `next` null,
`*pp = b` at the place the loop found gives the list `l ++ [b]`. -/
theorem Linked.setPlace [DecidableEq α] {l : List α} (linked : Linked next head l) {b : α} (fresh : b ∉ l)
    (ends : next b = none) :
    Linked (Lib.setPlace head next (some b) l.getLast?).2
      (Lib.setPlace head next (some b) l.getLast?).1 (l ++ [b]) := by
  cases l with
  | nil =>
    cases head with
    | none =>
      show Linked next (some b) [b]
      exact ⟨rfl, by rw [ends]; trivial⟩
    | some a => exact absurd linked (linked_some_nil next a)
  | cons c l =>
    rw [List.getLast?_eq_some_getLast (List.cons_ne_nil c l)]
    exact linked.snoc (List.cons_ne_nil c l) fresh ends

end Tail

end Xv6.Lib
