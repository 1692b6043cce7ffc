import Mathlib

/-!
**Circular lists linked both ways through a sentinel.**

A list kept as a sentinel node `head` and two pointers in each node: `Cycle next prev head order`
says that following `next` from `head` visits the nodes `order`, each once, and comes back to
`head`, and that `prev` leads back the same way.

* `Links.congr` — a chain reads only `next` of its nodes but the last and `prev` of its nodes but
  the first; `Links.reverse`, `Cycle.reverse` — the chain read backwards is linked the other way.
* `walk` — the loop `for(b = start; b != head; b = step(b)) if(found(b)) ...`, with `fuel` turns
  at most. On a cycle, started at `next head` it scans `order` (`Cycle.walk_next`) and started at
  `prev head` it scans `order` backwards (`Cycle.walk_prev`), within `order.length + 1` turns.
* `unlink` and `pushFront` — the stores that take a node out of the list and that put a node
  right after the sentinel: on a cycle, the cycle without the node (`Cycle.unlink`) and with the
  node first (`Cycle.pushFront`); both, the node moved to the front (`Cycle.moveToFront`).
* `Cycle.pushFronts` — nodes pushed one after another onto the empty cycle, last pushed first.

Nothing here is specific to a particular system.
-/

namespace Xv6.Lib

section Links

variable {α : Type}

/-- `next` leads from each node of `l` to the one after it, and `prev` leads back. -/
def Links (next prev : α → α) (l : List α) : Prop :=
  l.IsChain fun x y => next x = y ∧ prev y = x

variable {next prev next' prev' : α → α}

@[simp] theorem links_nil : Links next prev [] := List.IsChain.nil

@[simp] theorem links_singleton (x : α) : Links next prev [x] := List.IsChain.singleton x

@[simp] theorem links_cons_cons {x y : α} {l : List α} :
    Links next prev (x :: y :: l) ↔ next x = y ∧ prev y = x ∧ Links next prev (y :: l) := by
  rw [Links, List.isChain_cons_cons, and_assoc]
  rfl

/-- A chain split at two neighbours. -/
theorem links_append_cons_cons {l₁ l₂ : List α} {x y : α} :
    Links next prev (l₁ ++ x :: y :: l₂) ↔
      Links next prev (l₁ ++ [x]) ∧ next x = y ∧ prev y = x ∧ Links next prev (y :: l₂) := by
  rw [Links, List.isChain_append_cons_cons, and_assoc]
  rfl

/-- **Frame of a chain.** A chain is kept by new pointers that agree with the old on `next` of
each node but the last and on `prev` of each node but the first. -/
theorem Links.congr {l : List α} (links : Links next prev l)
    (nexts : ∀ x ∈ l.dropLast, next' x = next x) (prevs : ∀ y ∈ l.tail, prev' y = prev y) :
    Links next' prev' l := by
  induction l with
  | nil => exact links_nil
  | cons x l ih =>
    cases l with
    | nil => exact links_singleton x
    | cons y l =>
      obtain ⟨forward, back, rest⟩ := links_cons_cons.1 links
      refine links_cons_cons.2 ⟨(nexts x (by simp)).trans forward,
        (prevs y (by simp)).trans back, ih rest (fun z mem => ?_) (fun z mem => ?_)⟩
      · exact nexts z (by rw [List.dropLast_cons_cons]; exact List.mem_cons_of_mem x mem)
      · exact prevs z (List.mem_cons_of_mem y mem)

/-- The chain read backwards is linked the other way. -/
theorem Links.reverse {l : List α} (links : Links next prev l) : Links prev next l.reverse := by
  unfold Links at links ⊢
  rw [List.isChain_reverse]
  exact links.imp fun _ _ linked => ⟨linked.2, linked.1⟩

/-- The `next` pointers alone along a chain. -/
theorem Links.forward {l : List α} (links : Links next prev l) : l.IsChain fun x y => next x = y :=
  List.IsChain.imp (fun _ _ linked => linked.1) links

end Links

section Cycle

variable {α : Type} {next prev : α → α} {head : α}

/-- **The circular list** through the sentinel `head`: from `head`, `next` visits each node of
`order` once and comes back to `head`, and `prev` goes the other way. -/
structure Cycle (next prev : α → α) (head : α) (order : List α) : Prop where
  links : Links next prev (head :: order ++ [head])
  nodup : order.Nodup
  head_not_mem : head ∉ order

/-- The sentinel alone, pointing at itself both ways. -/
theorem Cycle.empty (forward : next head = head) (back : prev head = head) :
    Cycle next prev head [] :=
  ⟨links_cons_cons.2 ⟨forward, back, links_singleton head⟩, List.nodup_nil, List.not_mem_nil⟩

/-- The cycle read backwards, through `prev`. -/
theorem Cycle.reverse {order : List α} (cycle : Cycle next prev head order) :
    Cycle prev next head order.reverse := by
  refine ⟨?_, List.nodup_reverse.mpr cycle.nodup, by simpa using cycle.head_not_mem⟩
  have links := cycle.links.reverse
  simpa using links

/-- The first node after the sentinel, or the sentinel itself for the empty cycle. -/
theorem Cycle.next_head {order : List α} (cycle : Cycle next prev head order) :
    next head = order.headD head := by
  have links := cycle.links
  cases order with
  | nil => exact (links_cons_cons.1 links).1
  | cons x order => exact (links_cons_cons.1 links).1

/-- The whole list, sentinel included, has no node twice. -/
theorem Cycle.nodup_append {order : List α} (cycle : Cycle next prev head order) :
    (order ++ [head]).Nodup :=
  List.nodup_append.mpr ⟨cycle.nodup, List.nodup_singleton head, fun x mem y single same => by
    rw [List.mem_singleton] at single
    rw [same, single] at mem
    exact cycle.head_not_mem mem⟩

end Cycle

/-! ### The loop along the list -/

section Walk

variable {α : Type} [DecidableEq α]

/-- The loop `for(b = start; b != head; b = step(b)) if(found(b)) ...` from `b`, with `fuel` turns
at most: `some (some b)` for the first node found, `some none` back at `head`, and `none` when
the fuel runs out first. -/
def walk (step : α → α) (head : α) (found : α → Bool) : Nat → α → Option (Option α)
  | 0, _ => none
  | fuel + 1, b =>
    if b = head then some none
    else if found b then some (some b)
    else walk step head found fuel (step b)

variable {step : α → α} {head : α} {found : α → Bool}

/-- **A walk along a chain** that ends at `head` scans the nodes of the chain in order, and ends
within their number of turns. -/
theorem walk_eq_find? : ∀ {l : List α} {fuel : Nat},
    (l ++ [head]).IsChain (fun x y => step x = y) → head ∉ l → l.length < fuel →
      walk step head found fuel (l.headD head) = some (l.find? found)
  | [], fuel + 1, _, _, _ => by
    rw [List.headD_nil, walk, if_pos rfl, List.find?_nil]
  | b :: l, fuel + 1, chain, fresh, enough => by
    have other : b ≠ head := fun same => fresh (same ▸ List.mem_cons_self)
    -- the pointer out of `b` leads to the rest of the chain
    have stepped : step b = l.headD head := by
      cases l with
      | nil => exact (List.isChain_cons_cons.mp chain).1
      | cons c l => exact (List.isChain_cons_cons.mp chain).1
    rw [List.headD_cons, walk, if_neg other, List.find?_cons]
    cases found b with
    | true => rfl
    | false =>
      rw [if_neg Bool.false_ne_true, stepped]
      exact walk_eq_find? chain.tail (fun mem => fresh (List.mem_cons_of_mem b mem))
        (by rw [List.length_cons] at enough; omega)

variable {next prev : α → α} {order : List α}

/-- **The forward scan** `for(b = head.next; b != &head; b = b->next)` visits `order` in turn. -/
theorem Cycle.walk_next (cycle : Cycle next prev head order) {fuel : Nat}
    (enough : order.length < fuel) :
    walk next head found fuel (next head) = some (order.find? found) := by
  rw [cycle.next_head]
  exact walk_eq_find? cycle.links.forward.tail cycle.head_not_mem enough

/-- **The backward scan** `for(b = head.prev; b != &head; b = b->prev)` visits `order` from its
end. -/
theorem Cycle.walk_prev (cycle : Cycle next prev head order) {fuel : Nat}
    (enough : order.length < fuel) :
    walk prev head found fuel (prev head) = some (order.reverse.find? found) :=
  cycle.reverse.walk_next (by rw [List.length_reverse]; exact enough)

end Walk

/-! ### Taking a node out, putting a node first -/

section Relink

variable {α : Type} [DecidableEq α] {next prev : α → α} {head : α}

/-- `b->next->prev = b->prev; b->prev->next = b->next;`, each store reading the pointers as the
stores before it left them. -/
def unlink (next prev : α → α) (b : α) : (α → α) × (α → α) :=
  let prev₁ := Function.update prev (next b) (prev b)
  (Function.update next (prev₁ b) (next b), prev₁)

/-- `b->next = head.next; b->prev = &head; head.next->prev = b; head.next = b;`, each store
reading the pointers as the stores before it left them. -/
def pushFront (next prev : α → α) (head b : α) : (α → α) × (α → α) :=
  let next₁ := Function.update next b (next head)
  let prev₁ := Function.update prev b head
  let prev₂ := Function.update prev₁ (next₁ head) b
  (Function.update next₁ head b, prev₂)

/-- **Unlinking** `b` from between its neighbours `a` and `c` joins them, when the stores at `a`
and `c` touch no other link of the chain. -/
theorem links_unlink {ps cs : List α} {a b c : α}
    (links : Links next prev (ps ++ a :: b :: c :: cs)) (apart : b ≠ c) (a_fresh : a ∉ ps)
    (c_fresh : c ∉ (ps ++ [a]).tail) (a_after : a ∉ (c :: cs).dropLast) (c_after : c ∉ cs) :
    Links (unlink next prev b).1 (unlink next prev b).2 (ps ++ a :: c :: cs) := by
  obtain ⟨before, forward_a, back_b, after⟩ := links_append_cons_cons.1 links
  obtain ⟨forward_b, back_c, rest⟩ := links_cons_cons.1 after
  have prev_b : Function.update prev c a b = a := by
    rw [Function.update_of_ne apart, back_b]
  refine links_append_cons_cons.2 ⟨before.congr (fun x mem => ?_) (fun y mem => ?_), ?_, ?_,
    rest.congr (fun x mem => ?_) (fun y mem => ?_)⟩
  · rw [List.dropLast_concat] at mem
    simp only [unlink, forward_b, back_b, prev_b]
    exact Function.update_of_ne (by rintro rfl; exact a_fresh mem) _ _
  · simp only [unlink, forward_b, back_b]
    exact Function.update_of_ne (by rintro rfl; exact c_fresh mem) _ _
  · simp only [unlink, forward_b, back_b, prev_b, Function.update_self]
  · simp only [unlink, forward_b, back_b, Function.update_self]
  · simp only [unlink, forward_b, back_b, prev_b]
    exact Function.update_of_ne (by rintro rfl; exact a_after mem) _ _
  · simp only [unlink, forward_b, back_b]
    exact Function.update_of_ne (by rintro rfl; exact c_after mem) _ _

/-- **Taking `b` out of a cycle** leaves the cycle of the other nodes, in the same order. -/
theorem Cycle.unlink {pre post : List α} {b : α} (cycle : Cycle next prev head (pre ++ b :: post)) :
    Cycle (Lib.unlink next prev b).1 (Lib.unlink next prev b).2 head (pre ++ post) := by
  obtain ⟨pre_nodup, rest_nodup, apart⟩ := List.nodup_append.mp cycle.nodup
  obtain ⟨b_not_post, post_nodup⟩ := List.nodup_cons.mp rest_nodup
  have fresh := cycle.head_not_mem
  simp only [List.mem_append, List.mem_cons, not_or] at fresh
  obtain ⟨head_not_pre, head_ne_b, head_not_post⟩ := fresh
  -- the neighbours of `b`: `a` ends `head :: pre`, `c` starts `post ++ [head]`
  obtain ⟨ps, a, split_pre⟩ : ∃ ps a, head :: pre = ps ++ [a] :=
    ⟨_, _, (List.dropLast_append_getLast (List.cons_ne_nil head pre)).symm⟩
  obtain ⟨c, cs, split_post⟩ : ∃ c cs, post ++ [head] = c :: cs := by
    cases post with
    | nil => exact ⟨head, [], rfl⟩
    | cons c cs => exact ⟨c, cs ++ [head], rfl⟩
  have whole : head :: (pre ++ b :: post) ++ [head] = ps ++ a :: b :: c :: cs := by
    rw [show head :: (pre ++ b :: post) ++ [head] = (head :: pre) ++ b :: (post ++ [head]) by simp,
      split_pre, split_post, List.append_assoc, List.singleton_append]
  have joined : head :: (pre ++ post) ++ [head] = ps ++ a :: c :: cs := by
    rw [show head :: (pre ++ post) ++ [head] = (head :: pre) ++ (post ++ [head]) by simp,
      split_pre, split_post, List.append_assoc, List.singleton_append]
  have front_tail : (ps ++ [a]).tail = pre := by rw [← split_pre, List.tail_cons]
  have back_init : (c :: cs).dropLast = post := by rw [← split_post, List.dropLast_concat]
  have a_front : a = head ∨ a ∈ pre := by
    have mem : a ∈ head :: pre := by rw [split_pre]; exact List.mem_append_right ps (List.mem_singleton_self a)
    exact List.mem_cons.mp mem
  have c_back : c ∈ post ∨ c = head := by
    have mem : c ∈ post ++ [head] := by rw [split_post]; exact List.mem_cons_self
    simpa using mem
  have front_nodup : (ps ++ [a]).Nodup := by
    rw [← split_pre]
    exact List.nodup_cons.mpr ⟨head_not_pre, pre_nodup⟩
  have back_nodup : (c :: cs).Nodup := by
    rw [← split_post]
    exact List.nodup_append.mpr ⟨post_nodup, List.nodup_singleton head,
      fun x mem y single same => by
        rw [List.mem_singleton] at single
        rw [same, single] at mem
        exact head_not_post mem⟩
  refine ⟨?_, ?_, ?_⟩
  · rw [joined]
    refine links_unlink (by rw [← whole]; exact cycle.links) ?_ ?_ ?_ ?_ ?_
    · -- `c` comes after `b`, and `b` is in the cycle once
      rintro rfl
      rcases c_back with mem | same
      · exact b_not_post mem
      · exact head_ne_b same.symm
    · exact fun mem => (List.nodup_append.mp front_nodup).2.2 a mem a (List.mem_singleton_self a) rfl
    · rw [front_tail]
      rcases c_back with mem | rfl
      · exact fun mem' => apart c mem' c (List.mem_cons_of_mem b mem) rfl
      · exact head_not_pre
    · rw [back_init]
      rcases a_front with rfl | mem
      · exact head_not_post
      · exact fun mem' => apart a mem a (List.mem_cons_of_mem b mem') rfl
    · exact (List.nodup_cons.mp back_nodup).1
  · exact List.nodup_append.mpr ⟨pre_nodup, post_nodup,
      fun x mem y mem' => apart x mem y (List.mem_cons_of_mem b mem')⟩
  · simp only [List.mem_append, not_or]
    exact ⟨head_not_pre, head_not_post⟩

/-- **Putting `b` first**, right after the sentinel, in a cycle without it. -/
theorem Cycle.pushFront {order : List α} {b : α} (cycle : Cycle next prev head order)
    (fresh : b ∉ order) (other : b ≠ head) :
    Cycle (Lib.pushFront next prev head b).1 (Lib.pushFront next prev head b).2 head (b :: order) := by
  -- `d` is the node `b` goes before: the first of `order`, or the sentinel
  obtain ⟨d, rest, split⟩ : ∃ d rest, order ++ [head] = d :: rest := by
    cases order with
    | nil => exact ⟨head, [], rfl⟩
    | cons d o => exact ⟨d, o ++ [head], rfl⟩
  have links : Links next prev (head :: d :: rest) := by
    rw [← split, ← List.cons_append]
    exact cycle.links
  obtain ⟨first, -, rest_links⟩ := links_cons_cons.1 links
  have nodup : (d :: rest).Nodup := split ▸ cycle.nodup_append
  have not_after : ∀ x, x ∈ d :: rest → x ≠ b := by
    intro x mem same
    rw [← split, List.mem_append, List.mem_singleton] at mem
    rcases mem with mem | rfl
    · exact fresh (same ▸ mem)
    · exact other same.symm
  have b_ne_d : b ≠ d := (not_after d List.mem_cons_self).symm
  have next_b : Function.update next b (next head) head = d := by
    rw [Function.update_of_ne other.symm, first]
  refine ⟨?_, List.nodup_cons.mpr ⟨fresh, cycle.nodup⟩, ?_⟩
  · rw [show head :: (b :: order) ++ [head] = head :: b :: (order ++ [head]) by simp, split]
    refine links_cons_cons.2 ⟨?_, ?_, links_cons_cons.2 ⟨?_, ?_, rest_links.congr ?_ ?_⟩⟩
    · simp only [Lib.pushFront, Function.update_self]
    · simp only [Lib.pushFront, next_b, Function.update_of_ne b_ne_d, Function.update_self]
    · simp only [Lib.pushFront, Function.update_of_ne other, Function.update_self, first]
    · simp only [Lib.pushFront, next_b, Function.update_self]
    · intro x mem
      have in_order : x ∈ order := by
        rw [← @List.dropLast_concat _ order head, split]
        exact mem
      have not_head : x ≠ head := fun same => cycle.head_not_mem (same ▸ in_order)
      simp only [Lib.pushFront, Function.update_of_ne not_head,
        Function.update_of_ne (not_after x (split ▸ List.mem_append_left [head] in_order))]
    · intro y mem
      have y_ne_d : y ≠ d := fun same => (List.nodup_cons.mp nodup).1 (same ▸ mem)
      simp only [Lib.pushFront, next_b, Function.update_of_ne y_ne_d,
        Function.update_of_ne (not_after y (List.mem_cons_of_mem d mem))]
  · rw [List.mem_cons, not_or]
    exact ⟨other.symm, cycle.head_not_mem⟩

/-- **Moving `b` to the front**: unlinked, then put first, `b` leads the cycle and the other nodes
keep their order. -/
theorem Cycle.moveToFront {order : List α} {b : α} (cycle : Cycle next prev head order)
    (mem : b ∈ order) :
    Cycle (Lib.pushFront (Lib.unlink next prev b).1 (Lib.unlink next prev b).2 head b).1
      (Lib.pushFront (Lib.unlink next prev b).1 (Lib.unlink next prev b).2 head b).2 head
      (b :: order.erase b) := by
  obtain ⟨pre, post, rfl⟩ := List.append_of_mem mem
  have b_not_pre : b ∉ pre := fun mem' =>
    (List.nodup_append.mp cycle.nodup).2.2 b mem' b List.mem_cons_self rfl
  have b_not_post : b ∉ post := (List.nodup_cons.mp (List.nodup_append.mp cycle.nodup).2.1).1
  have erased : (pre ++ b :: post).erase b = pre ++ post := by
    rw [List.erase_append_right _ b_not_pre, List.erase_cons_head]
  rw [erased]
  refine cycle.unlink.pushFront ?_ ?_
  · rw [List.mem_append, not_or]
    exact ⟨b_not_pre, b_not_post⟩
  · exact fun same => cycle.head_not_mem (same ▸ mem)

/-- **Pushing nodes one after another** onto a cycle, as `binit` does: the last pushed leads. -/
theorem Cycle.pushFronts {head : α} : ∀ {next prev : α → α} {order : List α} (l : List α),
    Cycle next prev head order → (l ++ order).Nodup → head ∉ l →
      Cycle (l.foldl (fun links b => Lib.pushFront links.1 links.2 head b) (next, prev)).1
        (l.foldl (fun links b => Lib.pushFront links.1 links.2 head b) (next, prev)).2 head
        (l.reverse ++ order)
  | _, _, _, [], cycle, _, _ => cycle
  | _, _, order, b :: l, cycle, nodup, fresh => by
    rw [List.cons_append, List.nodup_cons, List.mem_append, not_or] at nodup
    rw [List.mem_cons, not_or] at fresh
    have pushed := cycle.pushFront nodup.1.2 (Ne.symm fresh.1)
    rw [List.foldl_cons, List.reverse_cons, List.append_assoc, List.singleton_append]
    refine Cycle.pushFronts l pushed ?_ fresh.2
    -- `b` moved from before `l` to after it
    have moved : (l ++ b :: order).Perm (b :: (l ++ order)) := List.perm_middle
    exact moved.nodup_iff.mpr (List.nodup_cons.mpr ⟨by rw [List.mem_append, not_or]; exact nodup.1,
      nodup.2⟩)

end Relink

/-! ### A relation along the list after one node changed -/

section Order

variable {α : Type} {R R' : α → α → Prop} {as bs : List α} {b : α}

/-- **One node changed.** A relation along a list holds again when it holds again between the
nodes other than `b` and between `b` and every node before and after it. -/
theorem pairwise_of_agree (pairwise : (as ++ b :: bs).Pairwise R) (nodup : (as ++ b :: bs).Nodup)
    (agree : ∀ x y, x ≠ b → y ≠ b → R x y → R' x y) (before : ∀ a ∈ as, a ≠ b → R' a b)
    (after : ∀ c ∈ bs, c ≠ b → R' b c) : (as ++ b :: bs).Pairwise R' := by
  rw [List.pairwise_append, List.pairwise_cons] at pairwise ⊢
  obtain ⟨pairs_as, ⟨-, pairs_bs⟩, across⟩ := pairwise
  have not_as : b ∉ as := fun mem => (List.nodup_append.mp nodup).2.2 b mem b List.mem_cons_self rfl
  have not_bs : b ∉ bs := (List.nodup_cons.mp (List.nodup_append.mp nodup).2.1).1
  have ne_as : ∀ a ∈ as, a ≠ b := fun a mem same => not_as (same ▸ mem)
  have ne_bs : ∀ c ∈ bs, c ≠ b := fun c mem same => not_bs (same ▸ mem)
  refine ⟨pairs_as.imp_of_mem fun x y related => agree _ _ (ne_as _ x) (ne_as _ y) related,
    ⟨fun c mem => after c mem (ne_bs c mem), pairs_bs.imp_of_mem fun x y related => agree _ _ (ne_bs _ x) (ne_bs _ y) related⟩,
    fun a mem c mem' => ?_⟩
  rcases List.mem_cons.mp mem' with rfl | mem'
  · exact before a mem (ne_as a mem)
  · exact agree a c (ne_as a mem) (ne_bs c mem') (across a mem c (List.mem_cons_of_mem b mem'))

/-- **One node moved to the front.** A relation along a list holds on the list with `b` moved to
its front when it holds again between the other nodes and from `b` to each of them. -/
theorem pairwise_moveToFront (pairwise : (as ++ b :: bs).Pairwise R)
    (nodup : (as ++ b :: bs).Nodup) (agree : ∀ x y, x ≠ b → y ≠ b → R x y → R' x y)
    (first : ∀ c ∈ as ++ bs, c ≠ b → R' b c) : (b :: (as ++ bs)).Pairwise R' := by
  have rest : (as ++ bs).Sublist (as ++ b :: bs) :=
    List.Sublist.append (List.Sublist.refl as) (List.sublist_cons_self b bs)
  have fresh : b ∉ as ++ bs := by
    have moved : (as ++ b :: bs).Perm (b :: (as ++ bs)) := List.perm_middle
    exact (List.nodup_cons.mp (moved.nodup_iff.mp nodup)).1
  refine List.pairwise_cons.mpr ⟨fun c mem => first c mem (fun same => fresh (same ▸ mem)),
    (pairwise.sublist rest).imp_of_mem ?_⟩
  intro x y mem mem' related
  exact agree x y (fun same => fresh (same ▸ mem)) (fun same => fresh (same ▸ mem')) related

end Order

end Xv6.Lib
