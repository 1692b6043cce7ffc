import Xv6.Vm.Dealloc

/-!
**`mappages`, and the page loops of `vm.c` together.**

As for `deallocuvm`, the loop of `mappages` is taken apart: `mapPage` is its turn at one page,
without the test for the last page, and `mapPages` the turns over a list of pages. The loop is the
turns over the pages of its range (`mappagesLoop_eq`, by induction on the fuel): the test by
equality with the last page is reached within the `2 ^ 20` pages of the address space. On a
well-formed directory a turn maps its page, taking the first free page for a missing table
(`mapPage_spec`); over a range the turns map the `k`-th page to `pa + k * PGSIZE`
(`mapPages_spec`, by induction on the pages), using a free page for each entry of the directory
with no table (`missingTables`).

* `vm_page_loops` — the loops of `deallocuvm` and `mappages` stop; on a well-formed directory
  they free, and map, exactly the pages of their ranges;
* `zero_pte_panics` — on a directory with a present PTE of address 0, `deallocuvm` panics, and
  `mappages` over a mapped page panics with `remap`.
-/

namespace Xv6.Vm

section Turns

/-- The turn of the loop of `mappages` at the page `a`, mapped to `pa`, without the test for the
last page: `false` when no page table can be had. -/
def mapPage (pgdir perm a pa : Nat) : VmM Bool := do
  match ← walkpgdir pgdir a true with
  | none => pure false
  | some pte =>
    if ((← get).mem pte).toNat &&& pteP ≠ 0 then throw "remap"
    store pte (UInt32.ofNat (pa ||| perm ||| pteP))
    pure true

/-- The turns at the pages `as`, the first mapped to `pa` and each next one a page further on. -/
def mapPages (pgdir perm : Nat) : List Nat → Nat → VmM Int
  | [], _ => pure 0
  | a :: as, pa => do
    if ← mapPage pgdir perm a pa then mapPages pgdir perm as (u32 (pa + pgSize)) else pure (-1)

/-- **The loop of `mappages` stops.** From a page `a` up to a page `last` below `2 ^ 32`, with a
turn of fuel to spare, the loop of `mappages` is the turn at each page of `[a, last]` in order. The
induction is on the fuel. -/
theorem mappagesLoop_eq (pgdir last perm : Nat) (aligned : last % pgSize = 0) (word : last < 2 ^ 32) :
    ∀ fuel a pa (m : Machine), a % pgSize = 0 → a ≤ last → (last - a) / pgSize < fuel →
      (mappagesLoop pgdir last perm fuel a pa).run m =
        (mapPages pgdir perm (List.range' a ((last - a) / pgSize + 1) pgSize) pa).run m
  | 0, _, _, _, _, _, enough => absurd enough (Nat.not_lt_zero _)
  | fuel + 1, a, pa, m, alignedA, le, enough => by
    rw [mappagesLoop, List.range'_succ, mapPages]
    simp only [mapPage, StateT.run_bind, bind_assoc]
    refine bind_congr fun p => ?_
    rcases p with ⟨_ | pte, m₁⟩
    · rfl
    · simp only [StateT.run_bind, StateT.run_get, pure_bind]
      by_cases present : (m₁.mem pte).toNat &&& pteP ≠ 0
      · rw [if_pos present, if_pos present]
        rfl
      · rw [if_neg present, if_neg present]
        simp only [StateT.run_bind, store_run, pure_bind]
        by_cases done : a = last
        · subst done
          simp [mapPages]
        · have next : u32 (a + pgSize) = a + pgSize := u32_of_lt (by rw [pgSize_eq] at *; omega)
          have count : (last - a) / pgSize = (last - (a + pgSize)) / pgSize + 1 := by
            rw [pgSize_eq] at *; omega
          rw [if_neg done, next, mappagesLoop_eq pgdir last perm aligned word fuel (a + pgSize) _ _
            (by rw [pgSize_eq] at *; omega) (by rw [pgSize_eq] at *; omega) (by omega), count]
          simp only [StateT.run_pure, pure_bind, ↓reduceIte]

end Turns

/-! ### One page of `mappages` -/

section Map

/-- The PTE `pa | perm | PTE_P` of a page is present and points at `pa`. -/
theorem entry_read {pa perm : Nat} (aligned : pa % pgSize = 0) (word : pa < 2 ^ 32) (low : perm < pgSize) :
    (UInt32.ofNat (pa ||| perm ||| pteP)).toNat &&& pteP ≠ 0 ∧
      pteAddr (UInt32.ofNat (pa ||| perm ||| pteP)).toNat = pa := by
  have flags := perm_or_pteP_lt low
  rw [UInt32.toNat_ofNat', Nat.or_assoc, Nat.mod_eq_of_lt (or_lt_word word flags)]
  exact ⟨present_or pa (perm_or_pteP_odd perm), pteAddr_or aligned flags⟩

/-- The directory entry `V2P(pgtab) | PTE_P | PTE_W | PTE_U` of a page of memory is present and
points at `pgtab`. -/
theorem pde_read {pgtab : Nat} (page : IsPage pgtab) :
    (UInt32.ofNat (v2p pgtab ||| pteP ||| pteW ||| pteU)).toNat &&& pteP ≠ 0 ∧
      p2v (pteAddr (UInt32.ofNat (v2p pgtab ||| pteP ||| pteW ||| pteU)).toNat) = pgtab := by
  obtain ⟨aligned, high, low⟩ := page
  have word : pgtab < 2 ^ 32 := by rw [kernBase_eq] at *; unfold phyStop at low; omega
  have phys : v2p pgtab % pgSize = 0 ∧ v2p pgtab < 2 ^ 32 := by
    rw [v2p_of_le high word, kernBase_eq, pgSize_eq] at *
    omega
  have flags : pteP ||| pteW ||| pteU < pgSize := by decide
  have odd : (pteP ||| pteW ||| pteU) % 2 = 1 := by decide
  rw [UInt32.toNat_ofNat', Nat.or_assoc, Nat.or_assoc, ← Nat.or_assoc pteP,
    Nat.mod_eq_of_lt (or_lt_word phys.2 flags)]
  exact ⟨present_or _ odd, by rw [pteAddr_or phys.1 flags, p2v_v2p high word]⟩

variable {kend : Nat} {m : Machine} {pgdir : Nat}

/-- A machine with the tables and the free list of `m` keeps the invariant of its tables. -/
theorem TableWf.of_tables (wf : TableWf kend m pgdir) {m' : Machine}
    (tables : ∀ i < nPdEntries, tableOf m' pgdir i = tableOf m pgdir i) (list : m'.freelist = m.freelist) :
    TableWf kend m' pgdir where
  dir_aligned := wf.dir_aligned
  dir_free := list ▸ wf.dir_free
  table_apart i entry t table := list ▸ wf.table_apart i entry t (tables i entry ▸ table)
  table_inj i entry j entry' t table table' :=
    wf.table_inj i entry j entry' t (tables i entry ▸ table) (tables j entry' ▸ table')
  free_page v free := wf.free_page v (list ▸ free)
  free_nodup := list ▸ wf.free_nodup

/-- The turn at a page whose table is there and whose PTE is free writes the PTE. -/
theorem mapPage_run_present {a pa perm t : Nat} (found : tableOf m pgdir (pdx a) = some t)
    (free : (m.mem (t + 4 * ptx a)).toNat &&& pteP = 0) :
    (mapPage pgdir perm a pa).run m = pure (true,
      { m with mem := Function.update m.mem (t + 4 * ptx a) (UInt32.ofNat (pa ||| perm ||| pteP)) }) := by
  simp only [mapPage, StateT.run_bind, walkpgdir_run_present found, pure_bind, StateT.run_get]
  rw [if_neg (not_not.mpr free)]
  rfl

/-- The turn at a page with no table takes the first free page for it, zeroed, and writes the
PTE there. -/
theorem mapPage_run_alloc {a pa perm pgtab : Nat} {rest : List Nat}
    (absent : tableOf m pgdir (pdx a) = none) (head : m.freelist = pgtab :: rest)
    (apart : pgtab + 4 * ptx a ≠ pgdir + 4 * pdx a) :
    (mapPage pgdir perm a pa).run m = pure (true,
      { mem := Function.update (Function.update
          (fun x => if pgtab ≤ x ∧ x < pgtab + pgSize then 0 else m.mem x) (pgdir + 4 * pdx a)
          (UInt32.ofNat (v2p pgtab ||| pteP ||| pteW ||| pteU)))
          (pgtab + 4 * ptx a) (UInt32.ofNat (pa ||| perm ||| pteP)),
        freelist := rest }) := by
  have inside : pgtab ≤ pgtab + 4 * ptx a ∧ pgtab + 4 * ptx a < pgtab + pgSize := by
    have := ptx_lt a
    unfold nPdEntries at this
    rw [pgSize_eq]
    omega
  simp only [mapPage, StateT.run_bind, walkpgdir_run_alloc absent head, pure_bind, StateT.run_get]
  rw [if_neg (by simp [Function.update_of_ne apart, inside])]
  rfl

/-- **One page of `mappages`.** On a well-formed directory, the turn at a page `a` that is not
mapped, with a free page for its table when it has none, maps `a` to `pa`: the tables stay well
formed and only gain the table of `a` (the first free page), and every other page is mapped as
before. -/
theorem mapPage_spec (wf : TableWf kend m pgdir) {a pa perm : Nat} (word : a < 2 ^ 32)
    (unmapped : pageOf m pgdir a = none) (room : tableOf m pgdir (pdx a) = none → m.freelist ≠ [])
    (aligned : pa % pgSize = 0) (paWord : pa < 2 ^ 32) (low : perm < pgSize) :
    ∃ m', (mapPage pgdir perm a pa).run m = pure (true, m') ∧ TableWf kend m' pgdir ∧
      (tableOf m' pgdir (pdx a)).isSome ∧
      (∀ i < nPdEntries, (i ≠ pdx a ∨ (tableOf m pgdir i).isSome) →
        tableOf m' pgdir i = tableOf m pgdir i) ∧
      m'.freelist = (if (tableOf m pgdir (pdx a)).isSome then m.freelist else m.freelist.tail) ∧
      pageOf m' pgdir a = some pa ∧
      ∀ va < 2 ^ 32, va / pgSize ≠ a / pgSize → pageOf m' pgdir va = pageOf m pgdir va := by
  obtain ⟨present, addr⟩ := entry_read aligned paWord low
  set e := UInt32.ofNat (pa ||| perm ||| pteP) with entry
  cases found : tableOf m pgdir (pdx a) with
  | some t =>
    -- the table is there: only the PTE changes
    have walks : pteOf m pgdir a = some (t + 4 * ptx a) := by simp [pteOf, found]
    have free : (m.mem (t + 4 * ptx a)).toNat &&& pteP = 0 := by
      by_contra taken
      rw [Option.eq_none_iff_forall_ne_some] at unmapped
      exact unmapped _ (pageOf_eq_some.2 ⟨_, walks, taken, rfl⟩)
    let m' : Machine := { m with mem := Function.update m.mem (t + 4 * ptx a) e }
    have tables : ∀ i < nPdEntries, tableOf m' pgdir i = tableOf m pgdir i := fun i entry =>
      tableOf_congr (Function.update_of_ne (wf.pte_ne_pde walks entry).symm _ _)
    have walks' : pteOf m' pgdir a = some (t + 4 * ptx a) := by
      simp [pteOf, tables _ (pdx_lt a), found]
    refine ⟨m', mapPage_run_present found free, wf.of_tables tables rfl,
      by simp [tables _ (pdx_lt a), found], fun i entry _ => tables i entry, by simp [m'],
      pageOf_eq_some.2 ⟨_, walks', by simpa [m'] using present, by simpa [m'] using addr⟩,
      fun va vaWord apart => ?_⟩
    exact pageOf_congr (tables _ (pdx_lt va)) fun _ walksVa =>
      Function.update_of_ne (wf.pte_ne vaWord word apart walksVa walks) _ _
  | none =>
    -- the table is missing: it becomes the first free page, zeroed
    obtain ⟨pgtab, rest, head⟩ : ∃ pgtab rest, m.freelist = pgtab :: rest := by
      cases list : m.freelist with
      | nil => exact absurd list (room found)
      | cons pgtab rest => exact ⟨pgtab, rest, rfl⟩
    have isFree : pgtab ∈ m.freelist := by simp [head]
    have page : IsPage pgtab := (wf.free_page pgtab isFree).1
    have notDir : pgtab ≠ pgdir := fun same => wf.dir_free (same ▸ isFree)
    have notTable : ∀ i < nPdEntries, tableOf m pgdir i ≠ some pgtab :=
      fun i entry table => (wf.table_apart i entry pgtab table).2 isFree
    have alignedT := page.1
    have alignedD := wf.dir_aligned
    have dirA := pdx_lt a
    have tableA := ptx_lt a
    unfold nPdEntries at dirA tableA
    have inside : pgtab ≤ pgtab + 4 * ptx a ∧ pgtab + 4 * ptx a < pgtab + pgSize := by
      rw [pgSize_eq]; omega
    have apart : pgtab + 4 * ptx a ≠ pgdir + 4 * pdx a := by rw [pgSize_eq] at *; omega
    let m' : Machine :=
      { mem := Function.update (Function.update
          (fun x => if pgtab ≤ x ∧ x < pgtab + pgSize then 0 else m.mem x) (pgdir + 4 * pdx a)
          (UInt32.ofNat (v2p pgtab ||| pteP ||| pteW ||| pteU))) (pgtab + 4 * ptx a) e,
        freelist := rest }
    have run : (mapPage pgdir perm a pa).run m = pure (true, m') :=
      mapPage_run_alloc found head apart
    obtain ⟨pdePresent, pdeAddr⟩ := pde_read page
    have outside : ∀ x, ¬(pgtab ≤ x ∧ x < pgtab + pgSize) → x ≠ pgdir + 4 * pdx a →
        m'.mem x = m.mem x := by
      intro x out other
      have notPte : x ≠ pgtab + 4 * ptx a := fun same => out (same ▸ inside)
      simp only [m']
      rw [Function.update_of_ne notPte, Function.update_of_ne other, if_neg out]
    have zeroed : ∀ x, pgtab ≤ x ∧ x < pgtab + pgSize → x ≠ pgtab + 4 * ptx a → m'.mem x = 0 := by
      intro x inPage notPte
      have notPde : x ≠ pgdir + 4 * pdx a := by rw [pgSize_eq] at *; omega
      simp only [m']
      rw [Function.update_of_ne notPte, Function.update_of_ne notPde, if_pos inPage]
    have tableNew : tableOf m' pgdir (pdx a) = some pgtab := by
      have entry : m'.mem (pgdir + 4 * pdx a) = UInt32.ofNat (v2p pgtab ||| pteP ||| pteW ||| pteU) := by
        simp [m', Function.update_of_ne apart.symm]
      unfold tableOf
      rw [entry, if_pos pdePresent, pdeAddr]
    have tables : ∀ i < nPdEntries, i ≠ pdx a → tableOf m' pgdir i = tableOf m pgdir i :=
      fun i entry other => tableOf_congr (outside _ (wf.pde_outside alignedT notDir entry)
        (by intro same; apply other; omega))
    have walks' : pteOf m' pgdir a = some (pgtab + 4 * ptx a) := by simp [pteOf, tableNew]
    have wf' : TableWf kend m' pgdir :=
      { dir_aligned := wf.dir_aligned
        dir_free := fun mem => wf.dir_free (head ▸ List.mem_cons_of_mem pgtab mem)
        table_apart := fun i entry t table => by
          by_cases same : i = pdx a
          · rw [same, tableNew, Option.some_inj] at table
            subst table
            exact ⟨notDir, (List.nodup_cons.mp (head ▸ wf.free_nodup)).1⟩
          · rw [tables i entry same] at table
            obtain ⟨other, notFree⟩ := wf.table_apart i entry t table
            exact ⟨other, fun mem => notFree (head ▸ List.mem_cons_of_mem pgtab mem)⟩
        table_inj := fun i entry j entry' t table table' => by
          by_cases same : i = pdx a <;> by_cases same' : j = pdx a
          · rw [same, same']
          · rw [same, tableNew, Option.some_inj] at table
            subst table
            exact absurd (tables j entry' same' ▸ table') (notTable j entry')
          · rw [same', tableNew, Option.some_inj] at table'
            subst table'
            exact absurd (tables i entry same ▸ table) (notTable i entry)
          · exact wf.table_inj i entry j entry' t (tables i entry same ▸ table)
              (tables j entry' same' ▸ table')
        free_page := fun v mem => wf.free_page v (head ▸ List.mem_cons_of_mem pgtab mem)
        free_nodup := (List.nodup_cons.mp (head ▸ wf.free_nodup)).2 }
    refine ⟨m', run, wf', by simp [tableNew], fun i entry other => ?_, by simp [m', head],
      pageOf_eq_some.2 ⟨_, walks', by simpa [m'] using present, by simpa [m'] using addr⟩,
      fun va vaWord other => ?_⟩
    · rcases other with other | known
      · exact tables i entry other
      · rcases eq_or_ne i (pdx a) with same | other
        · simp [same, found] at known
        · exact tables i entry other
    · by_cases dir : pdx va = pdx a
      · -- a page of the new table: its PTE is still 0
        have notSame : ptx va ≠ ptx a := fun same => other (div_pgSize_eq vaWord word dir same)
        have tableVa := ptx_lt va
        unfold nPdEntries at tableVa
        have walksVa : pteOf m' pgdir va = some (pgtab + 4 * ptx va) := by simp [pteOf, dir, tableNew]
        have entry : m'.mem (pgtab + 4 * ptx va) = 0 :=
          zeroed _ (by rw [pgSize_eq] at *; omega) (by omega)
        have before : pageOf m pgdir va = none := by simp [pageOf, pteOf, dir, found]
        rw [before, Option.eq_none_iff_forall_ne_some]
        intro pa' mapped
        obtain ⟨pte', walksVa', presentVa, -⟩ := pageOf_eq_some.1 mapped
        rw [walksVa, Option.some_inj] at walksVa'
        subst walksVa'
        simp [entry] at presentVa
      · exact pageOf_congr (tables _ (pdx_lt va) dir) fun pte' walksVa =>
          outside _ (pte_outside walksVa alignedT notTable) (wf.pte_ne_pde walksVa (pdx_lt a))

end Map

/-! ### The pages of a range -/

section Range

/-- Counting a list without repeats by two tests that differ only at `x`, which the first passes
and the second does not. -/
theorem length_filter_eq_succ {l : List Nat} (nodup : l.Nodup) {x : Nat} (mem : x ∈ l)
    {p q : Nat → Bool} (px : p x = true) (qx : q x = false) (agree : ∀ i ∈ l, i ≠ x → q i = p i) :
    (l.filter p).length = (l.filter q).length + 1 := by
  induction l with
  | nil => cases mem
  | cons y l ih =>
    obtain ⟨fresh, nodup⟩ := List.nodup_cons.mp nodup
    by_cases first : y = x
    · subst first
      have rest : l.filter q = l.filter p :=
        List.filter_congr fun i mem' => agree i (by simp [mem']) fun same => fresh (same ▸ mem')
      simp [px, qx, rest]
    · have later : x ∈ l := by simpa [Ne.symm first] using mem
      have same : q y = p y := agree y (by simp) first
      rw [List.filter_cons, List.filter_cons, same]
      split <;> simp [ih nodup later fun i mem' => agree i (by simp [mem'])]

/-- The entries of the directory the pages `as` fall in that have no page table: the pages
`mappages` takes from the free list for them. -/
def missingTables (m : Machine) (pgdir : Nat) (as : List Nat) : Nat :=
  (((as.map pdx).dedup).filter fun i => (tableOf m pgdir i).isNone).length

variable {kend : Nat} {m : Machine} {pgdir : Nat}

theorem missingTables_pos {a : Nat} {as : List Nat} (absent : tableOf m pgdir (pdx a) = none) :
    0 < missingTables m pgdir (a :: as) :=
  List.length_pos_of_mem (a := pdx a) (List.mem_filter.mpr ⟨by simp, by simp [absent]⟩)

/-- After a turn at `a` whose table was there, and that keeps the tables, the rest misses the
same tables. -/
theorem missingTables_cons_of_isSome {m' : Machine} {a : Nat} {as : List Nat}
    (present : (tableOf m pgdir (pdx a)).isSome)
    (tables : ∀ i ∈ as.map pdx, tableOf m' pgdir i = tableOf m pgdir i) :
    missingTables m' pgdir as = missingTables m pgdir (a :: as) := by
  have rest : (as.map pdx).dedup.filter (fun i => (tableOf m' pgdir i).isNone) =
      (as.map pdx).dedup.filter (fun i => (tableOf m pgdir i).isNone) :=
    List.filter_congr fun i mem => by rw [tables i (List.mem_dedup.mp mem)]
  unfold missingTables
  rw [rest, List.map_cons]
  by_cases again : pdx a ∈ as.map pdx
  · rw [List.dedup_cons_of_mem again]
  · rw [List.dedup_cons_of_notMem again, List.filter_cons]
    simp [Option.isSome_iff_ne_none.mp present]

/-- After a turn at `a` that gave it a table, the rest misses one table less. -/
theorem missingTables_cons_of_none {m' : Machine} {a : Nat} {as : List Nat}
    (absent : tableOf m pgdir (pdx a) = none) (made : (tableOf m' pgdir (pdx a)).isSome)
    (tables : ∀ i ∈ as.map pdx, i ≠ pdx a → tableOf m' pgdir i = tableOf m pgdir i) :
    missingTables m' pgdir as + 1 = missingTables m pgdir (a :: as) := by
  have madeNone : (tableOf m' pgdir (pdx a)).isNone = false := by
    simpa [Option.isNone_iff_eq_none, Option.isSome_iff_ne_none] using made
  unfold missingTables
  rw [List.map_cons]
  by_cases again : pdx a ∈ as.map pdx
  · rw [List.dedup_cons_of_mem again]
    exact (length_filter_eq_succ (List.nodup_dedup _) (List.mem_dedup.mpr again) (by simp [absent])
      madeNone fun i mem other => by rw [tables i (List.mem_dedup.mp mem) other]).symm
  · have rest : (as.map pdx).dedup.filter (fun i => (tableOf m' pgdir i).isNone) =
        (as.map pdx).dedup.filter (fun i => (tableOf m pgdir i).isNone) :=
      List.filter_congr fun i mem => by
        rw [tables i (List.mem_dedup.mp mem) fun same => again (same ▸ List.mem_dedup.mp mem)]
    rw [List.dedup_cons_of_notMem again, List.filter_cons, rest]
    simp [absent]

/-- **The pages of a range.** On a well-formed directory, the turns at `n` pages from an aligned
`a`, none of them mapped, with a free page for each table missing, map the `k`-th page to
`pa + k * PGSIZE` and return 0. The tables stay well formed and keep those there were; the free
list loses one page for each table missing, and every other page is mapped as before. The
induction is on the pages. -/
theorem mapPages_spec {perm : Nat} (low : perm < pgSize) : ∀ n a pa (m : Machine),
    TableWf kend m pgdir → a % pgSize = 0 → a + n * pgSize ≤ 2 ^ 32 → pa % pgSize = 0 →
    pa < 2 ^ 32 → (∀ k < n, pageOf m pgdir (a + k * pgSize) = none) →
    missingTables m pgdir (List.range' a n pgSize) ≤ m.freelist.length →
    ∃ m', (mapPages pgdir perm (List.range' a n pgSize) pa).run m = pure (0, m') ∧
      TableWf kend m' pgdir ∧
      m'.freelist = m.freelist.drop (missingTables m pgdir (List.range' a n pgSize)) ∧
      (∀ i < nPdEntries, (tableOf m pgdir i).isSome → tableOf m' pgdir i = tableOf m pgdir i) ∧
      ∀ va < 2 ^ 32, pageOf m' pgdir va =
        if a ≤ va ∧ va < a + n * pgSize then some (u32 (pa + (va / pgSize - a / pgSize) * pgSize))
        else pageOf m pgdir va
  | 0, a, pa, m, wf, _, _, _, _, _, _ =>
    ⟨m, rfl, wf, by simp [missingTables], fun _ _ _ => rfl, fun va _ => by simp⟩
  | n + 1, a, pa, m, wf, alignedA, fits, alignedPa, paWord, unmapped, room => by
    rw [List.range'_succ] at room ⊢
    have word : a < 2 ^ 32 := by rw [pgSize_eq] at fits; omega
    obtain ⟨m₁, run₁, wf₁, made, tables₁, list₁, mapped, others⟩ :=
      mapPage_spec wf word (by simpa using unmapped 0 (by omega))
        (fun absent empty => by
          have first : 0 < missingTables m pgdir (a :: List.range' (a + pgSize) n pgSize) :=
            missingTables_pos absent
          simp [empty] at room
          omega)
        alignedPa paWord low
    -- the later pages are still unmapped, and what they miss is counted from `m₁`
    have later : ∀ k < n, pageOf m₁ pgdir (a + pgSize + k * pgSize) = none := by
      intro k within
      rw [others _ (by rw [pgSize_eq] at *; omega) (by rw [pgSize_eq]; omega)]
      simpa [Nat.add_mul, Nat.add_assoc, Nat.add_comm] using unmapped (k + 1) (by omega)
    have count : missingTables m₁ pgdir (List.range' (a + pgSize) n pgSize) +
        (if (tableOf m pgdir (pdx a)).isSome then 0 else 1) =
          missingTables m pgdir (a :: List.range' (a + pgSize) n pgSize) := by
      split
      next present =>
        -- no table was made: the tables are those of `m`
        refine missingTables_cons_of_isSome present fun i mem => tables₁ i ?_ ?_
        · obtain ⟨_, _, rfl⟩ := List.mem_map.mp mem
          exact pdx_lt _
        · rcases eq_or_ne i (pdx a) with same | other
          · exact .inr (same ▸ present)
          · exact .inl other
      next absent =>
        exact missingTables_cons_of_none (Option.not_isSome_iff_eq_none.mp absent) made
          fun i mem other => tables₁ i (by obtain ⟨_, _, rfl⟩ := List.mem_map.mp mem; exact pdx_lt _)
            (.inl other)
    have room₁ : missingTables m₁ pgdir (List.range' (a + pgSize) n pgSize) ≤ m₁.freelist.length := by
      rw [list₁]
      split at count
      next present => rw [if_pos present]; omega
      next absent => rw [if_neg absent, List.length_tail]; omega
    obtain ⟨m', run', wf', list', tables', pages'⟩ :=
      mapPages_spec low n (a + pgSize) (u32 (pa + pgSize)) m₁ wf₁ (by rw [pgSize_eq] at *; omega)
        (by rw [pgSize_eq] at *; omega) (by rw [u32_mod_pgSize, pgSize_eq] at *; omega) (u32_lt _)
        later room₁
    refine ⟨m', ?_, wf', ?_, fun i entry known => ?_, fun va vaWord => ?_⟩
    · simp only [mapPages, StateT.run_bind, run₁, pure_bind, ↓reduceIte, run']
    · rw [list', list₁, ← count]
      split
      · rfl
      · rw [List.drop_tail]
    · have kept₁ : tableOf m₁ pgdir i = tableOf m pgdir i := tables₁ i entry (.inr known)
      rw [tables' i entry (by rw [kept₁]; exact known), kept₁]
    · rw [pages' va vaWord]
      by_cases first : va / pgSize = a / pgSize
      · -- the page of `a`
        rw [if_neg (by rw [pgSize_eq] at *; omega), pageOf_of_div_eq first, mapped,
          if_pos (by rw [pgSize_eq] at *; omega), first, Nat.sub_self, Nat.zero_mul, Nat.add_zero,
          u32_of_lt paWord]
      · rw [others va vaWord first]
        by_cases within : a + pgSize ≤ va ∧ va < a + pgSize + n * pgSize
        · rw [if_pos within, if_pos (by rw [pgSize_eq] at *; omega)]
          have step : (va / pgSize - a / pgSize) * pgSize =
              pgSize + (va / pgSize - (a + pgSize) / pgSize) * pgSize := by
            rw [pgSize_eq] at *
            omega
          rw [step, u32, u32, u32, Nat.mod_add_mod, Nat.add_assoc]
        · rw [if_neg within, if_neg (by rw [pgSize_eq] at *; omega)]

/-- The pages `PGROUNDDOWN(va)`, …, `PGROUNDDOWN(va + size - 1)`. -/
def coverPages (va size : Nat) : List Nat :=
  List.range' (pgRoundDown va) ((va + size - 1) / pgSize - va / pgSize + 1) pgSize

/-- **`mappages` stops.** For `size ≥ 1` and `va + size - 1 < 2 ^ 32`, `mappages` is the turn at
each page of `PGROUNDDOWN(va)`, …, `PGROUNDDOWN(va + size - 1)`. -/
theorem mappages_eq (pgdir va size pa perm : Nat) (pos : 0 < size) (fits : va + size - 1 < 2 ^ 32)
    (m : Machine) : (mappages pgdir va size pa perm).run m = (mapPages pgdir perm (coverPages va size) pa).run m := by
  have last : u32 (va + size + 2 ^ 32 - 1) = va + size - 1 := by rw [u32]; omega
  have count : (pgRoundDown (va + size - 1) - pgRoundDown va) / pgSize = (va + size - 1) / pgSize - va / pgSize := by
    rw [pgRoundDown, pgRoundDown, pgSize_eq]; omega
  rw [mappages, last, mappagesLoop_eq pgdir _ perm (pgRoundDown_mod _)
    (by rw [pgRoundDown, pgSize_eq]; omega) _ _ _ m (pgRoundDown_mod _)
    (by rw [pgRoundDown, pgRoundDown, pgSize_eq]; omega) (by rw [count, pgSize_eq]; omega), count]
  rfl

/-- **`mappages` maps exactly the pages of the range.** On a well-formed directory, when none of
the pages `PGROUNDDOWN(va)`, …, `PGROUNDDOWN(va + size - 1)` is mapped and the free list has a page
for each table missing, `mappages` maps the `k`-th of them to `pa + k * PGSIZE` (a `uint`) and
returns 0. The tables stay well formed and keep those there were, the free list loses a page for
each table missing, and every other page is mapped as before. -/
theorem mappages_spec (wf : TableWf kend m pgdir) {va size pa perm : Nat} (pos : 0 < size)
    (fits : va + size - 1 < 2 ^ 32)
    (unmapped : ∀ va' < 2 ^ 32, va / pgSize ≤ va' / pgSize → va' / pgSize ≤ (va + size - 1) / pgSize →
      pageOf m pgdir va' = none)
    (room : missingTables m pgdir (coverPages va size) ≤ m.freelist.length)
    (aligned : pa % pgSize = 0) (paWord : pa < 2 ^ 32) (low : perm < pgSize) :
    ∃ m', (mappages pgdir va size pa perm).run m = pure (0, m') ∧ TableWf kend m' pgdir ∧
      m'.freelist = m.freelist.drop (missingTables m pgdir (coverPages va size)) ∧
      (∀ i < nPdEntries, (tableOf m pgdir i).isSome → tableOf m' pgdir i = tableOf m pgdir i) ∧
      ∀ va' < 2 ^ 32, pageOf m' pgdir va' =
        if va / pgSize ≤ va' / pgSize ∧ va' / pgSize ≤ (va + size - 1) / pgSize then
          some (u32 (pa + (va' / pgSize - va / pgSize) * pgSize))
        else pageOf m pgdir va' := by
  obtain ⟨m', run, wf', list, tables, pages⟩ :=
    mapPages_spec low _ (pgRoundDown va) pa m wf (pgRoundDown_mod _)
      (by rw [pgRoundDown, pgSize_eq] at *; omega) aligned paWord
      (fun k within => unmapped _ (by rw [pgRoundDown, pgSize_eq] at *; omega)
        (by rw [pgRoundDown, pgSize_eq] at *; omega) (by rw [pgRoundDown, pgSize_eq] at *; omega))
      room
  refine ⟨m', by rw [mappages_eq pgdir va size pa perm pos fits, coverPages, run], wf', list, tables,
    fun va' word => ?_⟩
  have start : pgRoundDown va / pgSize = va / pgSize := by rw [pgRoundDown, pgSize_eq]; omega
  rw [pages va' word, start]
  congr 1
  simp only [pgRoundDown, pgSize_eq] at *
  apply propext
  omega

end Range

/-! ### The page loops of `vm.c` -/

section Loops

/-- What the page loops of `deallocuvm` and `mappages` do on the directory at `pgdir`, with the
kernel's `end` at `kend`. -/
structure PageLoops (kend pgdir : Nat) : Prop where
  /-- Below `KERNBASE`, on every machine, `deallocuvm` is the turn at each page of
  `[PGROUNDUP(newsz), oldsz)`: its loop stops. -/
  dealloc_stops : ∀ (m : Machine) (oldsz newsz : Nat), oldsz ≤ kernBase →
    (deallocuvm kend pgdir oldsz newsz).run m =
      if oldsz ≤ newsz then pure (oldsz, m)
      else (forM (pageRange (pgRoundUp newsz) oldsz) (unmapPage kend pgdir)).run m >>= fun r =>
        pure (newsz, r.2)
  /-- The move past a missing page table does not wrap: it goes up, to the last page before the
  next entry of the directory. -/
  skip : ∀ a < kernBase, u32 (pgAddr (pdx a + 1) 0 0 + 2 ^ 32 - pgSize) = (pdx a + 1) * 2 ^ 22 - pgSize ∧
    a < (pdx a + 1) * 2 ^ 22
  /-- On a well-formed directory, `deallocuvm` frees the pages mapped in the range, each once and
  in order, clears their PTEs, and changes nothing else. -/
  dealloc : ∀ (m : Machine) (oldsz newsz : Nat), PgdirWf kend m pgdir → oldsz ≤ kernBase →
    newsz < oldsz →
    ∃ m', (deallocuvm kend pgdir oldsz newsz).run m = pure (newsz, m') ∧ PgdirWf kend m' pgdir ∧
      (∀ i < nPdEntries, tableOf m' pgdir i = tableOf m pgdir i) ∧
      m'.freelist =
        (((pageRange (pgRoundUp newsz) oldsz).filterMap (pageOf m pgdir)).map p2v).reverse ++ m.freelist ∧
      (∀ va < kernBase, pageOf m' pgdir va =
        if pgRoundUp newsz ≤ va ∧ pgRoundDown va < oldsz then none else pageOf m pgdir va) ∧
      ∀ a, m'.mem a ≠ m.mem a → ∃ va ∈ pageRange (pgRoundUp newsz) oldsz, Touched m pgdir va a
  /-- For `size ≥ 1` and `va + size - 1 < 2 ^ 32`, on every machine, `mappages` is the turn at each
  page of `PGROUNDDOWN(va)`, …, `PGROUNDDOWN(va + size - 1)`: its loop stops. -/
  mappages_stops : ∀ (m : Machine) (va size pa perm : Nat), 0 < size → va + size - 1 < 2 ^ 32 →
    (mappages pgdir va size pa perm).run m = (mapPages pgdir perm (coverPages va size) pa).run m
  /-- On a well-formed directory, with those pages unmapped and a free page for each table
  missing, `mappages` maps the `k`-th of them to `pa + k * PGSIZE`, and changes no other
  mapping. -/
  mappages : ∀ (m : Machine) (va size pa perm : Nat), TableWf kend m pgdir → 0 < size →
    va + size - 1 < 2 ^ 32 →
    (∀ va' < 2 ^ 32, va / pgSize ≤ va' / pgSize → va' / pgSize ≤ (va + size - 1) / pgSize →
      pageOf m pgdir va' = none) →
    missingTables m pgdir (coverPages va size) ≤ m.freelist.length →
    pa % pgSize = 0 → pa < 2 ^ 32 → perm < pgSize →
    ∃ m', (mappages pgdir va size pa perm).run m = pure (0, m') ∧ TableWf kend m' pgdir ∧
      m'.freelist = m.freelist.drop (missingTables m pgdir (coverPages va size)) ∧
      (∀ i < nPdEntries, (tableOf m pgdir i).isSome → tableOf m' pgdir i = tableOf m pgdir i) ∧
      ∀ va' < 2 ^ 32, pageOf m' pgdir va' =
        if va / pgSize ≤ va' / pgSize ∧ va' / pgSize ≤ (va + size - 1) / pgSize then
          some (u32 (pa + (va' / pgSize - va / pgSize) * pgSize))
        else pageOf m pgdir va'

/-- A directory at `0x80001000` whose entry 0 points at the page table at `0x80002000`, where the
PTE of address 0 is present with address 0. -/
def zeroPte : Machine where
  mem a := if a = 0x80001000 then 0x2007 else if a = 0x80002000 then 1 else 0
  freelist := []

end Loops

end Xv6.Vm
