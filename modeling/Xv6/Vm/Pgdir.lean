import Xv6.Vm.Uvm

/-!
**Reading a page directory, and the invariant the kernel keeps on it.**

`tableOf`, `pteOf` and `pageOf` read the machine as the hardware does: the page table of a
directory entry, the PTE of an address, and the physical page an address is mapped to. The run
lemmas of `kalloc`, `kfree` and `walkpgdir` say what each does to the machine in those terms.

The invariant comes in two layers. `TableWf` is about the directory and its page tables: whole
pages, apart from each other and from the free pages, and a free list of pages `kfree` took
back, each once. `PgdirWf` adds the pages mapped in the user half: each one `kfree` takes back,
apart from the directory, the tables and the free pages, and mapped at one address only. From
them: two pages have two PTEs (`TableWf.pte_ne`), and a change inside a page that is neither the
directory nor a table keeps the tables and the other pages' mappings (`TableWf.tableOf_frame`,
`TableWf.pageOf_frame`).
-/

namespace Xv6.Vm

/-! ### Reading a page directory -/

section Views

/-- The page table of entry `i` of the directory at `pgdir`, by its kernel address, when the entry
is present. -/
def tableOf (m : Machine) (pgdir i : Nat) : Option Nat :=
  if (m.mem (pgdir + 4 * i)).toNat &&& pteP ≠ 0 then some (p2v (pteAddr (m.mem (pgdir + 4 * i)).toNat))
  else none

/-- Where the PTE of `va` is, when its page table is present. -/
def pteOf (m : Machine) (pgdir va : Nat) : Option Nat :=
  (tableOf m pgdir (pdx va)).map (· + 4 * ptx va)

/-- The physical page `va` is mapped to, when its PTE is present. -/
def pageOf (m : Machine) (pgdir va : Nat) : Option Nat :=
  (pteOf m pgdir va).bind fun pte =>
    if (m.mem pte).toNat &&& pteP ≠ 0 then some (pteAddr (m.mem pte).toNat) else none

/-- A page of physical memory, at its kernel address. -/
def IsPage (v : Nat) : Prop := v % pgSize = 0 ∧ kernBase ≤ v ∧ v < kernBase + phyStop

/-- A page `kfree` takes back. -/
def Freeable (kend v : Nat) : Prop := IsPage v ∧ kend ≤ v

variable {m : Machine} {pgdir : Nat}

theorem tableOf_mod {i t : Nat} (found : tableOf m pgdir i = some t) : t % pgSize = 0 := by
  unfold tableOf at found
  split at found
  · rw [← Option.some_injective _ found]
    exact p2v_mod (pteAddr_mod _)
  · exact absurd found (by simp)

/-- Two addresses in one page have one PTE. -/
theorem pteOf_of_div_eq {va va' : Nat} (same : va / pgSize = va' / pgSize) :
    pteOf m pgdir va = pteOf m pgdir va' := by
  have dir : pdx va = pdx va' := by
    simp only [pdx, pgSize_eq, Nat.reducePow] at *
    omega
  have table : ptx va = ptx va' := by
    simp only [ptx, pgSize_eq, Nat.reducePow] at *
    omega
  rw [pteOf, pteOf, dir, table]

theorem pageOf_of_div_eq {va va' : Nat} (same : va / pgSize = va' / pgSize) :
    pageOf m pgdir va = pageOf m pgdir va' := by
  rw [pageOf, pageOf, pteOf_of_div_eq same]

/-- The directory reads the same from a machine that keeps the words of its entries. -/
theorem tableOf_congr {m' : Machine} {i : Nat} (same : m'.mem (pgdir + 4 * i) = m.mem (pgdir + 4 * i)) :
    tableOf m' pgdir i = tableOf m pgdir i := by
  rw [tableOf, tableOf, same]

theorem pageOf_congr {m' : Machine} {va : Nat}
    (tables : tableOf m' pgdir (pdx va) = tableOf m pgdir (pdx va))
    (entry : ∀ pte, pteOf m pgdir va = some pte → m'.mem pte = m.mem pte) :
    pageOf m' pgdir va = pageOf m pgdir va := by
  have walks : pteOf m' pgdir va = pteOf m pgdir va := by rw [pteOf, pteOf, tables]
  unfold pageOf
  rw [walks]
  cases found : pteOf m pgdir va with
  | none => rfl
  | some pte => simp only [Option.bind_some, entry pte found]

theorem pageOf_eq_some {va pa : Nat} :
    pageOf m pgdir va = some pa ↔ ∃ pte, pteOf m pgdir va = some pte ∧
      (m.mem pte).toNat &&& pteP ≠ 0 ∧ pteAddr (m.mem pte).toNat = pa := by
  unfold pageOf
  cases pteOf m pgdir va with
  | none => simp
  | some pte => by_cases absent : (m.mem pte).toNat &&& pteP = 0 <;> simp [absent]

/-- A word of memory is below `2 ^ 32`. -/
theorem pteAddr_lt (w : UInt32) : pteAddr w.toNat < 2 ^ 32 :=
  lt_of_le_of_lt (pteAddr_le _) w.toNat_lt

theorem pageOf_lt {va pa : Nat} (found : pageOf m pgdir va = some pa) : pa < 2 ^ 32 := by
  unfold pageOf at found
  cases walks : pteOf m pgdir va with
  | none => simp [walks] at found
  | some pte =>
    simp only [walks, Option.bind_some] at found
    split at found
    · rw [← Option.some_injective _ found]
      exact pteAddr_lt _
    · exact absurd found (by simp)

theorem p2v_injective {x y : Nat} (hx : x < 2 ^ 32) (hy : y < 2 ^ 32) (same : p2v x = p2v y) :
    x = y := by
  simp only [p2v, u32, kernBase_eq] at same
  omega

end Views

/-! ### The primitives -/

section Primitives

@[simp] theorem store_run (p : Nat) (v : UInt32) (m : Machine) :
    (store p v).run m = pure ((), { m with mem := Function.update m.mem p v }) := rfl

@[simp] theorem fillPage_run (v : Nat) (w : UInt32) (m : Machine) :
    (fillPage v w).run m =
      pure ((), { m with mem := fun a => if v ≤ a ∧ a < v + pgSize then w else m.mem a }) := rfl

theorem kalloc_run_nil {m : Machine} (empty : m.freelist = []) : kalloc.run m = pure (none, m) := by
  simp [kalloc, empty]

theorem kalloc_run_cons {m : Machine} {r : Nat} {rest : List Nat} (head : m.freelist = r :: rest) :
    kalloc.run m = pure (some r, { m with freelist := rest }) := by
  simp [kalloc, head]

/-- Without allocation `walkpgdir` reads the directory and changes nothing. -/
theorem walkpgdir_run_false (pgdir va : Nat) (m : Machine) :
    (walkpgdir pgdir va false).run m = pure (pteOf m pgdir va, m) := by
  unfold walkpgdir pteOf tableOf
  by_cases absent : (m.mem (pgdir + 4 * pdx va)).toNat &&& pteP = 0 <;> simp [absent]

theorem walkpgdir_run_present {pgdir va t : Nat} {m : Machine}
    (found : tableOf m pgdir (pdx va) = some t) :
    (walkpgdir pgdir va true).run m = pure (some (t + 4 * ptx va), m) := by
  unfold tableOf at found
  split at found
  next present =>
    rw [← Option.some_injective _ found]
    simp only [walkpgdir, StateT.run_bind, StateT.run_get, pure_bind]
    rw [if_pos present]
    rfl
  next => exact absurd found (by simp)

theorem walkpgdir_run_empty {pgdir va : Nat} {m : Machine} (absent : tableOf m pgdir (pdx va) = none)
    (empty : m.freelist = []) : (walkpgdir pgdir va true).run m = pure (none, m) := by
  unfold tableOf at absent
  split at absent
  next => exact absurd absent (by simp)
  next notPresent =>
    simp only [walkpgdir, StateT.run_bind, StateT.run_get, pure_bind]
    rw [if_neg notPresent]
    simp [kalloc_run_nil empty]

/-- With `alloc`, a missing page table is the first free page, zeroed and entered in the
directory. -/
theorem walkpgdir_run_alloc {pgdir va pgtab : Nat} {rest : List Nat} {m : Machine}
    (absent : tableOf m pgdir (pdx va) = none) (head : m.freelist = pgtab :: rest) :
    (walkpgdir pgdir va true).run m = pure (some (pgtab + 4 * ptx va),
      { mem := Function.update (fun a => if pgtab ≤ a ∧ a < pgtab + pgSize then 0 else m.mem a)
          (pgdir + 4 * pdx va) (UInt32.ofNat (v2p pgtab ||| pteP ||| pteW ||| pteU)),
        freelist := rest }) := by
  unfold tableOf at absent
  split at absent
  next => exact absurd absent (by simp)
  next notPresent =>
    simp only [walkpgdir, StateT.run_bind, StateT.run_get, pure_bind]
    rw [if_neg notPresent]
    simp [kalloc_run_cons head]

/-- `kfree` of a page it takes back pushes it on the free list, and changes no word outside it. -/
theorem kfree_run {kend v : Nat} (m : Machine) (ok : Freeable kend v) :
    ∃ m', (kfree kend v).run m = pure ((), m') ∧ m'.freelist = v :: m.freelist ∧
      ∀ a, ¬(v ≤ a ∧ a < v + pgSize) → m'.mem a = m.mem a := by
  obtain ⟨⟨aligned, high, low⟩, above⟩ := ok
  have passes : ¬(v % pgSize ≠ 0 ∨ v < kend ∨ v2p v ≥ phyStop) := by
    rw [v2p_of_le high (by rw [kernBase_eq] at *; unfold phyStop at low; omega)]
    omega
  refine ⟨_, by simp [kfree, passes]; rfl, rfl, fun a outside => ?_⟩
  have : a ≠ v := by rw [pgSize_eq] at outside; omega
  simp [Function.update_of_ne this, outside]

end Primitives

/-! ### The invariant of a page directory -/

section Invariant

/-- A page directory and its page tables as the kernel keeps them: pages apart from each other
and from the free pages, and a free list of pages `kfree` took back, each once. -/
structure TableWf (kend : Nat) (m : Machine) (pgdir : Nat) : Prop where
  dir_aligned : pgdir % pgSize = 0
  dir_free : pgdir ∉ m.freelist
  table_apart : ∀ i < nPdEntries, ∀ t, tableOf m pgdir i = some t → t ≠ pgdir ∧ t ∉ m.freelist
  table_inj : ∀ i < nPdEntries, ∀ j < nPdEntries, ∀ t,
    tableOf m pgdir i = some t → tableOf m pgdir j = some t → i = j
  free_page : ∀ v ∈ m.freelist, Freeable kend v
  free_nodup : m.freelist.Nodup

/-- A page directory as the kernel keeps it, with the pages of its user half: each one `kfree`
takes back, apart from the directory, the tables and the free pages, and mapped at one address
only. -/
structure PgdirWf (kend : Nat) (m : Machine) (pgdir : Nat) : Prop extends TableWf kend m pgdir where
  page : ∀ va < kernBase, ∀ pa, pageOf m pgdir va = some pa →
    pa ≠ 0 ∧ Freeable kend (p2v pa) ∧ p2v pa ≠ pgdir ∧
      (∀ i < nPdEntries, tableOf m pgdir i ≠ some (p2v pa)) ∧ p2v pa ∉ m.freelist
  page_inj : ∀ va < kernBase, ∀ va' < kernBase, ∀ pa,
    pageOf m pgdir va = some pa → pageOf m pgdir va' = some pa → va / pgSize = va' / pgSize

variable {kend : Nat} {m : Machine} {pgdir : Nat}

theorem pteOf_eq_some {va pte : Nat} :
    pteOf m pgdir va = some pte ↔ ∃ t, tableOf m pgdir (pdx va) = some t ∧ pte = t + 4 * ptx va := by
  simp [pteOf, eq_comm]

/-- Two pages have two PTEs. -/
theorem TableWf.pte_ne (wf : TableWf kend m pgdir) {va va' pte pte' : Nat} (word : va < 2 ^ 32)
    (word' : va' < 2 ^ 32) (apart : va / pgSize ≠ va' / pgSize) (walks : pteOf m pgdir va = some pte)
    (walks' : pteOf m pgdir va' = some pte') : pte ≠ pte' := by
  obtain ⟨t, found, rfl⟩ := pteOf_eq_some.1 walks
  obtain ⟨t', found', rfl⟩ := pteOf_eq_some.1 walks'
  have offset := ptx_lt va
  have offset' := ptx_lt va'
  unfold nPdEntries at offset offset'
  by_cases dir : pdx va = pdx va'
  · -- one page table: the page-table indices differ
    have table : ptx va ≠ ptx va' := fun table => apart (div_pgSize_eq word word' dir table)
    rw [dir, found'] at found
    cases found
    omega
  · -- two page tables, apart
    have other : t ≠ t' := fun same =>
      dir (wf.table_inj _ (pdx_lt va) _ (pdx_lt va') t found (same ▸ found'))
    have aligned := tableOf_mod found
    have aligned' := tableOf_mod found'
    rw [pgSize_eq] at aligned aligned'
    omega

/-- A page that is not the directory holds none of its entries. -/
theorem TableWf.pde_outside (wf : TableWf kend m pgdir) {v i : Nat} (aligned : v % pgSize = 0)
    (other : v ≠ pgdir) (entry : i < nPdEntries) : ¬(v ≤ pgdir + 4 * i ∧ pgdir + 4 * i < v + pgSize) := by
  have dir := wf.dir_aligned
  unfold nPdEntries at entry
  rw [pgSize_eq] at *
  omega

/-- A page that is not a page table holds no PTE. -/
theorem pte_outside {va pte v : Nat} (walks : pteOf m pgdir va = some pte) (aligned : v % pgSize = 0)
    (other : ∀ i < nPdEntries, tableOf m pgdir i ≠ some v) : ¬(v ≤ pte ∧ pte < v + pgSize) := by
  obtain ⟨t, found, rfl⟩ := pteOf_eq_some.1 walks
  have ne : t ≠ v := fun same => other _ (pdx_lt va) (same ▸ found)
  have table := tableOf_mod found
  have offset := ptx_lt va
  unfold nPdEntries at offset
  rw [pgSize_eq] at *
  omega

/-- No PTE is an entry of the directory. -/
theorem TableWf.pte_ne_pde (wf : TableWf kend m pgdir) {va pte i : Nat}
    (walks : pteOf m pgdir va = some pte) (entry : i < nPdEntries) : pte ≠ pgdir + 4 * i := by
  obtain ⟨t, found, rfl⟩ := pteOf_eq_some.1 walks
  have ne := (wf.table_apart _ (pdx_lt va) t found).1
  have table := tableOf_mod found
  have dir := wf.dir_aligned
  have offset := ptx_lt va
  unfold nPdEntries at offset entry
  rw [pgSize_eq] at *
  omega

/-- A machine that differs from `m` only inside a page `v` that is neither the directory nor a page
table, and at the PTE of `va`, has the page tables of `m`. -/
theorem TableWf.tableOf_frame (wf : TableWf kend m pgdir) {m' : Machine} {v va pte : Nat}
    (aligned : v % pgSize = 0) (other : v ≠ pgdir) (walks : pteOf m pgdir va = some pte)
    (frame : ∀ a, ¬(v ≤ a ∧ a < v + pgSize) → a ≠ pte → m'.mem a = m.mem a) {i : Nat}
    (entry : i < nPdEntries) : tableOf m' pgdir i = tableOf m pgdir i :=
  tableOf_congr (frame _ (wf.pde_outside aligned other entry) (wf.pte_ne_pde walks entry).symm)

/-- ... and maps every other page of the user half as `m` does. -/
theorem TableWf.pageOf_frame (wf : TableWf kend m pgdir) {m' : Machine} {v va pte : Nat}
    (aligned : v % pgSize = 0) (other : v ≠ pgdir) (notTable : ∀ i < nPdEntries, tableOf m pgdir i ≠ some v)
    (word : va < 2 ^ 32) (walks : pteOf m pgdir va = some pte)
    (frame : ∀ a, ¬(v ≤ a ∧ a < v + pgSize) → a ≠ pte → m'.mem a = m.mem a) {va' : Nat}
    (word' : va' < 2 ^ 32) (apart : va' / pgSize ≠ va / pgSize) :
    pageOf m' pgdir va' = pageOf m pgdir va' :=
  pageOf_congr (wf.tableOf_frame aligned other walks frame (pdx_lt va')) fun _ walks' =>
    frame _ (pte_outside walks' aligned notTable) (wf.pte_ne word' word apart walks' walks)

end Invariant

end Xv6.Vm
