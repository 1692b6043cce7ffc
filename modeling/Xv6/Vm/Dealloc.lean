import Xv6.Vm.Pgdir

/-!
**`deallocuvm`, and the sizes `growproc` asks of it.**

The loop of `deallocuvm` is taken apart in two steps. `unmapPage` is its turn at one page, without
the move of `a`: on a well-formed directory it frees the page mapped there and clears its PTE,
keeping the invariant (`unmapPage_spec`); over distinct pages of the user half the turns do so
page after page (`unmapPages_spec`, by induction on the pages). The loop itself, with its move
past a missing page table, is the turn at each page of the range (`deallocLoop_eq`, by induction
on the fuel): for `oldsz ≤ KERNBASE` the move does not wrap (`deallocSkip_eq`) and skips only
pages that have no table, and the loop stops within its fuel.

* `deallocuvm_spec` — `deallocuvm` frees exactly the pages mapped in `[PGROUNDUP(newsz), oldsz)`,
  each once, clears their PTEs and changes nothing else;
* `growproc_to_zero` — `growproc(-sz)` frees every page of the process and then returns -1, the
  new size 0 being the value that means failure;
* `growproc_wraps` — `sbrk(-0x4000)` of a process of three pages succeeds without moving the
  break: `sz + n` wraps above the old size.
-/

namespace Xv6.Vm

/-! ### One page of `deallocuvm` -/

section Unmap

/-- The turn of the loop of `deallocuvm` at the page `va`, leaving out the move of `a`: the body at
the PTE `walkpgdir` finds. -/
def unmapPage (kend pgdir va : Nat) : VmM Unit := do
  match ← walkpgdir pgdir va false with
  | none => pure ()
  | some pte => freePte kend pte

/-- The words the turn at `va` may change: the page `va` is mapped to, and its PTE. -/
def Touched (m : Machine) (pgdir va a : Nat) : Prop :=
  ∃ pa, pageOf m pgdir va = some pa ∧ ((p2v pa ≤ a ∧ a < p2v pa + pgSize) ∨ pteOf m pgdir va = some a)

variable {kend : Nat} {m : Machine} {pgdir : Nat}

theorem unmapPage_run_of_none {va : Nat} (absent : pageOf m pgdir va = none) :
    (unmapPage kend pgdir va).run m = pure ((), m) := by
  cases walks : pteOf m pgdir va with
  | none => simp [unmapPage, walkpgdir_run_false, walks]
  | some pte =>
    have notPresent : (m.mem pte).toNat &&& pteP = 0 := by
      by_contra present
      rw [Option.eq_none_iff_forall_ne_some] at absent
      exact absent _ (pageOf_eq_some.2 ⟨pte, walks, present, rfl⟩)
    simp [unmapPage, walkpgdir_run_false, walks, freePte, notPresent]

theorem unmapPage_run_of_some (wf : PgdirWf kend m pgdir) {va pa pte : Nat} (low : va < kernBase)
    (found : pageOf m pgdir va = some pa) (walks : pteOf m pgdir va = some pte) :
    ∃ m', (unmapPage kend pgdir va).run m = pure ((), m') ∧ m'.freelist = p2v pa :: m.freelist ∧
      m'.mem pte = 0 ∧ ∀ a, ¬(p2v pa ≤ a ∧ a < p2v pa + pgSize) → a ≠ pte → m'.mem a = m.mem a := by
  obtain ⟨nonzero, freeable, -⟩ := wf.page va low pa found
  obtain ⟨pte', walks', present, rfl⟩ := pageOf_eq_some.1 found
  obtain rfl : pte' = pte := Option.some_injective _ (walks'.symm.trans walks)
  obtain ⟨m₁, freed, list, kept⟩ := kfree_run m freeable
  refine ⟨{ m₁ with mem := Function.update m₁.mem pte' 0 }, ?_, list, by simp, fun a outside other => ?_⟩
  · simp only [unmapPage, StateT.run_bind, walkpgdir_run_false, walks, pure_bind, freePte,
      StateT.run_get]
    rw [if_pos present, if_neg nonzero, StateT.run_bind, freed]
    rfl
  · simp [Function.update_of_ne other, kept a outside]

/-- **One page of `deallocuvm`.** On a well-formed directory, the turn at a page `va` of the user
half frees the page `va` is mapped to and clears its PTE: the directory stays well formed, keeps
its page tables and maps every other page as before, and no word changes but the page freed and
the PTE. -/
theorem unmapPage_spec (wf : PgdirWf kend m pgdir) {va : Nat} (low : va < kernBase) :
    ∃ m', (unmapPage kend pgdir va).run m = pure ((), m') ∧ PgdirWf kend m' pgdir ∧
      (∀ i < nPdEntries, tableOf m' pgdir i = tableOf m pgdir i) ∧
      m'.freelist = ((pageOf m pgdir va).map p2v).toList ++ m.freelist ∧
      (∀ va' < kernBase, pageOf m' pgdir va' =
        if va' / pgSize = va / pgSize then none else pageOf m pgdir va') ∧
      ∀ a, m'.mem a ≠ m.mem a → Touched m pgdir va a := by
  cases found : pageOf m pgdir va with
  | none =>
    refine ⟨m, unmapPage_run_of_none found, wf, fun _ _ => rfl, by simp, fun va' _ => ?_,
      fun a changed => absurd rfl changed⟩
    split
    next same => rw [pageOf_of_div_eq same, found]
    next => rfl
  | some pa =>
    obtain ⟨pte, walks, -⟩ := pageOf_eq_some.1 found
    obtain ⟨m', run, list, cleared, frame⟩ := unmapPage_run_of_some wf low found walks
    obtain ⟨nonzero, freeable, other, notTable, notFree⟩ := wf.page va low pa found
    have aligned := freeable.1.1
    have word : va < 2 ^ 32 := by rw [kernBase_eq] at low; omega
    have tables : ∀ i < nPdEntries, tableOf m' pgdir i = tableOf m pgdir i :=
      fun i entry => wf.tableOf_frame aligned other walks frame entry
    have pages : ∀ va' < kernBase, pageOf m' pgdir va' =
        if va' / pgSize = va / pgSize then none else pageOf m pgdir va' := by
      intro va' low'
      split
      next same =>
        -- the PTE of `va'` is the PTE of `va`, now 0
        have walks' : pteOf m' pgdir va' = some pte := by
          rw [pteOf_of_div_eq same, pteOf, tables _ (pdx_lt va)]
          exact walks
        rw [Option.eq_none_iff_forall_ne_some]
        intro pa' found'
        obtain ⟨pte', walks'', present, -⟩ := pageOf_eq_some.1 found'
        rw [walks', Option.some_inj] at walks''
        subst walks''
        simp [cleared] at present
      next apart =>
        exact wf.pageOf_frame aligned other notTable word walks frame
          (by rw [kernBase_eq] at low'; omega) apart
    have kept : ∀ va' < kernBase, ∀ pa', pageOf m' pgdir va' = some pa' →
        pageOf m pgdir va' = some pa' ∧ p2v pa' ≠ p2v pa := by
      intro va' low' pa' found'
      rw [pages va' low'] at found'
      split at found'
      · cases found'
      next apart =>
        refine ⟨found', fun same => apart ?_⟩
        have one : pa' = pa := p2v_injective (pageOf_lt found') (pageOf_lt found) same
        exact wf.page_inj va' low' va low pa (one ▸ found') found
    refine ⟨m', run, ⟨⟨wf.dir_aligned, ?_, ?_, ?_, ?_, ?_⟩, ?_, ?_⟩, tables, by simp [list], pages, ?_⟩
    · simpa [list] using ⟨other.symm, wf.dir_free⟩
    · intro i entry t table
      rw [tables i entry] at table
      obtain ⟨notDir, free⟩ := wf.table_apart i entry t table
      refine ⟨notDir, ?_⟩
      simpa [list, free] using fun same : t = p2v pa => notTable i entry (same ▸ table)
    · intro i entry j entry' t table table'
      rw [tables i entry] at table
      rw [tables j entry'] at table'
      exact wf.table_inj i entry j entry' t table table'
    · intro v free
      rw [list, List.mem_cons] at free
      rcases free with same | free
      · rw [same]
        exact freeable
      · exact wf.free_page v free
    · rw [list]
      exact List.nodup_cons.mpr ⟨notFree, wf.free_nodup⟩
    · intro va' low' pa' found'
      obtain ⟨before, ne⟩ := kept va' low' pa' found'
      obtain ⟨nonzero', freeable', other', notTable', notFree'⟩ := wf.page va' low' pa' before
      refine ⟨nonzero', freeable', other', fun i entry => by rw [tables i entry]; exact notTable' i entry, ?_⟩
      simp [list, ne, notFree']
    · intro va₁ low₁ va₂ low₂ pa' found₁ found₂
      exact wf.page_inj va₁ low₁ va₂ low₂ pa' (kept va₁ low₁ pa' found₁).1 (kept va₂ low₂ pa' found₂).1
    · intro a changed
      refine ⟨pa, found, ?_⟩
      by_cases inside : p2v pa ≤ a ∧ a < p2v pa + pgSize
      · exact .inl inside
      · refine .inr ?_
        by_contra notPte
        exact changed (frame a inside fun same => notPte (same ▸ walks))

/-- The later pages read the same after the turn at `va`. -/
theorem touched_congr {m' : Machine} {va : Nat}
    (tables : tableOf m' pgdir (pdx va) = tableOf m pgdir (pdx va))
    (page : pageOf m' pgdir va = pageOf m pgdir va) (a : Nat) :
    Touched m' pgdir va a ↔ Touched m pgdir va a := by
  have walks : pteOf m' pgdir va = pteOf m pgdir va := by rw [pteOf, pteOf, tables]
  rw [Touched, Touched, page, walks]

/-- **The pages of a range.** Over distinct pages of the user half, the turns free the pages they
are mapped to, in order, and clear their PTEs: the directory stays well formed, keeps its page
tables and maps the other pages as before, and no word changes but those. The induction is on the
pages, with the machine generalized. -/
theorem unmapPages_spec : ∀ (vas : List Nat) (m : Machine), PgdirWf kend m pgdir →
    (∀ va ∈ vas, va < kernBase) → (vas.map (· / pgSize)).Nodup →
    ∃ m', (forM vas (unmapPage kend pgdir)).run m = pure ((), m') ∧ PgdirWf kend m' pgdir ∧
      (∀ i < nPdEntries, tableOf m' pgdir i = tableOf m pgdir i) ∧
      m'.freelist = ((vas.filterMap (pageOf m pgdir)).map p2v).reverse ++ m.freelist ∧
      (∀ va' < kernBase, pageOf m' pgdir va' =
        if va' / pgSize ∈ vas.map (· / pgSize) then none else pageOf m pgdir va') ∧
      ∀ a, m'.mem a ≠ m.mem a → ∃ va ∈ vas, Touched m pgdir va a
  | [], m, wf, _, _ =>
    ⟨m, rfl, wf, fun _ _ => rfl, by simp, fun _ _ => by simp, fun _ changed => absurd rfl changed⟩
  | va :: vas, m, wf, low, distinct => by
    obtain ⟨m₁, run₁, wf₁, tables₁, list₁, pages₁, touched₁⟩ := unmapPage_spec wf (low va (by simp))
    obtain ⟨fresh, distinct⟩ := List.nodup_cons.mp (List.map_cons ▸ distinct)
    have low' : ∀ va' ∈ vas, va' < kernBase := fun va' mem => low va' (by simp [mem])
    -- the later pages are not the page of `va`, and read the same after its turn
    have apart : ∀ va' ∈ vas, va' / pgSize ≠ va / pgSize :=
      fun va' mem same => fresh (List.mem_map.mpr ⟨va', mem, same⟩)
    have rest : ∀ va' ∈ vas, pageOf m₁ pgdir va' = pageOf m pgdir va' := by
      intro va' mem
      rw [pages₁ va' (low' va' mem), if_neg (apart va' mem)]
    obtain ⟨m', run', wf', tables', list', pages', touched'⟩ := unmapPages_spec vas m₁ wf₁ low' distinct
    refine ⟨m', ?_, wf', fun i entry => (tables' i entry).trans (tables₁ i entry), ?_, ?_, ?_⟩
    · simp only [List.forM_cons, StateT.run_bind, run₁, pure_bind, run']
    · rw [list', list₁, List.filterMap_congr rest]
      cases found : pageOf m pgdir va <;> simp [found]
    · intro va' lowVa'
      rw [pages' va' lowVa', pages₁ va' lowVa']
      by_cases mem : va' / pgSize ∈ vas.map (· / pgSize) <;> by_cases same : va' / pgSize = va / pgSize <;>
        simp [mem, same]
    · intro a changed
      by_cases first : m₁.mem a = m.mem a
      · obtain ⟨va', mem, touched⟩ := touched' a (first ▸ changed)
        refine ⟨va', by simp [mem], ?_⟩
        rwa [← touched_congr (tables₁ _ (pdx_lt va')) (rest va' mem)]
      · exact ⟨va, by simp, touched₁ a first⟩

end Unmap

/-! ### The loop of `deallocuvm` -/

section Loop

/-- The pages `a`, `a + PGSIZE`, … below `oldsz`. -/
def pageRange (a oldsz : Nat) : List Nat :=
  List.range' a ((oldsz - a + pgSize - 1) / pgSize) pgSize

theorem lt_of_mem_pageRange {a oldsz va : Nat} (mem : va ∈ pageRange a oldsz) : a ≤ va ∧ va < oldsz := by
  obtain ⟨i, within, rfl⟩ := List.mem_range'.mp mem
  rw [pgSize_eq] at *
  omega

/-- The pages of a range are distinct. -/
theorem pageRange_nodup {a oldsz : Nat} : ((pageRange a oldsz).map (· / pgSize)).Nodup := by
  refine List.Nodup.map_on (fun x mem y mem' same => ?_) (List.nodup_range' _ (by decide))
  obtain ⟨i, -, rfl⟩ := List.mem_range'.mp mem
  obtain ⟨j, -, rfl⟩ := List.mem_range'.mp mem'
  rw [pgSize_eq] at *
  omega

/-- An address is in a page of the range from an aligned `r` when it is above `r` and its page
below `oldsz`. -/
theorem mem_pageRange_map {r oldsz va : Nat} (aligned : r % pgSize = 0) :
    va / pgSize ∈ (pageRange r oldsz).map (· / pgSize) ↔ r ≤ va ∧ pgRoundDown va < oldsz := by
  simp only [List.mem_map, pageRange, List.mem_range', pgRoundDown]
  constructor
  · rintro ⟨x, ⟨i, within, rfl⟩, same⟩
    rw [pgSize_eq] at *
    omega
  · rintro ⟨above, below⟩
    refine ⟨va / pgSize * pgSize, ⟨va / pgSize - r / pgSize, ?_, ?_⟩, ?_⟩ <;> rw [pgSize_eq] at * <;> omega

theorem pageRange_of_le {a oldsz : Nat} (done : oldsz ≤ a) : pageRange a oldsz = [] := by
  have none : (oldsz - a + pgSize - 1) / pgSize = 0 := by rw [pgSize_eq]; omega
  rw [pageRange, none, List.range'_zero]

theorem pageRange_cons {a oldsz : Nat} (below : a < oldsz) :
    pageRange a oldsz = a :: pageRange (a + pgSize) oldsz := by
  have count : (oldsz - a + pgSize - 1) / pgSize = (oldsz - (a + pgSize) + pgSize - 1) / pgSize + 1 := by
    rw [pgSize_eq]; omega
  rw [pageRange, count, List.range'_succ, ← pageRange]

/-- The move of `deallocuvm` past a missing page table does not wrap: below `KERNBASE`, `a` goes to
the last page before the next entry of the directory, which is above `a`. -/
theorem deallocSkip_eq {a : Nat} (low : a < kernBase) :
    u32 (pgAddr (pdx a + 1) 0 0 + 2 ^ 32 - pgSize) = (pdx a + 1) * 2 ^ 22 - pgSize ∧
      a < (pdx a + 1) * 2 ^ 22 := by
  have dir := pdx_lt_of_lt low
  have boundary : pgAddr (pdx a + 1) 0 0 = (pdx a + 1) * 2 ^ 22 := by
    rw [pgAddr, Nat.zero_shiftLeft, Nat.or_zero, Nat.or_zero, Nat.shiftLeft_eq, u32_of_lt (by omega)]
  rw [boundary, u32, pgSize_eq]
  rw [kernBase_eq, pdx] at *
  omega

variable {kend : Nat} {m : Machine} {pgdir : Nat}

/-- The pages up to the next entry of the directory after `a`, when `a` has no page table, do
nothing. The induction is on the pages left before that entry. -/
theorem forM_unmapPage_skip {a oldsz : Nat} (absent : tableOf m pgdir (pdx a) = none)
    (low : a < kernBase) : ∀ n a', a ≤ a' → a' + n * pgSize = (pdx a + 1) * 2 ^ 22 →
      (forM (pageRange a' oldsz) (unmapPage kend pgdir)).run m =
        (forM (pageRange ((pdx a + 1) * 2 ^ 22) oldsz) (unmapPage kend pgdir)).run m
  | 0, a', _, reach => by rw [← reach, Nat.zero_mul, Nat.add_zero]
  | n + 1, a', above, reach => by
    by_cases below : a' < oldsz
    · have dir : pdx a' = pdx a := by
        rw [kernBase_eq, pgSize_eq] at *
        simp only [pdx, Nat.reducePow] at *
        omega
      have unmapped : pageOf m pgdir a' = none := by simp [pageOf, pteOf, dir, absent]
      rw [pageRange_cons below, List.forM_cons, StateT.run_bind, unmapPage_run_of_none unmapped,
        pure_bind]
      exact forM_unmapPage_skip absent low n (a' + pgSize) (by omega) (by rw [← reach]; ring)
    · rw [pageRange_of_le (not_lt.mp below), pageRange_of_le (by omega)]

/-- **The loop of `deallocuvm` stops.** From a page `a` below `oldsz ≤ KERNBASE`, with a turn of fuel
to spare, the loop of `deallocuvm` is the turn at each page of `[a, oldsz)` in order: the move past
a missing page table skips only pages that have none. The induction is on the fuel. -/
theorem deallocLoop_eq {oldsz : Nat} (le : oldsz ≤ kernBase) : ∀ fuel a (m : Machine),
    a % pgSize = 0 → (oldsz - a + pgSize - 1) / pgSize < fuel →
      (deallocLoop kend pgdir oldsz fuel a).run m = (forM (pageRange a oldsz) (unmapPage kend pgdir)).run m
  | 0, _, _, _, enough => absurd enough (Nat.not_lt_zero _)
  | fuel + 1, a, m, aligned, enough => by
    rw [deallocLoop]
    by_cases below : a < oldsz
    · have low : a < kernBase := lt_of_lt_of_le below le
      rw [if_pos below]
      simp only [StateT.run_bind, walkpgdir_run_false, pure_bind]
      cases walks : pteOf m pgdir a with
      | none =>
        obtain ⟨skip, ahead⟩ := deallocSkip_eq low
        have absent : tableOf m pgdir (pdx a) = none := by simpa [pteOf] using walks
        have next : u32 (u32 (pgAddr (pdx a + 1) 0 0 + 2 ^ 32 - pgSize) + pgSize) = (pdx a + 1) * 2 ^ 22 := by
          have dir := pdx_lt_of_lt low
          rw [skip, pgSize_eq, u32_of_lt (by omega)]
          omega
        simp only [next]
        rw [deallocLoop_eq le fuel _ m (by rw [pgSize_eq]; omega) (by rw [pgSize_eq] at *; omega),
          forM_unmapPage_skip absent low ((pdx a + 1) * 2 ^ 22 / pgSize - a / pgSize) a le_rfl
            (by rw [pgSize_eq] at *; omega)]
      | some pte =>
        have next : u32 (a + pgSize) = a + pgSize := u32_of_lt (by rw [kernBase_eq, pgSize_eq] at *; omega)
        simp only [next]
        rw [pageRange_cons below, List.forM_cons, StateT.run_bind]
        simp only [unmapPage, StateT.run_bind, walkpgdir_run_false, walks, pure_bind]
        refine bind_congr fun p => ?_
        exact deallocLoop_eq le fuel _ p.2 (by rw [pgSize_eq] at *; omega)
          (by rw [pgSize_eq] at *; omega)
    · rw [if_neg below, pageRange_of_le (not_lt.mp below)]
      rfl

/-- **`deallocuvm` stops.** Below `KERNBASE`, on every machine, `deallocuvm` is the turn at each
page of `[PGROUNDUP(newsz), oldsz)`. -/
theorem deallocuvm_eq {oldsz newsz : Nat} (le : oldsz ≤ kernBase) (m : Machine) :
    (deallocuvm kend pgdir oldsz newsz).run m =
      if oldsz ≤ newsz then pure (oldsz, m)
      else (forM (pageRange (pgRoundUp newsz) oldsz) (unmapPage kend pgdir)).run m >>= fun r =>
        pure (newsz, r.2) := by
  unfold deallocuvm
  split
  next => rfl
  next below =>
    have up : pgRoundUp newsz = (newsz + pgSize - 1) / pgSize * pgSize :=
      pgRoundUp_of_lt (by rw [kernBase_eq, pgSize_eq] at *; omega)
    have turns : (oldsz - pgRoundUp newsz + pgSize - 1) / pgSize < 2 ^ 20 := by
      rw [kernBase_eq, pgSize_eq] at *
      omega
    rw [StateT.run_bind, deallocLoop_eq le _ _ m (by rw [up]; exact Nat.mul_mod_left _ _) turns]
    rfl

/-- **`deallocuvm` frees exactly the pages of the range.** On a well-formed directory, with
`newsz < oldsz ≤ KERNBASE`, `deallocuvm` returns `newsz`. It frees the pages mapped at the
page-aligned addresses of `[PGROUNDUP(newsz), oldsz)`, each once and in order, and clears their
PTEs: the directory stays well formed, keeps its page tables and maps every other page of the
user half as before, and no word changes but the pages freed and the PTEs cleared. -/
theorem deallocuvm_spec (wf : PgdirWf kend m pgdir) {oldsz newsz : Nat} (le : oldsz ≤ kernBase)
    (lt : newsz < oldsz) :
    ∃ m', (deallocuvm kend pgdir oldsz newsz).run m = pure (newsz, m') ∧ PgdirWf kend m' pgdir ∧
      (∀ i < nPdEntries, tableOf m' pgdir i = tableOf m pgdir i) ∧
      m'.freelist =
        (((pageRange (pgRoundUp newsz) oldsz).filterMap (pageOf m pgdir)).map p2v).reverse ++ m.freelist ∧
      (∀ va < kernBase, pageOf m' pgdir va =
        if pgRoundUp newsz ≤ va ∧ pgRoundDown va < oldsz then none else pageOf m pgdir va) ∧
      ∀ a, m'.mem a ≠ m.mem a → ∃ va ∈ pageRange (pgRoundUp newsz) oldsz, Touched m pgdir va a := by
  have up : pgRoundUp newsz = (newsz + pgSize - 1) / pgSize * pgSize :=
    pgRoundUp_of_lt (by rw [kernBase_eq, pgSize_eq] at *; omega)
  have aligned : pgRoundUp newsz % pgSize = 0 := by rw [up]; exact Nat.mul_mod_left _ _
  obtain ⟨m', run, wf', tables, list, pages, touched⟩ :=
    unmapPages_spec (pageRange (pgRoundUp newsz) oldsz) m wf
      (fun va mem => lt_of_lt_of_le (lt_of_mem_pageRange mem).2 le) pageRange_nodup
  refine ⟨m', ?_, wf', tables, list, fun va low => ?_, touched⟩
  · rw [deallocuvm_eq le, if_neg (by omega), run]
    rfl
  · simp only [pages va low, mem_pageRange_map aligned]

end Loop

/-! ### `growproc` -/

section Grow

variable {kend : Nat} {m : Machine} {pgdir : Nat}

/-- The bits of an `int` that is `-sz`, as a `uint`. -/
theorem toNat_of_toInt_eq_neg {n : Int32} {sz : Nat} (pos : 0 < sz) (shrink : n.toInt + sz = 0) :
    n.toBitVec.toNat = 2 ^ 32 - sz := by
  have signed := BitVec.toInt_eq_toNat_cond n.toBitVec
  have word := n.toBitVec.isLt
  rw [Int32.toInt_toBitVec] at signed
  norm_num at signed word ⊢
  split at signed <;> omega

/-- **A shrink to 0 fails after freeing.** `growproc(-sz)` computes the new size 0: `deallocuvm`
frees every page of the process and returns 0, which `growproc` takes for a failure. It returns -1
and keeps the size, with no page below it mapped any more. -/
theorem growproc_to_zero (wf : PgdirWf kend m pgdir) {sz : Nat} (pos : 0 < sz) (le : sz ≤ kernBase)
    {n : Int32} (shrink : n.toInt + sz = 0) :
    ∃ m', (growproc kend pgdir sz n).run m = pure ((-1, sz), m') ∧ PgdirWf kend m' pgdir ∧
      ∀ va < sz, pageOf m' pgdir va = none := by
  have neg : n < 0 := Int32.lt_iff_toInt_lt.mpr (by simp; omega)
  have notPos : ¬0 < n := fun pos' => by
    have := Int32.lt_iff_toInt_lt.mp pos'
    simp at this
    omega
  have target : u32 (sz + n.toBitVec.toNat) = 0 := by
    rw [toNat_of_toInt_eq_neg pos shrink, u32, kernBase_eq] at *
    rw [Nat.add_sub_cancel' (by omega), Nat.mod_self]
  obtain ⟨m', run, wf', -, -, pages, -⟩ := deallocuvm_spec wf le pos
  refine ⟨m', ?_, wf', fun va below => ?_⟩
  · simp only [growproc, if_neg notPos, if_pos neg, target, StateT.run_bind, run, pure_bind]
    rfl
  · have zero : pgRoundUp 0 = 0 := by decide
    have down : pgRoundDown va ≤ va := Nat.div_mul_le_self _ _
    rw [pages va (lt_of_lt_of_le below le), if_pos ⟨zero ▸ Nat.zero_le va, by omega⟩]

/-- **`sbrk` past 0 succeeds without moving the break.** For a process of three pages,
`sbrk(-0x4000)` asks for a size below 0: `sz + n` wraps to `0xFFFFF000`, above the old size, so
`deallocuvm` returns the old size, `growproc` returns 0 and `sys_sbrk` returns the old break,
with nothing changed. -/
theorem growproc_wraps (pgdir : Nat) (m : Machine) :
    (growproc kend pgdir 0x3000 (-0x4000)).run m = pure ((0, 0x3000), m) ∧
      (sysSbrk kend pgdir 0x3000 (-0x4000)).run m = pure ((0x3000, 0x3000), m) :=
  ⟨rfl, rfl⟩

end Grow

end Xv6.Vm
