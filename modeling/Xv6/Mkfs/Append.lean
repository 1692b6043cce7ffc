import Xv6.Mkfs.Layout

/-!
**`iappend` keeps the layout, and takes exactly the blocks the new size needs.**

Inside the loop of `iappend` the inode lives in memory, with the offset `off` it has reached as
its size (`atSize`); the invariant is read with that inode (`Laid s (update D ip …)`).

* `Inner.takeAddr`, `Inner.takeEntry` — `freeblock++` into an address of the inode, or into an
  entry of its indirect block: the kernel's `BlockInv.fill` with that one slot given the block;
* `fileBlock_ends` — the block of file block `fbn`, taking a block for its slot and for the
  indirect block where they hold none (`Found`);
* `iappendLoop_ends` — every turn copies into the block of `off`, which the size `off + n1` then
  needs, so the invariant holds at the new size; the blocks taken are `blocksFor` the new size
  less `blocksFor` the old one;
* `iappend_ends`, `appendFile_ends` — the same for `iappend` and for a whole file, with the
  inode written back and every other inode kept.
-/

namespace Xv6.Mkfs

open Lib BlockFs

/-- The inode `din` of `iappend` with the offset it has reached as its size. -/
def Dinode.atSize (d : Dinode) (off : Nat) : Dinode := { d with size := UInt32.ofNat off }

/-- The blocks of a file of `size` bytes: one for each block begun, and the indirect block past
`NDIRECT` blocks. -/
def blocksFor (size : Nat) : Nat :=
  (size + bsize - 1) / bsize + if nDirect * bsize < size then 1 else 0

/-- A turn of the loop that stays in the block of `off` takes one block if it begins that block,
and the indirect block if it begins the first block past `NDIRECT`. -/
theorem blocksFor_add {off n1 : Nat} (positive : 0 < n1) (inBlock : off % bsize + n1 ≤ bsize) :
    blocksFor (off + n1) =
      blocksFor off + (if off % bsize = 0 then 1 else 0) + if off = nDirect * bsize then 1 else 0 := by
  unfold blocksFor nDirect
  rw [bsize_eq] at inBlock ⊢
  split_ifs <;> omega

theorem blocksFor_mono {a b : Nat} (le : a ≤ b) : blocksFor a ≤ blocksFor b := by
  unfold blocksFor nDirect
  rw [bsize_eq]
  split_ifs <;> omega

/-- The slot of file block `fbn` is needed exactly when the size passes the start of the block. -/
theorem needed_fileSlot (size fbn : Nat) : needed size (fileSlot fbn) ↔ fbn * bsize < size := by
  unfold fileSlot
  split
  · next direct => simp [needed, direct]
  · next indirect =>
    simp only [needed]
    rw [Nat.add_sub_cancel' (Nat.le_of_not_lt indirect)]

theorem needed_mono {size size' : Nat} (le : size ≤ size') {σ : Slot} (need : needed size σ) :
    needed size' σ := by
  cases σ with
  | addr i =>
    simp only [needed] at need ⊢
    split_ifs at need ⊢ <;> omega
  | entry j =>
    simp only [needed] at need ⊢
    omega

/-! ### Taking a block -/

/-- What holds between the steps of `fileBlock`: the invariant of the block layer, and the
blocks from `freeblock` on zero. -/
structure Inner (s : State) (D : Nat → Dinode) : Prop where
  sectors : s.sectors = fsSize
  blocks : (s.view D).BlockInv
  fresh : ∀ b, s.freeblock ≤ b → ∀ i < bsize, s.img b i = 0

theorem Laid.inner {s : State} {D : Nat → Dinode} (laid : Laid s D) : Inner s D :=
  ⟨laid.sectors, laid.blocks, laid.fresh⟩

section Take

variable {s : State} {D : Nat → Dinode} {ip : Nat}

theorem Inner.nmeta_le (inner : Inner s D) : nmeta ≤ s.freeblock := by
  have marked := inner.blocks.metadata (nmeta - 1) (by rw [view_sb, layout_dataStart, nmeta_eq]; omega)
  have below : nmeta - 1 < s.freeblock := of_decide_eq_true marked
  omega

theorem Inner.held_lt (inner : Inner s D) {o : Nat × Slot} (held : (s.view D).refOf o ≠ 0) :
    nmeta ≤ (s.view D).refOf o ∧ (s.view D).refOf o < fsSize := by
  have within := inner.blocks.inData o held
  rwa [view_sb, layout_dataStart, layout_size] at within

/-- A block a slot holds is below `freeblock`. -/
theorem Inner.held_below (inner : Inner s D) {o : Nat × Slot} (held : (s.view D).refOf o ≠ 0) :
    (s.view D).refOf o < s.freeblock :=
  of_decide_eq_true (inner.blocks.marked o held)

theorem view_clear (D : Nat → Dinode) : (s.view D).used s.freeblock = false := by
  simp [State.view]

/-- **`freeblock++` into an address of the inode in memory**: that slot, which held nothing,
holds the block, and every other slot is kept. -/
theorem Inner.takeAddr {dv : Dinode} (inner : Inner s (Function.update D ip dv))
    (alloc : (s.view (Function.update D ip dv)).Allocated ip) (below : ip < nInodes)
    {j : Fin (nDirect + 1)} (empty : dv.addrs j = 0) (room : s.freeblock < fsSize) :
    Inner { s with freeblock := s.freeblock + 1 } (Function.update D ip (dv.setAddr j s.freeblock)) ∧
      (({ s with freeblock := s.freeblock + 1 } : State).view
          (Function.update D ip (dv.setAddr j s.freeblock))).refOf =
        Function.update (s.view (Function.update D ip dv)).refOf (ip, .addr j) s.freeblock := by
  set v := s.view (Function.update D ip dv)
  set b := s.freeblock
  obtain ⟨blocks₁, same₁⟩ := inner.blocks.alloc (view_clear _)
  have view₁ : ({ s with freeblock := b + 1 } : State).view (Function.update D ip dv) =
      (v.setUsed b true).setBlock b fun _ => 0 :=
    view_takeBlock (inner.fresh b (Nat.le_refl _))
  have alloc₁ : ((v.setUsed b true).setBlock b fun _ => 0).Allocated ip :=
    ((keeps_setUsed b true).trans (keeps_setBlock b _)).allocated_iff ip |>.mpr alloc
  have fits : b < 2 ^ 32 := by unfold fsSize at room; omega
  have view₂ : ({ s with freeblock := b + 1 } : State).view
      (Function.update D ip (dv.setAddr j b)) = ((v.setUsed b true).setBlock b fun _ => 0).setAddr ip j b := by
    rw [view_setAddr dv j below fits, view₁]
  have addr : (v.inodes ip).addrs j = 0 := by
    rw [view_inodes below, Function.update_self]
    simp [Dinode.toBInode, empty]
  have empty₁ : ((v.setUsed b true).setBlock b fun _ => 0).refOf (ip, .addr j) = 0 := by
    rw [same₁, refOf_of_allocated alloc, slotBlock, if_pos (Nat.le_of_lt_succ j.isLt), addr]
  have filled : (((v.setUsed b true).setBlock b fun _ => 0).setAddr ip j b).refOf =
      Function.update ((v.setUsed b true).setBlock b fun _ => 0).refOf (ip, .addr j) b := by
    by_cases direct : (j : Nat) < nDirect
    · exact refOf_setAddr alloc₁ direct b
    · have last : (j : Nat) = nDirect := by have := j.isLt; omega
      rw [last] at addr ⊢
      exact refOf_setIndirect alloc₁ addr (by simp)
  have data : layout.dataStart ≤ b := by rw [layout_dataStart]; exact inner.nmeta_le
  obtain ⟨blocks₂, -⟩ := blocks₁.fill (keeps_setAddr _ _ _) rfl empty₁
    (fun o => by rw [same₁]; exact inner.blocks.fresh_of_clear (view_clear _) o) data room
    (Function.update_self ..) filled
  refine ⟨⟨inner.sectors, view₂ ▸ blocks₂, fun c past i within => inner.fresh c (by simp at past; omega) i within⟩,
    ?_⟩
  rw [view₂, filled, same₁]

/-- **`freeblock++` into an entry of the indirect block**: the entry, which held nothing, holds
the block, and every other slot is kept. -/
theorem Inner.takeEntry (inner : Inner s D) (alloc : (s.view D).Allocated ip) {k : Nat}
    (entryIn : k < nIndirect) (ind : ((s.view D).inodes ip).addrs nDirect ≠ 0)
    (empty : entry (s.img (((s.view D).inodes ip).addrs nDirect)) k = 0)
    (room : s.freeblock < fsSize) :
    Inner (({ s with freeblock := s.freeblock + 1 } : State).putSector
        (((s.view D).inodes ip).addrs nDirect)
        (setEntry (s.img (((s.view D).inodes ip).addrs nDirect)) k s.freeblock)) D ∧
      ((({ s with freeblock := s.freeblock + 1 } : State).putSector
        (((s.view D).inodes ip).addrs nDirect)
        (setEntry (s.img (((s.view D).inodes ip).addrs nDirect)) k s.freeblock)).view D).refOf =
        Function.update (s.view D).refOf (ip, .entry k) s.freeblock := by
  set v := s.view D
  set b := s.freeblock
  set ib := (v.inodes ip).addrs nDirect
  obtain ⟨blocks₁, same₁⟩ := inner.blocks.alloc (view_clear _)
  have view₁ : ({ s with freeblock := b + 1 } : State).view D =
      (v.setUsed b true).setBlock b fun _ => 0 :=
    view_takeBlock (inner.fresh b (Nat.le_refl _))
  have alloc₁ : ((v.setUsed b true).setBlock b fun _ => 0).Allocated ip :=
    ((keeps_setUsed b true).trans (keeps_setBlock b _)).allocated_iff ip |>.mpr alloc
  have fits : b < 2 ^ 32 := by unfold fsSize at room; omega
  -- the indirect block is held, so it is below `freeblock`
  have held : v.refOf (ip, .addr nDirect) = ib := by
    rw [refOf_of_allocated alloc, slotBlock, if_pos (Nat.le_refl _)]
  have indHeld : v.refOf (ip, .addr nDirect) ≠ 0 := by rw [held]; exact ind
  have ibBelow : ib < b := held ▸ inner.held_below indHeld
  have view₂ : (({ s with freeblock := b + 1 } : State).putSector ib (setEntry (s.img ib) k b)).view D =
      ((v.setUsed b true).setBlock b fun _ => 0).setWord ib k b := by
    rw [show s.img ib = ({ s with freeblock := b + 1 } : State).img ib from rfl,
      view_setEntry entryIn fits, view₁]
  have filled : (((v.setUsed b true).setBlock b fun _ => 0).setWord ib k b).refOf =
      Function.update ((v.setUsed b true).setBlock b fun _ => 0).refOf (ip, .entry k) b :=
    refOf_setWord blocks₁.unique alloc₁ ind entryIn
  have empty₁ : ((v.setUsed b true).setBlock b fun _ => 0).refOf (ip, .entry k) = 0 := by
    rw [same₁, refOf_of_allocated alloc, slotBlock, if_pos ⟨entryIn, ind⟩]
    show (if k < nIndirect then entry (s.img ib) k else 0) = 0
    rw [if_pos entryIn, empty]
  have data : layout.dataStart ≤ b := by rw [layout_dataStart]; exact inner.nmeta_le
  obtain ⟨blocks₂, -⟩ := blocks₁.fill (keeps_setBlock _ _) rfl empty₁
    (fun o => by rw [same₁]; exact inner.blocks.fresh_of_clear (view_clear _) o) data room
    (Function.update_self ..) filled
  have readable : ib + 1 ≤ fsSize := by
    have := (inner.held_lt indHeld).2
    rw [held] at this
    omega
  refine ⟨⟨by simp [inner.sectors, readable], view₂ ▸ blocks₂, fun c past i within => ?_⟩, ?_⟩
  · have other : c ≠ ib := by simp at past; omega
    rw [putSector_img_of_ne _ other]
    exact inner.fresh c (by simp at past; omega) i within
  · rw [view₂, filled, same₁]

end Take

/-! ### The block of a file block -/

/-- `v'` holds what `v` holds, and the slots `news`, which held nothing in `v`, hold blocks. -/
structure Adds (v v' : BlockFs) (news : List (Nat × Slot)) : Prop where
  keeps : Keeps v v'
  kept : ∀ o, o ∉ news → v'.refOf o = v.refOf o
  empty : ∀ o ∈ news, v.refOf o = 0
  filled : ∀ o ∈ news, v'.refOf o ≠ 0

section Adds

variable {v v' v'' : BlockFs} {news news' : List (Nat × Slot)}

theorem Adds.none (keeps : Keeps v v') (same : v'.refOf = v.refOf) : Adds v v' [] :=
  ⟨keeps, fun o _ => by rw [same], fun _ mem => absurd mem List.not_mem_nil,
    fun _ mem => absurd mem List.not_mem_nil⟩

theorem Adds.single (keeps : Keeps v v') {o : Nat × Slot} {b : Nat} (empty : v.refOf o = 0)
    (positive : b ≠ 0) (filled : v'.refOf = Function.update v.refOf o b) : Adds v v' [o] where
  keeps := keeps
  kept o' other := by rw [filled, Function.update_of_ne (List.ne_of_not_mem_cons other)]
  empty o' mem := by rw [List.mem_singleton.mp mem]; exact empty
  filled o' mem := by rw [List.mem_singleton.mp mem, filled, Function.update_self]; exact positive

theorem Adds.trans (first : Adds v v' news) (second : Adds v' v'' news') :
    Adds v v'' (news ++ news') where
  keeps := first.keeps.trans second.keeps
  kept o other := by
    rw [List.mem_append, not_or] at other
    rw [second.kept o other.2, first.kept o other.1]
  empty o mem := by
    rcases List.mem_append.mp mem with mem | mem
    · exact first.empty o mem
    · by_contra held
      have earlier : o ∉ news := fun mem' => held (first.empty o mem')
      exact absurd (first.kept o earlier ▸ second.empty o mem) held
  filled o mem := by
    rcases List.mem_append.mp mem with mem | mem
    · have later : o ∉ news' := fun mem' => first.filled o mem (second.empty o mem')
      rw [second.kept o later]
      exact first.filled o mem
    · exact second.filled o mem

theorem Adds.grows (adds : Adds v v' news) : Grows v v' :=
  ⟨adds.keeps, fun o held => adds.kept o fun mem => held (adds.empty o mem)⟩

theorem Adds.new (adds : Adds v v' news) {o : Nat × Slot} (held : v'.refOf o ≠ 0) :
    v.refOf o ≠ 0 ∨ o ∈ news := by
  by_cases mem : o ∈ news
  · exact .inr mem
  · exact .inl (adds.kept o mem ▸ held)

end Adds

section Found

variable {s : State} {D : Nat → Dinode} {ip : Nat}

/-- The views with the inode `ip` given, in memory, as `dv`. -/
theorem view_keeps {dv dv' : Dinode} (s s' : State) (type : dv'.type = dv.type)
    (size : dv'.size = dv.size) :
    Keeps (s.view (Function.update D ip dv)) (s'.view (Function.update D ip dv')) := by
  refine ⟨rfl, fun i => ?_, fun i => ?_⟩ <;> by_cases same : i = ip
  · subst same
    simp only [State.view, Function.update_self]
    split <;> simp [Dinode.toBInode, type]
  · simp [State.view, Function.update_of_ne same]
  · subst same
    simp only [State.view, Function.update_self]
    split <;> simp [Dinode.toBInode, size]
  · simp [State.view, Function.update_of_ne same]

/-- The address `j` of the inode in memory, as the view reads it. -/
theorem view_addrs {dv : Dinode} (below : ip < nInodes) (j : Fin (nDirect + 1)) :
    ((s.view (Function.update D ip dv)).inodes ip).addrs j = (dv.addrs j).toNat := by
  rw [view_inodes below, Function.update_self]
  simp [Dinode.toBInode, Nat.le_of_lt_succ j.isLt]

/-- What `if((x = din.addrs[j]) == 0) din.addrs[j] = xint(freeblock++)` leaves: the address
holds a block, taken if it held none. -/
structure AddrSet (s s' : State) (D : Nat → Dinode) (ip off : Nat) (din din' : Dinode)
    (j : Fin (nDirect + 1)) : Prop where
  inner : Inner s' (Function.update D ip (din'.atSize off))
  addrs : ∃ a, din' = { din with addrs := a }
  img : s'.img = s.img
  freeinode : s'.freeinode = s.freeinode
  sectors : s'.sectors = s.sectors
  count : s'.freeblock = s.freeblock + if din.addrs j = 0 then 1 else 0
  adds : Adds (s.view (Function.update D ip (din.atSize off)))
    (s'.view (Function.update D ip (din'.atSize off))) (if din.addrs j = 0 then [(ip, .addr j)] else [])
  slot : (s'.view (Function.update D ip (din'.atSize off))).refOf (ip, .addr j) = (din'.addrs j).toNat
  positive : din'.addrs j ≠ 0

/-- **`if((x = din.addrs[j]) == 0) din.addrs[j] = xint(freeblock++)`** on the inode in memory,
followed by `k`. -/
theorem addrIfZero_ends {din : Dinode} {off : Nat} {E : String → Prop} {β : Type}
    {k : Dinode → MkfsM β} {Q : β → State → Prop}
    (inner : Inner s (Function.update D ip (din.atSize off)))
    (alloc : (s.view (Function.update D ip (din.atSize off))).Allocated ip) (below : ip < nInodes)
    (j : Fin (nDirect + 1)) (room : din.addrs j = 0 → s.freeblock < fsSize)
    (next : ∀ din' s', AddrSet s s' D ip off din din' j → Ends (k din') s' E Q) :
    Ends (if din.addrs j = 0 then do
        let b ← takeBlock
        let din ← pure (din.setAddr j b)
        k din
      else do
        let din ← pure din
        k din) s E Q := by
  refine Ends.ite (fun empty => ?_) fun held => ?_
  · refine Ends.bind (takeBlock_ends (Ends.bind (Ends.pure (next _ _ ?_))))
    have addr : (din.atSize off).addrs j = 0 := empty
    obtain ⟨inner', filled⟩ := inner.takeAddr alloc below addr (room empty)
    have commute : (din.setAddr j s.freeblock).atSize off = (din.atSize off).setAddr j s.freeblock :=
      rfl
    rw [← commute] at inner' filled
    have fits : s.freeblock < 4294967296 := by have := room empty; unfold fsSize at this; omega
    have positive : s.freeblock ≠ 0 := by have := inner.nmeta_le; rw [nmeta_eq] at this; omega
    have value : ((din.setAddr j s.freeblock).addrs j).toNat = s.freeblock := by
      simp [Dinode.setAddr, fits]
    have held' : (s.view (Function.update D ip (din.atSize off))).refOf (ip, .addr j) = 0 := by
      rw [refOf_of_allocated alloc, slotBlock, if_pos (Nat.le_of_lt_succ j.isLt), view_addrs below]
      simp [Dinode.atSize, empty]
    refine ⟨inner', ⟨_, rfl⟩, rfl, rfl, rfl, by simp [empty], ?_, ?_, ?_⟩
    · rw [if_pos empty]
      refine Adds.single ?_ held' positive filled
      exact view_keeps _ _ rfl rfl
    · rw [filled, Function.update_self, value]
    · intro zero
      rw [← UInt32.toNat_inj, value] at zero
      exact positive zero
  · refine Ends.bind (Ends.pure (next _ _ ⟨inner, ⟨_, rfl⟩, rfl, rfl, rfl, by simp [held], ?_, ?_, held⟩))
    · rw [if_neg held]
      exact Adds.none (Keeps.refl _) rfl
    · rw [refOf_of_allocated alloc, slotBlock, if_pos (Nat.le_of_lt_succ j.isLt), view_addrs below]
      rfl

/-- The blocks `fileBlock` takes for file block `fbn` of inode `ip`: one for the block if its
slot holds none, and one for the indirect block past `NDIRECT` if there is none. -/
def taken (v : BlockFs) (ip fbn : Nat) : Nat :=
  (if v.refOf (ip, fileSlot fbn) = 0 then 1 else 0) +
    if nDirect ≤ fbn ∧ v.refOf (ip, .addr nDirect) = 0 then 1 else 0

/-- What `fileBlock din fbn` leaves, on the inode `ip` held in memory at offset `off`: the slot
of file block `fbn` holds the block `x` returned, and only it and the indirect block may hold
blocks they did not hold. -/
structure Found (s s' : State) (D : Nat → Dinode) (ip off fbn : Nat) (din din' : Dinode)
    (x : Nat) : Prop where
  inner : Inner s' (Function.update D ip (din'.atSize off))
  addrs : ∃ a, din' = { din with addrs := a }
  freeinode : s'.freeinode = s.freeinode
  metaKept : ∀ b < nmeta, s'.img b = s.img b
  count : s'.freeblock = s.freeblock + taken (s.view (Function.update D ip (din.atSize off))) ip fbn
  adds : ∃ news, Adds (s.view (Function.update D ip (din.atSize off)))
    (s'.view (Function.update D ip (din'.atSize off))) news ∧
    ∀ o ∈ news, o = (ip, fileSlot fbn) ∨ (o = (ip, .addr nDirect) ∧ nDirect ≤ fbn)
  slot : (s'.view (Function.update D ip (din'.atSize off))).refOf (ip, fileSlot fbn) = x
  positive : x ≠ 0

/-- Address `j` of the inode in memory is what its slot holds. -/
theorem refOf_addr {dv : Dinode} (alloc : (s.view (Function.update D ip dv)).Allocated ip)
    (below : ip < nInodes) (j : Fin (nDirect + 1)) :
    (s.view (Function.update D ip dv)).refOf (ip, .addr j) = (dv.addrs j).toNat := by
  rw [refOf_of_allocated alloc, slotBlock, if_pos (Nat.le_of_lt_succ j.isLt), view_addrs below]

/-- Entry `k` of the indirect block is what its slot holds. -/
theorem refOf_entry (alloc : (s.view D).Allocated ip) {k : Nat} (entryIn : k < nIndirect)
    (ind : ((s.view D).inodes ip).addrs nDirect ≠ 0) :
    (s.view D).refOf (ip, .entry k) = entry (s.img (((s.view D).inodes ip).addrs nDirect)) k := by
  rw [refOf_of_allocated alloc, slotBlock, if_pos ⟨entryIn, ind⟩]
  exact if_pos entryIn

/-- **`fileBlock` on a direct block.** -/
theorem fileBlock_direct {din : Dinode} {off fbn : Nat}
    (inner : Inner s (Function.update D ip (din.atSize off)))
    (alloc : (s.view (Function.update D ip (din.atSize off))).Allocated ip) (below : ip < nInodes)
    (direct : fbn < nDirect)
    (room : s.freeblock + taken (s.view (Function.update D ip (din.atSize off))) ip fbn ≤ fsSize) :
    Ends (fileBlock din fbn) s (fun _ => False) fun r s' => Found s s' D ip off fbn din r.1 r.2 := by
  unfold fileBlock
  rw [dif_pos direct]
  dsimp only
  have slotEq : fileSlot fbn = .addr (⟨fbn, by omega⟩ : Fin (nDirect + 1)) := by
    simp [fileSlot, direct]
  have counted : taken (s.view (Function.update D ip (din.atSize off))) ip fbn =
      if din.addrs ⟨fbn, by omega⟩ = 0 then 1 else 0 := by
    have notIndirect : ¬(nDirect ≤ fbn ∧
        (s.view (Function.update D ip (din.atSize off))).refOf (ip, .addr nDirect) = 0) :=
      fun past => absurd past.1 (Nat.not_le.mpr direct)
    rw [taken, if_neg notIndirect, Nat.add_zero, slotEq, refOf_addr alloc below]
    by_cases zero : din.addrs ⟨fbn, by omega⟩ = 0
    · rw [if_pos zero, if_pos]
      show (din.addrs _).toNat = 0
      rw [zero]
      rfl
    · rw [if_neg zero, if_neg]
      exact fun held => zero (UInt32.toNat_inj.mp held)
  refine addrIfZero_ends inner alloc below _ (fun empty => ?_) fun din' s' set => Ends.pure ?_
  · rw [counted, if_pos empty] at room
    omega
  · obtain ⟨news, adds, only⟩ : ∃ news, Adds (s.view (Function.update D ip (din.atSize off)))
        (s'.view (Function.update D ip (din'.atSize off))) news ∧ ∀ o ∈ news, o = (ip, fileSlot fbn) :=
      ⟨_, set.adds, fun o mem => by
        rw [slotEq]
        split at mem
        · exact List.mem_singleton.mp mem
        · cases mem⟩
    refine ⟨set.inner, set.addrs, set.freeinode, fun b _ => by rw [set.img], ?_,
      ⟨news, adds, fun o mem => .inl (only o mem)⟩, ?_, ?_⟩
    · rw [set.count, counted]
    · rw [slotEq, set.slot]
    · intro zero
      exact set.positive (UInt32.toNat_inj.mp zero)

/-- **`fileBlock` on a block past `NDIRECT`**: the indirect block, taken if there is none, then
the entry of the block in it, taken if it holds none. -/
theorem fileBlock_indirect {din : Dinode} {off fbn : Nat}
    (inner : Inner s (Function.update D ip (din.atSize off)))
    (alloc : (s.view (Function.update D ip (din.atSize off))).Allocated ip) (below : ip < nInodes)
    (indirect : nDirect ≤ fbn) (inRange : fbn < maxFile)
    (room : s.freeblock + taken (s.view (Function.update D ip (din.atSize off))) ip fbn ≤ fsSize) :
    Ends (fileBlock din fbn) s (fun _ => False) fun r s' => Found s s' D ip off fbn din r.1 r.2 := by
  unfold fileBlock
  rw [dif_neg (Nat.not_lt.mpr indirect)]
  dsimp only
  have entryIn : fbn - nDirect < nIndirect := by unfold maxFile at inRange; omega
  have slotEq : fileSlot fbn = .entry (fbn - nDirect) := by
    simp [fileSlot, Nat.not_lt.mpr indirect]
  set v := s.view (Function.update D ip (din.atSize off))
  have counted : taken v ip fbn = (if v.refOf (ip, .entry (fbn - nDirect)) = 0 then 1 else 0) +
      if din.addrs (Fin.last nDirect) = 0 then 1 else 0 := by
    rw [taken, slotEq]
    congr 1
    have addr : v.refOf (ip, .addr nDirect) = (din.addrs (Fin.last nDirect)).toNat :=
      refOf_addr alloc below (Fin.last nDirect)
    by_cases zero : din.addrs (Fin.last nDirect) = 0
    · rw [if_pos zero, if_pos ⟨indirect, by rw [addr, zero]; rfl⟩]
    · rw [if_neg zero, if_neg]
      exact fun held => zero (UInt32.toNat_inj.mp (by rw [← addr]; exact held.2))
  refine addrIfZero_ends inner alloc below (Fin.last nDirect) (fun empty => ?_)
    fun din₁ s₁ set₁ => ?_
  · rw [counted, if_pos empty] at room
    omega
  set v₁ := s₁.view (Function.update D ip (din₁.atSize off))
  have alloc₁ : v₁.Allocated ip := (set₁.adds.keeps.allocated_iff ip).mpr alloc
  have indEq : (v₁.inodes ip).addrs nDirect = (din₁.addrs (Fin.last nDirect)).toNat :=
    view_addrs below (Fin.last nDirect)
  have indHeld : v₁.refOf (ip, .addr nDirect) ≠ 0 := by
    rw [show v₁.refOf (ip, .addr nDirect) = _ from set₁.slot]
    exact fun zero => set₁.positive (UInt32.toNat_inj.mp zero)
  have ind : (v₁.inodes ip).addrs nDirect ≠ 0 := by
    rwa [refOf_of_allocated alloc₁, slotBlock, if_pos (Nat.le_refl _)] at indHeld
  have readable : (din₁.addrs (Fin.last nDirect)).toNat < s₁.sectors := by
    have := (set₁.inner.held_lt indHeld).2
    rw [refOf_of_allocated alloc₁, slotBlock, if_pos (Nat.le_refl _), indEq] at this
    rw [set₁.sectors, inner.sectors]
    exact this
  -- the entry of the block, read from the indirect block
  have entryRef : v₁.refOf (ip, .entry (fbn - nDirect)) =
      entry (s₁.img (din₁.addrs (Fin.last nDirect)).toNat) (fbn - nDirect) := by
    rw [refOf_entry alloc₁ entryIn ind, indEq]
  have entryKept : v₁.refOf (ip, .entry (fbn - nDirect)) = v.refOf (ip, .entry (fbn - nDirect)) :=
    set₁.adds.kept _ (by split <;> simp)
  have onlyFirst : ∀ o ∈ (if din.addrs (Fin.last nDirect) = 0 then [(ip, Slot.addr (Fin.last nDirect))]
      else []), o = (ip, fileSlot fbn) ∨ (o = (ip, .addr nDirect) ∧ nDirect ≤ fbn) := by
    intro o mem
    split at mem
    · exact .inr ⟨List.mem_singleton.mp mem, indirect⟩
    · cases mem
  have metaKept : ∀ b < nmeta, s₁.img b = s.img b := fun b _ => by rw [set₁.img]
  refine Ends.bind (rsect_ends readable (Ends.ite (fun empty => ?_) fun held => ?_))
  · refine Ends.bind (takeBlock_ends (Ends.bind (wsect_ends (Ends.bind (Ends.pure (Ends.pure ?_))))))
    have room₂ : s₁.freeblock < fsSize := by
      rw [counted, ← entryKept, entryRef, if_pos empty] at room
      rw [set₁.count]
      omega
    obtain ⟨inner₂, filled⟩ := set₁.inner.takeEntry alloc₁ entryIn ind
      (by rw [indEq]; exact empty) room₂
    rw [indEq] at inner₂ filled
    have fits : s₁.freeblock < 2 ^ 32 := by unfold fsSize at room₂; omega
    have positive : s₁.freeblock ≠ 0 := by
      have := set₁.inner.nmeta_le
      rw [nmeta_eq] at this
      omega
    have entryEmpty : v₁.refOf (ip, .entry (fbn - nDirect)) = 0 := by rw [entryRef]; exact empty
    have ibData : nmeta ≤ (din₁.addrs (Fin.last nDirect)).toNat := by
      have := (set₁.inner.held_lt indHeld).1
      rwa [refOf_of_allocated alloc₁, slotBlock, if_pos (Nat.le_refl _), indEq] at this
    refine ⟨inner₂, set₁.addrs, set₁.freeinode, fun b early => ?_, ?_, ⟨_, set₁.adds.trans
      (Adds.single ?_ entryEmpty positive filled), fun o mem => ?_⟩, ?_, ?_⟩
    · rw [putSector_img_of_ne _ (by omega)]
      exact metaKept b early
    · show s₁.freeblock + 1 = _
      rw [set₁.count, counted, ← entryKept, entryEmpty, if_pos rfl]
      omega
    · exact ⟨rfl, fun _ => rfl, fun _ => rfl⟩
    · rcases List.mem_append.mp mem with mem | mem
      · exact onlyFirst o mem
      · rw [List.mem_singleton.mp mem, slotEq]
        exact .inl rfl
    · rw [slotEq, filled, Function.update_self, entry_setEntry_self, Nat.mod_eq_of_lt fits]
    · rw [entry_setEntry_self, Nat.mod_eq_of_lt fits]
      exact positive
  · refine Ends.bind (Ends.pure (Ends.pure ⟨set₁.inner, set₁.addrs, set₁.freeinode, metaKept, ?_,
      ⟨_, set₁.adds, onlyFirst⟩, ?_, held⟩))
    · rw [set₁.count, counted, ← entryKept, entryRef, if_neg held]
      omega
    · rw [slotEq, entryRef]

/-- **`fileBlock`**: the block of file block `fbn`, with its slot holding it. -/
theorem fileBlock_ends {din : Dinode} {off fbn : Nat}
    (inner : Inner s (Function.update D ip (din.atSize off)))
    (alloc : (s.view (Function.update D ip (din.atSize off))).Allocated ip) (below : ip < nInodes)
    (inRange : fbn < maxFile)
    (room : s.freeblock + taken (s.view (Function.update D ip (din.atSize off))) ip fbn ≤ fsSize) :
    Ends (fileBlock din fbn) s (fun _ => False) fun r s' => Found s s' D ip off fbn din r.1 r.2 := by
  by_cases direct : fbn < nDirect
  · exact fileBlock_direct inner alloc below direct room
  · exact fileBlock_indirect inner alloc below (Nat.le_of_not_lt direct) inRange room

end Found

/-! ### The loop of `iappend` -/

section Loop

variable {s : State} {D : Nat → Dinode} {ip : Nat}

theorem atSize_size (d : Dinode) {n : Nat} (fits : n < 2 ^ 32) : (d.atSize n).size.toNat = n := by
  have fits' : n < 4294967296 := fits
  simp [Dinode.atSize, fits']

/-- A dinode at its own size is itself. -/
theorem atSize_self (d : Dinode) : d.atSize d.size.toNat = d := by
  simp [Dinode.atSize]

/-- A slot that holds an entry of the indirect block has the indirect block held. -/
theorem indirect_held_of_entry {v : BlockFs} {k : Nat} (held : v.refOf (ip, .entry k) ≠ 0) :
    v.refOf (ip, .addr nDirect) ≠ 0 := by
  unfold refOf at held ⊢
  split
  · next alloc =>
    rw [if_pos alloc, slotBlock] at held
    rw [slotBlock, if_pos (Nat.le_refl _)]
    split at held
    · next within => exact within.2
    · exact absurd rfl held
  · next free => exact absurd (if_neg free) held

/-- With the invariant, a file slot of an allocated inode holds a block exactly when the size
passes the start of the block. -/
theorem Laid.fileSlot_held (laid : Laid s D) (alloc : (s.view D).Allocated ip) (bn : Nat) :
    (s.view D).refOf (ip, fileSlot bn) ≠ 0 ↔ bn * bsize < (D ip).size.toNat := by
  have size : ((s.view D).inodes ip).size = (D ip).size.toNat := by
    rw [view_inodes alloc.2.1]
    rfl
  constructor
  · intro held
    exact (needed_fileSlot _ bn).mp (laid.tight _ held)
  · intro within
    exact laid.blocks.holeFree ip alloc bn (by rw [size]; exact within)

/-- The indirect block is held exactly when the size passes `NDIRECT` blocks. -/
theorem Laid.indirect_held (laid : Laid s D) (alloc : (s.view D).Allocated ip) :
    (s.view D).refOf (ip, .addr nDirect) ≠ 0 ↔ nDirect * bsize < (D ip).size.toNat := by
  constructor
  · intro held
    have need := laid.tight _ held
    simpa [needed] using need
  · intro within
    have entryHeld := (laid.fileSlot_held alloc nDirect).mpr within
    rw [fileSlot, if_neg (Nat.lt_irrefl _)] at entryHeld
    exact indirect_held_of_entry entryHeld

/-- With the invariant, the blocks `fileBlock` takes at the offset `off` of an inode of size `off`:
one if `off` begins a block, and the indirect block if `off` is where it begins. -/
theorem Laid.taken_eq {din : Dinode} {off : Nat} (laid : Laid s (Function.update D ip (din.atSize off)))
    (alloc : (s.view (Function.update D ip (din.atSize off))).Allocated ip) (fits : off < 2 ^ 32) :
    taken (s.view (Function.update D ip (din.atSize off))) ip (off / bsize) =
      (if off % bsize = 0 then 1 else 0) + if off = nDirect * bsize then 1 else 0 := by
  have fileSlot := laid.fileSlot_held alloc (off / bsize)
  have indirect := laid.indirect_held alloc
  rw [Function.update_self, atSize_size _ fits] at fileSlot indirect
  have first : (s.view (Function.update D ip (din.atSize off))).refOf (ip, BlockFs.fileSlot (off / bsize)) = 0 ↔
      off % bsize = 0 := by
    rw [bsize_eq] at fileSlot ⊢
    omega
  have second : (nDirect ≤ off / bsize ∧
      (s.view (Function.update D ip (din.atSize off))).refOf (ip, .addr nDirect) = 0) ↔
      off = nDirect * bsize := by
    unfold nDirect at indirect ⊢
    rw [bsize_eq] at indirect ⊢
    omega
  unfold taken
  simp only [first, second]

/-- The size only grows: a slot needed before is needed after. -/
theorem needed_update {din din' : Dinode} {off off' : Nat} (le : off ≤ off') (fits : off' < 2 ^ 32)
    (o : Nat × Slot) (need : needed ((Function.update D ip (din.atSize off)) o.1).size.toNat o.2) :
    needed ((Function.update D ip (din'.atSize off')) o.1).size.toNat o.2 := by
  by_cases same : o.1 = ip
  · rw [same, Function.update_self, atSize_size _ (Nat.lt_of_le_of_lt le fits)] at need
    rw [same, Function.update_self, atSize_size _ fits]
    exact needed_mono le need
  · rw [Function.update_of_ne same] at need ⊢
    exact need

/-- The invariant from its block part, for inodes of the types they had. -/
theorem Laid.of_inner {s' : State} {D' : Nat → Dinode} (laid : Laid s D) (part : Inner s' D')
    (types : ∀ i, (D' i).type = (D i).type) (freeinode : s'.freeinode = s.freeinode)
    (tight : ∀ o, (s'.view D').refOf o ≠ 0 → needed (D' o.1).size.toNat o.2) : Laid s' D' where
  sectors := part.sectors
  blocks := part.blocks
  tight := tight
  fresh := part.fresh
  typed i positive issued := by
    rw [types]
    exact laid.typed i positive (freeinode ▸ issued)
  free i past below := by
    rw [types]
    exact laid.free i (freeinode ▸ past) below
  inodes := freeinode ▸ laid.inodes

theorem view_atSize {din : Dinode} (below : ip < nInodes) (off : Nat) {n : Nat} (fits : n < 2 ^ 32) :
    s.view (Function.update D ip (din.atSize n)) =
      (s.view (Function.update D ip (din.atSize off))).modifyInode ip fun d => { d with size := n } :=
  view_setSize (din.atSize off) below fits

/-- **One turn of the loop of `iappend`**: bytes written into the block `fileBlock` found, and the
inode grown by `n1` bytes within that block, keep the invariant. -/
theorem Found.write {s₁ : State} {din din' : Dinode} {off n1 x : Nat}
    (laid : Laid s (Function.update D ip (din.atSize off)))
    (alloc : (s.view (Function.update D ip (din.atSize off))).Allocated ip) (below : ip < nInodes)
    (found : Found s s₁ D ip off (off / bsize) din din' x) (positive : 0 < n1)
    (inBlock : off % bsize + n1 ≤ bsize) (fits : off + n1 ≤ maxFile * bsize) (buf : Nat → UInt8) :
    Laid (s₁.putSector x buf) (Function.update D ip (din'.atSize (off + n1))) := by
  obtain ⟨news, adds, onlyNew⟩ := found.adds
  have fits' : off + n1 < 2 ^ 32 := by
    unfold maxFile nDirect nIndirect at fits
    rw [bsize_eq] at fits
    omega
  have held : (s₁.view (Function.update D ip (din'.atSize off))).refOf (ip, fileSlot (off / bsize)) ≠ 0 := by
    rw [found.slot]
    exact found.positive
  have inData := found.inner.held_lt held
  obtain ⟨written, same⟩ := found.inner.blocks.setBlock_held held
    fun k => if k < nIndirect then entry (fun i => if i < bsize then buf i else 0) k else 0
  rw [found.slot] at inData written same
  have view : (s₁.putSector x buf).view (Function.update D ip (din'.atSize (off + n1))) =
      (((s₁.view (Function.update D ip (din'.atSize off))).setBlock x
        fun k => if k < nIndirect then entry (fun i => if i < bsize then buf i else 0) k else 0).modifyInode
          ip fun d => { d with size := off + n1 }) := by
    rw [view_atSize below off fits', view_putSector]
  -- every block below the new size is mapped: the old ones were, and the rest is block `off / bsize`
  have mapped : ∀ bn, bn * bsize < off + n1 → ((s₁.view (Function.update D ip (din'.atSize off))).setBlock x
      fun k => if k < nIndirect then entry (fun i => if i < bsize then buf i else 0) k else 0).refOf
        (ip, fileSlot bn) ≠ 0 := by
    intro bn within
    rw [same]
    by_cases before : bn * bsize < off
    · have old := (laid.fileSlot_held alloc bn).mpr
        (by rw [Function.update_self, atSize_size _ (by omega)]; exact before)
      rw [adds.grows.held _ old]
      exact old
    · have this : bn = off / bsize := by
        rw [bsize_eq] at within before inBlock ⊢
        omega
      rw [this]
      exact held
  have inner : Inner (s₁.putSector x buf) (Function.update D ip (din'.atSize (off + n1))) := by
    refine ⟨?_, view ▸ written.setSize fits mapped, fun b past i within => ?_⟩
    · rw [putSector_sectors, found.inner.sectors]
      omega
    · have other : b ≠ x := by
        have := found.inner.held_below held
        rw [found.slot] at this
        rw [putSector_freeblock] at past
        omega
      rw [putSector_img_of_ne _ other]
      exact found.inner.fresh b past i within
  have types : ∀ i, ((Function.update D ip (din'.atSize (off + n1))) i).type =
      ((Function.update D ip (din.atSize off)) i).type := by
    intro i
    by_cases here : i = ip
    · obtain ⟨a, rfl⟩ := found.addrs
      rw [here, Function.update_self, Function.update_self]
      rfl
    · rw [Function.update_of_ne here, Function.update_of_ne here]
  refine laid.of_inner inner types found.freeinode fun o held₂ => ?_
  rw [view, refOf_setSize, same] at held₂
  rcases adds.new held₂ with old | mem
  · exact needed_update (by omega) fits' o (laid.tight o old)
  · have late : (off / bsize) * bsize ≤ off := Nat.div_mul_le_self off bsize
    rcases onlyNew o mem with rfl | ⟨rfl, indirect⟩
    · rw [Function.update_self, atSize_size _ fits', needed_fileSlot]
      omega
    · have past : nDirect * bsize ≤ (off / bsize) * bsize := Nat.mul_le_mul_right _ indirect
      show needed _ (.addr nDirect)
      rw [Function.update_self, atSize_size _ fits']
      simp only [needed, Nat.lt_irrefl, if_false]
      omega

/-- What the loop of `iappend` leaves, from the inode `din` at offset `off` to `din'` at `off'`:
the invariant with the inode at its new size, only its addresses changed, the metadata blocks
kept, and one block taken for each block the growth begins. -/
structure Appended (s s' : State) (D : Nat → Dinode) (ip off : Nat) (din din' : Dinode) (off' : Nat) :
    Prop where
  laid : Laid s' (Function.update D ip (din'.atSize off'))
  addrs : ∃ a, din' = { din with addrs := a }
  freeinode : s'.freeinode = s.freeinode
  metaKept : ∀ b < nmeta, s'.img b = s.img b
  count : s'.freeblock + blocksFor off = s.freeblock + blocksFor off'

/-- **The loop of `iappend`** appends all of `p` when the blocks it begins are free. -/
theorem iappendLoop_ends {s : State} {din : Dinode} {off : Nat} (p : List UInt8)
    (laid : Laid s (Function.update D ip (din.atSize off)))
    (alloc : (s.view (Function.update D ip (din.atSize off))).Allocated ip) (below : ip < nInodes)
    (fits : off + p.length ≤ maxFile * bsize)
    (room : s.freeblock + blocksFor (off + p.length) ≤ fsSize + blocksFor off) :
    Ends (iappendLoop din off p) s (fun _ => False) fun r s' =>
      r.2 = off + p.length ∧ Appended s s' D ip off din r.1 r.2 := by
  match p with
  | [] =>
    rw [iappendLoop]
    exact Ends.pure ⟨rfl, laid, ⟨_, rfl⟩, rfl, fun _ _ => rfl, rfl⟩
  | b :: rest =>
    rw [iappendLoop]
    dsimp only
    set n1 := min (b :: rest).length ((off / bsize + 1) * bsize - off) with named
    have length : (b :: rest).length = rest.length + 1 := rfl
    have maxBytes : maxFile * bsize = 71680 := by unfold maxFile nDirect nIndirect; rw [bsize_eq]
    have inRange : off / bsize < maxFile := by
      rw [maxBytes] at fits
      unfold maxFile nDirect nIndirect
      rw [bsize_eq]
      omega
    have positive : 0 < n1 := by
      rw [named, bsize_eq]
      omega
    have inBlock : off % bsize + n1 ≤ bsize := by
      rw [named, bsize_eq]
      omega
    have total : off + n1 + ((b :: rest).drop n1).length = off + (b :: rest).length := by
      rw [List.length_drop]
      omega
    have grown : blocksFor (off + n1) =
        blocksFor off + taken (s.view (Function.update D ip (din.atSize off))) ip (off / bsize) := by
      rw [blocksFor_add positive inBlock, laid.taken_eq alloc (by omega), Nat.add_assoc]
    have enough : s.freeblock + taken (s.view (Function.update D ip (din.atSize off))) ip (off / bsize) ≤
        fsSize := by
      have := blocksFor_mono (show off + n1 ≤ off + (b :: rest).length by omega)
      omega
    rw [if_neg (not_not.mpr inRange)]
    refine Ends.bind ((fileBlock_ends laid.inner alloc below inRange enough).mono fun r s₁ found => ?_)
    obtain ⟨din', x⟩ := r
    have inData := found.inner.held_lt (o := (ip, fileSlot (off / bsize)))
      (by rw [found.slot]; exact found.positive)
    rw [found.slot] at inData
    refine Ends.bind (rsect_ends (by rw [found.inner.sectors]; exact inData.2) (Ends.bind (wsect_ends ?_)))
    set buf := place (s₁.img x) (off - off / bsize * bsize) ((b :: rest).take n1)
    have laid₂ := found.write laid alloc below positive inBlock (by omega) buf
    have alloc₂ : ((s₁.putSector x buf).view (Function.update D ip (din'.atSize (off + n1)))).Allocated ip := by
      have issued := (laid.allocated_iff ip).mp alloc
      rw [laid₂.allocated_iff, putSector_freeinode, found.freeinode]
      exact issued
    refine (iappendLoop_ends _ laid₂ alloc₂ below (by omega) ?_).mono fun r s' post => ?_
    · rw [total, putSector_freeblock, found.count]
      omega
    obtain ⟨ended, appended⟩ := post
    obtain ⟨a, rfl⟩ := found.addrs
    obtain ⟨a', same⟩ := appended.addrs
    refine ⟨by rw [ended, total], appended.laid, ⟨a', same⟩, ?_, fun b' early => ?_, ?_⟩
    · rw [appended.freeinode, putSector_freeinode, found.freeinode]
    · rw [appended.metaKept b' early, putSector_img_of_ne _ (by omega), found.metaKept b' early]
    · have := appended.count
      rw [putSector_freeblock, found.count] at this
      omega
termination_by p.length
decreasing_by
  rw [List.length_drop]
  omega

end Loop

/-! ### `iappend` and the files -/

section Iappend

variable {s s' s'' : State} {inum n m : Nat}

/-- The inodes are read from the metadata blocks. -/
theorem inode_of_metaKept (kept : ∀ b < nmeta, s'.img b = s.img b) {i : Nat} (below : i < nInodes) :
    s'.inode i = s.inode i := by
  have inMeta : iblock i < nmeta := by
    rw [iblock_eq, nmeta_eq]
    unfold nInodes at below
    omega
  simp only [State.inode, kept _ inMeta]

/-- What `iappend(inum, p)` of `n` bytes leaves: the invariant, inode `inum` grown by `n` bytes
and the other inodes as they were, and one block taken for each block the growth begins. -/
structure Grown (s s' : State) (inum n : Nat) : Prop where
  laid : Laid s' s'.inode
  freeinode : s'.freeinode = s.freeinode
  size : (s'.inode inum).size.toNat = (s.inode inum).size.toNat + n
  others : ∀ i < nInodes, i ≠ inum → s'.inode i = s.inode i
  count : s'.freeblock + blocksFor (s.inode inum).size.toNat =
    s.freeblock + blocksFor ((s.inode inum).size.toNat + n)

theorem Grown.refl (laid : Laid s s.inode) (inum : Nat) : Grown s s inum 0 :=
  ⟨laid, rfl, rfl, fun _ _ _ => rfl, rfl⟩

theorem Grown.trans (first : Grown s s' inum n) (second : Grown s' s'' inum m) :
    Grown s s'' inum (n + m) where
  laid := second.laid
  freeinode := second.freeinode.trans first.freeinode
  size := by rw [second.size, first.size, Nat.add_assoc]
  others i below other := (second.others i below other).trans (first.others i below other)
  count := by
    have later := second.count
    rw [first.size, Nat.add_assoc] at later
    have earlier := first.count
    omega

/-- **`iappend(inum, p)`** on an inode `ialloc` handed out, with room for `p` in the file and on
the disk. -/
theorem iappend_ends (p : List UInt8) (laid : Laid s s.inode) (issued : 0 < inum ∧ inum < s.freeinode)
    (fits : (s.inode inum).size.toNat + p.length ≤ maxFile * bsize)
    (room : s.freeblock + blocksFor ((s.inode inum).size.toNat + p.length) ≤
      fsSize + blocksFor (s.inode inum).size.toNat) :
    Ends (iappend inum p) s (fun _ => False) fun _ s' => Grown s s' inum p.length := by
  have below : inum < nInodes := Nat.lt_of_lt_of_le issued.2 laid.inodes.2
  have readable : ∀ {s₁ : State}, s₁.sectors = fsSize → iblock inum < s₁.sectors := by
    intro s₁ sectors
    rw [sectors, iblock_eq, fsSize]
    unfold nInodes at below
    omega
  have laid₀ : Laid s (Function.update s.inode inum ((s.inode inum).atSize (s.inode inum).size.toNat)) := by
    rw [atSize_self, Function.update_eq_self]
    exact laid
  have alloc := (laid₀.allocated_iff inum).mpr issued
  unfold iappend
  refine Ends.bind (rinode_ends (readable laid.sectors) (Ends.bind ?_))
  refine (iappendLoop_ends p laid₀ alloc below fits room).mono fun r s₁ post => ?_
  obtain ⟨ended, appended⟩ := post
  obtain ⟨din', off'⟩ := r
  dsimp only at ended appended ⊢
  have fits' : off' < 2 ^ 32 := by
    unfold maxFile nDirect nIndirect at fits
    rw [bsize_eq] at fits
    omega
  have agree : ∀ i < nInodes, Function.update s₁.inode inum (din'.atSize off') i =
      Function.update s.inode inum (din'.atSize off') i := by
    intro i within
    by_cases here : i = inum
    · rw [here, Function.update_self, Function.update_self]
    · rw [Function.update_of_ne here, Function.update_of_ne here,
        inode_of_metaKept appended.metaKept within]
  have laid₁ := (appended.laid.congr agree).putInode below
  refine winode_ends (readable appended.laid.sectors) ⟨laid₁, ?_, ?_, fun i within other => ?_, ?_⟩
  · rw [putInode_freeinode, appended.freeinode]
  · show ((s₁.putInode inum (din'.atSize off')).inode inum).size.toNat = _
    rw [putInode_inode_self, atSize_size _ fits', ended]
  · show (s₁.putInode inum (din'.atSize off')).inode i = _
    rw [putInode_inode_of_ne _ other, inode_of_metaKept appended.metaKept within]
  · rw [putInode_freeblock, ← ended]
    exact appended.count

/-- **`appendFile`**: the bytes of a file, `BSIZE` at a time. -/
theorem appendFile_ends {s : State} (content : List UInt8) (laid : Laid s s.inode)
    (issued : 0 < inum ∧ inum < s.freeinode)
    (fits : (s.inode inum).size.toNat + content.length ≤ maxFile * bsize)
    (room : s.freeblock + blocksFor ((s.inode inum).size.toNat + content.length) ≤
      fsSize + blocksFor (s.inode inum).size.toNat) :
    Ends (appendFile inum content) s (fun _ => False) fun _ s' => Grown s s' inum content.length := by
  match content with
  | [] =>
    rw [appendFile]
    exact Ends.pure (Grown.refl laid inum)
  | b :: rest =>
    rw [appendFile]
    have split : ((b :: rest).take bsize).length + ((b :: rest).drop bsize).length =
        (b :: rest).length := by
      rw [← List.length_append, List.take_append_drop]
    have grows : blocksFor ((s.inode inum).size.toNat + ((b :: rest).take bsize).length) ≤
        blocksFor ((s.inode inum).size.toNat + (b :: rest).length) :=
      blocksFor_mono (by omega)
    refine Ends.bind ((iappend_ends _ laid issued (by omega) (by omega)).mono fun _ s₁ first => ?_)
    have issued₁ : 0 < inum ∧ inum < s₁.freeinode := by
      rw [first.freeinode]
      exact issued
    have count := first.count
    refine (appendFile_ends _ first.laid issued₁ ?_ ?_).mono fun _ s' second => ?_
    · rw [first.size]
      omega
    · rw [first.size, Nat.add_assoc, split]
      omega
    · rw [← split]
      exact first.trans second
termination_by content.length
decreasing_by
  simp only [List.length_drop, List.length_cons, bsize_eq]
  omega

end Iappend

end Xv6.Mkfs
