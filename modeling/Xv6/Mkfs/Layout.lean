import Xv6.Fs.BlockSafety
import Xv6.Mkfs.Image

/-!
**The image of `mkfs` as the kernel's block layer reads it, step by step.**

`State.view s D` is the disk of `Xv6.Fs.Block` that the image `s` is: the superblock `main`
writes, the blocks below `freeblock` in use (the bitmap `balloc` writes at the end says the
same), the `uint`s of each block, and the inodes `D` — those of the image, or, inside
`iappend`, one of them as it stands in memory. Each step of `mkfs` is one of the updates of
that layer:

* `view_putSector` — `wsect` is `setBlock`; `view_setEntry` — writing an entry of a block is
  `setWord`;
* `view_takeBlock` — `freeblock++` on a zeroed block is the state `balloc` of the kernel leaves;
* `view_setAddr`, `view_setSize` — `din.addrs[j] = b` and `din.size = off` are `setAddr` and a
  new size.

So the kernel's lemmas about its block layer (`BlockInv.alloc`, `BlockInv.fill`,
`BlockInv.setBlock_held`, `BlockInv.setSize`) carry its invariant through `mkfs`. `Laid` adds
what `mkfs` needs besides: a slot holds a block only when the size needs it (`tight`), the
blocks from `freeblock` on are zero, and the inodes from `freeinode` on are free.
-/

namespace Xv6.Mkfs

open Lib BlockFs

/-! ### The view -/

/-- The type of an inode as the kernel reads it; `0`, and a value no type has, is free. -/
def typeOf (t : UInt16) : InodeType :=
  if t = 1 then .dir else if t = 2 then .file else if t = 3 then .dev else .free

/-- The fields of a dinode that the block layer reads. -/
def Dinode.toBInode (d : Dinode) : BInode where
  type := typeOf d.type
  size := d.size.toNat
  addrs i := if h : i < nDirect + 1 then (d.addrs ⟨i, h⟩).toNat else 0

/-- The superblock `main` writes, as the block layer reads it. -/
def layout : Superblock := ⟨fsSize, nblocks, nInodes⟩

/-- The image as the block layer reads it, with the inodes `D`: the blocks below `freeblock`
are in use, and no inode is read from `sb.ninodes` on. -/
def State.view (s : State) (D : Nat → Dinode) : BlockFs where
  sb := layout
  used b := decide (b < s.freeblock)
  words b k := if k < nIndirect then entry (s.img b) k else 0
  inodes i := if i < nInodes then (D i).toBInode else ⟨.free, 0, fun _ => 0⟩

/-- A file of `size` bytes keeps a block in slot `σ`. -/
def needed (size : Nat) : Slot → Prop
  | .addr i => if i < nDirect then i * bsize < size else nDirect * bsize < size
  | .entry j => (nDirect + j) * bsize < size

theorem layout_dataStart : layout.dataStart = nmeta := rfl

@[simp] theorem layout_size : layout.size = fsSize := rfl

@[simp] theorem layout_ninodes : layout.ninodes = nInodes := rfl

section View

variable {s : State} {D : Nat → Dinode}

@[simp] theorem view_sb : (s.view D).sb = layout := rfl

theorem view_inodes {i : Nat} (below : i < nInodes) : (s.view D).inodes i = (D i).toBInode :=
  if_pos below

/-- **`wsect` is a new content of one block.** -/
theorem view_putSector (sec : Nat) (buf : Nat → UInt8) :
    (s.putSector sec buf).view D = (s.view D).setBlock sec
      (fun k => if k < nIndirect then entry (fun i => if i < bsize then buf i else 0) k else 0) := by
  ext1
  · rfl
  · rfl
  · funext b k
    by_cases here : b = sec
    · subst here
      simp [State.view, State.putSector]
    · simp [State.view, State.putSector, Function.update_of_ne here]
  · rfl

/-- **An entry written into a block** is `setWord`. -/
theorem view_setEntry {ind k v : Nat} (entryIn : k < nIndirect) (fits : v < 2 ^ 32) :
    (s.putSector ind (setEntry (s.img ind) k v)).view D = (s.view D).setWord ind k v := by
  rw [view_putSector, setWord]
  congr 1
  funext k'
  by_cases here : k' = k
  · subst here
    rw [if_pos entryIn, Function.update_self,
      entry_congr entryIn fun i within => if_pos within, entry_setEntry_self, Nat.mod_eq_of_lt fits]
  · rw [Function.update_of_ne here]
    show _ = if k' < nIndirect then entry (s.img ind) k' else 0
    split
    · next entryIn' =>
      rw [entry_congr entryIn' fun i within => if_pos within, entry_setEntry_of_ne _ here]
    · rfl

/-- **`freeblock++`** on a zeroed block is the state the kernel's `balloc` leaves: the block in
use, and zeroed. -/
theorem view_takeBlock (zero : ∀ i < bsize, s.img s.freeblock i = 0) :
    ({ s with freeblock := s.freeblock + 1 } : State).view D =
      ((s.view D).setUsed s.freeblock true).setBlock s.freeblock fun _ => 0 := by
  ext1
  · rfl
  · funext b
    by_cases here : b = s.freeblock
    · subst here
      simp [State.view]
    · simp only [State.view, setBlock_used, setUsed_used, Function.update_of_ne here]
      congr 1
      exact propext ⟨fun below => by omega, fun below => by omega⟩
  · funext b k
    by_cases here : b = s.freeblock
    · subst here
      simp only [State.view, setBlock_words, Function.update_self]
      split
      · next entryIn =>
        refine entry_of_zero fun j within => zero _ ?_
        unfold nIndirect at entryIn
        rw [bsize_eq] at entryIn ⊢
        omega
      · rfl
    · simp [State.view, Function.update_of_ne here]
  · rfl

/-- **`din.addrs[j] = b`** on the inode in memory is `setAddr`. -/
theorem view_setAddr {ip : Nat} (din : Dinode) (j : Fin (nDirect + 1)) {b : Nat}
    (below : ip < nInodes) (fits : b < 2 ^ 32) :
    s.view (Function.update D ip (din.setAddr j b)) =
      (s.view (Function.update D ip din)).setAddr ip j b := by
  ext1
  · rfl
  · rfl
  · rfl
  · funext i
    by_cases here : i = ip
    · subst here
      simp only [setAddr, modifyInode_inodes, Function.update_self, view_inodes below]
      ext1
      · rfl
      · rfl
      · funext k
        simp only [Dinode.toBInode, Dinode.setAddr]
        by_cases same : k = j
        · subst same
          have within : (j : Nat) ≤ nDirect := Nat.le_of_lt_succ j.isLt
          have fits' : b < 4294967296 := fits
          simp [within, fits']
        · rw [Function.update_of_ne same]
          split
          · next within =>
            rw [Function.update_of_ne (show (⟨k, within⟩ : Fin _) ≠ j from
              fun eq => same (by rw [← eq]))]
          · rfl
    · rw [setAddr, modifyInode_inodes, Function.update_of_ne here]
      simp only [State.view, Function.update_of_ne here]

/-- **`din.size = off`** on the inode in memory is a new size. -/
theorem view_setSize {ip : Nat} (din : Dinode) {n : Nat} (below : ip < nInodes)
    (fits : n < 2 ^ 32) :
    s.view (Function.update D ip { din with size := UInt32.ofNat n }) =
      (s.view (Function.update D ip din)).modifyInode ip fun d => { d with size := n } := by
  ext1
  · rfl
  · rfl
  · rfl
  · funext i
    by_cases here : i = ip
    · subst here
      have fits' : n < 4294967296 := fits
      simp [State.view, below, Dinode.toBInode, fits']
    · simp [State.view, Function.update_of_ne here]

end View

/-! ### The invariant -/

/-- **The image between two steps of `mkfs`**, with the inodes `D`. -/
structure Laid (s : State) (D : Nat → Dinode) : Prop where
  sectors : s.sectors = fsSize
  blocks : (s.view D).BlockInv
  /-- a slot holds a block only when the size of its inode needs it -/
  tight : ∀ o, (s.view D).refOf o ≠ 0 → needed (D o.1).size.toNat o.2
  /-- the blocks from `freeblock` on are zero -/
  fresh : ∀ b, s.freeblock ≤ b → ∀ i < bsize, s.img b i = 0
  /-- the inodes before `freeinode` are directories and files -/
  typed : ∀ i, 0 < i → i < s.freeinode → (D i).type = tDir ∨ (D i).type = tFile
  /-- the inodes from `freeinode` on are free -/
  free : ∀ i, s.freeinode ≤ i → i < nInodes → (D i).type = 0
  inodes : 0 < s.freeinode ∧ s.freeinode ≤ nInodes

section Laid

variable {s : State} {D : Nat → Dinode} {ip : Nat} {din : Dinode}

theorem typeOf_of_typed {t : UInt16} (typed : t = tDir ∨ t = tFile) : typeOf t ≠ .free := by
  rcases typed with rfl | rfl <;> decide

/-- The allocated inodes of the view are those `ialloc` has handed out. -/
theorem Laid.allocated_iff (laid : Laid s D) (ip : Nat) :
    (s.view D).Allocated ip ↔ 0 < ip ∧ ip < s.freeinode := by
  constructor
  · rintro ⟨positive, below, typed⟩
    refine ⟨positive, Nat.lt_of_not_le fun past => typed ?_⟩
    rw [view_inodes below]
    show typeOf (D ip).type = .free
    rw [laid.free ip past below]
    rfl
  · rintro ⟨positive, issued⟩
    have below : ip < nInodes := Nat.lt_of_lt_of_le issued laid.inodes.2
    refine ⟨positive, below, ?_⟩
    rw [view_inodes below]
    exact typeOf_of_typed (laid.typed ip positive issued)

/-- The view reads the inodes below `NINODES` only. -/
theorem view_congr {D' : Nat → Dinode} (agree : ∀ i < nInodes, D' i = D i) : s.view D' = s.view D := by
  ext1
  · rfl
  · rfl
  · rfl
  · funext i
    simp only [State.view]
    split
    · next below => rw [agree i below]
    · rfl

theorem Laid.congr {D' : Nat → Dinode} (laid : Laid s D) (agree : ∀ i < nInodes, D' i = D i) :
    Laid s D' := by
  have same : s.view D' = s.view D := view_congr agree
  refine ⟨laid.sectors, same ▸ laid.blocks, fun o held => ?_, laid.fresh, fun i positive issued => ?_,
    fun i past below => ?_, laid.inodes⟩
  · rw [same] at held
    have alloc := (laid.allocated_iff o.1).mp (by_contra fun free => held (if_neg free))
    rw [agree _ (Nat.lt_of_lt_of_le alloc.2 laid.inodes.2)]
    exact laid.tight o held
  · rw [agree i (Nat.lt_of_lt_of_le issued laid.inodes.2)]
    exact laid.typed i positive issued
  · rw [agree i below]
    exact laid.free i past below

/-- Every block a slot holds is a data block of the image, so it is readable. -/
theorem Laid.held_lt (laid : Laid s D) {o : Nat × Slot} (held : (s.view D).refOf o ≠ 0) :
    nmeta ≤ (s.view D).refOf o ∧ (s.view D).refOf o < s.sectors := by
  have within := laid.blocks.inData o held
  rw [view_sb, layout_dataStart, layout_size] at within
  rw [laid.sectors]
  exact within

theorem Laid.nmeta_le (laid : Laid s D) : nmeta ≤ s.freeblock := by
  have marked := laid.blocks.metadata (nmeta - 1) (by rw [view_sb, layout_dataStart, nmeta_eq]; omega)
  have below : nmeta - 1 < s.freeblock := of_decide_eq_true marked
  omega

/-- No allocated inode has a metadata block as its indirect block. -/
theorem Laid.indirect_ne (laid : Laid s D) {b : Nat} (positive : 0 < b) (inMeta : b < nmeta)
    (ip : Nat) (alloc : (s.view D).Allocated ip) : ((s.view D).inodes ip).addrs nDirect ≠ b := by
  intro same
  have held : (s.view D).refOf (ip, .addr nDirect) ≠ 0 := by
    rw [refOf_of_allocated alloc, slotBlock, if_pos (Nat.le_refl _), same]
    exact Nat.pos_iff_ne_zero.mp positive
  have data := (laid.held_lt held).1
  rw [refOf_of_allocated alloc, slotBlock, if_pos (Nat.le_refl _), same] at data
  omega

/-- **A write of a metadata block** other than the boot block, with the inodes kept aside,
keeps the invariant. -/
theorem Laid.putSector_meta (laid : Laid s D) {sec : Nat} (positive : 0 < sec) (inMeta : sec < nmeta)
    (buf : Nat → UInt8) : Laid (s.putSector sec buf) D := by
  have same := refOf_setBlock (s := s.view D) (b := sec)
    (fun k => if k < nIndirect then entry (fun i => if i < bsize then buf i else 0) k else 0)
    (laid.indirect_ne positive inMeta)
  rw [← view_putSector] at same
  have below : sec + 1 ≤ fsSize := by
    rw [nmeta_eq] at inMeta
    rw [fsSize]
    omega
  refine ⟨by simp [laid.sectors, below], ?_, fun o held => ?_, fun b past i within => ?_,
    laid.typed, laid.free, laid.inodes⟩
  · rw [view_putSector] at same ⊢
    exact laid.blocks.of_refOf (keeps_setBlock _ _) same fun _ marked => marked
  · rw [same] at held
    exact laid.tight o held
  · have other : b ≠ sec := by
      have := laid.nmeta_le
      simp only [putSector_freeblock] at past
      omega
    rw [putSector_img_of_ne _ other]
    exact laid.fresh b past i within

/-- **`winode`** of the inode the invariant has in `D`. -/
theorem Laid.putInode (laid : Laid s (Function.update s.inode ip din)) (below : ip < nInodes) :
    Laid (s.putInode ip din) (s.putInode ip din).inode := by
  have inodes : (s.putInode ip din).inode = Function.update s.inode ip din := by
    funext i
    by_cases same : i = ip
    · subst same
      rw [putInode_inode_self, Function.update_self]
    · rw [putInode_inode_of_ne _ same, Function.update_of_ne same]
  rw [inodes]
  refine laid.putSector_meta (by rw [iblock_eq]; omega) ?_ _
  rw [iblock_eq, nmeta_eq]
  unfold nInodes at below
  omega

theorem toBInode_fresh (type : UInt16) :
    (Dinode.fresh type).toBInode = ⟨typeOf type, 0, fun _ => 0⟩ := by
  ext1
  · rfl
  · rfl
  · funext i
    simp [Dinode.toBInode, Dinode.fresh]

/-- **`ialloc`** of a directory or a file while inodes remain: the inode at `freeinode` was free
and is zeroed, so it holds no block. -/
theorem Laid.ialloc (laid : Laid s s.inode) {type : UInt16} (typed : type = tDir ∨ type = tFile)
    (room : s.freeinode < nInodes) :
    Laid ({ s with freeinode := s.freeinode + 1 }.putInode s.freeinode (Dinode.fresh type))
      ({ s with freeinode := s.freeinode + 1 }.putInode s.freeinode (Dinode.fresh type)).inode := by
  set s₁ : State := { s with freeinode := s.freeinode + 1 } with named
  have view : s₁.view (Function.update s.inode s.freeinode (Dinode.fresh type)) =
      (s.view s.inode).modifyInode s.freeinode fun _ => ⟨typeOf type, 0, fun _ => 0⟩ := by
    ext1
    · rfl
    · rfl
    · rfl
    · funext i
      by_cases same : i = s.freeinode
      · subst same
        simp [State.view, room, toBInode_fresh]
      · simp [State.view, Function.update_of_ne same]
  have free : ((s.view s.inode).inodes s.freeinode).type = .free := by
    rw [view_inodes room]
    show typeOf (s.inode s.freeinode).type = .free
    rw [laid.free _ (Nat.le_refl _) room]
    rfl
  obtain ⟨blocks, same⟩ := laid.blocks.fresh_inode free (typeOf type)
  have laid₁ : Laid s₁ (Function.update s.inode s.freeinode (Dinode.fresh type)) := by
    refine ⟨laid.sectors, view ▸ blocks, fun o held => ?_, laid.fresh, fun i positive issued => ?_,
      fun i past below => ?_, ⟨Nat.succ_pos _, room⟩⟩
    · rw [view, same] at held
      have alloc := (laid.allocated_iff o.1).mp (by_contra fun free => held (if_neg free))
      have other : o.1 ≠ s.freeinode := Nat.ne_of_lt alloc.2
      rw [Function.update_of_ne other]
      exact laid.tight o held
    · by_cases same : i = s.freeinode
      · subst same
        rw [Function.update_self]
        exact typed
      · rw [Function.update_of_ne same]
        exact laid.typed i positive (by simp only [named] at issued; omega)
    · have other : i ≠ s.freeinode := by simp only [named] at past; omega
      rw [Function.update_of_ne other]
      exact laid.free i (by simp only [named] at past; omega) below
  exact laid₁.putInode room

end Laid

end Xv6.Mkfs
