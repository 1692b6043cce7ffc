import Xv6.Fs.Block
import Xv6.Lib.Transition

/-!
**The block structure of the disk, kept by every operation of the block layer.**

A slot is where an inode keeps a block address: `addrs[i]` (`addrs[NDIRECT]` is the indirect
block) or an entry of its indirect block. `refOf` gives, for each slot of each allocated inode,
the block it holds (`0` for none). `BlockInv` is the structure of the disk:

* (0) `metadata`: every block before the first data block is marked in the bitmap;
* (i) `inData`, `marked`: every block an allocated inode holds is a data block below
  `sb.size`, marked in the bitmap;
* (ii) `unique`: no block is held by two slots, of one inode or of two;
* (iii) `sized`, `holeFree`: an allocated inode has at most `MAXFILE` blocks of bytes, and every
  file block below its size is mapped.

The operations change the slots in three ways only: a slot that holds nothing is given a
block whose bit was clear (`BlockInv.fill`), a block no inode holds as its indirect block gets
new content (`BlockInv.setBlock`), and every slot of a freed inode is emptied together with the
bits of its blocks.
-/

namespace Xv6

namespace BlockFs

/-- Where an inode keeps a block address. -/
inductive Slot
  /-- `addrs[i]`: a direct block for `i < NDIRECT`, the indirect block for `i = NDIRECT` -/
  | addr (i : Nat)
  /-- entry `j` of the indirect block -/
  | entry (j : Nat)
  deriving DecidableEq, Repr

/-- The slot of file block `bn`, as `bmap` finds it. -/
def fileSlot (bn : Nat) : Slot := if bn < nDirect then .addr bn else .entry (bn - nDirect)

section Slots

variable (s : BlockFs)

/-- The block a slot of inode `ip` holds. -/
def slotBlock (ip : Nat) : Slot → Nat
  | .addr i => if i ≤ nDirect then (s.inodes ip).addrs i else 0
  | .entry j =>
    if j < nIndirect ∧ (s.inodes ip).addrs nDirect ≠ 0 then
      s.words ((s.inodes ip).addrs nDirect) j
    else 0

/-- The block each slot of each allocated inode holds, `0` for none. -/
def refOf (o : Nat × Slot) : Nat := if s.Allocated o.1 then s.slotBlock o.1 o.2 else 0

end Slots

/-- **The block structure of the disk.** -/
structure BlockInv (s : BlockFs) : Prop where
  /-- the boot block comes before the data -/
  boot : 0 < s.sb.dataStart
  metadata : ∀ b < s.sb.dataStart, s.used b = true
  inData : ∀ o, s.refOf o ≠ 0 → s.sb.dataStart ≤ s.refOf o ∧ s.refOf o < s.sb.size
  marked : ∀ o, s.refOf o ≠ 0 → s.used (s.refOf o) = true
  unique : Set.InjOn s.refOf (Function.support s.refOf)
  sized : ∀ ip, s.Allocated ip → (s.inodes ip).size ≤ maxFile * bsize
  holeFree : ∀ ip, s.Allocated ip → ∀ bn, bn * bsize < (s.inodes ip).size →
    s.refOf (ip, fileSlot bn) ≠ 0

/-- `s'` has the superblock, and the types and sizes of the inodes, of `s`. -/
structure Keeps (s s' : BlockFs) : Prop where
  sb : s'.sb = s.sb
  type : ∀ ip, (s'.inodes ip).type = (s.inodes ip).type
  size : ∀ ip, (s'.inodes ip).size = (s.inodes ip).size

/-- `s'` keeps what `Keeps` says and every block a slot of `s` holds. -/
structure Grows (s s' : BlockFs) : Prop extends Keeps s s' where
  held : ∀ o, s.refOf o ≠ 0 → s'.refOf o = s.refOf o

section Frames

variable {s s' s'' : BlockFs}

theorem Keeps.refl (s : BlockFs) : Keeps s s := ⟨rfl, fun _ => rfl, fun _ => rfl⟩

theorem Keeps.trans (first : Keeps s s') (second : Keeps s' s'') : Keeps s s'' :=
  ⟨second.sb.trans first.sb, fun ip => (second.type ip).trans (first.type ip),
    fun ip => (second.size ip).trans (first.size ip)⟩

theorem Keeps.allocated_iff (keeps : Keeps s s') (ip : Nat) : s'.Allocated ip ↔ s.Allocated ip := by
  simp only [Allocated, keeps.sb, keeps.type]

theorem Grows.refl (s : BlockFs) : Grows s s := ⟨Keeps.refl s, fun _ _ => rfl⟩

theorem Grows.trans (first : Grows s s') (second : Grows s' s'') : Grows s s'' where
  toKeeps := first.toKeeps.trans second.toKeeps
  held o holds := by
    rw [second.held o (by rw [first.held o holds]; exact holds), first.held o holds]

theorem Grows.of_refOf (keeps : Keeps s s') (same : s'.refOf = s.refOf) : Grows s s' :=
  ⟨keeps, fun o _ => by rw [same]⟩

end Frames

/-! ### Slots under the updates -/

section Updates

open Lib

variable {s s' : BlockFs}

theorem Keeps.refOf_eq (keeps : Keeps s s') (o : Nat × Slot) :
    s'.refOf o = if s.Allocated o.1 then s'.slotBlock o.1 o.2 else 0 := by
  rw [refOf, if_congr (keeps.allocated_iff o.1) rfl rfl]

theorem keeps_setUsed (b : Nat) (bit : Bool) : Keeps s (s.setUsed b bit) :=
  ⟨rfl, fun _ => rfl, fun _ => rfl⟩

theorem keeps_setBlock (b : Nat) (c : Nat → Nat) : Keeps s (s.setBlock b c) :=
  ⟨rfl, fun _ => rfl, fun _ => rfl⟩

theorem keeps_setAddr (ip i a : Nat) : Keeps s (s.setAddr ip i a) := by
  refine ⟨rfl, fun q => ?_, fun q => ?_⟩ <;> by_cases same : q = ip <;>
    simp [setAddr, same]

@[simp] theorem refOf_setUsed (b : Nat) (bit : Bool) : (s.setUsed b bit).refOf = s.refOf := rfl

theorem refOf_setBlock {b : Nat} (c : Nat → Nat)
    (notInd : ∀ ip, s.Allocated ip → (s.inodes ip).addrs nDirect ≠ b) :
    (s.setBlock b c).refOf = s.refOf := by
  funext ⟨ip, σ⟩
  rw [(keeps_setBlock b c).refOf_eq, refOf]
  by_cases alloc : s.Allocated ip
  · rw [if_pos alloc, if_pos alloc]
    cases σ with
    | addr i => rfl
    | entry j => simp [slotBlock, Function.update_of_ne (notInd ip alloc)]
  · rw [if_neg alloc, if_neg alloc]

theorem refOf_setAddr {ip i : Nat} (alloc : s.Allocated ip) (direct : i < nDirect) (a : Nat) :
    (s.setAddr ip i a).refOf = Function.update s.refOf (ip, .addr i) a := by
  funext ⟨q, σ⟩
  rw [(keeps_setAddr ip i a).refOf_eq]
  by_cases same : q = ip
  · subst same
    rw [if_pos alloc]
    cases σ with
    | addr i' =>
      by_cases here : i' = i
      · subst here
        simp [slotBlock, setAddr, direct.le]
      · rw [Function.update_of_ne (by simp [here])]
        simp [refOf, alloc, slotBlock, setAddr, here]
    | entry j =>
      rw [Function.update_of_ne (by simp)]
      simp [refOf, alloc, slotBlock, setAddr, Function.update_of_ne direct.ne']
  · have other : (q, σ) ≠ (ip, .addr i) := fun eq => same (Prod.ext_iff.mp eq).1
    rw [Function.update_of_ne other, refOf]
    split
    · cases σ <;> simp [slotBlock, setAddr, Function.update_of_ne same]
    · rfl

theorem refOf_of_allocated {ip : Nat} (alloc : s.Allocated ip) (σ : Slot) :
    s.refOf (ip, σ) = s.slotBlock ip σ := if_pos alloc

/-- Two slots hold different blocks, unless they hold none. -/
theorem held_ne (unique : Set.InjOn s.refOf (Function.support s.refOf)) (o o' : Nat × Slot)
    (ne : o ≠ o') (held : s.refOf o ≠ 0) : s.refOf o ≠ s.refOf o' := by
  intro same
  exact ne (unique held (by rw [Function.mem_support, ← same]; exact held) same)

/-- Only one allocated inode has a given indirect block. -/
theorem indirect_ne (unique : Set.InjOn s.refOf (Function.support s.refOf)) {ip q : Nat}
    (alloc : s.Allocated ip) (alloc' : s.Allocated q) (ne : q ≠ ip)
    (ind : (s.inodes ip).addrs nDirect ≠ 0) :
    (s.inodes q).addrs nDirect ≠ (s.inodes ip).addrs nDirect := by
  have held : s.refOf (ip, .addr nDirect) ≠ 0 := by
    rw [refOf_of_allocated alloc]
    simpa [slotBlock] using ind
  have apart := held_ne unique _ (q, .addr nDirect) (by simp [Ne.symm ne]) held
  rw [refOf_of_allocated alloc, refOf_of_allocated alloc'] at apart
  simpa [slotBlock] using Ne.symm apart

/-- A new indirect block, zeroed, where there was none: its entries hold nothing. -/
theorem refOf_setIndirect {ip a : Nat} (alloc : s.Allocated ip)
    (none : (s.inodes ip).addrs nDirect = 0) (zeroed : s.words a = fun _ => 0) :
    (s.setAddr ip nDirect a).refOf = Function.update s.refOf (ip, .addr nDirect) a := by
  funext ⟨q, σ⟩
  rw [(keeps_setAddr ip nDirect a).refOf_eq]
  by_cases same : q = ip
  · subst same
    rw [if_pos alloc]
    cases σ with
    | addr i =>
      by_cases here : i = nDirect
      · subst here
        simp [slotBlock, setAddr]
      · rw [Function.update_of_ne (by simp [here])]
        simp [refOf, alloc, slotBlock, setAddr, here]
    | entry j =>
      rw [Function.update_of_ne (by simp)]
      simp [refOf, alloc, slotBlock, setAddr, none, zeroed]
  · have other : (q, σ) ≠ (ip, .addr nDirect) := fun eq => same (Prod.ext_iff.mp eq).1
    rw [Function.update_of_ne other, refOf]
    split
    · cases σ <;> simp [slotBlock, setAddr, Function.update_of_ne same]
    · rfl

/-- An entry written into the indirect block of one allocated inode: the slot of that entry,
and no slot of another inode, holds the new address. -/
theorem refOf_setWord (unique : Set.InjOn s.refOf (Function.support s.refOf)) {ip j x : Nat}
    (alloc : s.Allocated ip) (ind : (s.inodes ip).addrs nDirect ≠ 0) (entry : j < nIndirect) :
    (s.setWord ((s.inodes ip).addrs nDirect) j x).refOf =
      Function.update s.refOf (ip, .entry j) x := by
  funext ⟨q, σ⟩
  rw [setWord, (keeps_setBlock _ _).refOf_eq]
  by_cases same : q = ip
  · subst same
    rw [if_pos alloc]
    cases σ with
    | addr i =>
      rw [Function.update_of_ne (by simp)]
      simp [refOf, alloc, slotBlock]
    | entry j' =>
      by_cases here : j' = j
      · subst here
        simp [slotBlock, entry, ind]
      · rw [Function.update_of_ne (by simp [here])]
        simp [refOf, alloc, slotBlock, here]
  · have other : (q, σ) ≠ (ip, .entry j) := fun eq => same (Prod.ext_iff.mp eq).1
    rw [Function.update_of_ne other, refOf]
    split
    · next alloc' =>
      have apart := indirect_ne unique alloc alloc' same ind
      cases σ <;> simp [slotBlock, Function.update_of_ne apart]
    · rfl


/-- A new size changes no slot. -/
theorem refOf_setSize (ip size : Nat) :
    (s.modifyInode ip fun d => { d with size := size }).refOf = s.refOf := by
  have allocated : ∀ q, (s.modifyInode ip fun d => { d with size := size }).Allocated q ↔
      s.Allocated q := by
    intro q
    have types : ((s.modifyInode ip fun d => { d with size := size }).inodes q).type =
        (s.inodes q).type := by
      by_cases same : q = ip
      · subst same; simp
      · simp [Function.update_of_ne same]
    simp only [Allocated, modifyInode_sb, types]
  funext ⟨q, σ⟩
  simp only [refOf, allocated]
  by_cases same : q = ip
  · subst same
    cases σ <;> simp [slotBlock]
  · cases σ <;> simp [slotBlock, Function.update_of_ne same]

/-! ### The invariant under the updates -/

/-- A file block is never kept where the indirect block is. -/
theorem fileSlot_ne_indirect (bn : Nat) : fileSlot bn ≠ .addr nDirect := by
  unfold fileSlot
  split
  · next direct => simp [direct.ne]
  · simp

namespace BlockInv

variable (inv : s.BlockInv)
include inv

/-- A block whose bit is clear is a data block. -/
theorem data_of_clear {b : Nat} (clear : s.used b = false) : s.sb.dataStart ≤ b := by
  by_contra before
  have marked := inv.metadata b (by omega)
  rw [clear] at marked
  cases marked

/-- No slot holds a block whose bit is clear. -/
theorem fresh_of_clear {b : Nat} (clear : s.used b = false) (o : Nat × Slot) : s.refOf o ≠ b := by
  intro holds
  have positive : s.refOf o ≠ 0 := by
    have := inv.data_of_clear clear
    have := inv.boot
    omega
  have marked := inv.marked o positive
  rw [holds, clear] at marked
  cases marked

/-- A step that keeps the slots and sets bits only keeps the invariant. -/
theorem of_refOf {s' : BlockFs} (keeps : Keeps s s') (same : s'.refOf = s.refOf)
    (more : ∀ b, s.used b = true → s'.used b = true) : s'.BlockInv where
  boot := by rw [keeps.sb]; exact inv.boot
  metadata b before := more b (inv.metadata b (by rwa [keeps.sb] at before))
  inData o held := by rw [same, keeps.sb] at *; exact inv.inData o held
  marked o held := by rw [same] at *; exact more _ (inv.marked o held)
  unique := by rw [same]; exact inv.unique
  sized ip alloc := by
    rw [keeps.size]
    exact inv.sized ip ((keeps.allocated_iff ip).mp alloc)
  holeFree ip alloc bn below := by
    rw [same]
    exact inv.holeFree ip ((keeps.allocated_iff ip).mp alloc) bn (by rwa [keeps.size] at below)

/-- **A fresh block in an empty slot.** Giving a slot that holds nothing a marked data block
that no slot holds keeps the invariant, and every block held before. -/
theorem fill {s' : BlockFs} (keeps : Keeps s s') (bits : s'.used = s.used) {o : Nat × Slot}
    {b : Nat} (empty : s.refOf o = 0) (fresh : ∀ o', s.refOf o' ≠ b)
    (data : s.sb.dataStart ≤ b) (below : b < s.sb.size) (marked : s.used b = true)
    (filled : s'.refOf = Function.update s.refOf o b) : s'.BlockInv ∧ Grows s s' := by
  have positive : b ≠ 0 := by
    have := inv.boot
    omega
  have held : ∀ o', s.refOf o' ≠ 0 → s'.refOf o' = s.refOf o' := by
    intro o' held
    rw [filled, Function.update_of_ne]
    rintro rfl
    exact held empty
  refine ⟨⟨?_, ?_, ?_, ?_, ?_, ?_, ?_⟩, keeps, held⟩
  · rw [keeps.sb]; exact inv.boot
  · intro c before
    rw [bits]
    exact inv.metadata c (by rwa [keeps.sb] at before)
  · intro o' nonzero
    rw [keeps.sb, filled]
    by_cases here : o' = o
    · subst here
      rw [Function.update_self]
      exact ⟨data, below⟩
    · rw [filled, Function.update_of_ne here] at nonzero
      rw [Function.update_of_ne here]
      exact inv.inData o' nonzero
  · intro o' nonzero
    rw [bits, filled]
    by_cases here : o' = o
    · subst here
      rw [Function.update_self]
      exact marked
    · rw [filled, Function.update_of_ne here] at nonzero
      rw [Function.update_of_ne here]
      exact inv.marked o' nonzero
  · rw [filled]
    exact injOn_support_update inv.unique o fresh
  · intro ip alloc
    rw [keeps.size]
    exact inv.sized ip ((keeps.allocated_iff ip).mp alloc)
  · intro ip alloc bn under
    rw [keeps.size] at under
    have was := inv.holeFree ip ((keeps.allocated_iff ip).mp alloc) bn under
    rw [held _ was]
    exact was

/-- The state `balloc` leaves: the invariant, and the same slots. -/
theorem alloc {b : Nat} (clear : s.used b = false) :
    ((s.setUsed b true).setBlock b fun _ => 0).BlockInv ∧
      ((s.setUsed b true).setBlock b fun _ => 0).refOf = s.refOf := by
  have same : ((s.setUsed b true).setBlock b fun _ => 0).refOf = s.refOf := by
    rw [refOf_setBlock _ fun ip alloc => ?_, refOf_setUsed]
    have apart := inv.fresh_of_clear clear (ip, .addr nDirect)
    rwa [refOf_of_allocated (show s.Allocated ip from alloc), slotBlock, if_pos le_rfl] at apart
  refine ⟨inv.of_refOf ⟨rfl, fun _ => rfl, fun _ => rfl⟩ same fun c marked => ?_, same⟩
  by_cases here : c = b
  · simp [here]
  · simp [Function.update_of_ne here, marked]


/-- **`if((addr = X) == 0) X = addr = balloc(dev)`** on the address `X` of a slot `o`: it
returns the block the slot holds, after giving it a fresh one if it held none. `write` must set
that slot only, in the state `balloc` leaves. -/
theorem allocIfZero_ends {read : BlockFs → Nat} {write : BlockFs → Nat → BlockFs}
    {o : Nat × Slot} (reads : read s = s.refOf o)
    (writes : read s = 0 → ∀ b, s.used b = false →
      Keeps ((s.setUsed b true).setBlock b fun _ => 0)
          (write ((s.setUsed b true).setBlock b fun _ => 0) b) ∧
        (write ((s.setUsed b true).setBlock b fun _ => 0) b).used =
          ((s.setUsed b true).setBlock b fun _ => 0).used ∧
        (write ((s.setUsed b true).setBlock b fun _ => 0) b).refOf =
          Function.update ((s.setUsed b true).setBlock b fun _ => 0).refOf o b) :
    Ends (allocIfZero read write) s (· = "balloc: out of blocks") fun a s' =>
      s'.BlockInv ∧ Grows s s' ∧ a ≠ 0 ∧ s'.refOf o = a := by
  unfold allocIfZero
  refine Ends.bind (Ends.get ?_)
  refine Ends.ite (fun held => Ends.pure ⟨inv, Grows.refl s, held, reads.symm⟩) fun none => ?_
  have empty : read s = 0 := not_not.mp none
  refine Ends.bind ((balloc_ends s).mono ?_)
  rintro b _ ⟨clear, below, rfl⟩
  obtain ⟨inv₁, same⟩ := inv.alloc clear
  obtain ⟨keeps, bits, filled⟩ := writes empty b clear
  have data := inv.data_of_clear clear
  obtain ⟨inv', grows⟩ := inv₁.fill keeps bits (by rw [same, ← reads, empty])
    (by rw [same]; exact inv.fresh_of_clear clear) data below (by simp) filled
  have positive : b ≠ 0 := by
    have := inv.boot
    omega
  refine Ends.bind (Ends.modify (Ends.pure ⟨inv', ?_, positive, ?_⟩))
  · exact (Grows.of_refOf ((keeps_setUsed b true).trans (keeps_setBlock b _)) same).trans grows
  · rw [filled, Function.update_self]

/-- **`bmap`.** The block of file block `bn` of an allocated inode, in range: its slot holds it
afterwards, and every block held before is still held. -/
theorem bmap_ends {ip bn : Nat} (alloc : s.Allocated ip) (inRange : bn < maxFile) :
    Ends (bmap ip bn) s (· = "balloc: out of blocks") fun a s' =>
      s'.BlockInv ∧ Grows s s' ∧ a ≠ 0 ∧ s'.refOf (ip, fileSlot bn) = a := by
  unfold bmap
  refine Ends.ite (fun direct => ?_) fun indirect => Ends.ite (fun entry => ?_) fun out => ?_
  · rw [fileSlot, if_pos direct]
    refine inv.allocIfZero_ends
      (by rw [refOf_of_allocated alloc, slotBlock, if_pos direct.le]) fun _ b _ => ?_
    exact ⟨keeps_setAddr _ _ _, rfl,
      refOf_setAddr (s := (s.setUsed b true).setBlock b fun _ => 0) alloc direct b⟩
  · rw [fileSlot, if_neg indirect]
    -- the indirect block first, then its entry
    refine Ends.bind ((inv.allocIfZero_ends (o := (ip, .addr nDirect))
      (by rw [refOf_of_allocated alloc, slotBlock, if_pos le_rfl]) fun empty b _ => ?_).mono ?_)
    · exact ⟨keeps_setAddr _ _ _, rfl,
        refOf_setIndirect (s := (s.setUsed b true).setBlock b fun _ => 0) alloc empty (by simp)⟩
    rintro ind s₂ ⟨inv₂, grows₂, positive, pointer⟩
    have alloc₂ : s₂.Allocated ip := (grows₂.allocated_iff ip).mpr alloc
    have pointer' : (s₂.inodes ip).addrs nDirect = ind := by
      rw [← pointer, refOf_of_allocated alloc₂, slotBlock, if_pos le_rfl]
    refine (inv₂.allocIfZero_ends (o := (ip, .entry (bn - nDirect))) ?_ fun _ b clear => ?_).mono ?_
    · rw [refOf_of_allocated alloc₂, slotBlock, if_pos ⟨entry, by rw [pointer']; exact positive⟩,
        pointer']
    · have written := refOf_setWord (inv₂.alloc clear).1.unique (j := bn - nDirect)
        (x := b) alloc₂ (by simp only [setBlock_inodes, setUsed_inodes]; rw [pointer']; exact positive)
        entry
      simp only [setBlock_inodes, setUsed_inodes, pointer'] at written
      exact ⟨keeps_setBlock _ _, rfl, written⟩
    · rintro a s' ⟨inv', grows', positive', slot⟩
      exact ⟨inv', grows₂.trans grows', positive', slot⟩
  · exfalso
    unfold maxFile at inRange
    omega


/-- **A data write.** New content for a block that a file slot holds keeps the invariant and
every slot: no inode has that block as its indirect block. -/
theorem setBlock_held {ip bn : Nat} (held : s.refOf (ip, fileSlot bn) ≠ 0) (c : Nat → Nat) :
    (s.setBlock (s.refOf (ip, fileSlot bn)) c).BlockInv ∧
      (s.setBlock (s.refOf (ip, fileSlot bn)) c).refOf = s.refOf := by
  have same : (s.setBlock (s.refOf (ip, fileSlot bn)) c).refOf = s.refOf := by
    refine refOf_setBlock c fun q alloc' => ?_
    have apart := held_ne inv.unique _ (q, .addr nDirect) (by simp [fileSlot_ne_indirect]) held
    rw [refOf_of_allocated alloc', slotBlock, if_pos le_rfl] at apart
    exact Ne.symm apart
  exact ⟨inv.of_refOf (keeps_setBlock _ _) same fun _ marked => marked, same⟩

/-- **A new size** up to `MAXFILE` blocks, with every block below it mapped. -/
theorem setSize {ip size : Nat} (fits : size ≤ maxFile * bsize)
    (mapped : ∀ bn, bn * bsize < size → s.refOf (ip, fileSlot bn) ≠ 0) :
    (s.modifyInode ip fun d => { d with size := size }).BlockInv := by
  have types : ∀ q, ((s.modifyInode ip fun d => { d with size := size }).inodes q).type =
      (s.inodes q).type := by
    intro q
    by_cases same : q = ip
    · subst same; simp
    · simp [Function.update_of_ne same]
  have allocated : ∀ q, (s.modifyInode ip fun d => { d with size := size }).Allocated q ↔
      s.Allocated q := by
    intro q
    simp only [Allocated, modifyInode_sb, types]
  have slots : (s.modifyInode ip fun d => { d with size := size }).refOf = s.refOf :=
    refOf_setSize ip size
  refine ⟨inv.boot, inv.metadata, ?_, ?_, ?_, ?_, ?_⟩
  · rw [slots]; exact inv.inData
  · rw [slots]; exact inv.marked
  · rw [slots]; exact inv.unique
  · intro q alloc'
    by_cases same : q = ip
    · subst same; simpa using fits
    · simpa [Function.update_of_ne same] using inv.sized q ((allocated q).mp alloc')
  · intro q alloc' bn below
    rw [slots]
    by_cases same : q = ip
    · subst same
      exact mapped bn (by simpa using below)
    · exact inv.holeFree q ((allocated q).mp alloc') bn
        (by simpa [Function.update_of_ne same] using below)

end BlockInv


end Updates

end BlockFs

end Xv6
