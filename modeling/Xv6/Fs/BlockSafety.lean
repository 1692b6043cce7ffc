import Xv6.Fs.BlockInv

/-!
**Every operation of the block layer keeps the block structure (`BlockInv`).**

* `writei_ends` — `writei` maps every block it writes (`writeLoop_ends`: every block below the
  bytes written so far is mapped), so the size it sets leaves no hole; it panics only when
  `balloc` runs out of blocks, and never reaches "bmap: out of range";
* `readi_ends` — `readi` reads blocks below the size only, which are mapped: it calls no
  `balloc` and changes nothing;
* `itrunc_ends` — `itrunc` frees each block of the inode once, each marked, so "freeing free
  block" is not reached; it clears exactly their bits and empties the slots. `iputFree_ends`:
  no other slot holds those blocks;
* `ialloc_ends` — the inode `ialloc` takes holds no block;
* `block_structure` — from an image with the block structure, every disk that any run of the
  operations reaches has it, and `balloc` hands out blocks no slot holds.
-/

namespace Xv6

namespace BlockFs

open Lib

variable {s : BlockFs}

/-! ### Blocks that are mapped -/

/-- `allocIfZero` of an address that is set returns it and changes nothing. -/
theorem allocIfZero_held {read : BlockFs → Nat} {write : BlockFs → Nat → BlockFs}
    {E : String → Prop} (held : read s ≠ 0) :
    Ends (allocIfZero read write) s E fun a s' => s' = s ∧ a = read s := by
  unfold allocIfZero
  exact Ends.bind (Ends.get (Ends.ite (fun _ => Ends.pure ⟨rfl, rfl⟩) fun none => absurd held none))

/-- `bmap` of a file block that is mapped returns its block and changes nothing. -/
theorem bmap_held {ip bn : Nat} {E : String → Prop} (alloc : s.Allocated ip)
    (held : s.refOf (ip, fileSlot bn) ≠ 0) :
    Ends (bmap ip bn) s E fun a s' => s' = s ∧ a = s.refOf (ip, fileSlot bn) := by
  unfold bmap
  rw [refOf_of_allocated alloc, fileSlot] at *
  refine Ends.ite (fun direct => ?_) fun indirect => Ends.ite (fun entry => ?_) fun out => ?_
  · rw [if_pos direct, slotBlock, if_pos direct.le] at *
    exact allocIfZero_held held
  · rw [if_neg indirect, slotBlock] at *
    by_cases inside : bn - nDirect < nIndirect ∧ (s.inodes ip).addrs nDirect ≠ 0
    · rw [if_pos inside] at *
      refine Ends.bind ((allocIfZero_held inside.2).mono ?_)
      rintro ind _ ⟨rfl, rfl⟩
      exact allocIfZero_held held
    · rw [if_neg inside] at held
      exact absurd rfl held
  · rw [if_neg indirect, slotBlock, if_neg fun inside => out inside.1] at held
    exact absurd rfl held

/-- **The loop of `readi`.** Over bytes whose blocks are all mapped, it changes nothing. -/
theorem readLoop_ends {ip : Nat} (alloc : s.Allocated ip) :
    ∀ (fuel off rest : Nat), (∀ bn, bn * bsize < off + rest → s.refOf (ip, fileSlot bn) ≠ 0) →
      Ends (blockLoop ip (fun _ _ => pure ()) fuel off rest) s (fun _ => False)
        fun _ s' => s' = s := by
  intro fuel
  induction fuel with
  | zero => exact fun _ _ _ => Ends.pure rfl
  | succ fuel ih =>
    intro off rest mapped
    rw [blockLoop]
    refine Ends.ite (fun _ => Ends.pure rfl) fun going => ?_
    have held := mapped (off / bsize) (by rw [bsize_eq]; omega)
    refine Ends.bind ((bmap_held alloc held).mono ?_)
    rintro _ _ ⟨rfl, -⟩
    refine Ends.bind (Ends.pure (ih _ _ fun bn below => mapped bn ?_))
    rw [bsize_eq] at *
    omega

/-- Inode `ip` holds block `c` in one of its slots. -/
def HoldsBlock (s : BlockFs) (ip c : Nat) : Prop :=
  (∃ i < nDirect, (s.inodes ip).addrs i = c) ∨ (s.inodes ip).addrs nDirect = c ∨
    ((s.inodes ip).addrs nDirect ≠ 0 ∧ ∃ j < nIndirect, s.words ((s.inodes ip).addrs nDirect) j = c)

instance (ip c : Nat) : Decidable (s.HoldsBlock ip c) :=
  inferInstanceAs (Decidable (_ ∨ _ ∨ _))

/-! ### The operations -/

namespace BlockInv

variable (inv : s.BlockInv)
include inv

omit inv in
/-- **The loop of `writei`.** From a state where every block below `off` is mapped, it maps
every block below `off + rest`, and keeps the invariant and every block held before. -/
theorem writeLoop_ends (src : Nat → Nat → Nat) {ip : Nat} :
    ∀ (fuel off rest : Nat) (s : BlockFs), s.BlockInv → s.Allocated ip →
      off + rest ≤ maxFile * bsize → rest ≤ fuel →
      (∀ bn, bn * bsize < off → s.refOf (ip, fileSlot bn) ≠ 0) →
      Ends (blockLoop ip (fun bn addr => modify (·.setBlock addr (src bn))) fuel off rest) s
        (· = "balloc: out of blocks") fun _ s' =>
          s'.BlockInv ∧ Grows s s' ∧ ∀ bn, bn * bsize < off + rest → s'.refOf (ip, fileSlot bn) ≠ 0 := by
  intro fuel
  induction fuel with
  | zero =>
    intro off rest s inv _ _ none mapped
    have empty : rest = 0 := by omega
    subst empty
    exact Ends.pure ⟨inv, Grows.refl s, mapped⟩
  | succ fuel ih =>
    intro off rest s inv alloc fits enough mapped
    rw [blockLoop]
    refine Ends.ite (fun done => Ends.pure ⟨inv, Grows.refl s, ?_⟩) fun going => ?_
    · rw [done, Nat.add_zero]
      exact mapped
    have inRange : off / bsize < maxFile := by
      rw [bsize_eq, maxFile_eq] at *
      omega
    refine Ends.bind ((inv.bmap_ends alloc inRange).mono ?_)
    rintro _ s₁ ⟨inv₁, grows₁, positive, rfl⟩
    obtain ⟨inv₂, same⟩ := inv₁.setBlock_held positive (src (off / bsize))
    have grows₂ := grows₁.trans (Grows.of_refOf (keeps_setBlock _ _) same)
    -- the blocks below the end of this turn: those below `off`, and the block of `off`
    refine Ends.bind (Ends.modify ((ih _ _ _ inv₂ ((grows₂.allocated_iff ip).mpr alloc) ?_ ?_ ?_).mono ?_))
    · rw [bsize_eq, maxFile_eq] at *
      omega
    · rw [bsize_eq]
      omega
    · intro bn below
      by_cases before : bn * bsize < off
      · rw [grows₂.held _ (mapped bn before)]
        exact mapped bn before
      · have this_block : bn = off / bsize := by
          rw [bsize_eq] at *
          omega
        rw [same, this_block]
        exact positive
    · rintro _ s' ⟨inv', grows', mapped'⟩
      refine ⟨inv', grows₂.trans grows', fun bn below => mapped' bn ?_⟩
      rw [bsize_eq] at *
      omega


/-- **`writei`** keeps the invariant, and panics only when it runs out of blocks. -/
theorem writei_ends {ip : Nat} (alloc : s.Allocated ip) (off n : Nat) (src : Nat → Nat → Nat) :
    Ends (writei ip off n src) s (· = "balloc: out of blocks") fun _ s' => s'.BlockInv := by
  unfold writei
  refine Ends.bind (Ends.get ?_)
  refine Ends.ite (fun _ => Ends.pure inv) fun inside =>
    Ends.ite (fun _ => Ends.pure inv) fun fits => ?_
  have fits' : off + n ≤ maxFile * bsize := by omega
  have start : ∀ bn, bn * bsize < off → s.refOf (ip, fileSlot bn) ≠ 0 :=
    fun bn below => inv.holeFree ip alloc bn (by omega)
  refine Ends.bind ((writeLoop_ends src n off n s inv alloc fits' le_rfl start).mono ?_)
  rintro _ s₁ ⟨inv₁, grows₁, mapped₁⟩
  refine Ends.bind (Ends.get ?_)
  dsimp only
  refine Ends.ite (fun _ => Ends.bind (Ends.modify (Ends.pure ?_))) fun _ => Ends.pure inv₁
  exact inv₁.setSize fits' mapped₁


/-- **`readi`** maps no block: it changes nothing, and does not fail. -/
theorem readi_ends {ip : Nat} (alloc : s.Allocated ip) (off n : Nat) :
    Ends (readi ip off n) s (fun _ => False) fun _ s' => s' = s := by
  unfold readi
  refine Ends.bind (Ends.get ?_)
  refine Ends.ite (fun _ => Ends.pure rfl) fun inside => ?_
  refine Ends.bind ((readLoop_ends alloc _ off _ fun bn below =>
    inv.holeFree ip alloc bn ?_).mono ?_)
  · -- the bytes read end at the size at the latest
    split at below <;> omega
  · rintro _ _ rfl
    exact Ends.pure rfl

/-- Two slots of one allocated inode that hold the same block are one slot. -/
theorem slot_inj {ip : Nat} (alloc : s.Allocated ip) {σ τ : Slot}
    (same : s.slotBlock ip σ = s.slotBlock ip τ) (held : s.slotBlock ip σ ≠ 0) : σ = τ := by
  rw [← refOf_of_allocated alloc, ← refOf_of_allocated alloc] at same
  rw [← refOf_of_allocated alloc] at held
  have := inv.unique held (by rw [Function.mem_support, ← same]; exact held) same
  exact (Prod.ext_iff.mp this).2

theorem marked_slot {ip : Nat} (alloc : s.Allocated ip) {σ : Slot} (held : s.slotBlock ip σ ≠ 0) :
    s.used (s.slotBlock ip σ) = true := by
  rw [← refOf_of_allocated alloc] at held ⊢
  exact inv.marked _ held

/-- **`itrunc`** of an allocated inode does not fail: it clears the bit of every block the inode
holds and empties its slots, and sets its size to `0`. -/
theorem itrunc_ends {ip : Nat} (alloc : s.Allocated ip) :
    Ends (itrunc ip) s (fun _ => False) fun _ s' =>
      s' = ((s.release fun c => decide (c ≠ 0 ∧ s.HoldsBlock ip c)).clearAddrs ip
        fun i => decide (i ≤ nDirect)).modifyInode ip fun d => { d with size := 0 } := by
  have direct : ∀ x < nDirect, s.slotBlock ip (.addr x) = (s.inodes ip).addrs x :=
    fun x below => if_pos below.le
  unfold itrunc
  refine Ends.bind ((truncDirect_ends (List.range nDirect) s List.nodup_range
    (fun x mem set => ?_) (fun x mem y mem' same set => ?_)).mono ?_)
  · rw [List.mem_range] at mem
    rw [← direct x mem] at set ⊢
    exact inv.marked_slot alloc set
  · rw [List.mem_range] at mem mem'
    rw [← direct x mem, ← direct y mem'] at same
    rw [← direct x mem] at set
    exact Slot.addr.inj (inv.slot_inj alloc same set)
  rintro _ _ rfl
  have entry : ∀ j < nIndirect, (s.inodes ip).addrs nDirect ≠ 0 →
      s.slotBlock ip (.entry j) = s.words ((s.inodes ip).addrs nDirect) j :=
    fun j below set => if_pos ⟨below, set⟩
  have pointer : s.slotBlock ip (.addr nDirect) = (s.inodes ip).addrs nDirect := by
    rw [slotBlock, if_pos le_rfl]
  -- the first loop leaves the indirect block, and the content of every block, as they were
  set s₁ := (s.release fun c => decide (c ≠ 0 ∧ ∃ x ∈ List.range nDirect,
      (s.inodes ip).addrs x = c)).clearAddrs ip fun i => decide (i ∈ List.range nDirect) with named₁
  have pointer₁ : (s₁.inodes ip).addrs nDirect = (s.inodes ip).addrs nDirect := by
    simp [named₁, clearAddrs_addrs]
  have words₁ : s₁.words = s.words := rfl
  have used₁ : ∀ c, s₁.used c = (s.used c &&
      !decide (c ≠ 0 ∧ ∃ x ∈ List.range nDirect, (s.inodes ip).addrs x = c)) := fun _ => rfl
  -- a block held in another slot is not a direct block
  have notDirect : ∀ σ, (∀ x < nDirect, σ ≠ .addr x) → s.slotBlock ip σ ≠ 0 →
      ¬∃ x ∈ List.range nDirect, (s.inodes ip).addrs x = s.slotBlock ip σ := by
    rintro σ other held ⟨x, mem, same⟩
    rw [List.mem_range] at mem
    rw [← direct x mem] at same
    exact other x mem (inv.slot_inj alloc same.symm held)
  refine Ends.bind (Ends.get ?_)
  dsimp only
  rw [pointer₁]
  refine Ends.ite (fun set => ?_) fun zero => ?_
  · refine Ends.bind (Ends.get ?_)
    rw [words₁]
    refine Ends.bind ((freeEach_ends _ (List.range nIndirect) s₁ List.nodup_range
      (fun j mem held => ?_) (fun i mem j mem' same held => ?_)).mono ?_)
    · rw [List.mem_range] at mem
      rw [← entry j mem set] at held ⊢
      rw [used₁, inv.marked_slot alloc held]
      have apart := notDirect _ (fun _ _ => by simp) held
      simp only [List.mem_range, not_exists, not_and] at apart
      simpa using Or.inr apart
    · rw [List.mem_range] at mem mem'
      rw [← entry i mem set, ← entry j mem' set] at same
      rw [← entry i mem set] at held
      exact Slot.entry.inj (inv.slot_inj alloc same held)
    rintro _ _ rfl
    -- the indirect block is marked, and neither a direct block nor one it lists
    have marked : (s₁.release fun c => decide (c ≠ 0 ∧ ∃ j ∈ List.range nIndirect,
        s.words ((s.inodes ip).addrs nDirect) j = c)).used ((s.inodes ip).addrs nDirect) = true := by
      have held : s.slotBlock ip (.addr nDirect) ≠ 0 := by rwa [pointer]
      have listed : ¬∃ j ∈ List.range nIndirect,
          s.words ((s.inodes ip).addrs nDirect) j = (s.inodes ip).addrs nDirect := by
        rintro ⟨j, mem, same⟩
        rw [List.mem_range] at mem
        rw [← entry j mem set, ← pointer] at same
        cases inv.slot_inj alloc same.symm held
      have direct' := notDirect _ (fun x below eq => by cases eq; omega) held
      have used := inv.marked_slot alloc held
      rw [pointer] at direct' used
      simp only [List.mem_range, not_exists, not_and] at direct' listed
      simpa [release, used₁, used] using ⟨Or.inr direct', Or.inr listed⟩
    refine Ends.bind ((bfree_ends marked).mono ?_)
    rintro _ _ rfl
    refine Ends.bind (Ends.modify (Ends.modify ?_))
    rw [setUsed_false_eq_release, setAddr_zero_eq_clearAddrs, named₁, release_clearAddrs,
      release_clearAddrs, clearAddrs_clearAddrs, release_release, release_release]
    congr 3
    · funext c
      by_cases zc : c = 0
      · simp [HoldsBlock, zc, Ne.symm set]
      · by_cases hc : c = (s.inodes ip).addrs nDirect
        · simp [HoldsBlock, hc, set]
        · simp [HoldsBlock, zc, hc, Ne.symm hc, set]
    · funext i
      simp only [List.mem_range, ← Bool.decide_or]
      exact decide_eq_decide.mpr (by omega)
  · have zero : (s.inodes ip).addrs nDirect = 0 := not_not.mp zero
    refine Ends.modify ?_
    -- `addrs[NDIRECT]` is `0` already
    rw [← clearAddrs_of_zero (s := s₁) (p := fun i => decide (i = nDirect))
      (fun i named => by rw [of_decide_eq_true named, pointer₁, zero]), named₁,
      clearAddrs_clearAddrs]
    congr 3
    · funext c
      by_cases zc : c = 0
      · simp [HoldsBlock, zc]
      · simp [HoldsBlock, zero, zc, Ne.symm zc]
    · funext i
      simp only [List.mem_range, ← Bool.decide_or]
      exact decide_eq_decide.mpr (by omega)


omit inv in
/-- A block that `HoldsBlock` names is the block of a slot. -/
theorem holdsBlock_slot {ip c : Nat} (holds : s.HoldsBlock ip c) : ∃ σ, s.slotBlock ip σ = c := by
  rcases holds with ⟨i, below, same⟩ | same | ⟨set, j, below, same⟩
  · exact ⟨.addr i, by rw [slotBlock, if_pos below.le, same]⟩
  · exact ⟨.addr nDirect, by rw [slotBlock, if_pos le_rfl, same]⟩
  · exact ⟨.entry j, by rw [slotBlock, if_pos ⟨below, set⟩, same]⟩

/-- **The last `iput` of an inode with no links** does not fail, and keeps the invariant: the
bits it clears are those of blocks no other slot holds. -/
theorem iputFree_ends {ip : Nat} (alloc : s.Allocated ip) :
    Ends (iputFree ip) s (fun _ => False) fun _ s' => s'.BlockInv := by
  unfold iputFree
  refine Ends.bind ((inv.itrunc_ends alloc).mono ?_)
  rintro _ _ rfl
  refine Ends.modify ?_
  set s' := (((s.release fun c => decide (c ≠ 0 ∧ s.HoldsBlock ip c)).clearAddrs ip
    fun i => decide (i ≤ nDirect)).modifyInode ip fun d => { d with size := 0 }).modifyInode ip
      fun d => { d with type := .free } with named
  have others : ∀ q, q ≠ ip → s'.inodes q = s.inodes q := by
    intro q other
    simp [named, clearAddrs, Function.update_of_ne other]
  have allocated : ∀ q, s'.Allocated q ↔ q ≠ ip ∧ s.Allocated q := by
    intro q
    by_cases same : q = ip
    · subst same
      simp [named, Allocated]
    · simp only [Allocated, others q same, same, ne_eq, not_false_eq_true, true_and]
      rfl
  have slots : ∀ o, s'.refOf o = if o.1 = ip then 0 else s.refOf o := by
    rintro ⟨q, σ⟩
    by_cases same : q = ip
    · simp [refOf, allocated, same]
    · simp only [refOf, allocated, same, ne_eq, not_false_eq_true, true_and, if_false]
      split
      · cases σ <;> simp [slotBlock, others q same]; rfl
      · rfl
  -- a block another slot holds is not one of `ip`'s
  have kept : ∀ o, s.refOf o ≠ 0 → o.1 ≠ ip → ¬s.HoldsBlock ip (s.refOf o) := by
    intro o held other holds
    obtain ⟨σ, same⟩ := holdsBlock_slot holds
    rw [← refOf_of_allocated alloc] at same
    have one := inv.unique held (by rw [Function.mem_support, same]; exact held) same.symm
    exact other (Prod.ext_iff.mp one).1
  have bits : ∀ c, s'.used c = (s.used c && !decide (c ≠ 0 ∧ s.HoldsBlock ip c)) := fun _ => rfl
  refine ⟨inv.boot, fun c before => ?_, fun o held => ?_, fun o held => ?_, ?_, fun q alloc' => ?_,
    fun q alloc' bn below => ?_⟩
  · have before : c < s.sb.dataStart := before
    rw [bits, inv.metadata c before]
    simp only [Bool.true_and, Bool.not_eq_eq_eq_not, Bool.not_true, decide_eq_false_iff_not, not_and]
    intro positive holds
    obtain ⟨σ, same⟩ := holdsBlock_slot holds
    rw [← refOf_of_allocated alloc] at same
    have := (inv.inData _ (by rw [same]; exact positive)).1
    omega
  · rw [slots] at held ⊢
    split at held
    · exact absurd rfl held
    · rw [if_neg ‹_›]
      exact inv.inData o held
  · rw [slots] at held ⊢
    split at held
    · exact absurd rfl held
    · next other =>
      rw [if_neg other, bits, inv.marked o held]
      simp [kept o held other]
  · refine injOn_support_of_zero_or_eq inv.unique fun o => ?_
    rw [slots]
    split
    · exact .inl rfl
    · exact .inr rfl
  · obtain ⟨other, alloc'⟩ := (allocated q).mp alloc'
    rw [others q other]
    exact inv.sized q alloc'
  · obtain ⟨other, alloc'⟩ := (allocated q).mp alloc'
    rw [others q other] at below
    rw [slots, if_neg other]
    exact inv.holeFree q alloc' bn below


/-- **A free inode zeroed with a type** holds no block: the invariant stays, with the same
slots. -/
theorem fresh_inode {inum : Nat} (free : (s.inodes inum).type = .free) (type : InodeType) :
    (s.modifyInode inum fun _ => ⟨type, 0, fun _ => 0⟩).BlockInv ∧
      (s.modifyInode inum fun _ => ⟨type, 0, fun _ => 0⟩).refOf = s.refOf := by
  set s' := s.modifyInode inum fun _ => ⟨type, 0, fun _ => 0⟩ with named
  have others : ∀ q, q ≠ inum → s'.inodes q = s.inodes q := by
    intro q other
    simp [named, Function.update_of_ne other]
  have allocated : ∀ q, q ≠ inum → (s'.Allocated q ↔ s.Allocated q) := by
    intro q other
    simp only [Allocated, others q other]
    rfl
  have slots : s'.refOf = s.refOf := by
    funext slot
    obtain ⟨q, σ⟩ := slot
    by_cases same : q = inum
    · subst same
      have zero : s.refOf (q, σ) = 0 := if_neg fun alloc => alloc.2.2 free
      rw [zero, refOf]
      split <;> cases σ <;> simp [slotBlock, named]
    · rw [refOf, refOf, if_congr (allocated q same) rfl rfl]
      cases σ <;> simp [slotBlock, others q same]
      rfl
  refine ⟨⟨inv.boot, inv.metadata, ?_, ?_, ?_, fun q alloc' => ?_, fun q alloc' bn below => ?_⟩,
    slots⟩
  · rw [slots]; exact inv.inData
  · rw [slots]; exact inv.marked
  · rw [slots]; exact inv.unique
  · by_cases same : q = inum
    · subst same
      simp [named]
    · rw [others q same]
      exact inv.sized q ((allocated q same).mp alloc')
  · by_cases same : q = inum
    · subst same
      simp [named] at below
    · rw [others q same] at below
      rw [slots]
      exact inv.holeFree q ((allocated q same).mp alloc') bn below

/-- **`ialloc`** keeps the invariant: the inode it takes was free, and it is zeroed, so it holds
no block. -/
theorem ialloc_ends (type : InodeType) :
    Ends (ialloc type) s (· = "ialloc: no inodes") fun _ s' => s'.BlockInv := by
  unfold ialloc
  refine Ends.bind (Ends.get ?_)
  cases found : (List.range' 1 (s.sb.ninodes - 1)).find? (fun inum => (s.inodes inum).type = .free) with
  | none => exact Ends.throw rfl
  | some inum =>
    have free : (s.inodes inum).type = .free := by simpa using List.find?_some found
    exact Ends.bind (Ends.set (Ends.pure (inv.fresh_inode free type).1))


end BlockInv

/-! ### Runs -/

/-- The disks reached from an image with the block structure, by any operations. -/
def Reachable (s : BlockFs) : Prop := Lib.Reachable BlockInv step s

/-- The panics that remain: running out of blocks or of inodes. -/
def Exhausted (msg : String) : Prop := msg = "balloc: out of blocks" ∨ msg = "ialloc: no inodes"

namespace BlockInv

variable (inv : s.BlockInv)
include inv

/-- **Every operation keeps the block structure**, and panics only when blocks or inodes run
out. -/
theorem run_ends {e : BlockEvent} (enabled : e.Enabled s) :
    Ends e.run s Exhausted fun _ s' => s'.BlockInv := by
  cases e with
  | ialloc type =>
    exact Ends.bind ((inv.ialloc_ends type).weaken (fun _ => .inr) fun _ _ kept => Ends.pure kept)
  | writei ip off n src =>
    exact Ends.bind ((inv.writei_ends enabled.1 off n src).weaken (fun _ => .inl)
      fun _ _ kept => Ends.pure kept)
  | readi ip off n =>
    refine Ends.bind ((inv.readi_ends enabled.1 off n).weaken (fun _ => False.elim) ?_)
    rintro _ _ rfl
    exact Ends.pure inv
  | iputFree ip =>
    exact (inv.iputFree_ends enabled).weaken (fun _ => False.elim) fun _ _ kept => kept

theorem step {e : BlockEvent} {s' : BlockFs} (stepped : s.step e = some s') : s'.BlockInv := by
  unfold BlockFs.step at stepped
  split at stepped
  · next enabled =>
    split at stepped
    · next ran =>
      cases stepped
      exact (inv.run_ends enabled).run_ok ran
    · cases stepped
  · cases stepped

end BlockInv

theorem Reachable.blockInv {s : BlockFs} (reach : s.Reachable) : s.BlockInv :=
  Lib.Reachable.induction BlockInv (fun _ inv => inv) (fun _ _ _ inv stepped => inv.step stepped)
    reach

/-- **The block structure of the disk is kept** by any run of the block layer's operations from
an image that has it:

* it holds: (0) the metadata blocks are marked; (i) every block an allocated inode holds is a
  marked data block below `sb.size`; (ii) none is held twice; (iii) every inode has at most
  `MAXFILE` blocks of bytes, with every block below its size mapped;
* an operation its caller can make panics only when blocks or inodes run out, so "bmap: out of
  range" and "freeing free block" are never reached, and `itrunc` does not fail at all;
* `readi` maps no block: it leaves the disk as it was;
* `balloc` returns a data block below `sb.size` that no slot holds. -/
theorem block_structure {s : BlockFs} (reach : s.Reachable) :
    s.BlockInv ∧
      (∀ e : BlockEvent, e.Enabled s → Ends e.run s Exhausted fun _ s' => s'.BlockInv) ∧
      (∀ ip, s.Allocated ip → ∃ s', (itrunc ip).run s = .ok ((), s')) ∧
      (∀ ip off n, s.Allocated ip → ∃ r, (readi ip off n).run s = .ok (r, s)) ∧
      Ends balloc s (· = "balloc: out of blocks") fun b _ =>
        s.sb.dataStart ≤ b ∧ b < s.sb.size ∧ ∀ o, s.refOf o ≠ b := by
  have inv := reach.blockInv
  refine ⟨inv, fun e enabled => inv.run_ends enabled, fun ip alloc => ?_, fun ip off n alloc => ?_, ?_⟩
  · obtain ⟨_, s', ran, -⟩ := (inv.itrunc_ends alloc).exists_ok
    exact ⟨s', ran⟩
  · obtain ⟨r, s', ran, same⟩ := (inv.readi_ends alloc off n).exists_ok
    exact ⟨r, same ▸ ran⟩
  · refine (balloc_ends s).mono ?_
    rintro b _ ⟨clear, below, -⟩
    exact ⟨inv.data_of_clear clear, below, inv.fresh_of_clear clear⟩

/-- The image `mkfs` writes with no file (`FSSIZE` 1000, `nmeta` 59): the root directory, inode
`1`, has one block of entries, block `59`, and the blocks up to it are marked. -/
def rootImage : BlockFs where
  sb := ⟨1000, 941, 200⟩
  used b := decide (b ≤ 59)
  words _ _ := 0
  inodes ip :=
    if ip = rootIno then ⟨.dir, bsize, fun i => if i = 0 then 59 else 0⟩ else ⟨.free, 0, fun _ => 0⟩

/-- The root's first direct block is the only block held. -/
theorem rootImage_refOf (o : Nat × Slot) :
    rootImage.refOf o = if o = (rootIno, .addr 0) then 59 else 0 := by
  obtain ⟨q, σ⟩ := o
  by_cases root : q = rootIno
  · subst root
    have alloc : rootImage.Allocated rootIno := by decide
    rw [refOf_of_allocated alloc]
    cases σ with
    | addr i =>
      by_cases first : i = 0
      · subst first
        rfl
      · simp [slotBlock, rootImage, first]
    | entry j => simp [slotBlock, rootImage]
  · have free : ¬rootImage.Allocated q := fun alloc => alloc.2.2 (by simp [rootImage, root])
    simp [refOf, free, root]

theorem rootImage_blockInv : rootImage.BlockInv where
  boot := by decide
  metadata b before := by
    have start : rootImage.sb.dataStart = 59 := rfl
    simp only [rootImage, decide_eq_true_eq]
    omega
  inData o held := by
    rw [rootImage_refOf] at held ⊢
    by_cases root : o = (rootIno, .addr 0)
    · rw [if_pos root]
      decide
    · rw [if_neg root] at held
      exact absurd rfl held
  marked o held := by
    rw [rootImage_refOf] at held ⊢
    by_cases root : o = (rootIno, .addr 0)
    · rw [if_pos root]
      rfl
    · rw [if_neg root] at held
      exact absurd rfl held
  unique o held o' held' _ := by
    rw [Function.mem_support, rootImage_refOf] at held held'
    split at held
    · split at held'
      · subst_vars
        rfl
      · exact absurd rfl held'
    · exact absurd rfl held
  sized ip alloc := by
    have root : ip = rootIno := by
      by_contra other
      exact alloc.2.2 (by simp [rootImage, other])
    subst root
    decide
  holeFree ip alloc bn below := by
    have root : ip = rootIno := by
      by_contra other
      exact alloc.2.2 (by simp [rootImage, other])
    subst root
    have first : bn = 0 := by
      simp [rootImage, bsize_eq] at below
      omega
    subst first
    rw [rootImage_refOf]
    decide

/-- The image with the root directory only is a start of `block_structure`. -/
theorem block_structure_rootImage : rootImage.Reachable ∧ rootImage.BlockInv :=
  ⟨Lib.Reachable.init rootImage_blockInv,
    (block_structure (Lib.Reachable.init rootImage_blockInv)).1⟩

end BlockFs

end Xv6
