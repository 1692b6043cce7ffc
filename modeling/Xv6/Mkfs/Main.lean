import Xv6.Mkfs.Append

/-!
**`main` of `mkfs`, run to the end.**

`main` zeroes every sector, writes the superblock, allocates the root directory with its entries
`.` and `..`, and adds each file: an inode, its entry in the root directory, its bytes. Last it
rounds the size of the root directory up with `off = ((off/BSIZE) + 1) * BSIZE` and writes the
bitmap.

* `zero_ends` and `blank_laid` — the zeroed image satisfies the invariant `Laid`;
* `addFile_ends` — one file keeps it, with one more inode and one more entry in the root;
* `files_ends` — so does the loop over the files, while inodes and blocks remain;
* `Laid.setSize_iff` — a larger size keeps the block invariant of the kernel exactly when every
  block below it is below the old size;
* `main_ends` — on files that fit, `main` runs to the end; every block a slot holds is a data
  block below `freeblock`, held by that slot alone, and the image satisfies the block invariant
  exactly when the entries of the root directory do not fill a whole number of blocks. When they
  do, the rounding claims a block past the last one the root directory has.
-/

namespace Xv6.Mkfs

open Lib BlockFs

/-! ### The zeroed image -/

/-- The image after `wsect(i, zeroes)` for every sector, with `freeblock = nmeta`. -/
def blank : State where
  img _ _ := 0
  sectors := fsSize
  freeinode := 1
  freeblock := nmeta

theorem putSector_zero_blank (k : Nat) :
    ({ blank with sectors := k } : State).putSector k (fun _ => 0) = { blank with sectors := k + 1 } := by
  have zero : Function.update (fun _ _ => (0 : UInt8)) k (fun i => if i < bsize then (0 : UInt8) else 0) =
      fun _ _ => 0 := by
    funext b i
    by_cases here : b = k <;> simp [here]
  simp only [State.putSector, blank, zero, Nat.max_eq_right (Nat.le_succ k)]

/-- **The zeroing loop** `for(i = 0; i < FSSIZE; i++) wsect(i, zeroes)`, over `n` sectors. -/
theorem zero_ends {E : String → Prop} (n : Nat) :
    Ends ((List.range n).forM fun i => wsect i fun _ => 0) { initial with freeblock := nmeta } E
      fun _ s => s = { blank with sectors := n } := by
  -- with the sectors before `k` written, the image is blank up to its length `k`
  let written (rest : List Nat) (s : State) : Prop :=
    ∃ k, k + rest.length = n ∧ rest = List.range' k rest.length ∧ s = { blank with sectors := k }
  have start : written (List.range n) { initial with freeblock := nmeta } :=
    ⟨0, by rw [List.length_range, Nat.zero_add], by rw [List.length_range, List.range_eq_range'], rfl⟩
  refine (Ends.forM written (fun a rest s now => ?_) (List.range n) _ start).mono
    fun _ s ⟨k, total, _, same⟩ => ?_
  · obtain ⟨k, total, listed, rfl⟩ := now
    rw [List.length_cons, List.range'_succ, List.cons.injEq] at listed
    obtain ⟨rfl, later⟩ := listed
    refine wsect_ends ⟨a + 1, ?_, later, putSector_zero_blank a⟩
    rw [List.length_cons] at total
    omega
  · rw [List.length_nil, Nat.add_zero] at total
    rw [same, total]

theorem window_zero (off n : Nat) : window (fun _ => (0 : UInt8)) off n = List.replicate n 0 := by
  simp [window, List.map_const']

theorem blank_inode_type (i : Nat) : (blank.inode i).type = 0 := by
  rw [State.inode, show blank.img (iblock i) = fun _ => 0 from rfl, window_zero]
  decide

/-- **The zeroed image**: no inode is allocated, so no slot holds a block, and the metadata
blocks are in use. -/
theorem blank_laid : Laid blank blank.inode := by
  have free : ∀ ip, ¬(blank.view blank.inode).Allocated ip := by
    rintro ip ⟨-, below, typed⟩
    rw [view_sb, layout_ninodes] at below
    rw [view_inodes below] at typed
    apply typed
    show typeOf (blank.inode ip).type = .free
    rw [blank_inode_type]
    rfl
  have empty : ∀ o, (blank.view blank.inode).refOf o = 0 := fun o => if_neg (free o.1)
  refine ⟨rfl, ⟨?_, fun b early => ?_, fun o held => absurd (empty o) held,
    fun o held => absurd (empty o) held, fun o held => absurd (empty o) held,
    fun ip alloc => absurd alloc (free ip), fun ip alloc => absurd alloc (free ip)⟩,
    fun o held => absurd (empty o) held, fun _ _ _ _ => rfl, fun i _ issued => ?_,
    fun i _ _ => blank_inode_type i, ⟨Nat.one_pos, by decide⟩⟩
  · rw [view_sb, layout_dataStart, nmeta_eq]
    omega
  · rw [view_sb, layout_dataStart] at early
    exact decide_eq_true early
  · exact absurd issued (by show ¬i < 1; omega)

/-! ### The files -/

section Files

variable {s : State}

/-- What one file of the loop of `main` leaves: the invariant, one more inode, and one more
entry in the root directory `rootino`. -/
structure Added (s s' : State) (rootino : Nat) (file : List UInt8 × List UInt8) : Prop where
  laid : Laid s' s'.inode
  freeinode : s'.freeinode = s.freeinode + 1
  root : (s'.inode rootino).size.toNat = (s.inode rootino).size.toNat + 16
  count : s'.freeblock + blocksFor (s.inode rootino).size.toNat =
    s.freeblock + blocksFor ((s.inode rootino).size.toNat + 16) + blocksFor file.2.length

@[simp] theorem blocksFor_zero : blocksFor 0 = 0 := rfl

/-- **One file of `main`**: a name without `/`, an inode left, and room for the entry in the
root directory and for the bytes. -/
theorem addFile_ends {rootino : Nat} {file : List UInt8 × List UInt8} (laid : Laid s s.inode)
    (issued : 0 < rootino ∧ rootino < s.freeinode) (noSlash : '/'.toUInt8 ∉ file.1)
    (inodes : s.freeinode < nInodes) (fits : (s.inode rootino).size.toNat + 16 ≤ maxFile * bsize)
    (size : file.2.length ≤ maxFile * bsize)
    (room : s.freeblock + blocksFor ((s.inode rootino).size.toNat + 16) + blocksFor file.2.length ≤
      fsSize + blocksFor (s.inode rootino).size.toNat) :
    Ends (addFile rootino file) s (fun _ => False) fun _ s' => Added s s' rootino file := by
  unfold addFile
  refine Ends.ite (fun slash => absurd slash noSlash) fun _ => ?_
  have readable : iblock s.freeinode < s.sectors := by
    rw [laid.sectors, iblock_eq, fsSize]
    unfold nInodes at inodes
    omega
  refine Ends.bind (ialloc_ends readable ?_)
  have laid₁ := laid.ialloc (.inr rfl) inodes
  set s₁ := ({ s with freeinode := s.freeinode + 1 } : State).putInode s.freeinode (Dinode.fresh tFile)
  have other : rootino ≠ s.freeinode := Nat.ne_of_lt issued.2
  have rootKept : s₁.inode rootino = s.inode rootino := putInode_inode_of_ne _ other
  have issued₁ : 0 < rootino ∧ rootino < s₁.freeinode := by
    simp only [s₁, putInode_freeinode]
    omega
  have fits₁ : (s₁.inode rootino).size.toNat + 16 ≤ maxFile * bsize := by
    rw [rootKept]
    exact fits
  have room₁ : s₁.freeblock + blocksFor ((s₁.inode rootino).size.toNat + 16) ≤
      fsSize + blocksFor (s₁.inode rootino).size.toNat := by
    rw [rootKept]
    simp only [s₁, putInode_freeblock]
    omega
  refine Ends.bind ((iappend_ends _ laid₁ issued₁ (by rw [length_dirent]; exact fits₁)
    (by rw [length_dirent]; exact room₁)).mono fun _ s₂ first => ?_)
  rw [length_dirent] at first
  have fresh : s₂.inode s.freeinode = Dinode.fresh tFile := by
    rw [first.others _ inodes (Ne.symm other), putInode_inode_self]
  have empty : (s₂.inode s.freeinode).size.toNat = 0 := by
    rw [fresh]
    rfl
  have count := first.count
  rw [rootKept, show s₁.freeblock = s.freeblock from rfl] at count
  refine (appendFile_ends file.2 first.laid ⟨Nat.lt_of_le_of_lt (Nat.zero_le _) issued.2, ?_⟩
    (by rw [empty, Nat.zero_add]; exact size) (by rw [empty, Nat.zero_add, blocksFor_zero]; omega)).mono
      fun _ s₃ second => ?_
  · rw [first.freeinode]
    exact Nat.lt_succ_self _
  refine ⟨second.laid, by rw [second.freeinode, first.freeinode]; rfl, ?_, ?_⟩
  · rw [second.others _ (Nat.lt_trans issued.2 inodes) other, first.size, rootKept]
  · have filled := second.count
    rw [empty, blocksFor_zero, Nat.zero_add] at filled
    omega

/-- Between the files of `main`, `n` files in all: the invariant, an entry in the root directory
for each inode handed out, and room for the files still to add. -/
structure Filled (n : Nat) (rest : List (List UInt8 × List UInt8)) (s : State) : Prop where
  laid : Laid s s.inode
  rooted : rootIno < s.freeinode
  inodes : s.freeinode + rest.length = n + 2
  root : (s.inode rootIno).size.toNat = 16 * s.freeinode
  files : ∀ f ∈ rest, '/'.toUInt8 ∉ f.1 ∧ f.2.length ≤ maxFile * bsize
  room : s.freeblock + blocksFor (16 * (n + 2)) + (rest.map fun f => blocksFor f.2.length).sum ≤
    fsSize + blocksFor (16 * s.freeinode)

/-- **The loop over the files** of `main`. -/
theorem files_ends {n : Nat} (inodes : n + 2 ≤ nInodes) (files : List (List UInt8 × List UInt8))
    (filled : Filled n files s) :
    Ends (files.forM (addFile rootIno)) s (fun _ => False) fun _ s' => Filled n [] s' := by
  refine Ends.forM (Filled n) (fun file rest s now => ?_) files s filled
  have total := now.inodes
  have room := now.room
  rw [List.length_cons] at total
  rw [List.map_cons, List.sum_cons] at room
  have within : 16 * s.freeinode + 16 ≤ 16 * (n + 2) := by omega
  have grows := blocksFor_mono within
  have bytes : 16 * (n + 2) ≤ maxFile * bsize := by
    unfold maxFile nDirect nIndirect nInodes at *
    rw [bsize_eq]
    omega
  obtain ⟨noSlash, size⟩ := now.files file (List.mem_cons_self ..)
  -- `rootIno` is `1`, as the goals spell it
  have root : (s.inode 1).size.toNat = 16 * s.freeinode := now.root
  refine (addFile_ends now.laid ⟨Nat.one_pos, now.rooted⟩ noSlash (by omega)
    (by rw [root]; omega) size (by rw [root]; omega)).mono
      fun _ s' added => ?_
  have count := added.count
  have rooted := now.rooted
  rw [root] at count
  refine ⟨added.laid, by rw [added.freeinode]; omega, by rw [added.freeinode]; omega, ?_,
    fun f mem => now.files f (List.mem_cons_of_mem _ mem), ?_⟩
  · show (s'.inode 1).size.toNat = _
    rw [added.root, root, added.freeinode]
    omega
  · rw [added.freeinode, show 16 * (s.freeinode + 1) = 16 * s.freeinode + 16 by omega]
    omega

end Files

/-! ### The size of the root directory -/

section Fix

variable {s : State} {D : Nat → Dinode} {ip : Nat}

/-- **A larger size** keeps the block invariant of the kernel exactly when every block below it
is below the old size: the slots hold what they held, and with the invariant a file slot holds
a block exactly when the old size passes its start. -/
theorem Laid.setSize_iff (laid : Laid s D) (alloc : (s.view D).Allocated ip) {size : Nat}
    (fits : size ≤ maxFile * bsize) :
    ((s.view D).modifyInode ip fun d => { d with size := size }).BlockInv ↔
      ∀ bn, bn * bsize < size → bn * bsize < (D ip).size.toNat := by
  constructor
  · intro inv bn within
    have alloc' : ((s.view D).modifyInode ip fun d => { d with size := size }).Allocated ip := by
      obtain ⟨positive, below, typed⟩ := alloc
      exact ⟨positive, below, by simpa using typed⟩
    have held := inv.holeFree ip alloc' bn (by simpa using within)
    rw [refOf_setSize] at held
    exact (laid.fileSlot_held alloc bn).mp held
  · intro covered
    exact laid.blocks.setSize fits fun bn within =>
      (laid.fileSlot_held alloc bn).mpr (covered bn within)

/-- `off = ((off/BSIZE) + 1) * BSIZE` adds no block exactly when `off` ends inside a block. -/
theorem covered_iff (size : Nat) :
    (∀ bn, bn * bsize < (size / bsize + 1) * bsize → bn * bsize < size) ↔ size % bsize ≠ 0 := by
  rw [bsize_eq]
  constructor
  · intro covered whole
    have last := covered (size / 512) (by omega)
    omega
  · intro inside bn within
    omega

/-- **The end of `main`**: `winode(rootino, &din)` with the size `off`, then the bitmap. Both
are metadata writes, so the invariant holds with the inodes as they were, and the view has the
root directory at its new size. -/
theorem Laid.fixRoot (laid : Laid s s.inode) {off : Nat} (fits : off < 2 ^ 32) (bits : Nat → UInt8) :
    Laid ((s.putInode rootIno ((s.inode rootIno).atSize off)).putSector bmapstart bits) s.inode ∧
      ((s.putInode rootIno ((s.inode rootIno).atSize off)).putSector bmapstart bits).view
        ((s.putInode rootIno ((s.inode rootIno).atSize off)).putSector bmapstart bits).inode =
      (((s.putInode rootIno ((s.inode rootIno).atSize off)).putSector bmapstart bits).view s.inode).modifyInode
        rootIno fun d => { d with size := off } := by
  set s' := (s.putInode rootIno ((s.inode rootIno).atSize off)).putSector bmapstart bits
  have written : Laid (s.putInode rootIno ((s.inode rootIno).atSize off)) s.inode :=
    laid.putSector_meta (by decide) (by decide) _
  have inodes : ∀ i < nInodes, s'.inode i = Function.update s.inode rootIno ((s.inode rootIno).atSize off) i := by
    intro i below
    have notBitmap : iblock i ≠ bmapstart := by
      rw [iblock_eq, bmapstart_eq]
      unfold nInodes at below
      omega
    rw [putSector_inode _ notBitmap]
    by_cases root : i = rootIno
    · rw [root, putInode_inode_self, Function.update_self]
    · rw [putInode_inode_of_ne _ root, Function.update_of_ne root]
  refine ⟨written.putSector_meta (by decide) (by decide) _, ?_⟩
  rw [view_congr inodes, view_atSize (by decide) (s.inode rootIno).size.toNat fits, atSize_self,
    Function.update_eq_self]

/-- The image `main` leaves for `n` files. -/
structure Made (n : Nat) (s : State) : Prop where
  /-- every block a slot holds is a data block below `freeblock` -/
  referenced : ∀ o, (s.view s.inode).refOf o ≠ 0 →
    nmeta ≤ (s.view s.inode).refOf o ∧ (s.view s.inode).refOf o < s.freeblock
  /-- and no other slot holds it -/
  unique : Set.InjOn (s.view s.inode).refOf (Function.support (s.view s.inode).refOf)
  rootSize : (s.inode rootIno).size.toNat = (16 * (n + 2) / bsize + 1) * bsize
  /-- the root directory holds the blocks its `n + 2` entries need -/
  rootBlocks : ∀ bn, (s.view s.inode).refOf (rootIno, fileSlot bn) ≠ 0 ↔ bn * bsize < 16 * (n + 2)
  /-- the block invariant of the kernel holds exactly when the entries of the root directory do
  not fill a whole number of blocks -/
  blockInv_iff : (s.view s.inode).BlockInv ↔ (n + 2) % 32 ≠ 0

/-- **The image `main` leaves** from one with the invariant and `n` files after `.` and `..`:
the root directory's size rounded up, then the bitmap. -/
theorem Laid.made (laid : Laid s s.inode) (rooted : rootIno < s.freeinode) {n : Nat}
    (root : (s.inode rootIno).size.toNat = 16 * (n + 2)) (inodes : n + 2 ≤ nInodes) (bits : Nat → UInt8) :
    Made n ((s.putInode rootIno ((s.inode rootIno).atSize
      (((s.inode rootIno).size.toNat / bsize + 1) * bsize))).putSector bmapstart bits) := by
  have fits : ((s.inode rootIno).size.toNat / bsize + 1) * bsize ≤ maxFile * bsize := by
    rw [root]
    unfold maxFile nDirect nIndirect nInodes at *
    rw [bsize_eq]
    omega
  have fits' : ((s.inode rootIno).size.toNat / bsize + 1) * bsize < 2 ^ 32 := by
    unfold maxFile nDirect nIndirect at fits
    rw [bsize_eq] at fits ⊢
    omega
  obtain ⟨laid', view⟩ := laid.fixRoot fits' bits
  have alloc := (laid'.allocated_iff rootIno).mpr ⟨Nat.one_pos, by simpa using rooted⟩
  refine ⟨fun o held => ?_, ?_, ?_, fun bn => ?_, ?_⟩
  · rw [view, refOf_setSize] at held ⊢
    exact ⟨(laid'.held_lt held).1, laid'.inner.held_below held⟩
  · rw [view, refOf_setSize]
    exact laid'.blocks.unique
  · rw [putSector_inode _ (by decide), putInode_inode_self, atSize_size _ fits', root]
  · rw [view, refOf_setSize, laid'.fileSlot_held alloc bn, root]
  · rw [view, laid'.setSize_iff alloc fits, covered_iff, root, bsize_eq]
    omega

/-- **`main` runs to the end** on files with names without `/`, each of at most `MAXFILE`
blocks, with an inode for each and room for all their blocks and those of the root directory. -/
theorem main_ends (files : List (List UInt8 × List UInt8))
    (noSlash : ∀ f ∈ files, '/'.toUInt8 ∉ f.1) (sizes : ∀ f ∈ files, f.2.length ≤ maxFile * bsize)
    (inodes : files.length + 2 ≤ nInodes)
    (blocks : nmeta + blocksFor (16 * (files.length + 2)) +
      (files.map fun f => blocksFor f.2.length).sum ≤ fsSize) :
    Ends (main files) initial (fun _ => False) fun _ s => Made files.length s := by
  unfold main
  refine Ends.bind (Ends.modify (Ends.bind ((zero_ends fsSize).mono fun _ s zeroed => ?_)))
  obtain rfl : s = blank := zeroed
  -- the superblock, then the root directory with `.` and `..`
  refine Ends.bind (wsect_ends (Ends.bind (ialloc_ends (by decide) ?_)))
  set s₀ := blank.putSector 1 (place (fun _ => 0) 0 superblock)
  have inodes₀ : s₀.inode = blank.inode :=
    funext fun i => putSector_inode _ (by rw [iblock_eq]; omega)
  have laid₀ : Laid s₀ s₀.inode := by
    rw [inodes₀]
    exact Laid.putSector_meta blank_laid (by decide) (by decide) _
  have laid₁ := laid₀.ialloc (.inl rfl) (by decide)
  set s₁ := ({ s₀ with freeinode := s₀.freeinode + 1 } : State).putInode s₀.freeinode (Dinode.fresh tDir)
  refine Ends.ite (fun wrong => absurd rfl wrong) fun _ => ?_
  -- the root directory is inode `s₀.freeinode = 1`, as the goals spell it
  have root₁ : (s₁.inode 1).size.toNat = 0 := by
    show ((({ s₀ with freeinode := s₀.freeinode + 1 } : State).putInode 1 (Dinode.fresh tDir)).inode
      1).size.toNat = 0
    rw [putInode_inode_self]
    rfl
  have grows16 := blocksFor_mono (show 0 + 16 ≤ 16 * (files.length + 2) by omega)
  have fits₁ : (s₁.inode 1).size.toNat + 16 ≤ maxFile * bsize := by
    rw [root₁]
    decide
  have room₁ : s₁.freeblock + blocksFor ((s₁.inode 1).size.toNat + 16) ≤
      fsSize + blocksFor (s₁.inode 1).size.toNat := by
    rw [root₁, show s₁.freeblock = nmeta from rfl]
    omega
  refine Ends.bind ((iappend_ends _ laid₁ ⟨Nat.one_pos, by decide⟩ (by rw [length_dirent]; exact fits₁)
    (by rw [length_dirent]; exact room₁)).mono fun _ s₂ dot => ?_)
  rw [length_dirent] at dot
  have root₂ : (s₂.inode 1).size.toNat = 16 := by
    rw [dot.size, root₁]
  have count₂ := dot.count
  rw [root₁, show s₁.freeblock = nmeta from rfl, blocksFor_zero, Nat.add_zero, Nat.zero_add] at count₂
  have grows32 := blocksFor_mono (show 16 + 16 ≤ 16 * (files.length + 2) by omega)
  have fits₂ : (s₂.inode 1).size.toNat + 16 ≤ maxFile * bsize := by
    rw [root₂]
    decide
  have room₂ : s₂.freeblock + blocksFor ((s₂.inode 1).size.toNat + 16) ≤
      fsSize + blocksFor (s₂.inode 1).size.toNat := by
    rw [root₂]
    omega
  have issued₂ : 0 < 1 ∧ 1 < s₂.freeinode := by
    rw [dot.freeinode]
    decide
  refine Ends.bind ((iappend_ends _ dot.laid issued₂ (by rw [length_dirent]; exact fits₂)
    (by rw [length_dirent]; exact room₂)).mono fun _ s₃ dotdot => ?_)
  rw [length_dirent] at dotdot
  -- then the files, with `.` and `..` in the root directory
  have filled : Filled files.length files s₃ := by
    have count₃ := dotdot.count
    have freeinode₃ : s₃.freeinode = 2 := by rw [dotdot.freeinode, dot.freeinode]; rfl
    rw [root₂] at count₃
    refine ⟨dotdot.laid, by rw [freeinode₃]; decide, by rw [freeinode₃]; omega, ?_,
      fun f mem => ⟨noSlash f mem, sizes f mem⟩, ?_⟩
    · show (s₃.inode 1).size.toNat = _
      rw [dotdot.size, root₂, freeinode₃]
    · rw [freeinode₃, show 16 * 2 = 16 + 16 from rfl]
      omega
  refine Ends.bind ((files_ends inodes files filled).mono fun _ s₇ done => ?_)
  -- last, the size of the root directory and the bitmap
  have readable : iblock s₀.freeinode < s₇.sectors := by
    rw [done.laid.sectors]
    decide
  have freeblock : s₇.freeblock ≤ fsSize := by
    have room := done.room
    rw [List.map_nil, List.sum_nil, Nat.add_zero] at room
    have := blocksFor_mono (show 16 * s₇.freeinode ≤ 16 * (files.length + 2) by
      have := done.inodes
      rw [List.length_nil, Nat.add_zero] at this
      omega)
    omega
  have root₇ : (s₇.inode rootIno).size.toNat = 16 * (files.length + 2) := by
    have := done.inodes
    rw [List.length_nil, Nat.add_zero] at this
    rw [done.root, this]
  refine Ends.bind (rinode_ends readable (Ends.bind (winode_ends readable
    (Ends.bind (Ends.get (balloc_ends ?_ ?_))))))
  · show s₇.freeblock < bsize * 8
    rw [bsize_eq]
    unfold fsSize at freeblock
    omega
  show Made files.length ((s₇.putInode rootIno ((s₇.inode rootIno).atSize
    (((s₇.inode rootIno).size.toNat / bsize + 1) * bsize))).putSector bmapstart (bitmap s₇.freeblock))
  exact done.laid.made done.rooted root₇ inodes _

/-- Thirty files of one byte, named `a`, `b`, and so on: with `.` and `..`, the root directory
has 32 entries of 16 bytes, one whole block. -/
def thirtyFiles : List (List UInt8 × List UInt8) :=
  (List.range 30).map fun i => ([UInt8.ofNat (97 + i)], [UInt8.ofNat i])

/-- **`mkfs` of thirty files** ends with the root directory two blocks long but holding one:
its second block is not mapped, so the image breaks the block invariant the kernel assumes. -/
theorem mkfs_root_hole :
    ∃ s, (main thirtyFiles).run initial = .ok ((), s) ∧ (s.inode rootIno).size.toNat = 2 * bsize ∧
      (s.view s.inode).refOf (rootIno, fileSlot 1) = 0 ∧ ¬(s.view s.inode).BlockInv := by
  obtain ⟨_, s, ran, made⟩ := (main_ends thirtyFiles (by decide) (by decide) (by decide)
    (by decide)).exists_ok
  refine ⟨s, ran, ?_, ?_, ?_⟩
  · rw [made.rootSize]
    rfl
  · have unmapped := (made.rootBlocks 1).not
    rw [not_not] at unmapped
    exact unmapped.mpr (by decide)
  · rw [made.blockInv_iff]
    decide

end Fix

end Xv6.Mkfs
