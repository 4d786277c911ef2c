import TsOs.Lemmas.Ext2

/-!
# Free space of the ext2 file system

Blocks and inodes are accounted for alike: a bitmap block and a count in each group, and a count in the superblock. `SpaceKind`
is one of the two, `moved` is the file system after one bit of one bitmap has changed with the counts, and every call of the
allocator leaves the file system as it is or moves one bit.
-/

namespace TsOs

open Bytes Bits StateProg Ext2Aux List BitVec Nat

/-- What the bitmaps keep account of. -/
inductive SpaceKind where
  | block
  | inode
  deriving DecidableEq, Repr

namespace SpaceKind

def bitmap : SpaceKind → Ext2Fs → Nat → Nat
  | block => blockBitmap
  | inode => inodeBitmap

/-- The number of bits of a group. -/
def size : SpaceKind → Ext2Fs → Nat
  | block => Ext2Fs.blocksPerGroup
  | inode => Ext2Fs.inodesPerGroup

/-- The count in the descriptor of a group, as it stands in memory. -/
def groupFree : SpaceKind → Ext2Fs → Nat → Nat
  | block, fs, g => bgFreeBlocksCount fs.gd g
  | inode, fs, g => bgFreeInodesCount fs.gd g

/-- The count in the superblock. -/
def sbFree : SpaceKind → Ext2Fs → Nat
  | block, fs => sFreeBlocksCount fs.sb
  | inode, fs => sFreeInodesCount fs.sb

/-- The number that the driver uses for bit `bit` of group `g`; inodes are numbered from 1. -/
def number : SpaceKind → Ext2Fs → Nat → Nat → Nat
  | block, fs, g, bit => g * fs.blocksPerGroup + bit
  | inode, fs, g, bit => g * fs.inodesPerGroup + bit + 1

/-- The changes of the two counts. -/
def deltas : SpaceKind → Int → Int × Int
  | block, d => (d, 0)
  | inode, d => (0, d)

variable {σ : Type} (dev : BlockDev σ)

def alloc : SpaceKind → Ext2M σ Int
  | block => ext2AllocBlock dev
  | inode => ext2AllocInode dev

def free : SpaceKind → Nat → Ext2M σ Ext2Status
  | block => ext2FreeBlock dev
  | inode => ext2FreeInode dev

end SpaceKind

/-- Bit `j` of the bitmap of group `g`. -/
def usedBit (m : DiskFs) (k : SpaceKind) (g j : Nat) : Bool := bitmapTest (blockAt m (k.bitmap m.fs g)) j

/-- The number of clear bits of group `g`, within the size of a group. -/
def clearBits (m : DiskFs) (k : SpaceKind) (g : Nat) : Nat := (List.range (k.size m.fs)).countP (fun j => !usedBit m k g j)

/-- A mounted file system whose bitmaps are blocks of their own, apart from the superblock and the first block of descriptors,
with room for the bits of a group, and whose blocks and inodes have numbers of 32 bits. -/
structure SpaceLayout (fs : Ext2Fs) : Prop where
  mounted : fs.mounted = true
  pos : ∀ k : SpaceKind, 0 < k.size fs
  le : ∀ k : SpaceKind, k.size fs ≤ 8192
  inj : ∀ (k k' : SpaceKind) (g g' : Nat), g < fs.numGroups → g' < fs.numGroups → k.bitmap fs g = k'.bitmap fs g' →
    k = k' ∧ g = g'
  ne_sb : ∀ (k : SpaceKind) (g : Nat), g < fs.numGroups → k.bitmap fs g ≠ 1
  ne_gd : ∀ (k : SpaceKind) (g : Nat), g < fs.numGroups → k.bitmap fs g ≠ 2
  lt : ∀ (k : SpaceKind) (g : Nat), g < fs.numGroups → k.bitmap fs g < 2 ^ 31
  fits : ∀ k : SpaceKind, fs.numGroups * k.size fs < 2 ^ 32

namespace Ext2SpaceAux

/-! ## The counts -/

theorem two_pow_pos (w : Nat) : (0 : Int) < 2 ^ w := Int.pow_pos (by decide)

theorem addDelta_cast (w old : Nat) (d : Int) : (addDelta w old d : Int) = (old + d) % 2 ^ w := by
  rw [addDelta, Int.toNat_of_nonneg (Int.emod_nonneg _ (two_pow_pos w).ne')]

theorem addDelta_lt (w old : Nat) (d : Int) : addDelta w old d < 2 ^ w := by
  have h := Int.emod_lt_of_pos (old + d) (two_pow_pos w)
  rw [← addDelta_cast] at h
  exact_mod_cast h

/-- A count of `w` bits after a change, modulo its width. -/
theorem addDelta_modEq (w old : Nat) (d : Int) : (addDelta w old d : Int) ≡ old + d [ZMOD 2 ^ w] := by
  rw [addDelta_cast]
  exact Int.mod_modEq _ _

theorem addDelta_zero {w old : Nat} (h : old < 2 ^ w) : addDelta w old 0 = old := by
  have hlt : (old : Int) < 2 ^ w := by exact_mod_cast h
  rw [addDelta, Int.add_zero, Int.emod_eq_of_lt (by omega) hlt, Int.toNat_natCast]

/-- A change and its opposite. -/
theorem addDelta_neg {w old : Nat} (h : old < 2 ^ w) (d : Int) : addDelta w (addDelta w old d) (-d) = old := by
  have hlt : (old : Int) < 2 ^ w := by exact_mod_cast h
  rw [addDelta, addDelta_cast, Int.emod_add_emod, Int.add_neg_cancel_right, Int.emod_eq_of_lt (by omega) hlt, Int.toNat_natCast]

variable {fs : Ext2Fs} {k k' : SpaceKind} {g g' : Nat} {d : Int}

theorem groupFree_lt (k : SpaceKind) (fs : Ext2Fs) (g : Nat) : k.groupFree fs g < 2 ^ 16 := by
  cases k <;> exact le_lt 2 _ _

theorem sbFree_lt (k : SpaceKind) (fs : Ext2Fs) : k.sbFree fs < 2 ^ 32 := by
  cases k <;> exact le_lt 4 _ _

/-- The counts of the groups after `ext2_update_counts`. -/
theorem groupFree_countedFs : k'.groupFree (countedFs fs g (k.deltas d).1 (k.deltas d).2) g' =
    if k' = k ∧ g' = g then addDelta 16 (k.groupFree fs g) d else k'.groupFree fs g' := by
  have hb : ∀ dB dI, bgFreeBlocksCount (countedGd fs.gd g dB dI) g = addDelta 16 (bgFreeBlocksCount fs.gd g) dB := by
    intro dB dI
    rw [bgFreeBlocksCount, countedGd, le_putLe_apart (by omega), le_putLe]
    exact mod_eq_of_lt (addDelta_lt 16 _ _)
  have hi : ∀ dB dI, bgFreeInodesCount (countedGd fs.gd g dB dI) g = addDelta 16 (bgFreeInodesCount fs.gd g) dI := by
    intro dB dI
    rw [bgFreeInodesCount, countedGd, le_putLe, bgFreeInodesCount, le_putLe_apart (by omega)]
    exact mod_eq_of_lt (addDelta_lt 16 _ _)
  by_cases hg : g' = g
  · subst hg
    cases k <;> cases k' <;>
      simp only [SpaceKind.groupFree, SpaceKind.deltas, countedFs, hb, hi, and_true, if_true, reduceCtorEq, if_false]
    · exact addDelta_zero (le_lt 2 _ _)
    · exact addDelta_zero (le_lt 2 _ _)
  · rw [if_neg (fun h => hg h.2)]
    cases k' <;> exact le_countedGd (by omega)

/-- The counts of the superblock after `ext2_update_counts`. -/
theorem sbFree_countedFs : k'.sbFree (countedFs fs g (k.deltas d).1 (k.deltas d).2) =
    if k' = k then addDelta 32 (k.sbFree fs) d else k'.sbFree fs := by
  have hb : ∀ dB dI, sFreeBlocksCount (countedSb fs.sb dB dI) = addDelta 32 (sFreeBlocksCount fs.sb) dB := by
    intro dB dI
    rw [sFreeBlocksCount, countedSb, setSb, le_pack (by omega), le_putLe_apart (by omega), setSb, le_pack (by omega),
      le_putLe]
    exact mod_eq_of_lt (addDelta_lt 32 _ _)
  have hi : ∀ dB dI, sFreeInodesCount (countedSb fs.sb dB dI) = addDelta 32 (sFreeInodesCount fs.sb) dI := by
    intro dB dI
    rw [sFreeInodesCount, countedSb, setSb, le_pack (by omega), le_putLe, sFreeInodesCount, setSb, le_pack (by omega),
      le_putLe_apart (by omega)]
    exact mod_eq_of_lt (addDelta_lt 32 _ _)
  cases k <;> cases k' <;>
    simp [SpaceKind.sbFree, SpaceKind.deltas, countedFs, hb, hi]
  · exact addDelta_zero (le_lt 4 _ _)
  · exact addDelta_zero (le_lt 4 _ _)

/-! ## One bit -/

variable {fs fs' : Ext2Fs}

theorem SameLayout.bitmap (h : SameLayout fs fs') (k : SpaceKind) (g : Nat) :
    k.bitmap fs' g = k.bitmap fs g := by
  cases k
  · exact h.blockBitmap g
  · exact h.inodeBitmap g

theorem SameLayout.size (h : SameLayout fs fs') (k : SpaceKind) : k.size fs' = k.size fs := by
  cases k
  · exact h.blocksPerGroup
  · exact h.inodesPerGroup

theorem SpaceLayout.congr (hl : SpaceLayout fs) (h : SameLayout fs fs') : SpaceLayout fs' where
  mounted := by rw [h.mounted]; exact hl.mounted
  pos k := by rw [SameLayout.size h]; exact hl.pos k
  le k := by rw [SameLayout.size h]; exact hl.le k
  inj k k' g g' := by
    rw [h.numGroups, SameLayout.bitmap h, SameLayout.bitmap h]
    exact hl.inj k k' g g'
  ne_sb k g := by rw [h.numGroups, SameLayout.bitmap h]; exact hl.ne_sb k g
  ne_gd k g := by rw [h.numGroups, SameLayout.bitmap h]; exact hl.ne_gd k g
  lt k g := by rw [h.numGroups, SameLayout.bitmap h]; exact hl.lt k g
  fits k := by rw [h.numGroups, SameLayout.size h]; exact hl.fits k

/-- The bitmap block with bit `bit` as given. -/
def putBit (b : Block) (bit : Nat) (used : Bool) : Block := if used then bitmapSet b bit else bitmapClear b bit

theorem bitmapTest_putBit {b : Block} {bit : Nat} (hbit : bit < 8192) (used : Bool) (j : Nat) :
    bitmapTest (putBit b bit used) j = if j = bit then used else bitmapTest b j := by
  cases used with
  | true =>
    rw [putBit, if_pos rfl, bitmapTest_set hbit]
    by_cases h : j = bit <;> simp [h]
  | false =>
    rw [putBit, if_neg (by decide), bitmapTest_clear hbit]
    by_cases h : j = bit <;> simp [h]

/-- By how much the counts change when a bit becomes `used`. -/
def change (used : Bool) : Int := if used then -1 else 1

/-- The file system after bit `bit` of group `g` has become `used`, and the counts have changed. -/
def moved (m : DiskFs) (k : SpaceKind) (g bit : Nat) (used : Bool) : DiskFs :=
  counted (setBlock m (k.bitmap m.fs g) (putBit (blockAt m (k.bitmap m.fs g)) bit used)) g
    (k.deltas (change used)).1 (k.deltas (change used)).2

variable {m : DiskFs} {bit : Nat} {used : Bool}

theorem moved_fs (m : DiskFs) (k : SpaceKind) (g bit : Nat) (used : Bool) :
    (moved m k g bit used).fs = countedFs m.fs g (k.deltas (change used)).1 (k.deltas (change used)).2 := rfl

theorem sameLayout_moved (m : DiskFs) (k : SpaceKind) (g bit : Nat) (used : Bool) :
    SameLayout m.fs (moved m k g bit used).fs := sameLayout_countedFs _ _ _ _

variable (hl : SpaceLayout m.fs)
include hl

/-- One bit changes, and no other. -/
theorem usedBit_moved (hg : g < m.fs.numGroups) (hbit : bit < k.size m.fs)
    (hg' : g' < m.fs.numGroups) (j : Nat) :
    usedBit (moved m k g bit used) k' g' j = if k' = k ∧ g' = g ∧ j = bit then used else usedBit m k' g' j := by
  have hbm : k'.bitmap (moved m k g bit used).fs g' = k'.bitmap m.fs g' := SameLayout.bitmap (sameLayout_moved _ _ _ _ _) k' g'
  rw [usedBit, hbm, moved, blockAt_counted (hl.lt k' g' hg') (hl.ne_sb k' g' hg') (hl.ne_gd k' g' hg')]
  by_cases h : k' = k ∧ g' = g
  · obtain ⟨rfl, rfl⟩ := h
    rw [blockAt_setBlock_self (hl.lt k' g' hg), bitmapTest_putBit (lt_of_lt_of_le hbit (hl.le k'))]
    simp [usedBit]
  · rw [blockAt_setBlock_of_ne (hl.lt k g hg) (hl.lt k' g' hg') (fun e => h (hl.inj k' k g' g hg' hg e)), usedBit,
      if_neg (fun e => h ⟨e.1, e.2.1⟩)]

/-- The number of clear bits changes as the counts do. -/
theorem clearBits_moved (hg : g < m.fs.numGroups) (hbit : bit < k.size m.fs)
    (hwas : usedBit m k g bit = !used) (hg' : g' < m.fs.numGroups) :
    (clearBits (moved m k g bit used) k' g' : Int) = clearBits m k' g' + if k' = k ∧ g' = g then change used else 0 := by
  have hbits : ∀ j, usedBit (moved m k g bit used) k' g' j = if k' = k ∧ g' = g ∧ j = bit then used else usedBit m k' g' j :=
    usedBit_moved hl hg hbit hg'
  rw [clearBits, clearBits, SameLayout.size (sameLayout_moved _ _ _ _ _)]
  by_cases h : k' = k ∧ g' = g
  · obtain ⟨rfl, rfl⟩ := h
    cases used with
    | true =>
      have := countP_update (P := fun j => !usedBit (moved m k' g' bit true) k' g' j) (Q := fun j => !usedBit m k' g' j) hbit
        (by simp [hbits]) (by simp [hwas]) (fun j hj => by simp [hbits, hj])
      rw [this]
      simp [change]
    | false =>
      have := countP_update (P := fun j => !usedBit m k' g' j) (Q := fun j => !usedBit (moved m k' g' bit false) k' g' j) hbit
        (by simp [hwas]) (by simp [hbits]) (fun j hj => by simp [hbits, hj])
      rw [this]
      simp [change]
  · have hsame : ∀ j, usedBit (moved m k g bit used) k' g' j = usedBit m k' g' j := fun j => by
      rw [hbits, if_neg (fun e => h ⟨e.1, e.2.1⟩)]
    simp [hsame, if_neg h]

/-! ## The calls -/

/-- Bit `bit` of group `g` is the first clear one, in the order of the groups. -/
def FirstClearBit (m : DiskFs) (k : SpaceKind) (g bit : Nat) : Prop :=
  g < m.fs.numGroups ∧ bit < k.size m.fs ∧ usedBit m k g bit = false ∧
    ∀ g' j, j < k.size m.fs → (g' < g ∨ g' = g ∧ j < bit) → usedBit m k g' j = true

/-- An allocation takes the first clear bit, in the order of the groups. -/
theorem alloc_run (k : SpaceKind) :
    ((∀ g < m.fs.numGroups, ∀ j < k.size m.fs, usedBit m k g j = true) ∧ (k.alloc arrayDev.toBlockDev).run m = (-1, m)) ∨
    ∃ g bit, FirstClearBit m k g bit ∧
      (k.alloc arrayDev.toBlockDev).run m = (toInt32 (k.number m.fs g bit), moved m k g bit true) := by
  have hrun : ∀ r m', (allocBit arrayDev.toBlockDev k.bitmap k.size (k.deltas (-1)).1 (k.deltas (-1)).2
      (range m.fs.numGroups)).run m = (r, m') → (k.alloc arrayDev.toBlockDev).run m =
        (r.elim (-1) fun x => toInt32 (k.number m.fs x.1 x.2), m') := by
    intro r m' h
    cases k with
    | block =>
      have h' : (allocBit arrayDev.toBlockDev blockBitmap Ext2Fs.blocksPerGroup (-1) 0 (range m.fs.numGroups)).run m =
        (r, m') := h
      rw [SpaceKind.alloc, ext2AllocBlock, bind_run (getFs_run m), hl.mounted, if_neg (by simp), bind_run h']
      cases r <;> rfl
    | inode =>
      have h' : (allocBit arrayDev.toBlockDev inodeBitmap Ext2Fs.inodesPerGroup 0 (-1) (range m.fs.numGroups)).run m =
        (r, m') := h
      rw [SpaceKind.alloc, ext2AllocInode, bind_run (getFs_run m), hl.mounted, if_neg (by simp), bind_run h']
      cases r <;> rfl
  rcases allocBit_run hl.mounted k.bitmap k.size (k.deltas (-1)).1 (k.deltas (-1)).2 (range m.fs.numGroups) with
    ⟨hfull, h⟩ | ⟨before, g, after, bit, hsplit, hfull, ⟨hbit, hclear, hset⟩, h⟩
  · exact .inl ⟨fun g hg => hfull g (mem_range.mpr hg), hrun _ _ h⟩
  · obtain ⟨hg, rfl⟩ := range_eq_append hsplit
    refine .inr ⟨g, bit, ⟨hg, hbit, hclear, fun g' j hj hlt => ?_⟩, hrun _ _ h⟩
    rcases hlt with hlt | ⟨rfl, hlt⟩
    · exact hfull g' (mem_range.mpr hlt) j hj
    · exact hset j hlt

omit hl in
theorem number_div (hk : bit < k.size fs) : match k with
    | .block => k.number fs g bit / fs.blocksPerGroup = g ∧ k.number fs g bit % fs.blocksPerGroup = bit
    | .inode => (k.number fs g bit - 1) / fs.inodesPerGroup = g ∧ (k.number fs g bit - 1) % fs.inodesPerGroup = bit := by
  have hdiv : ∀ s, bit < s → (g * s + bit) / s = g ∧ (g * s + bit) % s = bit := by
    intro s hs
    rw [mul_comm g, mul_add_div (by omega), mul_add_mod, div_eq_of_lt hs, mod_eq_of_lt hs]
    exact ⟨rfl, rfl⟩
  cases k <;> exact hdiv _ hk

/-- A release of an object clears its bit, or is an error when it is clear already. -/
theorem free_run (hg : g < m.fs.numGroups) (hbit : bit < k.size m.fs) :
    (k.free arrayDev.toBlockDev (k.number m.fs g bit)).run m =
      if usedBit m k g bit = true then (.ok, moved m k g bit false) else (.invalid, m) := by
  have hn := number_div (g := g) hbit
  cases k with
  | block =>
    rw [SpaceKind.free, ext2FreeBlock, bind_run (getFs_run m), hl.mounted, if_neg (by simp), hn.1, hn.2,
      freeBit_run hl.mounted]
    simp only [hg, true_and]
    rfl
  | inode =>
    have hne : SpaceKind.inode.number m.fs g bit ≠ 0 := succ_ne_zero _
    rw [SpaceKind.free, ext2FreeInode, bind_run (getFs_run m), hl.mounted, if_neg (by simp), if_neg hne, hn.1, hn.2,
      freeBit_run hl.mounted]
    simp only [hg, true_and]
    rfl

/-- A release of any number is an error, or of an object of the file system. -/
theorem free_number (k : SpaceKind) (n : Nat) :
    (k.free arrayDev.toBlockDev n).run m = (.invalid, m) ∨
      ∃ g bit, g < m.fs.numGroups ∧ bit < k.size m.fs ∧ n = k.number m.fs g bit := by
  cases k with
  | block =>
    by_cases hg : n / m.fs.blocksPerGroup < m.fs.numGroups
    · refine .inr ⟨n / m.fs.blocksPerGroup, n % m.fs.blocksPerGroup, hg, mod_lt _ (hl.pos .block), ?_⟩
      rw [SpaceKind.number, mul_comm, div_add_mod]
    · left
      rw [SpaceKind.free, ext2FreeBlock, bind_run (getFs_run m), hl.mounted, if_neg (by simp), freeBit_run hl.mounted,
        if_neg (fun h => hg h.1)]
  | inode =>
    by_cases h0 : n = 0
    · left
      rw [SpaceKind.free, ext2FreeInode, bind_run (getFs_run m), hl.mounted, if_neg (by simp), if_pos h0, run_pure]
    by_cases hg : (n - 1) / m.fs.inodesPerGroup < m.fs.numGroups
    · refine .inr ⟨(n - 1) / m.fs.inodesPerGroup, (n - 1) % m.fs.inodesPerGroup, hg, mod_lt _ (hl.pos .inode), ?_⟩
      rw [SpaceKind.number, mul_comm, div_add_mod]
      omega
    · left
      rw [SpaceKind.free, ext2FreeInode, bind_run (getFs_run m), hl.mounted, if_neg (by simp), if_neg h0,
        freeBit_run hl.mounted, if_neg (fun h => hg h.1)]

end Ext2SpaceAux

end TsOs
