import TsOs.Lemmas.Ext2Space
import TsOs.Theorems.Ext2Mount

/-!
# The account of free space over whole runs

Runs of `ext2_alloc_block`, `ext2_free_block`, `ext2_alloc_inode` and `ext2_free_inode` with any arguments: the counts in memory
follow the bitmaps, an allocation takes the first clear bit, releasing what was just allocated undoes it, and releasing what is
free is an error.
-/

namespace TsOs

open Bytes Bits StateProg Ext2Aux Ext2SimAux Ext2SpaceAux

/-- A mounted file system with 1 to 8192 blocks and inodes in a group, whose bitmaps are blocks of their own with sectors of
their own, apart from the superblock and the descriptors that are written back, and whose inodes have numbers of 32 bits. -/
structure SpaceFormatted (fs : Ext2Fs) : Prop where
  mounted : Mounted fs
  pos : ∀ k : SpaceKind, 0 < k.size fs
  le : ∀ k : SpaceKind, k.size fs ≤ 8192
  inj : ∀ (k k' : SpaceKind) (g g' : Nat), g < fs.numGroups → g' < fs.numGroups → k.bitmap fs g = k'.bitmap fs g' →
    k = k' ∧ g = g'
  ne_sb : ∀ (k : SpaceKind) (g : Nat), g < fs.numGroups → k.bitmap fs g ≠ 1
  ne_gd : ∀ (k : SpaceKind) (g : Nat), g < fs.numGroups → k.bitmap fs g ≠ 2
  lt : ∀ (k : SpaceKind) (g : Nat), g < fs.numGroups → k.bitmap fs g < 2 ^ 31
  inodes : fs.numGroups * fs.inodesPerGroup < 2 ^ 32

/-- A call of the allocator. The argument of a release is any number. -/
inductive BitmapOp where
  | alloc (k : SpaceKind)
  | free (k : SpaceKind) (n : Nat)

section Runs

variable {σ : Type}

def BitmapOp.exec (dev : BlockDev σ) (m : Ext2 σ) : BitmapOp → Ext2 σ
  | .alloc k => ((k.alloc dev).run m).2
  | .free k n => ((k.free dev n).run m).2

/-- A sequence of calls, one after the other. -/
def runBitmaps (dev : BlockDev σ) (m : Ext2 σ) (ops : List BitmapOp) : Ext2 σ := ops.foldl (BitmapOp.exec dev) m

end Runs

/-- From one state to the other the counts change, modulo their width, as the numbers of clear bits do, and the copies on the disk
follow the counts in memory. -/
structure CountsFollow (m m' : DiskFs) : Prop where
  groups : ∀ (k : SpaceKind) (g : Nat), g < m.fs.numGroups →
    (k.groupFree m'.fs g : Int) ≡ k.groupFree m.fs g + ((clearBits m' k g : Int) - clearBits m k g) [ZMOD 2 ^ 16]
  superblock : ∀ k : SpaceKind, (k.sbFree m'.fs : Int) ≡
    k.sbFree m.fs + ∑ g ∈ Finset.range m.fs.numGroups, ((clearBits m' k g : Int) - clearBits m k g) [ZMOD 2 ^ 32]
  sb_disk : blockAt m 1 = m.fs.sb → blockAt m' 1 = m'.fs.sb
  gd_disk : blockAt m 2 = pack 1024 m.fs.gd → blockAt m' 2 = pack 1024 m'.fs.gd

/-- The same bits are set in the bitmaps, and the counts are the same. -/
def SameSpace (m m' : DiskFs) : Prop :=
  (∀ (k : SpaceKind) (g j : Nat), g < m.fs.numGroups → usedBit m' k g j = usedBit m k g j) ∧
    (∀ (k : SpaceKind) (g : Nat), g < m.fs.numGroups → k.groupFree m'.fs g = k.groupFree m.fs g) ∧
    ∀ k : SpaceKind, k.sbFree m'.fs = k.sbFree m.fs

section Calls

variable {σ : Type} (D : StoreDev σ) (m : Ext2 σ) (k : SpaceKind)

/-- An allocation that returns a number sets the first clear bit, in the order of the groups, and no other, and a release of the
number restores the bitmaps and the counts. -/
def AllocExact : Prop :=
  ((k.alloc D.toBlockDev).run m).1 ≠ -1 →
    ∃ g bit, FirstClearBit (shown D m) k g bit ∧
      (BitVec.ofInt 32 ((k.alloc D.toBlockDev).run m).1).toNat = k.number m.fs g bit ∧
      (∀ k' g' j, g' < m.fs.numGroups → usedBit (shown D ((k.alloc D.toBlockDev).run m).2) k' g' j =
        if k' = k ∧ g' = g ∧ j = bit then true else usedBit (shown D m) k' g' j) ∧
      ((k.free D.toBlockDev (k.number m.fs g bit)).run ((k.alloc D.toBlockDev).run m).2).1 = .ok ∧
      SameSpace (shown D m) (shown D ((k.free D.toBlockDev (k.number m.fs g bit)).run ((k.alloc D.toBlockDev).run m).2).2)

/-- A release of an object whose bit is clear is an error and changes nothing. -/
def FreeChecked : Prop :=
  ∀ g bit, g < m.fs.numGroups → bit < k.size m.fs → usedBit (shown D m) k g bit = false →
    ((k.free D.toBlockDev (k.number m.fs g bit)).run m).1 = .invalid ∧
      shown D ((k.free D.toBlockDev (k.number m.fs g bit)).run m).2 = shown D m

end Calls

namespace Ext2SpaceAux

theorem SpaceFormatted.layout {fs : Ext2Fs} (h : SpaceFormatted fs) : SpaceLayout fs where
  mounted := h.mounted.mounted
  pos := h.pos
  le := h.le
  inj := h.inj
  ne_sb := h.ne_sb
  ne_gd := h.ne_gd
  lt := h.lt
  fits k := by
    cases k with
    | block =>
      -- the number of groups is a quotient of a number of 32 bits
      have hg : ext2NumGroups fs.sb = fs.numGroups := congrArg Ext2Fs.numGroups h.mounted.geometry
      have hb : sBlocksPerGroup fs.sb = fs.blocksPerGroup := congrArg Ext2Fs.blocksPerGroup h.mounted.geometry
      rw [← hg, ext2NumGroups, hb]
      exact Nat.lt_of_le_of_lt (Nat.div_mul_le_self _ _) (Nat.mod_lt _ (by decide))
    | inode => exact h.inodes

theorem CountsFollow.refl (m : DiskFs) : CountsFollow m m where
  groups k g _ := by rw [Int.sub_self, Int.add_zero]
  superblock k := by simp only [Int.sub_self, Finset.sum_const_zero, Int.add_zero]; rfl
  sb_disk h := h
  gd_disk h := h

theorem CountsFollow.trans {m m' m'' : DiskFs} (hn : m'.fs.numGroups = m.fs.numGroups) (h : CountsFollow m m')
    (h' : CountsFollow m' m'') : CountsFollow m m'' where
  groups k g hg := by
    have h2 := (h'.groups k g (by rw [hn]; exact hg)).trans ((h.groups k g hg).add_right _)
    rwa [Int.add_assoc, show ((clearBits m' k g : Int) - clearBits m k g + (clearBits m'' k g - clearBits m' k g)) =
      clearBits m'' k g - clearBits m k g by omega] at h2
  superblock k := by
    have h2 := (h'.superblock k).trans ((h.superblock k).add_right _)
    have hterm : ∀ g ∈ Finset.range m.fs.numGroups, ((clearBits m' k g : Int) - clearBits m k g +
        (clearBits m'' k g - clearBits m' k g)) = clearBits m'' k g - clearBits m k g := fun g _ => by omega
    rwa [hn, Int.add_assoc, ← Finset.sum_add_distrib, Finset.sum_congr rfl hterm] at h2
  sb_disk e := h'.sb_disk (h.sb_disk e)
  gd_disk e := h'.gd_disk (h.gd_disk e)

variable {m : DiskFs} {k : SpaceKind} {g bit : Nat} {used : Bool}

/-- The counts follow the move of one bit. -/
theorem countsFollow_moved (hl : SpaceLayout m.fs) (hg : g < m.fs.numGroups) (hbit : bit < k.size m.fs)
    (hwas : usedBit m k g bit = !used) : CountsFollow m (moved m k g bit used) where
  groups k' g' hg' := by
    rw [moved_fs, groupFree_countedFs, clearBits_moved hl hg hbit hwas hg', add_sub_cancel_left]
    by_cases h : k' = k ∧ g' = g
    · obtain ⟨rfl, rfl⟩ := h
      rw [if_pos ⟨rfl, rfl⟩, if_pos ⟨rfl, rfl⟩]
      exact addDelta_modEq 16 _ _
    · rw [if_neg h, if_neg h, Int.add_zero]
  superblock k' := by
    have hsum : ∑ g' ∈ Finset.range m.fs.numGroups, ((clearBits (moved m k g bit used) k' g' : Int) - clearBits m k' g') =
        if k' = k then change used else 0 := by
      have hterm : ∀ g' ∈ Finset.range m.fs.numGroups,
          ((clearBits (moved m k g bit used) k' g' : Int) - clearBits m k' g') =
            if g' = g then (if k' = k then change used else 0) else 0 := by
        intro g' hg'
        rw [clearBits_moved hl hg hbit hwas (Finset.mem_range.1 hg')]
        by_cases hk : k' = k <;> by_cases he : g' = g <;> simp [hk, he]
      rw [Finset.sum_congr rfl hterm, Finset.sum_ite_eq', if_pos (Finset.mem_range.2 hg)]
    rw [hsum, moved_fs, sbFree_countedFs]
    by_cases h : k' = k
    · subst h
      rw [if_pos rfl, if_pos rfl]
      exact addDelta_modEq 32 _ _
    · rw [if_neg h, if_neg h, Int.add_zero]
  sb_disk _ := blockAt_counted_sb _ _ _ _
  gd_disk _ := blockAt_counted_gd _ _ _ _

/-- Taking a clear bit and releasing it again. -/
theorem sameSpace_moved (hl : SpaceLayout m.fs) (hg : g < m.fs.numGroups) (hbit : bit < k.size m.fs)
    (hwas : usedBit m k g bit = false) : SameSpace m (moved (moved m k g bit true) k g bit false) := by
  have hsame := sameLayout_moved m k g bit true
  have hl' := SpaceLayout.congr hl hsame
  have hg' : g < (moved m k g bit true).fs.numGroups := by rw [hsame.numGroups]; exact hg
  have hbit' : bit < k.size (moved m k g bit true).fs := by rw [SameLayout.size hsame]; exact hbit
  refine ⟨fun k' g' j hg'' => ?_, fun k' g' _ => ?_, fun k' => ?_⟩
  · rw [usedBit_moved hl' hg' hbit' (by rw [hsame.numGroups]; exact hg''), usedBit_moved hl hg hbit hg'']
    by_cases h : k' = k ∧ g' = g ∧ j = bit
    · obtain ⟨rfl, rfl, rfl⟩ := h
      rw [if_pos ⟨rfl, rfl, rfl⟩, hwas]
    · rw [if_neg h, if_neg h]
  · rw [moved_fs, groupFree_countedFs, moved_fs, groupFree_countedFs, groupFree_countedFs]
    by_cases h : k' = k ∧ g' = g
    · obtain ⟨rfl, rfl⟩ := h
      simp only [and_self, if_true]
      exact addDelta_neg (groupFree_lt k' m.fs g') (change true)
    · rw [if_neg h, if_neg h]
  · rw [moved_fs, sbFree_countedFs, moved_fs, sbFree_countedFs, sbFree_countedFs]
    by_cases h : k' = k
    · subst h
      simp only [if_true]
      exact addDelta_neg (sbFree_lt k' m.fs) (change true)
    · rw [if_neg h, if_neg h]

section Sim

variable {σ : Type} (D : StoreDev σ)

theorem sim_alloc (k : SpaceKind) : Sim (shown D) (k.alloc D.toBlockDev) (k.alloc arrayDev.toBlockDev) := by
  cases k
  · exact sim_allocBlock D
  · exact sim_allocInode D

theorem sim_free (k : SpaceKind) (n : Nat) : Sim (shown D) (k.free D.toBlockDev n) (k.free arrayDev.toBlockDev n) := by
  cases k
  · exact sim_freeBlock D n
  · exact sim_freeInode D n

theorem shown_exec (m : Ext2 σ) (op : BitmapOp) :
    shown D (op.exec D.toBlockDev m) = op.exec arrayDev.toBlockDev (shown D m) := by
  cases op with
  | alloc k => exact (sim_alloc D k).snd m
  | free k n => exact (sim_free D k n).snd m

theorem shown_runBitmaps (m : Ext2 σ) (ops : List BitmapOp) :
    shown D (runBitmaps D.toBlockDev m ops) = runBitmaps arrayDev.toBlockDev (shown D m) ops := by
  induction ops generalizing m with
  | nil => rfl
  | cons op ops ih =>
    rw [runBitmaps, runBitmaps, List.foldl_cons, List.foldl_cons, ← shown_exec]
    exact ih _

end Sim

/-- One call leaves the file system as it is or moves one bit. -/
theorem exec_moved (hl : SpaceLayout m.fs) (op : BitmapOp) :
    op.exec arrayDev.toBlockDev m = m ∨ ∃ k g bit used, g < m.fs.numGroups ∧ bit < k.size m.fs ∧
      usedBit m k g bit = !used ∧ op.exec arrayDev.toBlockDev m = moved m k g bit used := by
  cases op with
  | alloc k =>
    rw [BitmapOp.exec]
    rcases alloc_run hl k with ⟨_, hrun⟩ | ⟨g, bit, ⟨hg, hbit, hclear, _⟩, hrun⟩
    · exact .inl (by rw [hrun])
    · exact .inr ⟨k, g, bit, true, hg, hbit, hclear, by rw [hrun]⟩
  | free k n =>
    rw [BitmapOp.exec]
    rcases free_number hl k n with hrun | ⟨g, bit, hg, hbit, rfl⟩
    · exact .inl (by rw [hrun])
    · rw [free_run hl hg hbit]
      cases hused : usedBit m k g bit with
      | true => exact .inr ⟨k, g, bit, false, hg, hbit, hused, by rw [if_pos rfl]⟩
      | false => exact .inl (by rw [if_neg (by decide)])

/-- One call keeps the layout, and the counts follow the bitmaps. -/
theorem exec_follows (hl : SpaceLayout m.fs) (op : BitmapOp) :
    SameLayout m.fs (op.exec arrayDev.toBlockDev m).fs ∧ CountsFollow m (op.exec arrayDev.toBlockDev m) := by
  rcases exec_moved hl op with h | ⟨k, g, bit, used, hg, hbit, hwas, h⟩
  · rw [h]
    exact ⟨SameLayout.refl _, CountsFollow.refl m⟩
  · rw [h]
    exact ⟨sameLayout_moved _ _ _ _ _, countsFollow_moved hl hg hbit hwas⟩

/-- A run keeps the layout, and the counts follow the bitmaps. -/
theorem runBitmaps_follows (ops : List BitmapOp) : ∀ {m : DiskFs}, SpaceLayout m.fs →
    SameLayout m.fs (runBitmaps arrayDev.toBlockDev m ops).fs ∧ CountsFollow m (runBitmaps arrayDev.toBlockDev m ops) := by
  induction ops with
  | nil => exact fun {m} _ => ⟨SameLayout.refl _, CountsFollow.refl m⟩
  | cons op ops ih =>
    intro m hl
    obtain ⟨hs, hc⟩ := exec_follows hl op
    obtain ⟨hs', hc'⟩ := ih (SpaceLayout.congr hl hs)
    exact ⟨hs.trans hs', CountsFollow.trans hs.numGroups hc hc'⟩

theorem ofInt_toInt32 {n : Nat} (h : n < 2 ^ 32) : (BitVec.ofInt 32 (toInt32 n)).toNat = n := by
  rw [toInt32, BitVec.ofInt_toInt, BitVec.toNat_ofNat, Nat.mod_eq_of_lt h]

theorem number_lt (hl : SpaceLayout m.fs) (hg : g < m.fs.numGroups) (hbit : bit < k.size m.fs) :
    k.number m.fs g bit < 2 ^ 32 := by
  have hfits := hl.fits k
  have hmul : (g + 1) * k.size m.fs ≤ m.fs.numGroups * k.size m.fs := Nat.mul_le_mul_right _ hg
  rw [Nat.add_mul] at hmul
  cases k <;> simp only [SpaceKind.number, SpaceKind.size] at * <;> omega

theorem allocExact (hl : SpaceLayout m.fs) (k : SpaceKind) : AllocExact arrayDev m k := by
  intro hok
  rcases alloc_run hl k with ⟨_, hrun⟩ | ⟨g, bit, hfirst, hrun⟩
  · exact absurd (congrArg Prod.fst hrun) hok
  obtain ⟨hg, hbit, hclear, _⟩ := id hfirst
  have hsame := sameLayout_moved m k g bit true
  have hg' : g < (moved m k g bit true).fs.numGroups := by rw [hsame.numGroups]; exact hg
  have hbit' : bit < k.size (moved m k g bit true).fs := by rw [SameLayout.size hsame]; exact hbit
  have hnum : k.number (moved m k g bit true).fs g bit = k.number m.fs g bit := by
    cases k <;> rfl
  have hset : usedBit (moved m k g bit true) k g bit = true := by
    rw [usedBit_moved hl hg hbit hg, if_pos ⟨rfl, rfl, rfl⟩]
  have hfree := free_run (SpaceLayout.congr hl hsame) hg' hbit'
  rw [hnum, if_pos hset] at hfree
  refine ⟨g, bit, hfirst, ?_, fun k' g' j hj => ?_, ?_, ?_⟩
  · rw [hrun, ofInt_toInt32 (number_lt hl hg hbit)]
  · rw [hrun]
    exact usedBit_moved hl hg hbit hj j
  · rw [hrun, hfree]
  · rw [hrun, hfree]
    exact sameSpace_moved hl hg hbit hclear

theorem freeChecked (hl : SpaceLayout m.fs) (k : SpaceKind) : FreeChecked arrayDev m k := by
  intro g bit hg hbit hclear
  have hclear' : usedBit m k g bit = false := hclear
  rw [free_run hl hg hbit, hclear']
  exact ⟨rfl, rfl⟩

end Ext2SpaceAux

/-- After any run of the four calls, with any arguments, on a device whose transfers succeed: the free counts of the groups and of
the superblock have changed, modulo their width, by the change in the number of clear bits; an allocation then takes the first
clear bit and a release of what it took restores bitmaps and counts; and a release of what is free is an error. -/
theorem ext2_free_space {σ : Type} (D : StoreDev σ) (m : Ext2 σ) (h : SpaceFormatted m.fs) (ops : List BitmapOp) :
    CountsFollow (shown D m) (shown D (runBitmaps D.toBlockDev m ops)) ∧
      ∀ k, AllocExact D (runBitmaps D.toBlockDev m ops) k ∧ FreeChecked D (runBitmaps D.toBlockDev m ops) k := by
  have hl : SpaceLayout (shown D m).fs := SpaceFormatted.layout h
  obtain ⟨hs, hc⟩ := runBitmaps_follows ops hl
  rw [← shown_runBitmaps] at hs hc
  have hl' := SpaceLayout.congr hl hs
  refine ⟨hc, fun k => ⟨?_, ?_⟩⟩
  · have := allocExact hl' k
    simp only [AllocExact, (sim_alloc D k).fst, (sim_alloc D k).snd, (sim_free D k _).fst, (sim_free D k _).snd] at this ⊢
    exact this
  · have := freeChecked hl' k
    simp only [FreeChecked, (sim_free D k _).fst, (sim_free D k _).snd] at this ⊢
    exact this

/-! ## An image -/

/-- The superblock of an image with 16 blocks and 8 inodes in one group. -/
def accountSb : Block := pack 1024 (putLe 4 (putLe 4 (putLe 4 (fun _ => 0#8) 4 16) 32 16) 40 8)

/-- A mounted image with 16 blocks and 8 inodes in one group, whose bitmaps are blocks 3 and 4. -/
def accountFs : DiskFs where
  fs := Ext2Fs.withSb
    { mounted := true, devId := 0#8, sb := accountSb, gd := putLe 4 (putLe 4 (fun _ => 0#8) 0 3) 4 4, blockSize := 0
      numGroups := 0, inodesPerGroup := 0, blocksPerGroup := 0, descsPerGroup := 0, descBlocks := 0 } accountSb
  dev := fun _ _ => 0#8
  stack := fun _ => 0#8

namespace Ext2SpaceAux

theorem accountFs_formatted : SpaceFormatted accountFs.fs := by
  have hzero : ∀ g, g < accountFs.fs.numGroups → g = 0 := by
    have hgroups : accountFs.fs.numGroups = 1 := by decide +kernel
    intro g hg
    omega
  refine ⟨⟨rfl, rfl⟩, fun k => ?_, fun k => ?_, fun k k' g g' hg hg' => ?_, fun k g hg => ?_, fun k g hg => ?_, fun k g hg => ?_,
    by decide +kernel⟩
  case refine_3 =>
    rw [hzero g hg, hzero g' hg']
    cases k <;> cases k' <;> decide +kernel
  case refine_1 | refine_2 => cases k <;> decide +kernel
  all_goals
    rw [hzero g hg]
    cases k <;> decide +kernel

end Ext2SpaceAux

/-- The account of the image, over a run that allocates an inode and two blocks and releases one of them twice. -/
theorem ext2_free_space_image :
    let ops := [.alloc .inode, .alloc .block, .alloc .block, .free .block 0, .free .block 0]
    CountsFollow accountFs (shown arrayDev (runBitmaps arrayDev.toBlockDev accountFs ops)) ∧
      ∀ k, AllocExact arrayDev (runBitmaps arrayDev.toBlockDev accountFs ops) k ∧
        FreeChecked arrayDev (runBitmaps arrayDev.toBlockDev accountFs ops) k :=
  ext2_free_space arrayDev accountFs accountFs_formatted _

end TsOs
