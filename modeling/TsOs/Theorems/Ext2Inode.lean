import TsOs.Lemmas.Ext2

/-!
# The inode tables

An inode is stored by reading its block, changing 128 bytes of it and writing it back. As long as the bytes of a table are counted
in 32 bits, different inodes are different records of the tables, so that a store changes one inode and no other.
-/

namespace TsOs

open Bytes StateProg Ext2Aux Ext2SimAux

namespace Ext2Fs

/-- The inodes of the groups, numbered from 1. -/
def HasInode (fs : Ext2Fs) (ino : Nat) : Prop :=
  ∃ g < fs.numGroups, ∃ k < fs.inodesPerGroup, ino = g * fs.inodesPerGroup + k + 1

/-- The number of blocks that the inodes of one group take. -/
def tableBlocks (fs : Ext2Fs) : Nat := (fs.inodesPerGroup * sInodeSize fs.sb + 1023) / 1024

/-- The block and the byte in it where record `k` of the table of group `g` begins. -/
def record (fs : Ext2Fs) (g k : Nat) : Nat × Nat :=
  (bgInodeTable fs.gd g + k * sInodeSize fs.sb / 1024, k * sInodeSize fs.sb % 1024)

end Ext2Fs

/-- A mounted file system whose blocks of 1024 bytes hold a whole number of inodes, where the table of each group has room for its
inodes, apart from the other tables, in blocks that have sector numbers on the device. -/
structure InodeTables (fs : Ext2Fs) : Prop where
  mounted : fs.mounted = true
  blockSize : fs.blockSize = 1024
  size : 128 ≤ sInodeSize fs.sb
  dvd : sInodeSize fs.sb ∣ 1024
  disjoint : ∀ g < fs.numGroups, ∀ g' < fs.numGroups, g ≠ g' → ∀ b < fs.tableBlocks, ∀ b' < fs.tableBlocks,
    bgInodeTable fs.gd g + b ≠ bgInodeTable fs.gd g' + b'
  lt : ∀ g < fs.numGroups, bgInodeTable fs.gd g + fs.tableBlocks ≤ 2 ^ 31

namespace Ext2InodeAux

section Runs

variable {m : DiskFs} (hm : m.fs.mounted = true) {ino t b o B : Nat} (h : ext2InodeLocation m.fs ino = some (t, b, o))
  (hB : (t + b) % 2 ^ 32 = B)
include hm h hB

theorem readInode_run :
    (ext2ReadInode arrayDev.toBlockDev ino).run m = (.ok (pack 128 fun i => view (blockAt m B) (o + i)), m) := by
  rw [ext2ReadInode, bind_run (getFs_run m), hm, if_neg (by simp), h]
  dsimp only
  rw [hB, bind_run (stackBuf_run m), bind_run (readBlock_run hm _ _), if_neg (by simp), run_pure]

theorem writeInode_run (x : Inode) : (ext2WriteInode arrayDev.toBlockDev ino x).run m =
    (.ok, setBlock m B (pack 1024 (splice (view (blockAt m B)) o (view x) 128))) := by
  rw [ext2WriteInode, bind_run (getFs_run m), hm, if_neg (by simp), h]
  dsimp only
  rw [hB, bind_run (stackBuf_run m), bind_run (readBlock_run hm _ _), if_neg (by simp), writeBlock_run hm]

end Runs

variable {fs : Ext2Fs} (hl : InodeTables fs) {g k g' k' : Nat} (hg : g < fs.numGroups) (hk : k < fs.inodesPerGroup)
include hl

theorem size_le_of_lt {n : Nat} (h : k < n) : k * sInodeSize fs.sb + 128 ≤ n * sInodeSize fs.sb := by
  have hle := Nat.mul_le_mul_right (sInodeSize fs.sb) h
  have hsize := hl.size
  rw [Nat.succ_mul] at hle
  omega

/-- A record ends in the block it begins in. -/
theorem record_end (g k : Nat) : (fs.record g k).2 + 128 ≤ 1024 := by
  obtain ⟨q, hq⟩ := hl.dvd
  have hpos : 0 < q := Nat.pos_of_ne_zero fun h0 => by simp [h0] at hq
  have hle := size_le_of_lt hl (Nat.mod_lt k hpos)
  rw [Nat.mul_comm q, ← hq] at hle
  have hmod : k * sInodeSize fs.sb % 1024 = k % q * sInodeSize fs.sb := by
    rw [hq, Nat.mul_comm k, Nat.mul_mod_mul_left, Nat.mul_comm]
  rwa [Ext2Fs.record, hmod]

include hg hk

/-- The record of an inode is in the table of its group. -/
theorem record_lt : k * sInodeSize fs.sb / 1024 < fs.tableBlocks ∧ (fs.record g k).1 < 2 ^ 31 := by
  have hlt := hl.lt g hg
  have hle := size_le_of_lt hl hk
  rw [Ext2Fs.tableBlocks, Ext2Fs.record] at *
  omega

/-- The records of two inodes are in different blocks, or apart in one. -/
theorem record_apart (hg' : g' < fs.numGroups) (hk' : k' < fs.inodesPerGroup) (hne : ¬ (g' = g ∧ k' = k))
    (heq : (fs.record g' k').1 = (fs.record g k).1) :
    (fs.record g' k').2 + 128 ≤ (fs.record g k).2 ∨ (fs.record g k).2 + 128 ≤ (fs.record g' k').2 := by
  by_cases hgg : g' = g
  · subst hgg
    simp only [Ext2Fs.record] at heq ⊢
    rcases Nat.lt_or_gt_of_ne fun hkk : k' = k => hne ⟨rfl, hkk⟩ with hlt | hlt
    · have hle := size_le_of_lt hl hlt
      omega
    · have hle := size_le_of_lt hl hlt
      omega
  · exact absurd heq (hl.disjoint g' hg' g hg hgg _ (record_lt hl hg' hk').1 _ (record_lt hl hg hk).1)

/-- Where `ext2_inode_location` finds an inode when no offset leaves 32 bits. -/
theorem location_eq (hbytes : fs.inodesPerGroup * sInodeSize fs.sb ≤ 2 ^ 32) :
    ∃ t b, ext2InodeLocation fs (g * fs.inodesPerGroup + k + 1) = some (t, b, (fs.record g k).2) ∧
      (t + b) % 2 ^ 32 = (fs.record g k).1 := by
  have hle := size_le_of_lt hl hk
  have hdiv : (g * fs.inodesPerGroup + k) / fs.inodesPerGroup = g := by
    rw [Nat.mul_comm, Nat.mul_add_div (by omega), Nat.div_eq_of_lt hk, Nat.add_zero]
  have hmod : (g * fs.inodesPerGroup + k) % fs.inodesPerGroup = k := by
    rw [Nat.mul_comm, Nat.mul_add_mod, Nat.mod_eq_of_lt hk]
  refine ⟨bgInodeTable fs.gd g, k * sInodeSize fs.sb / 1024, ?_, Nat.mod_eq_of_lt ((record_lt hl hg hk).2.trans (by decide))⟩
  rw [ext2InodeLocation, if_neg (by omega), Nat.add_sub_cancel]
  dsimp only
  rw [hdiv, hmod, if_neg (by omega), Nat.mod_eq_of_lt (by omega), hl.blockSize, Ext2Fs.record]

end Ext2InodeAux

open Ext2InodeAux

/-- After `ext2_write_inode` the inode reads as it was written and every other inode as before, when the bytes of a table are
counted in 32 bits. -/
theorem ext2_inodes_independent {σ : Type} (D : StoreDev σ) (m : Ext2 σ) (hl : InodeTables m.fs)
    (hbytes : m.fs.inodesPerGroup * sInodeSize m.fs.sb ≤ 2 ^ 32) (i : Nat) (hi : m.fs.HasInode i) (x : Inode) :
    ((ext2WriteInode D.toBlockDev i x).run m).1 = .ok ∧
    ((ext2ReadInode D.toBlockDev i).run ((ext2WriteInode D.toBlockDev i x).run m).2).1 = .ok x ∧
    ∀ j, m.fs.HasInode j → j ≠ i → ((ext2ReadInode D.toBlockDev j).run ((ext2WriteInode D.toBlockDev i x).run m).2).1 =
      ((ext2ReadInode D.toBlockDev j).run m).1 := by
  simp only [(sim_readInode D _).fst, (sim_writeInode D i x).fst, (sim_writeInode D i x).snd]
  obtain ⟨g, hg, k, hk, rfl⟩ := hi
  obtain ⟨t, b, hloc, hB⟩ := location_eq hl hg hk hbytes
  have hlt := (record_lt hl hg hk).2
  rw [writeInode_run (m := shown D m) hl.mounted hloc hB]
  refine ⟨rfl, ?_, fun j hj hji => ?_⟩
  · have hend := record_end hl g k
    rw [readInode_run (by exact hl.mounted) hloc hB, blockAt_setBlock_self hlt]
    refine congrArg Except.ok (funext fun i => ?_)
    rw [pack, view_pack (by omega), splice_inside (by omega) (by omega), Nat.add_sub_cancel_left, view_fin]
  · obtain ⟨g', hg', k', hk', rfl⟩ := hj
    obtain ⟨t', b', hloc', hB'⟩ := location_eq hl hg' hk' hbytes
    rw [readInode_run (by exact hl.mounted) hloc' hB', readInode_run (m := shown D m) hl.mounted hloc' hB']
    refine congrArg Except.ok (funext fun i => ?_)
    rw [pack, pack]
    by_cases heq : (m.fs.record g' k').1 = (m.fs.record g k).1
    · have hend := record_end hl g' k'
      have hapart := record_apart hl hg hk hg' hk' (fun h => hji (by rw [h.1, h.2])) heq
      rw [heq, blockAt_setBlock_self hlt, view_pack (by omega), splice_outside (by omega)]
    · rw [blockAt_setBlock_of_ne hlt (record_lt hl hg' hk').2 heq]

/-- A disk with one group of `n` inodes of 128 bytes, whose table begins at block 5: the superblock is in sector 2 and the group
descriptor in sector 4. -/
def tableDisk (n : Nat) : SectorKey → Sector := fun k =>
  if k.blk = 2#32 then
    pack 512 (putLe 2 (putLe 2 (putLe 4 (putLe 4 (putLe 4 (fun _ => 0#8) 4 8192) 32 8192) 40 n) 56 0xEF53) 88 128)
  else if k.blk = 4#32 then pack 512 (putLe 4 (fun _ => 0#8) 8 5)
  else fun _ => 0#8

/-- What `ext2_mount` makes of the disk. -/
def tableFs (n : Nat) : DiskFs :=
  ((ext2Mount arrayDev.toBlockDev 0#8 true).run
    { fs := { mounted := false, devId := 0#8, sb := fun _ => 0#8, gd := fun _ => 0#8, blockSize := 0, numGroups := 0
              inodesPerGroup := 0, blocksPerGroup := 0, descsPerGroup := 0, descBlocks := 0 }
      dev := tableDisk n
      stack := fun _ => 0#8 }).2

namespace Ext2InodeAux

/-- What the fields hold after the mount. -/
theorem tableFs_fields : ∀ n ∈ [8192, 2 ^ 25 + 1], (tableFs n).fs.mounted = true ∧ (tableFs n).fs.blockSize = 1024 ∧
    (tableFs n).fs.numGroups = 1 ∧ (tableFs n).fs.inodesPerGroup = n ∧ sInodeSize (tableFs n).fs.sb = 128 ∧
    bgInodeTable (tableFs n).fs.gd 0 = 5 := by
  decide +kernel

theorem tableFs_tables : ∀ n ∈ [8192, 2 ^ 25 + 1], InodeTables (tableFs n).fs := by
  intro n hn
  obtain ⟨hm, hb, hg, hi, hs, ht⟩ := tableFs_fields n hn
  refine ⟨hm, hb, hs.ge, hs ▸ (by decide), fun g hlt g' hlt' hne => absurd (by omega) hne, fun g hlt => ?_⟩
  obtain rfl : g = 0 := by omega
  rw [ht, Ext2Fs.tableBlocks, hi, hs]
  rcases List.mem_pair.mp hn with rfl | rfl <;> decide

end Ext2InodeAux

/-- An inode of a group of 8192. -/
theorem ext2_inodes_independent_image : (tableFs 8192).fs.HasInode 7 ∧
    ((ext2ReadInode arrayDev.toBlockDev 7).run ((ext2WriteInode arrayDev.toBlockDev 7 fun _ => 1#8).run (tableFs 8192)).2).1 =
      .ok fun _ => 1#8 := by
  have hi : (tableFs 8192).fs.HasInode 7 := ⟨0, Nat.one_pos, 6, by decide, rfl⟩
  have hbytes : (tableFs 8192).fs.inodesPerGroup * sInodeSize (tableFs 8192).fs.sb ≤ 2 ^ 32 := by decide +kernel
  exact ⟨hi, (ext2_inodes_independent arrayDev _ (tableFs_tables _ (by decide)) hbytes 7 hi _).2.1⟩

/-- In a group of `2 ^ 25 + 1` inodes the offset of the last one wraps around, and it shares the record of the first. -/
theorem ext2_inodes_share_record : InodeTables (tableFs (2 ^ 25 + 1)).fs ∧ (tableFs (2 ^ 25 + 1)).fs.HasInode 1 ∧
    (tableFs (2 ^ 25 + 1)).fs.HasInode (2 ^ 25 + 1) ∧ ∃ x,
      ((ext2ReadInode arrayDev.toBlockDev (2 ^ 25 + 1)).run
        ((ext2WriteInode arrayDev.toBlockDev 1 x).run (tableFs (2 ^ 25 + 1))).2).1 ≠
      ((ext2ReadInode arrayDev.toBlockDev (2 ^ 25 + 1)).run (tableFs (2 ^ 25 + 1))).1 := by
  have hloc : ∀ i, i = 1 ∨ i = 2 ^ 25 + 1 → ext2InodeLocation (tableFs (2 ^ 25 + 1)).fs i = some (5, 0, 0) := by
    rintro i (rfl | rfl) <;> decide +kernel
  have hlast := hloc _ (.inr rfl)
  refine ⟨tableFs_tables _ (by decide), ⟨0, Nat.one_pos, 0, by decide, rfl⟩, ⟨0, Nat.one_pos, 2 ^ 25, by decide, rfl⟩,
    fun _ => 1#8, ?_⟩
  rw [writeInode_run rfl (hloc 1 (.inl rfl)) rfl, readInode_run (by rfl) (by exact hlast) rfl, readInode_run rfl hlast rfl,
    blockAt_setBlock_self (by decide)]
  intro h
  have h0 := congrFun (Except.ok.inj h) 0
  revert h0
  decide +kernel

end TsOs
