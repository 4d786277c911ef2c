import TsOs.Ext2
import TsOs.Lib.Bits
import TsOs.Lib.StateProg

/-!
# Blocks and bitmaps of the ext2 file system

On a device whose transfers succeed the file system behaves as on the plain array of sectors (`Sim`), and there each call has
one outcome, given by the content of the blocks.
-/

namespace TsOs

open Bytes Bits StateProg Function List BitVec Option Bool Sim

/-! ## The array a device stands for -/

section Simulation

variable {σ : Type} (D : StoreDev σ)

/-- The file system as it stands on the array of sectors. -/
def shown (m : Ext2 σ) : Ext2 (SectorKey → Sector) := { fs := m.fs, dev := D.sectors m.dev, stack := m.stack }

namespace Ext2SimAux

theorem sim_getFs : Sim (shown D) getFs getFs := fun _ => rfl

theorem sim_modifyFs (f : Ext2Fs → Ext2Fs) : Sim (shown D) (modifyFs f) (modifyFs f) := fun _ => rfl

theorem sim_stackBuf : Sim (shown D) stackBuf stackBuf := fun _ => rfl

theorem sim_readSector (k : SectorKey) : Sim (shown D) (readSector D.toBlockDev k) (readSector arrayDev.toBlockDev k) := by
  intro m
  refine Prod.ext (D.read_ok m.dev k) ?_
  show shown D { m with dev := (D.read m.dev k).1 } = shown D m
  simp only [shown, D.read_sectors]

theorem sim_writeSector (k : SectorKey) (x : Sector) :
    Sim (shown D) (writeSector D.toBlockDev k x) (writeSector arrayDev.toBlockDev k x) := by
  intro m
  refine Prod.ext (D.write_ok m.dev k x) ?_
  show shown D { m with dev := (D.write m.dev k x).1 } = { shown D m with dev := update (D.sectors m.dev) k x }
  simp only [shown, D.write_sectors]

theorem sim_readBlockRaw (devId : BitVec 8) (b : Nat) (buf : Block) :
    Sim (shown D) (ext2ReadBlockRaw D.toBlockDev devId b buf) (ext2ReadBlockRaw arrayDev.toBlockDev devId b buf) := by
  refine (sim_readSector D _).bind fun lo => ?_
  cases lo with
  | none => exact pure _
  | some lo =>
    refine (sim_readSector D _).bind fun hi => ?_
    cases hi with
    | none => exact pure _
    | some hi => exact pure _

theorem sim_readBlock (b : Nat) (buf : Block) :
    Sim (shown D) (ext2ReadBlock D.toBlockDev b buf) (ext2ReadBlock arrayDev.toBlockDev b buf) :=
  (sim_getFs D).bind fun fs => ite (pure _) (sim_readBlockRaw D fs.devId b buf)

theorem sim_writeBlock (b : Nat) (buf : Block) :
    Sim (shown D) (ext2WriteBlock D.toBlockDev b buf) (ext2WriteBlock arrayDev.toBlockDev b buf) :=
  (sim_getFs D).bind fun _ => ite (pure _) <|
    (sim_writeSector D _ _).bind fun _ => ite (pure _) <|
    (sim_writeSector D _ _).bind fun _ => ite (pure _) (pure _)

theorem sim_readInode (ino : Nat) :
    Sim (shown D) (ext2ReadInode D.toBlockDev ino) (ext2ReadInode arrayDev.toBlockDev ino) := by
  refine (sim_getFs D).bind fun fs => ite (pure _) ?_
  cases ext2InodeLocation fs ino with
  | none => exact pure _
  | some loc =>
    exact (sim_stackBuf D).bind fun _ => (sim_readBlock D _ _).bind fun _ => ite (pure _) (pure _)

theorem sim_writeInode (ino : Nat) (inode : Inode) :
    Sim (shown D) (ext2WriteInode D.toBlockDev ino inode) (ext2WriteInode arrayDev.toBlockDev ino inode) := by
  refine (sim_getFs D).bind fun fs => ite (pure _) ?_
  cases ext2InodeLocation fs ino with
  | none => exact pure _
  | some loc =>
    exact (sim_stackBuf D).bind fun _ => (sim_readBlock D _ _).bind fun _ => ite (pure _) (sim_writeBlock D _ _)

theorem sim_updateCounts (g : Nat) (dB dI : Int) :
    Sim (shown D) (ext2UpdateCounts D.toBlockDev g dB dI) (ext2UpdateCounts arrayDev.toBlockDev g dB dI) :=
  (sim_modifyFs D _).bind fun _ => (sim_getFs D).bind fun _ => (sim_writeBlock D _ _).bind fun _ =>
    ite (pure _) <| (sim_modifyFs D _).bind fun _ => (sim_getFs D).bind fun _ => sim_writeBlock D _ _

theorem sim_allocBit (bitmap : Ext2Fs → Nat → Nat) (size : Ext2Fs → Nat) (dB dI : Int) (gs : List Nat) :
    Sim (shown D) (allocBit D.toBlockDev bitmap size dB dI gs) (allocBit arrayDev.toBlockDev bitmap size dB dI gs) := by
  induction gs with
  | nil => exact pure _
  | cons g gs ih =>
    refine (sim_getFs D).bind fun fs => (sim_stackBuf D).bind fun _ => (sim_readBlock D _ _).bind fun r =>
      ite (pure _) ?_
    cases bitmapFindFree r.2 (size fs) with
    | none => exact ih
    | some bit =>
      exact (sim_writeBlock D _ _).bind fun _ => ite (pure _) <|
        (sim_updateCounts D _ _ _).bind fun _ => ite (pure _) (pure _)

theorem sim_freeBit (bitmap : Ext2Fs → Nat → Nat) (dB dI : Int) (group bit : Nat) :
    Sim (shown D) (freeBit D.toBlockDev bitmap dB dI group bit) (freeBit arrayDev.toBlockDev bitmap dB dI group bit) :=
  (sim_getFs D).bind fun _ => ite (pure _) <| (sim_stackBuf D).bind fun _ => (sim_readBlock D _ _).bind fun _ =>
    ite (pure _) <| ite (pure _) <| (sim_writeBlock D _ _).bind fun _ =>
    ite (pure _) (sim_updateCounts D _ _ _)

theorem sim_allocBlock : Sim (shown D) (ext2AllocBlock D.toBlockDev) (ext2AllocBlock arrayDev.toBlockDev) := by
  refine (sim_getFs D).bind fun fs => ite (pure _) ((sim_allocBit D _ _ _ _ _).bind fun r => ?_)
  cases r with
  | none => exact pure _
  | some r => exact pure _

theorem sim_freeBlock (b : Nat) : Sim (shown D) (ext2FreeBlock D.toBlockDev b) (ext2FreeBlock arrayDev.toBlockDev b) :=
  (sim_getFs D).bind fun _ => ite (pure _) (sim_freeBit D _ _ _ _ _)

theorem sim_allocInode : Sim (shown D) (ext2AllocInode D.toBlockDev) (ext2AllocInode arrayDev.toBlockDev) := by
  refine (sim_getFs D).bind fun fs => ite (pure _) ((sim_allocBit D _ _ _ _ _).bind fun r => ?_)
  cases r with
  | none => exact pure _
  | some r => exact pure _

theorem sim_freeInode (n : Nat) : Sim (shown D) (ext2FreeInode D.toBlockDev n) (ext2FreeInode arrayDev.toBlockDev n) :=
  (sim_getFs D).bind fun _ => ite (pure _) (ite (pure _) (sim_freeBit D _ _ _ _ _))

end Ext2SimAux

end Simulation

/-! ## Blocks on the array of sectors -/

/-- The file system on the plain array of sectors. -/
abbrev DiskFs : Type := Ext2 (SectorKey → Sector)

/-- The content of a block: the two sectors of its halves. -/
def blockAt (m : DiskFs) (b : Nat) : Block :=
  pack 1024 fun i =>
    if i < 512 then view (m.dev (halfKey m.fs.devId b 0)) i else view (m.dev (halfKey m.fs.devId b 1)) (i - 512)

/-- The file system after a block is written. -/
def setBlock (m : DiskFs) (b : Nat) (x : Block) : DiskFs :=
  { m with
    dev := Function.update (Function.update m.dev (halfKey m.fs.devId b 0) (pack 512 (view x)))
      (halfKey m.fs.devId b 1) (pack 512 (fun i => view x (512 + i))) }

/-- The content of a block depends on the descriptors and the superblock in memory only through the device it is on. -/
theorem blockAt_congr {m m' : DiskFs} (hd : m'.dev = m.dev) (hi : m'.fs.devId = m.fs.devId) (b : Nat) :
    blockAt m' b = blockAt m b := by
  simp only [blockAt, hd, hi]

variable {m : DiskFs} {x : Block} {dB dI : Int}

namespace Ext2Aux

theorem halfKey_eq_iff {devId : BitVec 8} {b c h h' : Nat} (hb : b < 2 ^ 31) (hc : c < 2 ^ 31) (hh : h < 2) (hh' : h' < 2) :
    halfKey devId b h = halfKey devId c h' ↔ b = c ∧ h = h' := by
  have hx : ∀ x < 2 ^ 31, ∀ y < 2, (BitVec.ofNat 32 (x * 2 + y)).toNat = x * 2 + y := by
    intro x hx y hy
    exact Nat.mod_eq_of_lt (by omega)
  constructor
  · intro h
    have ht := congrArg (fun k => k.blk.toNat) h
    simp only [halfKey] at ht
    rw [hx b hb _ hh, hx c hc _ hh'] at ht
    omega
  · rintro ⟨rfl, rfl⟩
    rfl

theorem blockAt_setBlock_self {b : Nat} (hb : b < 2 ^ 31) : blockAt (setBlock m b x) b = x := by
  have h01 : halfKey m.fs.devId b 0 ≠ halfKey m.fs.devId b 1 := by
    rw [Ne, halfKey_eq_iff hb hb (by omega) (by omega)]
    omega
  have hd : blockAt (setBlock m b x) b = pack 1024 fun i =>
      if i < 512 then view (pack 512 (view x)) i else view (pack 512 fun i => view x (512 + i)) (i - 512) := by
    simp [blockAt, setBlock, update_of_ne h01]
  rw [hd]
  funext i
  rw [pack, ← view_fin x i]
  split
  · next h => rw [view_pack h]
  · next h => rw [view_pack (by omega), show 512 + (i.val - 512) = i.val by omega]

theorem blockAt_setBlock_of_ne {b c : Nat} (hb : b < 2 ^ 31) (hc : c < 2 ^ 31) (h : c ≠ b) :
    blockAt (setBlock m b x) c = blockAt m c := by
  have hne : ∀ i < 2, ∀ j < 2, halfKey m.fs.devId c i ≠ halfKey m.fs.devId b j := by
    intro i hi j hj
    rw [Ne, halfKey_eq_iff hc hb hi hj]
    omega
  simp only [blockAt, setBlock, update_of_ne (hne 0 (by omega) 0 (by omega)),
    update_of_ne (hne 0 (by omega) 1 (by omega)), update_of_ne (hne 1 (by omega) 0 (by omega)),
    update_of_ne (hne 1 (by omega) 1 (by omega))]

variable {σ : Type}

theorem getFs_run (m : Ext2 σ) : getFs.run m = (m.fs, m) := rfl

theorem modifyFs_run (f : Ext2Fs → Ext2Fs) (m : Ext2 σ) : (modifyFs f).run m = ((), { m with fs := f m.fs }) := rfl

theorem stackBuf_run (m : Ext2 σ) : stackBuf.run m = (m.stack, m) := rfl

theorem readBlockRaw_run (m : DiskFs) (b : Nat) (buf : Block) :
    (ext2ReadBlockRaw arrayDev.toBlockDev m.fs.devId b buf).run m = ((.ok, blockAt m b), m) := by
  show ((Ext2Status.ok, _), m) = _
  congr 2
  funext i
  simp only [blockAt, pack, splice]
  by_cases hi : i.val < 512
  · rw [if_neg (by omega), if_pos hi, view_pack i.isLt, splice_inside (by omega) (by omega)]
    rfl
  · rw [if_pos (by omega), if_neg hi]
    rfl

theorem readBlock_run (hm : m.fs.mounted = true) (b : Nat) (buf : Block) :
    (ext2ReadBlock arrayDev.toBlockDev b buf).run m = ((.ok, blockAt m b), m) := by
  rw [← readBlockRaw_run m b buf, ext2ReadBlock]
  show (if !m.fs.mounted then _ else _ : Ext2M _ _).run m = _
  rw [hm]
  rfl

theorem writeBlock_run (hm : m.fs.mounted = true) (b : Nat) (x : Block) :
    (ext2WriteBlock arrayDev.toBlockDev b x).run m = (.ok, setBlock m b x) := by
  show (if !m.fs.mounted then _ else _ : Ext2M _ _).run m = _
  rw [hm]
  rfl

/-! ## Bitmaps -/

theorem bitmapTest_eq (b : Block) (k : Nat) : bitmapTest b k = (view b (k / 8)).getLsbD (k % 8) := by
  have hand : ∀ x : BitVec 8, (x &&& 1#8 == 1#8) = x.getLsbD 0 := by decide
  rw [bitmapTest, hand, getLsbD_ushiftRight, Nat.add_zero]

variable {b : Block}

theorem bitmapTest_set {bit : Nat} (hbit : bit < 8192) (k : Nat) :
    bitmapTest (bitmapSet b bit) k = (decide (k = bit) || bitmapTest b k) := by
  rw [bitmapTest_eq, bitmapTest_eq, bitmapSet]
  by_cases hk : k / 8 = bit / 8
  · rw [hk, view_pack (by omega), update_self, getLsbD_or, getLsbD_one_shiftLeft, Bool.or_comm]
    have hlt : k % 8 < 8 := by omega
    have heq : (k % 8 = bit % 8) ↔ k = bit := by omega
    simp [hlt, heq]
  · have hne : k ≠ bit := fun h => hk (by rw [h])
    rw [decide_eq_false hne, Bool.false_or]
    by_cases hlt : k / 8 < 1024
    · rw [view_pack hlt, update_of_ne hk]
    · simp [view, hlt]

theorem bitmapTest_clear {bit : Nat} (hbit : bit < 8192) (k : Nat) :
    bitmapTest (bitmapClear b bit) k = (!decide (k = bit) && bitmapTest b k) := by
  rw [bitmapTest_eq, bitmapTest_eq, bitmapClear]
  by_cases hk : k / 8 = bit / 8
  · rw [hk, view_pack (by omega), update_self, getLsbD_and, getLsbD_not, getLsbD_one_shiftLeft,
      Bool.and_comm]
    have hlt : k % 8 < 8 := by omega
    have heq : (k % 8 = bit % 8) ↔ k = bit := by omega
    simp [hlt, heq]
  · have hne : k ≠ bit := fun h => hk (by rw [h])
    rw [decide_eq_false hne, Bool.not_false, Bool.true_and]
    by_cases hlt : k / 8 < 1024
    · rw [view_pack hlt, update_of_ne hk]
    · simp [view, hlt]

theorem findClear_some {x : BitVec 8} {n i : Nat} (h : findClear x n = some i) :
    i < n ∧ x.getLsbD i = false ∧ ∀ j < i, x.getLsbD j = true := by
  rw [findClear, find?_range_eq_some] at h
  obtain ⟨hp, hi, hlt⟩ := h
  rw [mem_range] at hi
  rw [and_mask_eq_zero (getLsbD_one_shiftLeft _)] at hp
  refine ⟨hi, by simpa using hp, fun j hj => ?_⟩
  have := hlt j hj
  rw [and_mask_eq_zero (getLsbD_one_shiftLeft _)] at this
  simpa using this

theorem findClear_none {x : BitVec 8} {n : Nat} (h : findClear x n = none) : ∀ j < n, x.getLsbD j = true := by
  intro j hj
  rw [findClear, find?_eq_none] at h
  have := h j (mem_range.mpr hj)
  rw [and_mask_eq_zero (getLsbD_one_shiftLeft _)] at this
  simpa using this

theorem bitmapTest_byte (b : Block) (i : Nat) {c : Nat} (hc : c < 8) : bitmapTest b (i * 8 + c) = (view b i).getLsbD c := by
  rw [bitmapTest_eq, show (i * 8 + c) / 8 = i by omega, show (i * 8 + c) % 8 = c by omega]

/-- The scan of one full byte in `bitmap_find_free`. -/
def scanByte (b : Block) (i : Nat) : Option Nat :=
  if view b i ≠ 0xFF#8 then (findClear (view b i) 8).map (fun c => i * 8 + c) else none

theorem scanByte_some {i k : Nat} (h : scanByte b i = some k) :
    i * 8 ≤ k ∧ k < i * 8 + 8 ∧ bitmapTest b k = false ∧ ∀ j, i * 8 ≤ j → j < k → bitmapTest b j = true := by
  rw [scanByte] at h
  split at h
  · obtain ⟨c, hc, rfl⟩ := map_eq_some_iff.mp h
    obtain ⟨hlt, hclear, hset⟩ := findClear_some hc
    refine ⟨by omega, by omega, by rw [bitmapTest_byte b i hlt, hclear], fun j hj hjk => ?_⟩
    obtain ⟨d, rfl⟩ := Nat.exists_eq_add_of_le hj
    rw [bitmapTest_byte b i (by omega)]
    exact hset d (by omega)
  · cases h

theorem scanByte_none {i : Nat} (h : scanByte b i = none) : ∀ c < 8, bitmapTest b (i * 8 + c) = true := by
  intro c hc
  rw [bitmapTest_byte b i hc]
  rw [scanByte] at h
  split at h
  · exact findClear_none (map_eq_none_iff.mp h) c hc
  · next hff =>
    rw [not_not.mp hff]
    have hall : ∀ c : Fin 8, (0xFF#8).getLsbD c = true := by decide
    exact hall ⟨c, hc⟩

/-- The outcome of a search for the first clear bit among the first `n`. -/
def FirstClear (b : Block) (n : Nat) : Option Nat → Prop
  | none => ∀ j < n, bitmapTest b j = true
  | some k => k < n ∧ bitmapTest b k = false ∧ ∀ j < k, bitmapTest b j = true

theorem scanBytes_spec (b : Block) (m : Nat) : FirstClear b (m * 8) ((List.range m).findSome? (scanByte b)) := by
  induction m with
  | zero => exact fun j hj => absurd hj (by omega)
  | succ m ih =>
    rw [range_succ, findSome?_append]
    cases hscan : (range m).findSome? (scanByte b) with
    | some k =>
      rw [hscan] at ih
      exact ⟨by have := ih.1; omega, ih.2⟩
    | none =>
      rw [hscan] at ih
      rw [findSome?_singleton]
      cases hbyte : scanByte b m with
      | none =>
        intro j hj
        by_cases hlt : j < m * 8
        · exact ih j hlt
        · obtain ⟨c, rfl⟩ := Nat.exists_eq_add_of_le (Nat.le_of_not_lt hlt)
          exact scanByte_none hbyte c (by omega)
      | some k =>
        obtain ⟨hle, hlt, hclear, hset⟩ := scanByte_some hbyte
        refine ⟨by omega, hclear, fun j hj => ?_⟩
        by_cases hjm : j < m * 8
        · exact ih j hjm
        · exact hset j (by omega) hj

/-- `bitmap_find_free` finds the first clear bit. -/
theorem bitmapFindFree_spec (b : Block) (n : Nat) : FirstClear b n (bitmapFindFree b n) := by
  have hscan := scanBytes_spec b (n / 8)
  have hrun : bitmapFindFree b n = ((range (n / 8)).findSome? (scanByte b)).or
      ((findClear (view b (n / 8)) (n % 8)).map fun c => n / 8 * 8 + c) := by
    simp only [bitmapFindFree, ← scanByte.eq_1]
    cases (range (n / 8)).findSome? _ <;> rfl
  rw [hrun]
  cases hs : (range (n / 8)).findSome? (scanByte b) with
  | some k =>
    rw [hs] at hscan
    exact ⟨by have := hscan.1; omega, hscan.2⟩
  | none =>
    rw [hs] at hscan
    cases hr : findClear (view b (n / 8)) (n % 8) with
    | none =>
      intro j hj
      by_cases hlt : j < n / 8 * 8
      · exact hscan j hlt
      · obtain ⟨c, rfl⟩ := Nat.exists_eq_add_of_le (Nat.le_of_not_lt hlt)
        rw [bitmapTest_byte b _ (by omega)]
        exact findClear_none hr c (by omega)
    | some c =>
      obtain ⟨hlt, hclear, hset⟩ := findClear_some hr
      show FirstClear b n (some (n / 8 * 8 + c))
      refine ⟨by omega, by rw [bitmapTest_byte b _ (by omega), hclear], fun j hj => ?_⟩
      by_cases hjm : j < n / 8 * 8
      · exact hscan j hjm
      · obtain ⟨d, rfl⟩ := Nat.exists_eq_add_of_le (Nat.le_of_not_lt hjm)
        rw [bitmapTest_byte b _ (by omega)]
        exact hset d (by omega)

/-! ## Counts and layout -/

/-- What `ext2_update_counts` leaves unchanged in memory: the geometry, where the tables are, and all fields of the superblock
that the driver reads but the two counts. -/
structure SameLayout (fs fs' : Ext2Fs) : Prop where
  mounted : fs'.mounted = fs.mounted
  devId : fs'.devId = fs.devId
  blockSize : fs'.blockSize = fs.blockSize
  numGroups : fs'.numGroups = fs.numGroups
  inodesPerGroup : fs'.inodesPerGroup = fs.inodesPerGroup
  blocksPerGroup : fs'.blocksPerGroup = fs.blocksPerGroup
  descBlocks : fs'.descBlocks = fs.descBlocks
  blockBitmap : ∀ g, bgBlockBitmap fs'.gd g = bgBlockBitmap fs.gd g
  inodeBitmap : ∀ g, bgInodeBitmap fs'.gd g = bgInodeBitmap fs.gd g
  inodeTable : ∀ g, bgInodeTable fs'.gd g = bgInodeTable fs.gd g
  inodeSize : sInodeSize fs'.sb = sInodeSize fs.sb
  firstDataBlock : sFirstDataBlock fs'.sb = sFirstDataBlock fs.sb
  blocksCount : sBlocksCount fs'.sb = sBlocksCount fs.sb

theorem SameLayout.refl (fs : Ext2Fs) : SameLayout fs fs :=
  ⟨rfl, rfl, rfl, rfl, rfl, rfl, rfl, fun _ => rfl, fun _ => rfl, fun _ => rfl, rfl, rfl, rfl⟩

theorem SameLayout.trans {a b c : Ext2Fs} (h : SameLayout a b) (h' : SameLayout b c) : SameLayout a c :=
  ⟨h'.mounted.trans h.mounted, h'.devId.trans h.devId, h'.blockSize.trans h.blockSize, h'.numGroups.trans h.numGroups,
    h'.inodesPerGroup.trans h.inodesPerGroup, h'.blocksPerGroup.trans h.blocksPerGroup, h'.descBlocks.trans h.descBlocks,
    fun g => (h'.blockBitmap g).trans (h.blockBitmap g), fun g => (h'.inodeBitmap g).trans (h.inodeBitmap g),
    fun g => (h'.inodeTable g).trans (h.inodeTable g), h'.inodeSize.trans h.inodeSize,
    h'.firstDataBlock.trans h.firstDataBlock, h'.blocksCount.trans h.blocksCount⟩

/-- The descriptors with the counts of group `g` changed. -/
def countedGd (gd : Nat → BitVec 8) (g : Nat) (dB dI : Int) : Nat → BitVec 8 :=
  let gd := putLe 2 gd (32 * g + 12) (addDelta 16 (bgFreeBlocksCount gd g) dB)
  putLe 2 gd (32 * g + 14) (addDelta 16 (bgFreeInodesCount gd g) dI)

/-- The superblock with its counts changed. -/
def countedSb (sb : Block) (dB dI : Int) : Block :=
  let sb := setSb sb 4 12 (addDelta 32 (sFreeBlocksCount sb) dB)
  setSb sb 4 16 (addDelta 32 (sFreeInodesCount sb) dI)

/-- The state `g_fs` with the counts changed. -/
def countedFs (fs : Ext2Fs) (g : Nat) (dB dI : Int) : Ext2Fs :=
  { fs with gd := countedGd fs.gd g dB dI, sb := countedSb fs.sb dB dI }

/-- The file system after `ext2_update_counts`. -/
def counted (m : DiskFs) (g : Nat) (dB dI : Int) : DiskFs :=
  { setBlock (setBlock m 2 (pack 1024 (countedGd m.fs.gd g dB dI))) 1 (countedSb m.fs.sb dB dI) with
    fs := countedFs m.fs g dB dI }

theorem le_countedGd {gd : Nat → BitVec 8} {g : Nat} {w off : Nat}
    (h : off + w ≤ 32 * g + 12 ∨ 32 * g + 16 ≤ off) : le w (countedGd gd g dB dI) off = le w gd off := by
  rw [countedGd, le_putLe_apart (by omega), le_putLe_apart (by omega)]

theorem le_countedSb {sb : Block} {w off : Nat} (h : off + w ≤ 12 ∨ 20 ≤ off) (hoff : off + w ≤ 1024) :
    le w (view (countedSb sb dB dI)) off = le w (view sb) off := by
  rw [countedSb, setSb, le_pack hoff, le_putLe_apart (by omega), setSb, le_pack hoff, le_putLe_apart (by omega)]

theorem sameLayout_countedFs (fs : Ext2Fs) (g : Nat) (dB dI : Int) : SameLayout fs (countedFs fs g dB dI) where
  mounted := rfl
  devId := rfl
  blockSize := rfl
  numGroups := rfl
  inodesPerGroup := rfl
  blocksPerGroup := rfl
  descBlocks := rfl
  blockBitmap g' := le_countedGd (by omega)
  inodeBitmap g' := le_countedGd (by omega)
  inodeTable g' := le_countedGd (by omega)
  inodeSize := le_countedSb (by omega) (by omega)
  firstDataBlock := le_countedSb (by omega) (by omega)
  blocksCount := le_countedSb (by omega) (by omega)

theorem blockAt_counted_eq (m : DiskFs) (g b : Nat) (dB dI : Int) : blockAt (counted m g dB dI) b =
    blockAt (setBlock (setBlock m 2 (pack 1024 (countedGd m.fs.gd g dB dI))) 1 (countedSb m.fs.sb dB dI)) b :=
  blockAt_congr rfl rfl b

theorem blockAt_counted {g b : Nat} (hb : b < 2 ^ 31) (h1 : b ≠ 1) (h2 : b ≠ 2) :
    blockAt (counted m g dB dI) b = blockAt m b := by
  rw [blockAt_counted_eq, blockAt_setBlock_of_ne (by omega) hb h1, blockAt_setBlock_of_ne (by omega) hb h2]

/-- The copies on the disk after `ext2_update_counts`. -/
theorem blockAt_counted_sb (m : DiskFs) (g : Nat) (dB dI : Int) :
    blockAt (counted m g dB dI) 1 = (counted m g dB dI).fs.sb := by
  rw [blockAt_counted_eq, blockAt_setBlock_self (by decide)]
  rfl

theorem blockAt_counted_gd (m : DiskFs) (g : Nat) (dB dI : Int) :
    blockAt (counted m g dB dI) 2 = pack 1024 (counted m g dB dI).fs.gd := by
  rw [blockAt_counted_eq, blockAt_setBlock_of_ne (by decide) (by decide) (by decide), blockAt_setBlock_self (by decide)]
  rfl

theorem updateCounts_run (hm : m.fs.mounted = true) (g : Nat) (dB dI : Int) :
    (ext2UpdateCounts arrayDev.toBlockDev g dB dI).run m = (.ok, counted m g dB dI) := by
  rw [ext2UpdateCounts, bind_run (modifyFs_run _ m), bind_run (getFs_run _),
    bind_run (writeBlock_run (by exact hm) _ _), if_neg (not_not.mpr rfl), bind_run (modifyFs_run _ _), bind_run (getFs_run _)]
  exact writeBlock_run (by exact hm) _ _

/-! ## Allocation and release -/

/-- The file system after bit `bit` of the bitmap block `blk` is set and the counts of group `g` are changed. -/
def taken (m : DiskFs) (blk g bit : Nat) (dB dI : Int) : DiskFs :=
  counted (setBlock m blk (bitmapSet (blockAt m blk) bit)) g dB dI

/-- The file system after bit `bit` of the bitmap block `blk` is cleared and the counts of group `g` are changed. -/
def released (m : DiskFs) (blk g bit : Nat) (dB dI : Int) : DiskFs :=
  counted (setBlock m blk (bitmapClear (blockAt m blk) bit)) g dB dI

section Alloc

variable {m : DiskFs} (hm : m.fs.mounted = true) (bitmap : Ext2Fs → Nat → Nat) (size : Ext2Fs → Nat) (dB dI : Int)

include hm

/-- The loop over the groups takes the first clear bit in the order of the groups. -/
theorem allocBit_run (gs : List Nat) :
    ((∀ g ∈ gs, ∀ k < size m.fs, bitmapTest (blockAt m (bitmap m.fs g)) k = true) ∧
      (allocBit arrayDev.toBlockDev bitmap size dB dI gs).run m = (none, m)) ∨
    ∃ before g after bit, gs = before ++ g :: after ∧
      (∀ g' ∈ before, ∀ k < size m.fs, bitmapTest (blockAt m (bitmap m.fs g')) k = true) ∧
      FirstClear (blockAt m (bitmap m.fs g)) (size m.fs) (some bit) ∧
      (allocBit arrayDev.toBlockDev bitmap size dB dI gs).run m = (some (g, bit), taken m (bitmap m.fs g) g bit dB dI) := by
  induction gs with
  | nil => exact .inl ⟨fun g hg => (nomatch hg), rfl⟩
  | cons g gs ih =>
    have hfind := bitmapFindFree_spec (blockAt m (bitmap m.fs g)) (size m.fs)
    have hstep : (allocBit arrayDev.toBlockDev bitmap size dB dI (g :: gs)).run m =
        (match bitmapFindFree (blockAt m (bitmap m.fs g)) (size m.fs) with
          | none => (allocBit arrayDev.toBlockDev bitmap size dB dI gs).run m
          | some bit => (some (g, bit), taken m (bitmap m.fs g) g bit dB dI)) := by
      rw [allocBit, bind_run (getFs_run m), bind_run (stackBuf_run m), bind_run (readBlock_run hm _ _)]
      dsimp only
      rw [if_neg (not_not.mpr rfl)]
      cases bitmapFindFree (blockAt m (bitmap m.fs g)) (size m.fs) with
      | none => rfl
      | some bit =>
        rw [bind_run (writeBlock_run hm _ _), if_neg (not_not.mpr rfl), bind_run (updateCounts_run (by exact hm) _ _ _),
          if_neg (not_not.mpr rfl)]
        rfl
    rw [hstep]
    cases hbit : bitmapFindFree (blockAt m (bitmap m.fs g)) (size m.fs) with
    | some bit =>
      rw [hbit] at hfind
      exact .inr ⟨[], g, gs, bit, rfl, fun g' hg' => (nomatch hg'), hfind, rfl⟩
    | none =>
      rw [hbit] at hfind
      rcases ih with ⟨hfull, hrun⟩ | ⟨before, g', after, bit, rfl, hfull, hfirst, hrun⟩
      · exact .inl ⟨forall_mem_cons.mpr ⟨hfind, hfull⟩, hrun⟩
      · exact .inr ⟨g :: before, g', after, bit, rfl, forall_mem_cons.mpr ⟨hfind, hfull⟩, hfirst, hrun⟩

/-- A release of a bit that is set clears it; of a bit that is clear, or of a group that does not exist, it is an error. -/
theorem freeBit_run (group bit : Nat) :
    (freeBit arrayDev.toBlockDev bitmap dB dI group bit).run m =
      if group < m.fs.numGroups ∧ bitmapTest (blockAt m (bitmap m.fs group)) bit = true
      then (.ok, released m (bitmap m.fs group) group bit dB dI) else (.invalid, m) := by
  rw [freeBit, bind_run (getFs_run m)]
  by_cases hg : group ≥ m.fs.numGroups
  · rw [if_pos hg, if_neg (by omega), run_pure]
  · rw [if_neg hg, bind_run (stackBuf_run m), bind_run (readBlock_run hm _ _)]
    dsimp only
    rw [if_neg (not_not.mpr rfl)]
    cases htest : bitmapTest (blockAt m (bitmap m.fs group)) bit with
    | false => rw [if_pos Bool.not_false, if_neg (by simp), run_pure]
    | true =>
      rw [if_neg (by simp), bind_run (writeBlock_run hm _ _), if_neg (not_not.mpr rfl), if_pos ⟨by omega, rfl⟩]
      exact updateCounts_run (by exact hm) _ _ _

end Alloc

theorem range_eq_append {n g : Nat} {before after : List Nat} (h : List.range n = before ++ g :: after) :
    g < n ∧ before = List.range g := by
  have hlen : before.length < n := by
    have := congrArg length h
    simp at this
    omega
  have hg : g = before.length := by
    have := congrArg (fun l => l[before.length]?) h
    simpa [getElem?_range hlen] using this.symm
  refine ⟨by omega, ?_⟩
  have := congrArg (take before.length) h
  rw [take_left, take_range, Nat.min_eq_left (by omega)] at this
  rw [← this, hg]

end Ext2Aux

end TsOs
