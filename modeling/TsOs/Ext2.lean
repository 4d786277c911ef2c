import TsOs.Bcache
import TsOs.Lib.Bytes

/-!
# The ext2 file system: blocks, mounting, inodes and bitmaps

`fs/ext2.c` up to its bitmap allocator. The packed structures of `ext2.h` are kept as the bytes they are copied from and to, and
their fields are read at the offsets of the structure. The file system reaches the disk through `bcache_get` and `bcache_put`; it is
written over any device. Messages to the serial line are left out.
-/

namespace TsOs

open Bytes

/-- `uint8_t buf[1024]`, the content of one block. -/
abbrev Block : Type := Buffer 1024

/-- The bytes of an `ext2_inode_t`. -/
abbrev Inode : Type := Buffer 128

/-- `ext2_status_t`. -/
inductive Ext2Status where
  | ok
  | notMounted
  | badMagic
  | badSb
  | io
  | noMem
  | notFound
  | noSpace
  | invalid
  deriving DecidableEq, Repr

/-! ## The fields of the superblock and of the group descriptors -/

def sBlocksCount (sb : Block) : Nat := le 4 (view sb) 4
def sFreeBlocksCount (sb : Block) : Nat := le 4 (view sb) 12
def sFreeInodesCount (sb : Block) : Nat := le 4 (view sb) 16
def sFirstDataBlock (sb : Block) : Nat := le 4 (view sb) 20
def sLogBlockSize (sb : Block) : Nat := le 4 (view sb) 24
def sBlocksPerGroup (sb : Block) : Nat := le 4 (view sb) 32
def sInodesPerGroup (sb : Block) : Nat := le 4 (view sb) 40
def sMagic (sb : Block) : Nat := le 2 (view sb) 56
def sInodeSize (sb : Block) : Nat := le 2 (view sb) 88

/-- A store to a field of the superblock, of `w` bytes at `off`. -/
def setSb (sb : Block) (w off x : Nat) : Block := pack 1024 (putLe w (view sb) off x)

def bgBlockBitmap (gd : Nat → BitVec 8) (g : Nat) : Nat := le 4 gd (32 * g)
def bgInodeBitmap (gd : Nat → BitVec 8) (g : Nat) : Nat := le 4 gd (32 * g + 4)
def bgInodeTable (gd : Nat → BitVec 8) (g : Nat) : Nat := le 4 gd (32 * g + 8)
def bgFreeBlocksCount (gd : Nat → BitVec 8) (g : Nat) : Nat := le 2 gd (32 * g + 12)
def bgFreeInodesCount (gd : Nat → BitVec 8) (g : Nat) : Nat := le 2 gd (32 * g + 14)

/-- `ext2_fs_t`. The descriptors are the bytes behind the pointer `gd`. -/
structure Ext2Fs where
  mounted : Bool
  devId : BitVec 8
  sb : Block
  gd : Nat → BitVec 8
  blockSize : Nat
  numGroups : Nat
  inodesPerGroup : Nat
  blocksPerGroup : Nat
  descsPerGroup : Nat
  descBlocks : Nat

/-- `g_fs`, the device under it, and what a block buffer on the stack holds before it is written. -/
structure Ext2 (σ : Type) where
  fs : Ext2Fs
  dev : σ
  stack : Block

/-- The functions of `ext2.c` on devices with state `σ`. -/
abbrev Ext2M (σ α : Type) : Type := StateM (Ext2 σ) α

section Calls

variable {σ : Type}

def getFs : Ext2M σ Ext2Fs := do return (← get).fs

def modifyFs (f : Ext2Fs → Ext2Fs) : Ext2M σ Unit := modify fun m => { m with fs := f m.fs }

/-- A block buffer declared on the stack. -/
def stackBuf : Ext2M σ Block := do return (← get).stack

variable (dev : BlockDev σ)

def readSector (k : SectorKey) : Ext2M σ (Option Sector) :=
  fun m => ((dev.read m.dev k).2, { m with dev := (dev.read m.dev k).1 })

def writeSector (k : SectorKey) (x : Sector) : Ext2M σ Bool :=
  fun m => ((dev.write m.dev k x).2, { m with dev := (dev.write m.dev k x).1 })

/-! ## Block I/O -/

/-- The sector of half `h` of a block: `block_num * 2 + h`, in 32 bits. -/
def halfKey (devId : BitVec 8) (blockNum h : Nat) : SectorKey := ⟨devId, BitVec.ofNat 32 (blockNum * 2 + h)⟩

/-- `ext2_read_block_raw`. The buffer keeps what was copied when the second half cannot be read. -/
def ext2ReadBlockRaw (devId : BitVec 8) (blockNum : Nat) (buf : Block) : Ext2M σ (Ext2Status × Block) := do
  match ← readSector dev (halfKey devId blockNum 0) with
  | none => return (.io, buf)
  | some lo =>
    let buf := pack 1024 (splice (view buf) 0 (view lo) 512)
    match ← readSector dev (halfKey devId blockNum 1) with
    | none => return (.io, buf)
    | some hi => return (.ok, pack 1024 (splice (view buf) 512 (view hi) 512))

/-- `ext2_read_block`. -/
def ext2ReadBlock (blockNum : Nat) (buf : Block) : Ext2M σ (Ext2Status × Block) := do
  let fs ← getFs
  if !fs.mounted then return (.notMounted, buf)
  else ext2ReadBlockRaw dev fs.devId blockNum buf

/-- `ext2_write_block`. -/
def ext2WriteBlock (blockNum : Nat) (buf : Block) : Ext2M σ Ext2Status := do
  let fs ← getFs
  if !fs.mounted then return .notMounted
  else if !(← writeSector dev (halfKey fs.devId blockNum 0) (pack 512 (view buf))) then return .io
  else if !(← writeSector dev (halfKey fs.devId blockNum 1) (pack 512 (fun i => view buf (512 + i)))) then return .io
  else return .ok

/-! ## Mounting -/

/-- `EXT2_NUM_GROUPS`, in 32 bits. -/
def ext2NumGroups (sb : Block) : Nat :=
  (sBlocksCount sb + sBlocksPerGroup sb + (2 ^ 32 - 1)) % 2 ^ 32 / sBlocksPerGroup sb

/-- The geometry `ext2_mount` computes from the superblock it stores. -/
def Ext2Fs.withSb (fs : Ext2Fs) (sb : Block) : Ext2Fs :=
  let blockSize := 1024 <<< sLogBlockSize sb
  let numGroups := ext2NumGroups sb
  let descsPerGroup := blockSize / 32
  { fs with
    sb := sb
    blockSize := blockSize
    blocksPerGroup := sBlocksPerGroup sb
    inodesPerGroup := sInodesPerGroup sb
    numGroups := numGroups
    descsPerGroup := descsPerGroup
    descBlocks := (numGroups + descsPerGroup + (2 ^ 32 - 1)) % 2 ^ 32 / descsPerGroup }

/-- The loop of `ext2_mount` that reads the blocks of group descriptors. -/
def readDescs (devId : BitVec 8) (gdBytes blockSize : Nat) : List Nat → Ext2M σ Ext2Status
  | [] => return .ok
  | b :: bs => do
    let offset := b * blockSize
    let chunk := min (gdBytes - offset) blockSize
    let (st, tmpBlock) ← ext2ReadBlockRaw dev devId (2 + b) (← stackBuf)
    if st ≠ .ok then return st
    else
      modifyFs fun fs => { fs with gd := splice fs.gd offset (view tmpBlock) chunk }
      readDescs devId gdBytes blockSize bs

/-- `ext2_mount`. `mem` says whether `kmalloc` finds room for the group descriptors. -/
def ext2Mount (devId : BitVec 8) (mem : Bool) : Ext2M σ Ext2Status := do
  if (← getFs).mounted then return .invalid
  else
    modifyFs fun fs => { fs with devId := devId }
    let (st, tmpSb) ← ext2ReadBlockRaw dev devId 1 (← stackBuf)
    if st ≠ .ok then return st
    else if sMagic tmpSb ≠ 0xEF53 then return .badMagic
    else if sLogBlockSize tmpSb > 2 then return .badSb
    else
      let tmpSb := if sInodeSize tmpSb = 0 then setSb tmpSb 2 88 128 else tmpSb
      if sInodeSize tmpSb < 128 ∨ sInodeSize tmpSb > 4096 then return .badSb
      else
        modifyFs fun fs => fs.withSb tmpSb
        let fs ← getFs
        if !mem then return .noMem
        else
          let st ← readDescs dev devId (fs.descBlocks * fs.blockSize % 2 ^ 32) fs.blockSize (List.range fs.descBlocks)
          if st ≠ .ok then return st
          else
            modifyFs fun fs => { fs with mounted := true }
            return .ok

/-! ## Inodes -/

/-- `ext2_inode_location`: the first block of the table, the block in it and the byte in that. `none` stands for
`EXT2_ERR_INVALID`. -/
def ext2InodeLocation (fs : Ext2Fs) (ino : Nat) : Option (Nat × Nat × Nat) :=
  if ino = 0 then none
  else
    let group := (ino - 1) / fs.inodesPerGroup
    if group ≥ fs.numGroups then none
    else
      let byteOffset := (ino - 1) % fs.inodesPerGroup * sInodeSize fs.sb % 2 ^ 32
      some (bgInodeTable fs.gd group, byteOffset / fs.blockSize, byteOffset % fs.blockSize)

/-- `ext2_read_inode`. -/
def ext2ReadInode (ino : Nat) : Ext2M σ (Except Ext2Status Inode) := do
  let fs ← getFs
  if !fs.mounted then return .error .notMounted
  else
    match ext2InodeLocation fs ino with
    | none => return .error .invalid
    | some (tableBlock, blockOff, byteOff) =>
      let (st, buf) ← ext2ReadBlock dev ((tableBlock + blockOff) % 2 ^ 32) (← stackBuf)
      if st ≠ .ok then return .error st
      else return .ok (pack 128 (fun i => view buf (byteOff + i)))

/-- `ext2_write_inode`. -/
def ext2WriteInode (ino : Nat) (inode : Inode) : Ext2M σ Ext2Status := do
  let fs ← getFs
  if !fs.mounted then return .notMounted
  else
    match ext2InodeLocation fs ino with
    | none => return .invalid
    | some (tableBlock, blockOff, byteOff) =>
      let (st, buf) ← ext2ReadBlock dev ((tableBlock + blockOff) % 2 ^ 32) (← stackBuf)
      if st ≠ .ok then return st
      else ext2WriteBlock dev ((tableBlock + blockOff) % 2 ^ 32) (pack 1024 (splice (view buf) byteOff (view inode) 128))

/-! ## The bitmap allocator -/

/-- `bitmap_set`. -/
def bitmapSet (bitmap : Block) (bit : Nat) : Block :=
  pack 1024 (Function.update (view bitmap) (bit / 8) (view bitmap (bit / 8) ||| 1#8 <<< (bit % 8)))

/-- `bitmap_clear`. -/
def bitmapClear (bitmap : Block) (bit : Nat) : Block :=
  pack 1024 (Function.update (view bitmap) (bit / 8) (view bitmap (bit / 8) &&& ~~~(1#8 <<< (bit % 8))))

/-- `bitmap_test`. -/
def bitmapTest (bitmap : Block) (bit : Nat) : Bool := (view bitmap (bit / 8) >>> (bit % 8)) &&& 1#8 == 1#8

/-- The first of the low `n` bits of a byte that is clear. -/
def findClear (x : BitVec 8) (n : Nat) : Option Nat := (List.range n).find? (fun b => x &&& 1#8 <<< b == 0#8)

/-- `bitmap_find_free`. `none` stands for -1. -/
def bitmapFindFree (bitmap : Block) (totalBits : Nat) : Option Nat :=
  let fullBytes := totalBits / 8
  let remaining := totalBits % 8
  let scan := (List.range fullBytes).findSome? fun i =>
    if view bitmap i ≠ 0xFF#8 then (findClear (view bitmap i) 8).map (fun b => i * 8 + b) else none
  match scan with
  | some bit => some bit
  | none => (findClear (view bitmap fullBytes) remaining).map (fun b => fullBytes * 8 + b)

/-- A counter of `w` bits after a signed change. -/
def addDelta (w old : Nat) (delta : Int) : Nat := ((old + delta) % 2 ^ w).toNat

/-- `ext2_update_counts`. -/
def ext2UpdateCounts (group : Nat) (deltaBlocks deltaInodes : Int) : Ext2M σ Ext2Status := do
  modifyFs fun fs =>
    let gd := putLe 2 fs.gd (32 * group + 12) (addDelta 16 (bgFreeBlocksCount fs.gd group) deltaBlocks)
    { fs with gd := putLe 2 gd (32 * group + 14) (addDelta 16 (bgFreeInodesCount gd group) deltaInodes) }
  let st ← ext2WriteBlock dev 2 (pack 1024 (← getFs).gd)
  if st ≠ .ok then return st
  else
    modifyFs fun fs =>
      let sb := setSb fs.sb 4 12 (addDelta 32 (sFreeBlocksCount fs.sb) deltaBlocks)
      { fs with sb := setSb sb 4 16 (addDelta 32 (sFreeInodesCount sb) deltaInodes) }
    ext2WriteBlock dev 1 (← getFs).sb

/-- The loop of `ext2_alloc_block` and `ext2_alloc_inode` over the groups: `bitmap` is the bitmap block of a group and `size`
the number of its bits. The result is the group and the bit taken. -/
def allocBit (bitmap : Ext2Fs → Nat → Nat) (size : Ext2Fs → Nat) (deltaBlocks deltaInodes : Int) :
    List Nat → Ext2M σ (Option (Nat × Nat))
  | [] => return none
  | g :: gs => do
    let fs ← getFs
    let (st, buf) ← ext2ReadBlock dev (bitmap fs g) (← stackBuf)
    if st ≠ .ok then return none
    else
      match bitmapFindFree buf (size fs) with
      | none => allocBit bitmap size deltaBlocks deltaInodes gs
      | some bit =>
        let st ← ext2WriteBlock dev (bitmap fs g) (bitmapSet buf bit)
        if st ≠ .ok then return none
        else
          let st ← ext2UpdateCounts dev g deltaBlocks deltaInodes
          if st ≠ .ok then return none
          else return some (g, bit)

/-- The common part of `ext2_free_block` and `ext2_free_inode`. -/
def freeBit (bitmap : Ext2Fs → Nat → Nat) (deltaBlocks deltaInodes : Int) (group bit : Nat) : Ext2M σ Ext2Status := do
  let fs ← getFs
  if group ≥ fs.numGroups then return .invalid
  else
    let (st, buf) ← ext2ReadBlock dev (bitmap fs group) (← stackBuf)
    if st ≠ .ok then return st
    else if !bitmapTest buf bit then return .invalid
    else
      let st ← ext2WriteBlock dev (bitmap fs group) (bitmapClear buf bit)
      if st ≠ .ok then return st
      else ext2UpdateCounts dev group deltaBlocks deltaInodes

/-- A conversion to `int32_t`. -/
def toInt32 (n : Nat) : Int := (BitVec.ofNat 32 n).toInt

def blockBitmap (fs : Ext2Fs) (g : Nat) : Nat := bgBlockBitmap fs.gd g

def inodeBitmap (fs : Ext2Fs) (g : Nat) : Nat := bgInodeBitmap fs.gd g

/-- `ext2_alloc_block`. The variable `blocks_in_group` of the source is computed and not used. -/
def ext2AllocBlock : Ext2M σ Int := do
  let fs ← getFs
  if !fs.mounted then return -1
  else
    match ← allocBit dev blockBitmap Ext2Fs.blocksPerGroup (-1) 0 (List.range fs.numGroups) with
    | none => return -1
    | some (g, bit) => return toInt32 (g * fs.blocksPerGroup + bit)

/-- `ext2_free_block`. -/
def ext2FreeBlock (blockNum : Nat) : Ext2M σ Ext2Status := do
  let fs ← getFs
  if !fs.mounted then return .notMounted
  else freeBit dev blockBitmap 1 0 (blockNum / fs.blocksPerGroup) (blockNum % fs.blocksPerGroup)

/-- `ext2_alloc_inode`. -/
def ext2AllocInode : Ext2M σ Int := do
  let fs ← getFs
  if !fs.mounted then return -1
  else
    match ← allocBit dev inodeBitmap Ext2Fs.inodesPerGroup 0 (-1) (List.range fs.numGroups) with
    | none => return -1
    | some (g, bit) => return toInt32 (g * fs.inodesPerGroup + bit + 1)

/-- `ext2_free_inode`. -/
def ext2FreeInode (ino : Nat) : Ext2M σ Ext2Status := do
  let fs ← getFs
  if !fs.mounted then return .notMounted
  else if ino = 0 then return .invalid
  else freeBit dev inodeBitmap 0 1 ((ino - 1) / fs.inodesPerGroup) ((ino - 1) % fs.inodesPerGroup)

end Calls

end TsOs
