import TsOs.Pmm
import TsOs.Lib.Bytes

/-!
# The import of the memory map

`pmm_init` of `kernel/pmm.c`: the walk over the tags of the Multiboot2 information, the loop over the entries of the memory map,
and the ranges that are reserved afterwards. `mem` is the memory as the kernel reads it, by virtual address. A loop that does not
come to an end is `none`; the messages on the serial line are left out.
-/

namespace TsOs

open Bytes

/-- `HIGHER_HALF_OFFSET`. -/
def higherHalfOffset : Nat := 0xFFFFFFFF80000000

/-- `MB2_TAG_TYPE_MMAP`. -/
def mb2TagTypeMmap : Nat := 6

/-- `MB2_MMAP_AVAILABLE`. -/
def mb2MmapAvailable : Nat := 1

/-- `mb2_mmap_entry_t`. -/
structure MmapEntry where
  baseAddr : Nat
  length : Nat
  type : Nat
  base_lt : baseAddr < 2 ^ 64
  length_lt : length < 2 ^ 64

/-- The entry stored at address `a`. -/
def MmapEntry.read (mem : Nat → BitVec 8) (a : Nat) : MmapEntry :=
  ⟨le 8 mem a, le 8 mem (a + 8), le 4 mem (a + 16), le_lt 8 mem a, le_lt 8 mem (a + 8)⟩

/-- What the linker places: the kernel image from `_kernel_start` to `_kernel_end`, and `g_bitmap`, by physical address. -/
structure KernelImage where
  kernelStart : Nat
  kernelEnd : Nat
  bitmapStart : Nat
  kernel_lt : kernelStart < kernelEnd
  kernel_end_lt : kernelEnd + 4095 < 2 ^ 64
  bitmap_end_lt : bitmapStart + pmmMaxFrames / 8 + 4095 < 2 ^ 64

/-- `_mark_range_free`. -/
def markRangeFree (p : Pmm) (baseAddr length : Nat) : Pmm :=
  if length = 0 then p
  else
    let endAddr := (baseAddr + length) % 2 ^ 64
    let endAddr := if endAddr < baseAddr then 2 ^ 64 - 1 else endAddr
    let first := (baseAddr + 4095) % 2 ^ 64 / 4096
    let stop := endAddr / 4096
    let stop := if stop > p.totalFrames then p.totalFrames else stop
    if first ≥ stop then p
    else
      (List.range' first (stop - first)).foldl
        (fun p f => if p.isUsed f then { p.setFree f with freeFrames := p.freeFrames + 1 } else p) p

/-- `_mark_range_used`. -/
def markRangeUsed (p : Pmm) (baseAddr length : Nat) : Pmm :=
  if length = 0 then p
  else
    let endAddr := (baseAddr + length) % 2 ^ 64
    let endAddr := if endAddr < baseAddr then 2 ^ 64 - 1 else endAddr
    let first := baseAddr / 4096
    let stop := (endAddr + 4095) % 2 ^ 64 / 4096
    let stop := if stop > p.totalFrames then p.totalFrames else stop
    if first ≥ stop then p
    else
      (List.range' first (stop - first)).foldl
        (fun p f => if !p.isUsed f then { p.setUsed f with freeFrames := p.freeFrames - 1 } else p) p

/-- `_mb2_align8`. -/
def mb2Align8 (v : Nat) : Nat := (v + 7) / 8 * 8

/-- The walk of `pmm_init` over the tags: the address of the last memory map tag before the end. -/
def findMmapTag (mem : Nat → BitVec 8) (mb2Addr mb2Size : Nat) : Nat → Nat → Option Nat → Option (Option Nat)
  | 0, _, _ => none
  | fuel + 1, offset, mmapTag =>
    if offset + 8 ≤ mb2Size then
      let tag := (mb2Addr + offset) % 2 ^ 64
      let type := le 4 mem tag
      if type = 0 then some mmapTag
      else
        let mmapTag := if type = mb2TagTypeMmap then some tag else mmapTag
        findMmapTag mem mb2Addr mb2Size fuel (offset + mb2Align8 (le 4 mem (tag + 4))) mmapTag
    else some mmapTag

/-- One entry of the memory map, with the highest end of the available ones so far. -/
def importEntry (p : Pmm) (highestUsable : Nat) (e : MmapEntry) : Pmm × Nat :=
  if e.type = mb2MmapAvailable then
    let stop := (e.baseAddr + e.length) % 2 ^ 64
    (markRangeFree p e.baseAddr e.length, if stop > highestUsable then stop else highestUsable)
  else (p, highestUsable)

/-- The loop of `pmm_init` over the entries. -/
def importEntries (mem : Nat → BitVec 8) (entrySize entriesEnd : Nat) : Nat → Nat → Pmm → Nat → Option (Pmm × Nat)
  | 0, _, _, _ => none
  | fuel + 1, entryAddr, p, highestUsable =>
    if (entryAddr + entrySize) % 2 ^ 64 ≤ entriesEnd then
      let (p, highestUsable) := importEntry p highestUsable (MmapEntry.read mem entryAddr)
      importEntries mem entrySize entriesEnd fuel ((entryAddr + entrySize) % 2 ^ 64) p highestUsable
    else some (p, highestUsable)

/-- `g_total_frames` becomes the smaller of `top` and `PMM_MAX_FRAMES`. -/
def Pmm.track (p : Pmm) (top : Nat) : Pmm :=
  { p with totalFrames := if top > pmmMaxFrames then pmmMaxFrames else top, total_le := by split <;> omega }

/-- The branch of `pmm_init` for the memory map tag at `tag`. -/
def importMap (mem : Nat → BitVec 8) (tag : Nat) (p : Pmm) : Option Pmm := do
  let size := le 4 mem (tag + 4)
  let entrySize := le 4 mem (tag + 8)
  let (p, highestUsable) ← importEntries mem entrySize ((tag + size) % 2 ^ 64) (size + 1) ((tag + 16) % 2 ^ 64) p 0
  let topFrame := (highestUsable + 4095) % 2 ^ 64 / 4096
  pure (p.track topFrame)

/-- Steps 3 to 5 of `pmm_init`: frame 0, the kernel image and the bitmap are reserved. -/
def reserve (img : KernelImage) (p : Pmm) : Pmm :=
  let p := if !p.isUsed 0 then { p.setUsed 0 with freeFrames := p.freeFrames - 1 } else p
  let p := markRangeUsed p img.kernelStart (img.kernelEnd - img.kernelStart)
  let p := markRangeUsed p img.bitmapStart (pmmMaxFrames / 8)
  { p with initialized := true }

/-- The state after step 1 of `pmm_init`: every frame is used. -/
def allUsed : Pmm := ⟨fun _ => BitVec.allOnes 64, pmmMaxFrames, 0#64, false, Nat.le_refl _⟩

/-- `pmm_init`. -/
def pmmInit (mem : Nat → BitVec 8) (img : KernelImage) (mb2InfoPhys : Nat) : Option Pmm :=
  if mb2InfoPhys = 0 then some { allUsed with initialized := true }
  else do
    let mb2Addr := (mb2InfoPhys + higherHalfOffset) % 2 ^ 64
    let mb2Size := le 4 mem mb2Addr
    let mmapTag ← findMmapTag mem mb2Addr mb2Size (mb2Size + 1) 8 none
    let p ← match mmapTag with
      | none => some ((markRangeFree allUsed 0x100000 (3 * 1024 * 1024)).track ((0x100000 + 3 * 1024 * 1024) / 4096))
      | some tag => importMap mem tag allUsed
    pure (reserve img p)

end TsOs
