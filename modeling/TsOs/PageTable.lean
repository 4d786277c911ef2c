import TsOs.Pmm
import TsOs.Lib.Bytes

/-!
# Page tables

`kernel/page_table.c`: entries, the walk from the PML4 to a leaf, and the freeing of tables. Physical memory is kept by frame, as
512 words of 64 bits; `pt_phys_to_virt` maps all of it, so a pointer to a table is the number of its frame. The tables in memory
are the ones the processor uses: TLB flushes are left out.
-/

namespace TsOs

/-! ## Entries -/

def ptePresent : BitVec 64 := 1#64
def pteWritable : BitVec 64 := 2#64
def pteUser : BitVec 64 := 4#64
def pteNx : BitVec 64 := 0x8000000000000000#64
def ptePs : BitVec 64 := 0x80#64
def pteCow : BitVec 64 := 0x200#64
def pteDemand : BitVec 64 := 0x400#64
def pteAddrMask : BitVec 64 := 0x000FFFFFFFFFF000#64

/-- `entry & flag`, as a condition. -/
def hasFlag (entry flag : BitVec 64) : Bool := entry &&& flag != 0#64

/-- `pte_addr`. -/
def pteAddr (pte : BitVec 64) : BitVec 64 := pte &&& pteAddrMask

/-- `pte_flags`. -/
def pteFlags (pte : BitVec 64) : BitVec 64 := pte &&& ~~~pteAddrMask

/-- `pte_make`. -/
def pteMake (physAddr flags : BitVec 64) : BitVec 64 := (physAddr &&& pteAddrMask) ||| flags

/-- `pt_phys_to_virt` of a page-aligned address: the frame. -/
def frameOf (addr : BitVec 64) : Nat := addr.toNat / 4096

/-- The address of a frame. -/
def frameAddr (f : Nat) : BitVec 64 := BitVec.ofNat 64 (f * 4096)

def pml4Index (va : BitVec 64) : Fin 512 := Fin.ofNat 512 ((va >>> 39) &&& 0x1FF#64).toNat
def pdptIndex (va : BitVec 64) : Fin 512 := Fin.ofNat 512 ((va >>> 30) &&& 0x1FF#64).toNat
def pdIndex (va : BitVec 64) : Fin 512 := Fin.ofNat 512 ((va >>> 21) &&& 0x1FF#64).toNat
def ptIndex (va : BitVec 64) : Fin 512 := Fin.ofNat 512 ((va >>> 12) &&& 0x1FF#64).toNat

/-- `va_is_kernel`. -/
def vaIsKernel (va : BitVec 64) : Bool := va &&& 0xFFFF000000000000#64 == 0xFFFF000000000000#64

/-- `va_is_user`. -/
def vaIsUser (va : BitVec 64) : Bool := va &&& 0xFFFF000000000000#64 == 0#64

/-- `va_is_canonical`. -/
def vaIsCanonical (va : BitVec 64) : Bool := va.ult 0x0000800000000000#64 || !va.ult 0xFFFF800000000000#64

/-- `is_page_aligned`. -/
def isPageAligned (addr : BitVec 64) : Bool := addr &&& 0xFFF#64 == 0#64

/-! ## Memory and frames -/

/-- The state of the memory manager: the frames, the content of memory, the frame of the kernel's PML4 and
`g_vmm_initialized`. -/
structure Vmm where
  pmm : Pmm
  /-- The words of each frame. The pointer that the code makes of a physical address is taken to reach the frame at that address: the
  direct map covers every frame that `pmm` hands out. -/
  mem : Nat → Fin 512 → BitVec 64
  kernelPml4 : Nat
  initialized : Bool

/-- The functions of `page_table.c` and `vmm.c`. -/
abbrev VmmM (α : Type) : Type := StateM Vmm α

/-- Memory after a store of one entry. -/
def setEntry (mem : Nat → Fin 512 → BitVec 64) (table : Nat) (i : Fin 512) (e : BitVec 64) : Nat → Fin 512 → BitVec 64 :=
  Function.update mem table (Function.update (mem table) i e)

def readEntry (table : Nat) (i : Fin 512) : VmmM (BitVec 64) := do return (← get).mem table i

def writeEntry (table : Nat) (i : Fin 512) (e : BitVec 64) : VmmM Unit :=
  modify fun m => { m with mem := setEntry m.mem table i e }

/-- `memset(page, 0, PAGE_SIZE)`. -/
def zeroPage (f : Nat) : VmmM Unit := modify fun m => { m with mem := Function.update m.mem f (fun _ => 0#64) }

/-- `memcpy(dst, src, PAGE_SIZE)`. -/
def copyPage (dst src : Nat) : VmmM Unit := modify fun m => { m with mem := Function.update m.mem dst (m.mem src) }

/-- `pmm_alloc_frame`. -/
def allocFrame : VmmM (BitVec 64) :=
  fun m => (BitVec.ofNat 64 (pmmAllocFrame m.pmm).2, { m with pmm := (pmmAllocFrame m.pmm).1 })

/-- `pmm_free_frame`; no caller looks at its status. -/
def freeFrame (addr : BitVec 64) : VmmM Unit := modify fun m => { m with pmm := (pmmFreeFrame m.pmm addr.toNat).1 }

/-- The indices of a table, in order. -/
def allEntries : List (Fin 512) := List.finRange 512

/-- The indices of the user half of a PML4, in order. -/
def userEntries : List (Fin 512) := allEntries.filter (fun i => i.val < 256)

/-! ## Walks -/

/-- `pt_table_empty`. -/
def ptTableEmpty (table : Fin 512 → BitVec 64) : Bool := allEntries.all (fun i => !hasFlag (table i) ptePresent)

/-- `pt_get_or_create_entry`. -/
def ptGetOrCreateEntry (table : Nat) (index : Fin 512) (create : Bool) (flags : BitVec 64) : VmmM (BitVec 64) := do
  let entry ← readEntry table index
  if hasFlag entry ptePresent then return entry
  else if !create then return 0#64
  else
    let newPhys ← allocFrame
    if newPhys = 0#64 then return 0#64
    else
      zeroPage (frameOf newPhys)
      writeEntry table index (pteMake newPhys flags)
      return pteMake newPhys flags

/-- `pt_walk_to_leaf`. The result is a pointer to an entry: a table and an index. -/
def ptWalkToLeaf (pml4 : Nat) (vaddr : BitVec 64) (create : Bool) (flags : BitVec 64) : VmmM (Option (Nat × Fin 512)) := do
  let pml4e ← ptGetOrCreateEntry pml4 (pml4Index vaddr) create flags
  if !hasFlag pml4e ptePresent then return none
  else if hasFlag pml4e ptePs then return none
  else
    let pdpt := frameOf (pteAddr pml4e)
    let pdpe ← ptGetOrCreateEntry pdpt (pdptIndex vaddr) create flags
    if !hasFlag pdpe ptePresent then return none
    else if hasFlag pdpe ptePs then return some (pdpt, pdptIndex vaddr)
    else
      let pd := frameOf (pteAddr pdpe)
      let pde ← ptGetOrCreateEntry pd (pdIndex vaddr) create flags
      if !hasFlag pde ptePresent then return none
      else if hasFlag pde ptePs then return some (pd, pdIndex vaddr)
      else return some (frameOf (pteAddr pde), ptIndex vaddr)

/-! ## Freeing tables -/

/-- `pt_free_recursive`: the tables below a table of level `level` are freed and its entries cleared. -/
def ptFreeRecursive : Nat → Nat → VmmM Unit
  | 0, _ => return ()
  | level + 1, table =>
    allEntries.forM fun i => do
      let entry ← readEntry table i
      if !hasFlag entry ptePresent then return ()
      else if hasFlag entry ptePs then return ()
      else
        ptFreeRecursive level (frameOf (pteAddr entry))
        freeFrame (pteAddr entry)
        writeEntry table i 0#64

/-- `pt_cleanup_empty_tables`. -/
def ptCleanupEmptyTables (pml4 : Nat) (vaddr : BitVec 64) : VmmM Unit := do
  let pml4e ← readEntry pml4 (pml4Index vaddr)
  if !hasFlag pml4e ptePresent then return ()
  else if hasFlag pml4e ptePs then return ()
  else
    let pdpt := frameOf (pteAddr pml4e)
    let pdpe ← readEntry pdpt (pdptIndex vaddr)
    if !hasFlag pdpe ptePresent then return ()
    else if hasFlag pdpe ptePs then return ()
    else
      let pd := frameOf (pteAddr pdpe)
      let pde ← readEntry pd (pdIndex vaddr)
      if !hasFlag pde ptePresent then return ()
      else if hasFlag pde ptePs then return ()
      else if !ptTableEmpty ((← get).mem (frameOf (pteAddr pde))) then return ()
      else
        freeFrame (pteAddr pde)
        writeEntry pd (pdIndex vaddr) 0#64
        if !ptTableEmpty ((← get).mem pd) then return ()
        else
          freeFrame (pteAddr pdpe)
          writeEntry pdpt (pdptIndex vaddr) 0#64
          if !ptTableEmpty ((← get).mem pdpt) then return ()
          else if (pml4Index vaddr).val ≥ 256 then return ()
          else
            freeFrame (pteAddr pml4e)
            writeEntry pml4 (pml4Index vaddr) 0#64

end TsOs
