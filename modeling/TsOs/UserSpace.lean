import TsOs.PageFault

/-!
# Use of an address space

How the kernel uses an address space of a task: pages of the user half, the flags that `kernel/vmm.h` offers to callers, and the
mapping of a new frame, which is given back when the mapping fails.
-/

namespace TsOs

/-- An address of the user half. -/
structure UserVa where
  addr : BitVec 64
  user : addr.toNat < 2 ^ 47

/-- The flags a caller may pass to map a page: the `VMM_FLAG_*` of `kernel/vmm.h` have no address bits, and the bits for
copy-on-write and demand pages are set by the memory manager only. -/
structure MapFlags where
  bits : BitVec 64
  noAddr : bits &&& pteAddrMask = 0#64
  noCow : hasFlag bits pteCow = false
  noDemand : hasFlag bits pteDemand = false

/-- The address space of a task whose PML4 is in frame `r`. -/
def AddressSpace.ofRoot (r : Nat) : AddressSpace := { pml4 := some r, isKernel := false }

/-- `~(PAGE_SIZE - 1)`. `PAGE_SIZE` is an `unsigned int`: the mask has 32 bits and clears the upper half of an address too. -/
def pageMask : BitVec 64 := 0xFFFFF000#64

/-- `a & ~(PAGE_SIZE - 1)`. -/
def pageDown (a : BitVec 64) : BitVec 64 := a &&& pageMask

/-- `(a + PAGE_SIZE - 1) & ~(PAGE_SIZE - 1)`. -/
def pageUp (a : BitVec 64) : BitVec 64 := (a + 4095#64) &&& pageMask

/-- Map a new frame. The frame is freed again when it cannot be mapped. -/
def mapFresh (as : AddressSpace) (vaddr flags : BitVec 64) : VmmM VmmStatus := do
  let phys ← allocFrame
  if phys = 0#64 then return .noMem
  else
    let st ← vmmMapPage as vaddr phys flags
    if st ≠ .ok then freeFrame phys
    return st

end TsOs
