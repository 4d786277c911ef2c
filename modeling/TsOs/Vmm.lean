import TsOs.PageTable

/-!
# The virtual memory manager

`kernel/vmm.c`: address spaces, mapping and unmapping of pages, translation and cloning. The loops over the levels of a tree of
tables, which the source writes out one inside the other, are recursive in the level here: level 0 is a PT, 1 a PD and 2 a PDPT.
-/

namespace TsOs

/-- `vmm_status_t`, without the codes that no function returns. -/
inductive VmmStatus where
  | ok
  | notInit
  | invalid
  | notMapped
  | alreadyMap
  | noMem
  deriving DecidableEq, Repr

/-- `address_space_t`. `pml4_phys` is the address of `pml4`, which is null after the address space is destroyed. -/
structure AddressSpace where
  pml4 : Option Nat
  isKernel : Bool
  deriving DecidableEq, Repr

/-- `validate_vaddr`. -/
def validateVaddr (vaddr : BitVec 64) : Bool := isPageAligned vaddr && vaIsCanonical vaddr && vaddr != 0#64

/-- `validate_paddr`. -/
def validatePaddr (paddr : BitVec 64) : Bool := isPageAligned paddr && paddr != 0#64

/-! ## Address spaces -/

/-- `vmm_create_address_space`. -/
def vmmCreateAddressSpace : VmmM (VmmStatus × Option AddressSpace) := do
  if !(← get).initialized then return (.notInit, none)
  else
    let pml4Phys ← allocFrame
    if pml4Phys = 0#64 then return (.noMem, none)
    else
      let pml4 := frameOf pml4Phys
      zeroPage pml4
      (allEntries.filter (fun i => 256 ≤ i.val)).forM fun i => do
        writeEntry pml4 i (← readEntry (← get).kernelPml4 i)
      return (.ok, some { pml4 := some pml4, isKernel := false })

/-- The loops of `vmm_destroy_address_space` over the entries of a table of level `level`: a mapped frame is freed, a table
with all below it. -/
def destroyTable : Nat → Nat → VmmM Unit
  | 0, table =>
    allEntries.forM fun i => do
      let pte ← readEntry table i
      if !hasFlag pte ptePresent then return ()
      else freeFrame (pteAddr pte)
  | level + 1, table =>
    allEntries.forM fun i => do
      let entry ← readEntry table i
      if !hasFlag entry ptePresent then return ()
      else if hasFlag entry ptePs then freeFrame (pteAddr entry)
      else
        destroyTable level (frameOf (pteAddr entry))
        freeFrame (pteAddr entry)

/-- `vmm_destroy_address_space`, with the address space as it leaves it. -/
def vmmDestroyAddressSpace (as : AddressSpace) : VmmM (VmmStatus × AddressSpace) := do
  if !(← get).initialized then return (.notInit, as)
  else
    match as.pml4 with
    | none => return (.invalid, as)
    | some pml4 =>
      if as.isKernel then return (.invalid, as)
      else
        userEntries.forM fun i => do
          let entry ← readEntry pml4 i
          if !hasFlag entry ptePresent then return ()
          else if entry = (← readEntry (← get).kernelPml4 i) then return ()
          else
            destroyTable 2 (frameOf (pteAddr entry))
            freeFrame (pteAddr entry)
            writeEntry pml4 i 0#64
        freeFrame (frameAddr pml4)
        return (.ok, { as with pml4 := none })

/-! ## Mapping -/

/-- `vmm_map_page`. -/
def vmmMapPage (as : AddressSpace) (vaddr paddr flags : BitVec 64) : VmmM VmmStatus := do
  if !(← get).initialized then return .notInit
  else
    match as.pml4 with
    | none => return .invalid
    | some pml4 =>
      if !validateVaddr vaddr then return .invalid
      else if !validatePaddr paddr then return .invalid
      else
        let leafFlags := flags ||| ptePresent
        let interFlags := (ptePresent ||| pteWritable) ||| (flags &&& pteUser)
        match ← ptWalkToLeaf pml4 vaddr true interFlags with
        | none => return .noMem
        | some (table, i) =>
          if hasFlag (← readEntry table i) ptePresent then return .alreadyMap
          else
            writeEntry table i (pteMake paddr leafFlags)
            return .ok

/-- The flags of a page that is mapped again: those of both mappings, but NX only if the new one has it. -/
def mergedLeaf (old leafFlags : BitVec 64) : BitVec 64 :=
  let mergedFlags := if !hasFlag leafFlags pteNx then (old ||| leafFlags) &&& ~~~pteNx else old ||| leafFlags
  (old &&& pteAddrMask) ||| mergedFlags

/-- `vmm_map_page_merge`, with whether it calls `pt_invlpg`. -/
def vmmMapPageMerge (as : AddressSpace) (vaddr paddr flags : BitVec 64) : VmmM (VmmStatus × Bool) := do
  if !(← get).initialized then return (.notInit, false)
  else
    match as.pml4 with
    | none => return (.invalid, false)
    | some pml4 =>
      if !validateVaddr vaddr then return (.invalid, false)
      else if !validatePaddr paddr then return (.invalid, false)
      else
        let leafFlags := flags ||| ptePresent
        let interFlags := (ptePresent ||| pteWritable) ||| (flags &&& pteUser)
        match ← ptWalkToLeaf pml4 vaddr true interFlags with
        | none => return (.noMem, false)
        | some (table, i) =>
          let old ← readEntry table i
          if hasFlag old ptePresent then
            if mergedLeaf old leafFlags ≠ old then
              writeEntry table i (mergedLeaf old leafFlags)
              return (.ok, true)
            else return (.ok, false)
          else
            writeEntry table i (pteMake paddr leafFlags)
            return (.ok, true)

/-- `vmm_unmap_page`. The frame stays allocated. -/
def vmmUnmapPage (as : AddressSpace) (vaddr : BitVec 64) : VmmM VmmStatus := do
  if !(← get).initialized then return .notInit
  else
    match as.pml4 with
    | none => return .invalid
    | some pml4 =>
      if !validateVaddr vaddr then return .invalid
      else
        match ← ptWalkToLeaf pml4 vaddr false 0#64 with
        | none => return .notMapped
        | some (table, i) =>
          if !hasFlag (← readEntry table i) (ptePresent ||| pteDemand) then return .notMapped
          else
            writeEntry table i 0#64
            ptCleanupEmptyTables pml4 vaddr
            return .ok

/-- `vmm_unmap_and_free`. -/
def vmmUnmapAndFree (as : AddressSpace) (vaddr : BitVec 64) : VmmM VmmStatus := do
  if !(← get).initialized then return .notInit
  else
    match as.pml4 with
    | none => return .invalid
    | some pml4 =>
      if !validateVaddr vaddr then return .invalid
      else
        match ← ptWalkToLeaf pml4 vaddr false 0#64 with
        | none => return .notMapped
        | some (table, i) =>
          let oldPte ← readEntry table i
          if hasFlag oldPte pteDemand then
            writeEntry table i 0#64
            ptCleanupEmptyTables pml4 vaddr
            return .ok
          else if !hasFlag oldPte ptePresent then return .notMapped
          else
            writeEntry table i 0#64
            freeFrame (pteAddr oldPte)
            ptCleanupEmptyTables pml4 vaddr
            return .ok

/-- `vmm_map_demand_page`. -/
def vmmMapDemandPage (as : AddressSpace) (vaddr flags : BitVec 64) : VmmM VmmStatus := do
  if !(← get).initialized then return .notInit
  else
    match as.pml4 with
    | none => return .invalid
    | some pml4 =>
      if !validateVaddr vaddr then return .invalid
      else
        let interFlags := (ptePresent ||| pteWritable) ||| (flags &&& pteUser)
        match ← ptWalkToLeaf pml4 vaddr true interFlags with
        | none => return .noMem
        | some (table, i) =>
          if hasFlag (← readEntry table i) (ptePresent ||| pteDemand) then return .alreadyMap
          else
            writeEntry table i (((flags &&& ~~~pteAddrMask) ||| pteDemand) &&& ~~~ptePresent)
            return .ok

/-- `vmm_translate`. -/
def vmmTranslate (m : Vmm) (as : AddressSpace) (vaddr : BitVec 64) : BitVec 64 :=
  if !m.initialized then 0#64
  else
    match as.pml4 with
    | none => 0#64
    | some pml4 =>
      let offset := vaddr &&& 0xFFF#64
      let pml4e := m.mem pml4 (pml4Index vaddr)
      if !hasFlag pml4e ptePresent then 0#64
      else
        let pdpe := m.mem (frameOf (pteAddr pml4e)) (pdptIndex vaddr)
        if !hasFlag pdpe ptePresent then 0#64
        else if hasFlag pdpe ptePs then (pdpe &&& 0x000FFFFFC0000000#64) + (vaddr &&& 0x3FFFFFFF#64)
        else
          let pde := m.mem (frameOf (pteAddr pdpe)) (pdIndex vaddr)
          if !hasFlag pde ptePresent then 0#64
          else if hasFlag pde ptePs then (pde &&& 0x000FFFFFFFE00000#64) + (vaddr &&& 0x1FFFFF#64)
          else
            let pte := m.mem (frameOf (pteAddr pde)) (ptIndex vaddr)
            if !hasFlag pte ptePresent then 0#64
            else pteAddr pte + offset

/-! ## Cloning -/

/-- The leaf that `vmm_clone_address_space` leaves in the source: a writable page becomes read-only and copy-on-write. -/
def cowLeaf (leaf : BitVec 64) : BitVec 64 :=
  if hasFlag (pteFlags leaf) pteWritable && !hasFlag (pteFlags leaf) pteCow
  then pteMake (pteAddr leaf) ((pteFlags leaf &&& ~~~pteWritable) ||| pteCow) else leaf

/-- The loop of `vmm_clone_address_space` over the leaves of a PT. -/
def cloneLeaves (srcPt dstPt : Nat) : VmmM Unit :=
  allEntries.forM fun i => do
    let srcLeaf ← readEntry srcPt i
    if hasFlag srcLeaf pteDemand && !hasFlag srcLeaf ptePresent then writeEntry dstPt i srcLeaf
    else if !hasFlag srcLeaf ptePresent then writeEntry dstPt i 0#64
    else if hasFlag (pteFlags srcLeaf) pteWritable && !hasFlag (pteFlags srcLeaf) pteCow then
      writeEntry srcPt i (cowLeaf srcLeaf)
      writeEntry dstPt i (cowLeaf srcLeaf)
    else writeEntry dstPt i srcLeaf

/-- The loop over the entries of a PD or a PDPT; `clone` copies the table an entry points to. The result is false when frames
run out. The store of 0 that follows is without effect when the frame for the table itself could not be allocated. -/
def cloneEntries (clone : Nat → VmmM (Option (BitVec 64))) (src dst : Nat) : List (Fin 512) → VmmM Bool
  | [] => return true
  | j :: js => do
    let entry ← readEntry src j
    if !hasFlag entry ptePresent then
      writeEntry dst j 0#64
      cloneEntries clone src dst js
    else if hasFlag entry ptePs then
      writeEntry dst j entry
      cloneEntries clone src dst js
    else
      match ← clone (frameOf (pteAddr entry)) with
      | none =>
        writeEntry dst j 0#64
        return false
      | some newPhys =>
        writeEntry dst j (pteMake newPhys (pteFlags entry))
        cloneEntries clone src dst js

/-- Copy a table of level `level` with all below it. `none` says that frames ran out; what was copied is freed again. -/
def cloneTable : Nat → Nat → VmmM (Option (BitVec 64))
  | 0, src => do
    let newPhys ← allocFrame
    if newPhys = 0#64 then return none
    else
      cloneLeaves src (frameOf newPhys)
      return some newPhys
  | level + 1, src => do
    let newPhys ← allocFrame
    if newPhys = 0#64 then return none
    else
      zeroPage (frameOf newPhys)
      if ← cloneEntries (cloneTable level) src (frameOf newPhys) allEntries then return some newPhys
      else
        ptFreeRecursive (level + 1) (frameOf newPhys)
        freeFrame newPhys
        return none

/-- The cleanup of `vmm_clone_address_space`: the entries `cs` of the destination are freed. -/
def cloneCleanup (dst : Nat) (cs : List (Fin 512)) : VmmM Unit :=
  cs.forM fun c => do
    let entry ← readEntry dst c
    if !hasFlag entry ptePresent then return ()
    else
      ptFreeRecursive 2 (frameOf (pteAddr entry))
      freeFrame (pteAddr entry)
      writeEntry dst c 0#64

/-- The loop of `vmm_clone_address_space` over the user half of the PML4; `done` are the entries before. -/
def clonePml4 (src dst : Nat) : List (Fin 512) → List (Fin 512) → VmmM VmmStatus
  | _, [] => return .ok
  | done, i :: is => do
    let entry ← readEntry src i
    if !hasFlag entry ptePresent then clonePml4 src dst (done ++ [i]) is
    else
      match ← cloneTable 2 (frameOf (pteAddr entry)) with
      | none =>
        cloneCleanup dst done
        return .noMem
      | some newPhys =>
        writeEntry dst i (pteMake newPhys (pteFlags entry))
        clonePml4 src dst (done ++ [i]) is

/-- `vmm_clone_address_space`. -/
def vmmCloneAddressSpace (src dst : AddressSpace) : VmmM VmmStatus := do
  if !(← get).initialized then return .notInit
  else
    match src.pml4, dst.pml4 with
    | some src, some dst => clonePml4 src dst [] userEntries
    | _, _ => return .invalid

end TsOs
