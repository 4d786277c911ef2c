import TsOs.SpaceSet

/-!
# Memory calls of user code

`sys_brk`, `sys_mmap` and `sys_munmap` of `kernel/syscall.c` on the address space and the regions of the running task, and histories
of these calls with the page faults in between. A loop over pages is recursive in the number of pages of its range; the comparison
that ends it in the source is kept.
-/

namespace TsOs

/-- The address space of the running task, and its fields that the calls use. -/
structure UserMemory where
  vmm : Vmm
  regions : UserRegions

/-- `(length + PAGE_SIZE - 1) / PAGE_SIZE`. -/
def pageCount (length : BitVec 64) : BitVec 64 := (length + 4095#64) / 4096#64

/-- The loop that installs demand pages from `va` up to `stop`, which is at most the given number of pages away. False says that
a page could not be installed; a page that is mapped already is left as it is. -/
def mapDemandRange (as : AddressSpace) (flags stop : BitVec 64) : Nat → BitVec 64 → VmmM Bool
  | 0, _ => return true
  | n + 1, va =>
    if va.ult stop then do
      let st ← vmmMapDemandPage as va flags
      if st ≠ .ok ∧ st ≠ .alreadyMap then return false
      else mapDemandRange as flags stop n (va + 4096#64)
    else return true

/-- The loop of `sys_brk` that unmaps pages from `va` down to `stop`. -/
def unmapFreeRange (as : AddressSpace) (stop : BitVec 64) : Nat → BitVec 64 → VmmM Unit
  | 0, _ => return ()
  | n + 1, va =>
    if stop.ule va then do
      let _ ← vmmUnmapAndFree as va
      unmapFreeRange as stop n (va - 4096#64)
    else return ()

/-- The loop of `sys_munmap`. -/
def unmapRange (as : AddressSpace) (stop : BitVec 64) : Nat → BitVec 64 → VmmM Unit
  | 0, _ => return ()
  | n + 1, va =>
    if va.ult stop then do
      let _ ← vmmUnmapPage as va
      unmapRange as stop n (va + 4096#64)
    else return ()

/-- `VMM_FLAG_WRITE | VMM_FLAG_USER`. -/
def heapFlags : BitVec 64 := pteWritable ||| pteUser

/-- `sys_brk`. -/
def sysBrk (cr3 : Nat) (newBrk : BitVec 64) (s : UserMemory) : Option (BitVec 64) × UserMemory :=
  let t := s.regions
  if newBrk = 0#64 then (some t.heapBrk, s)
  else if !newBrk.ult 0x800000000000#64 then (none, s)
  else if t.heapStart = 0#64 then
    (some newBrk, { s with regions := { t with heapStart := pageDown newBrk, heapBrk := newBrk } })
  else if newBrk.ult t.heapStart then (none, s)
  else
    let newPage := pageUp newBrk
    let oldPage := pageUp t.heapBrk
    if oldPage.ult newPage then
      match (mapDemandRange (.ofRoot cr3) heapFlags newPage ((newPage - oldPage) / 4096#64).toNat oldPage).run s.vmm with
      | (false, m) => (none, { s with vmm := m })
      | (true, m) => (some newBrk, { vmm := m, regions := { t with heapBrk := newBrk } })
    else if newPage.ult oldPage then
      let m := ((unmapFreeRange (.ofRoot cr3) newPage ((oldPage - newPage) / 4096#64).toNat (oldPage - 4096#64)).run s.vmm).2
      (some newBrk, { vmm := m, regions := { t with heapBrk := newBrk } })
    else (some newBrk, { s with regions := { t with heapBrk := newBrk } })

/-- `ELF_MAX_LOAD_SIZE`. -/
def elfMaxLoadSize : BitVec 64 := 0x10000000#64

/-- The address that `sys_mmap` chooses. -/
def mmapBase (t : UserRegions) (addr : BitVec 64) : BitVec 64 :=
  if addr ≠ 0#64 ∧ t.heapStart.ule addr then pageDown addr else pageUp (t.heapBrk + 0x1000000#64)

/-- The flags of a page for the protection that `sys_mmap` is given. -/
def mmapFlags (prot : BitVec 64) : BitVec 64 :=
  pteUser ||| (if hasFlag prot 1#64 then ptePresent else 0#64) ||| (if hasFlag prot 2#64 then pteWritable else 0#64) |||
    (if hasFlag prot 4#64 then 0#64 else pteNx)

/-- `sys_mmap`. -/
def sysMmap (cr3 : Nat) (addr length prot : BitVec 64) (s : UserMemory) : Option (BitVec 64) × UserMemory :=
  if length = 0#64 ∨ elfMaxLoadSize.ult length then (none, s)
  else
    let pages := pageCount length
    let base := mmapBase s.regions addr
    match (mapDemandRange (.ofRoot cr3) (mmapFlags prot) (base + pages * 4096#64) pages.toNat base).run s.vmm with
    | (false, m) => (none, { s with vmm := m })
    | (true, m) => (some base, { s with vmm := m })

/-- `sys_munmap`. -/
def sysMunmap (cr3 : Nat) (addr length : BitVec 64) (s : UserMemory) : Option (BitVec 64) × UserMemory :=
  if addr = 0#64 ∨ length = 0#64 then (none, s)
  else
    let pages := pageCount length
    let m := ((unmapRange (.ofRoot cr3) (pageDown addr + pages * 4096#64) pages.toNat (pageDown addr)).run s.vmm).2
    (some 0#64, { s with vmm := m })

/-! ## Histories -/

/-- What a task does to its memory: the calls, and accesses that fault. -/
inductive MemOp where
  | brk (newBrk : BitVec 64)
  | mmap (addr length prot : BitVec 64)
  | munmap (addr length : BitVec 64)
  | access (va : UserVa) (errorCode : BitVec 64)

/-- The memory of a task with what the calls have given to it: for each call of `sys_mmap` the pages that are not unmapped yet, and
the pages from `sys_brk` and `sys_mmap` that are not released yet, with the entry that the call left for them. `top` is a page above
all that was asked for. -/
structure MemHistory where
  mem : UserMemory
  ranges : List (List Nat)
  granted : List (Nat × BitVec 64)
  top : Nat

/-- The number of the page of `a`. -/
def pageNo (a : BitVec 64) : Nat := a.toNat / 4096

/-- The first page that is not below the address. -/
def pageCeil (a : BitVec 64) : Nat := (a.toNat + 4095) / 4096

/-- The entries of the pages after a call. -/
def UserMemory.recorded (s : UserMemory) (cr3 : Nat) (pages : List Nat) : List (Nat × BitVec 64) :=
  pages.map fun n => (n, (userLeaf s.vmm.mem cr3 (BitVec.ofNat 64 (n * 4096))).getD 0#64)

/-- The first of the pages that a call of `sys_brk` adds to the heap. -/
def brkFirst (t : UserRegions) (newBrk : BitVec 64) : Nat :=
  if t.heapStart = 0#64 then pageNo newBrk else pageCeil t.heapBrk

/-- The call that gives the heap back never returns when the break is rounded to 0: no `va` is below `new_brk_page`. -/
def brkLoops (t : UserRegions) (newBrk : BitVec 64) : Bool :=
  newBrk != 0#64 && newBrk.ult 0x800000000000#64 && t.heapStart != 0#64 && !newBrk.ult t.heapStart && pageUp newBrk == 0#64 &&
    pageUp t.heapBrk != 0#64

/-- One call or access. An access that the fault handler does not resolve halts the machine. -/
def MemOp.act (cr3 : Nat) (s : MemHistory) : MemOp → Option MemHistory
  | .brk newBrk =>
    if brkLoops s.mem.regions newBrk then none
    else match sysBrk cr3 newBrk s.mem with
    | (none, mem) => some { s with mem := mem }
    | (some _, mem) =>
      if newBrk = 0#64 then some { s with mem := mem }
      else
        let first := brkFirst s.mem.regions newBrk
        let stop := pageCeil newBrk
        some { s with
          mem := mem
          granted := s.granted.filter (fun p => !(stop ≤ p.1 && p.1 < first)) ++
            mem.recorded cr3 (List.range' first (stop - first)) }
  | .mmap addr length prot =>
    match sysMmap cr3 addr length prot s.mem with
    | (none, mem) => some { s with mem := mem }
    | (some base, mem) =>
      let pages := List.range' (pageNo base) (pageCount length).toNat
      some { s with mem := mem, ranges := pages :: s.ranges, granted := s.granted ++ mem.recorded cr3 pages }
  | .munmap addr length =>
    match sysMunmap cr3 addr length s.mem with
    | (none, mem) => some { s with mem := mem }
    | (some _, mem) =>
      let pages := List.range' (pageNo addr) (pageCount length).toNat
      some { s with
        mem := mem
        ranges := s.ranges.map (·.filter (· ∉ pages))
        granted := s.granted.filter (·.1 ∉ pages) }
  | .access va errorCode =>
    match (handlerPf errorCode va.addr cr3 (some s.mem.regions)).run s.mem.vmm with
    | (true, m) => some { s with mem := { s.mem with vmm := m } }
    | (false, _) => none

/-- The end of the pages that a call asks for, given or not. -/
def MemOp.asked (t : UserRegions) : MemOp → Nat
  | .brk newBrk => if newBrk.ult 0x800000000000#64 then pageCeil newBrk else 0
  | .mmap addr length _ =>
    if length = 0#64 ∨ elfMaxLoadSize.ult length then 0 else pageNo (mmapBase t addr) + (pageCount length).toNat
  | _ => 0

/-- One call or access, with what is asked for. -/
def MemOp.step (cr3 : Nat) (s : MemHistory) (op : MemOp) : Option MemHistory :=
  (op.act cr3 s).map fun s' => { s' with top := max s.top (op.asked s.mem.regions) }

end TsOs
