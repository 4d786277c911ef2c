import TsOs.Pmm

/-!
# The buddy layer of the physical memory manager

`kernel/pmm_buddy.c`: free lists of blocks of `2 ^ order` frames over the bitmap of `kernel/pmm.c`. The lists are seeded from the
bitmap once; after that `pmm_alloc_frame` and `pmm_free_frame` change the bitmap only. A list is the list of the addresses in its
nodes, and the pool of nodes is the number of nodes left. `none` is `kernel_panic`, which does not return.
-/

namespace TsOs

/-- `PMM_BUDDY_MAX_ORDER`. -/
def pmmBuddyMaxOrder : Nat := 11

/-- `PMM_BUDDY_MAX_PAGES`. -/
def pmmBuddyMaxPages : Nat := 2 ^ pmmBuddyMaxOrder

/-- `BUDDY_NODE_POOL_MAX`. -/
def buddyNodePoolMax : Nat := 16384

/-- The static state of `pmm_buddy.c` and of `pmm.c` below it. `overrun` says that `g_free_lists` was written past its end. -/
structure PmmBuddy where
  pmm : Pmm
  freeLists : Nat → List Nat
  poolFree : Nat
  initialized : Bool
  overrun : Bool

/-- `pmm_is_free`. -/
def pmmIsFree (p : Pmm) (addr : Nat) : Int :=
  if addr % 4096 ≠ 0 then -1
  else if addr / 4096 ≥ p.totalFrames then -1
  else if p.isUsed (addr / 4096) then 0 else 1

/-- The loop of `order_for_pages`, which `room` more iterations bring to the highest order. -/
def orderLoop (pages : Nat) : Nat → Nat → Nat → Nat
  | 0, order, _ => order
  | room + 1, order, block => if block < pages then orderLoop pages room (order + 1) (block * 2) else order

/-- `order_for_pages`. -/
def orderForPages (pages : Nat) : Nat := if pages ≤ 1 then 0 else orderLoop pages (pmmBuddyMaxOrder - 1) 0 1

/-- `push`. -/
def PmmBuddy.push (s : PmmBuddy) (order addr : Nat) : Option PmmBuddy :=
  if s.poolFree = 0 then none
  else if order < pmmBuddyMaxOrder then
    some { s with freeLists := Function.update s.freeLists order (addr :: s.freeLists order), poolFree := s.poolFree - 1 }
  else some { s with poolFree := s.poolFree - 1, overrun := true }

/-- `pop`. An empty list gives 0. -/
def PmmBuddy.pop (s : PmmBuddy) (order : Nat) : PmmBuddy × Nat :=
  match s.freeLists order with
  | [] => (s, 0)
  | addr :: rest => ({ s with freeLists := Function.update s.freeLists order rest, poolFree := s.poolFree + 1 }, addr)

/-- `buddy_addr`. -/
def buddyAddr (addr order : Nat) : Nat := addr ^^^ (4096 <<< order)

/-! ## `pmm_buddy_init` -/

/-- The loop that lowers the order until the block is aligned. -/
def alignOrder (pageIdx : Nat) : Nat → Nat
  | 0 => 0
  | order + 1 => if pageIdx &&& (2 ^ (order + 1) - 1) ≠ 0 then alignOrder pageIdx order else order + 1

/-- The loop that lowers the order until the block is no longer than the run. -/
def fitOrder (remaining : Nat) : Nat → Nat
  | 0 => 0
  | order + 1 => if 2 ^ (order + 1) > remaining then fitOrder remaining order else order + 1

/-- The order of the next block of a run that ends inside the bitmap. -/
def runOrder (pageIdx remaining : Nat) : Nat :=
  let order := orderForPages (remaining % 2 ^ 32)
  let order :=
    if pageIdx &&& (2 ^ order - 1) ≠ 0 then
      let order := (order + 2 ^ 32 - 1) % 2 ^ 32
      let order := if order ≥ pmmBuddyMaxOrder then pmmBuddyMaxOrder - 1 else order
      if pageIdx &&& (2 ^ order - 1) ≠ 0 then alignOrder pageIdx order else order
    else order
  fitOrder remaining order

/-- The order of the next block of the run that ends with the bitmap. -/
def trailingOrder (pageIdx remaining : Nat) : Nat :=
  fitOrder remaining (alignOrder pageIdx (orderForPages (remaining % 2 ^ 32)))

/-- The loop that breaks a run of free frames into blocks. -/
def seedRun (orderOf : Nat → Nat → Nat) (s : PmmBuddy) (addr remaining : Nat) : Option PmmBuddy :=
  if _h : remaining = 0 then some s
  else
    let order := orderOf (addr / 4096) remaining
    if 2 ^ order ≤ remaining ∧ 2 ^ order ≤ pmmBuddyMaxPages then
      match s.push order addr with
      | none => none
      | some s => seedRun orderOf s (addr + 2 ^ order * 4096) (remaining - 2 ^ order)
    else some s
termination_by remaining
decreasing_by
  have := Nat.two_pow_pos (orderOf (addr / 4096) remaining)
  omega

/-- The walk over the bitmap, given the run that ends before the frames to come. -/
def seedScan (s : PmmBuddy) : List Nat → Nat → Nat → Option (PmmBuddy × Nat × Nat)
  | [], runStart, runLen => some (s, runStart, runLen)
  | f :: fs, runStart, runLen =>
    if pmmIsFree s.pmm (f * 4096) = 1 then seedScan s fs (if runLen = 0 then f else runStart) (runLen + 1)
    else if runLen > 0 then
      match seedRun runOrder s (runStart * 4096) runLen with
      | none => none
      | some s => seedScan s fs runStart 0
    else seedScan s fs runStart runLen

/-- `pmm_buddy_init`. -/
def pmmBuddyInit (p : Pmm) : Option PmmBuddy :=
  let s : PmmBuddy :=
    { pmm := p, freeLists := fun _ => [], poolFree := buddyNodePoolMax, initialized := false, overrun := false }
  match seedScan s (List.range p.totalFrames) 0 0 with
  | none => none
  | some (s, runStart, runLen) =>
    (if runLen > 0 then seedRun trailingOrder s (runStart * 4096) runLen else some s).map fun s => { s with initialized := true }

/-! ## `pmm_buddy_alloc_pages` and `pmm_buddy_free_pages` -/

/-- The search for the smallest order with a free block. A block at address 0 counts as none and is lost. -/
def popFirst (s : PmmBuddy) : List Nat → PmmBuddy × Option (Nat × Nat)
  | [] => (s, none)
  | order :: orders =>
    let (s, addr) := s.pop order
    if addr ≠ 0 then (s, some (order, addr)) else popFirst s orders

/-- The loop that splits a block down to the requested order. -/
def splitDown (addr order : Nat) : Nat → PmmBuddy → Option PmmBuddy
  | 0, s => some s
  | o + 1, s =>
    if o + 1 > order then
      match s.push o (buddyAddr addr o) with
      | none => none
      | some s => splitDown addr order o s
    else some s

/-- The calls of `pmm_mark_used` or `pmm_mark_free` for the frames of a block. -/
def PmmBuddy.markBlock (mark : Pmm → Nat → Pmm) (s : PmmBuddy) (addr order : Nat) : PmmBuddy :=
  { s with pmm := (List.range (2 ^ order)).foldl (fun p i => mark p (addr + i * 4096)) s.pmm }

/-- `pmm_buddy_alloc_pages`. -/
def pmmBuddyAllocPages (s : PmmBuddy) (count : Nat) : Option (PmmBuddy × Nat) :=
  if !s.initialized || count == 0 then some (s, 0)
  else if count = 1 then
    let (p, addr) := pmmAllocFrame s.pmm
    some ({ s with pmm := p }, addr)
  else if count > pmmBuddyMaxPages then some (s, 0)
  else
    let order := orderForPages count
    match popFirst s (List.range' order (pmmBuddyMaxOrder - order)) with
    | (s, some (allocOrder, addr)) =>
      (splitDown addr order allocOrder s).map fun s => (s.markBlock pmmMarkUsed addr order, addr)
    | (s, none) =>
      let (p, addr) := pmmAllocFrames s.pmm count
      some ({ s with pmm := p }, addr)

/-- The loop that joins a block with its buddies, which `room` more iterations bring to the end of the lists. -/
def coalesce : Nat → PmmBuddy → Nat → Nat → PmmBuddy × Nat × Nat
  | 0, s, addr, order => (s, addr, order)
  | room + 1, s, addr, order =>
    let b := buddyAddr addr order
    if b ∈ s.freeLists order then
      coalesce room
        { s with freeLists := Function.update s.freeLists order ((s.freeLists order).erase b), poolFree := s.poolFree + 1 }
        (if addr < b then addr else b) (order + 1)
    else (s, addr, order)

/-- `pmm_buddy_free_pages`. -/
def pmmBuddyFreePages (s : PmmBuddy) (addr count : Nat) : Option PmmBuddy :=
  if !s.initialized || count == 0 || addr == 0 then some s
  else if count = 1 then some { s with pmm := (pmmFreeFrame s.pmm addr).1 }
  else
    let order := orderForPages count
    let (s, curAddr, curOrder) := coalesce (pmmBuddyMaxOrder - order) s addr order
    (s.push curOrder curAddr).map fun s => s.markBlock pmmMarkFree curAddr curOrder

/-! ## Runs -/

/-- The frames that a call gave out: `count` frames from `addr` on. `listed` says that they are a block of a free list. -/
structure FrameOwner where
  addr : Nat
  count : Nat
  listed : Bool
  deriving DecidableEq, Repr

/-- The frames of an owner. -/
def FrameOwner.frames (r : FrameOwner) : List Nat := List.range' (r.addr / 4096) r.count

/-- The allocators, with what they gave out and did not get back. -/
structure FrameOwners where
  mem : PmmBuddy
  live : List FrameOwner

/-- The calls of both allocators. -/
inductive FrameOp where
  | allocFrame
  | freeFrame (addr : Nat)
  | allocPages (count : Nat)
  | freePages (addr count : Nat)
  deriving DecidableEq, Repr

/-- The block that `pmm_buddy_alloc_pages` finds for an order: the first one of the lowest list, from that order on, that does not
start with a block at address 0. -/
def PmmBuddy.firstBlock (s : PmmBuddy) (order : Nat) : Option Nat :=
  (List.range' order (pmmBuddyMaxOrder - order)).findSome? fun o => (s.freeLists o).head?.filter (· ≠ 0)

/-- The owners after a call that returned `addr`. -/
def FrameOwners.give (s : FrameOwners) (m : PmmBuddy) (addr count : Nat) (listed : Bool) : FrameOwners :=
  ⟨m, if addr = 0 then s.live else ⟨addr, count, listed⟩ :: s.live⟩

/-- A call. A free returns what an allocation gave. -/
def FrameOp.step (s : FrameOwners) : FrameOp → Option FrameOwners
  | .allocFrame =>
    let (p, addr) := pmmAllocFrame s.mem.pmm
    some (s.give { s.mem with pmm := p } addr 1 false)
  | .freeFrame addr =>
    if ⟨addr, 1, false⟩ ∈ s.live then
      some ⟨{ s.mem with pmm := (pmmFreeFrame s.mem.pmm addr).1 }, s.live.erase ⟨addr, 1, false⟩⟩
    else none
  | .allocPages count =>
    (pmmBuddyAllocPages s.mem count).map fun (m, addr) =>
      s.give m addr count (count != 1 && (s.mem.firstBlock (orderForPages count)).isSome)
  | .freePages addr count =>
    match s.live.find? fun r => r.addr = addr ∧ r.count = count with
    | none => none
    | some r => (pmmBuddyFreePages s.mem addr count).map fun m => ⟨m, s.live.erase r⟩

end TsOs
