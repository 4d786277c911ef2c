import TsOs.Lib.Buddy
import TsOs.Lib.Linked

/-!
# The kernel heap

`kernel/kheap.c`: a buddy allocator over the 4096 pages from `HEAP_BASE` on. The free blocks of each level are on a singly
linked list of nodes taken from a static pool; two arrays of bytes tag every page. The lock and the demand page-table entries
that `kheap_init` writes are not part of the state, and of the log only the one line that reports a fault is kept.
-/

namespace TsOs

open LinkedList

/-- `HEAP_BASE`. -/
def heapBase : Nat := 0xFFFFFFFFC0000000

/-- `HEAP_PAGE_COUNT`. -/
def heapPageCount : Nat := 4096

/-- `HEAP_END`, 16 MiB above the base. -/
def heapEnd : Nat := heapBase + 16 * 1024 * 1024

/-- `BUDDY_MAX_LEVEL`. -/
def buddyMaxLevel : Nat := 11

/-- `PAGE_ALLOCATED`. -/
def pageAllocated : Nat := 0xFF

/-- `PAGE_INTERIOR`. -/
def pageInterior : Nat := 0xFE

/-- A pointer to a `free_node_t`: an index of `g_node_pool`, of `FREE_NODE_POOL_SIZE` entries. -/
abbrev FreeNode : Type := Fin 8192

/-- More iterations than a list of distinct nodes has. -/
def nodeFuel : Nat := 8193

/-- The free lists and the pool their nodes come from: `pageIdx` and `next` are the fields of the nodes, `poolHead` is
`g_pool_free`. `exhausted` says that `fl_push` has logged "FATAL: free-node pool exhausted" since `kheap_init`. -/
structure FreeStore where
  pageIdx : FreeNode → Nat
  next : FreeNode → Option FreeNode
  poolHead : Option FreeNode
  freeList : Nat → Option FreeNode
  exhausted : Bool

/-- The bytes `g_block_level` and `g_alloc_level` of the pages. -/
structure PageTags where
  blockLevel : Nat → Nat
  allocLevel : Nat → Nat

/-- The static state of `kheap.c`. The counters are `uint64_t`. -/
structure Kheap where
  store : FreeStore
  tags : PageTags
  allocatedPages : Nat
  totalAllocs : Nat
  activeAllocs : Nat
  initialized : Bool

/-- `pool_init`, its loop in closed form. -/
def poolInit (s : FreeStore) : FreeStore :=
  { s with next := fun i => if hi : i.val + 1 < 8192 then some ⟨i.val + 1, hi⟩ else none, poolHead := some 0 }

/-- `pool_alloc`. -/
def poolAlloc (s : FreeStore) : FreeStore × Option FreeNode :=
  match s.poolHead with
  | none => (s, none)
  | some n => ({ s with poolHead := s.next n, next := Function.update s.next n none }, some n)

/-- `pool_free`. -/
def poolFree (s : FreeStore) (n : FreeNode) : FreeStore :=
  { s with next := Function.update s.next n s.poolHead, poolHead := some n }

/-- `vaddr_to_page`. -/
def vaddrToPage (vaddr : Nat) : Nat := (vaddr - heapBase) >>> 12

/-- `page_to_vaddr`. -/
def pageToVaddr (page : Nat) : BitVec 64 := BitVec.ofNat 64 (heapBase + page <<< 12)

/-- `fl_push`. -/
def flPush (s : FreeStore) (level page : Nat) : FreeStore × Bool :=
  match poolAlloc s with
  | (s, none) => ({ s with exhausted := true }, false)
  | (s, some n) =>
    ({ s with pageIdx := Function.update s.pageIdx n page, next := Function.update s.next n (s.freeList level),
              freeList := Function.update s.freeList level (some n) }, true)

/-- The write `*pp = v` of `fl_remove`. -/
def FreeStore.setLink (s : FreeStore) (level : Nat) (pp : Link FreeNode) (v : Option FreeNode) : FreeStore :=
  match pp with
  | .head => { s with freeList := Function.update s.freeList level v }
  | .after p => { s with next := Function.update s.next p v }

/-- `fl_remove`. -/
def flRemove (s : FreeStore) (level page : Nat) : Option (FreeStore × Bool) :=
  match findLink s.next (fun n => s.pageIdx n == page) nodeFuel .head (s.freeList level) with
  | none => none
  | some none => some (s, false)
  | some (some (pp, dead)) => some (poolFree (s.setLink level pp (s.next dead)) dead, true)

/-- `fl_pop`. -/
def flPop (s : FreeStore) (level : Nat) : FreeStore × Nat :=
  match s.freeList level with
  | none => (s, heapPageCount)
  | some n => (poolFree { s with freeList := Function.update s.freeList level (s.next n) } n, s.pageIdx n)

/-- `fl_has`. -/
def flHas (s : FreeStore) (level : Nat) : Bool := (s.freeList level).isSome

/-- `mark_block_free`, its loop in closed form. -/
def markBlockFree (t : PageTags) (start level : Nat) : PageTags :=
  { blockLevel := fun p =>
      if p = start then level % 256
      else if start < p ∧ p < start + 2 ^ level then pageInterior
      else t.blockLevel p
    allocLevel := fun p => if start ≤ p ∧ p < start + 2 ^ level then 0 else t.allocLevel p }

/-- `mark_block_allocated`, its loop in closed form. -/
def markBlockAllocated (t : PageTags) (start level : Nat) : PageTags :=
  { blockLevel := fun p => if start ≤ p ∧ p < start + 2 ^ level then pageAllocated else t.blockLevel p
    allocLevel := fun p => if start ≤ p ∧ p < start + 2 ^ level then (level + 1) % 256 else t.allocLevel p }

/-- `buddy_of`. -/
def buddyOf (page level : Nat) : Nat := page ^^^ 2 ^ level

/-- The loop of `min_level_for_pages`. -/
def minLevelLoop (pages : Nat) : Nat → Nat → Nat → Nat
  | 0, level, _ => level
  | n + 1, level, blockSize =>
    if blockSize < pages ∧ level < buddyMaxLevel then minLevelLoop pages n (level + 1) (blockSize * 2 % 2 ^ 64) else level

/-- `min_level_for_pages`. The level grows with each iteration, so there are at most 11 of them. -/
def minLevelForPages (pages : Nat) : Nat := minLevelLoop (if pages = 0 then 1 else pages) 11 0 1

/-- `buddy_split`, by recursion on the level the loop stands at. -/
def buddySplit (start toLevel : Nat) : Nat → FreeStore × PageTags → FreeStore × PageTags
  | 0, h => h
  | childLevel + 1, (s, t) =>
    if childLevel + 1 > toLevel then
      let right := start + 2 ^ childLevel
      let t := markBlockFree t right childLevel
      let s := (flPush s childLevel right).1
      let t := { t with blockLevel := Function.update t.blockLevel start (childLevel % 256) }
      buddySplit start toLevel childLevel (s, t)
    else (s, t)

/-- `buddy_coalesce`, on fuel. -/
def buddyCoalesce : Nat → FreeStore × PageTags → Nat → Nat → Option (FreeStore × PageTags)
  | 0, _, _, _ => none
  | n + 1, (s, t), start, level =>
    if level < buddyMaxLevel then
      let buddy := buddyOf start level
      if buddy ≥ heapPageCount then some (s, t)
      else if t.blockLevel buddy ≠ level % 256 then some (s, t)
      else
        (flRemove s level start).bind fun (s, _) =>
        (flRemove s level buddy).bind fun (s, _) =>
        let merged := if buddy < start then buddy else start
        let t := markBlockFree t merged (level + 1)
        let s := (flPush s (level + 1) merged).1
        buddyCoalesce n (s, t) merged (level + 1)
    else some (s, t)

/-- The lists once `kheap_init` has linked the pool and cleared the heads. -/
def clearLists (s : FreeStore) : FreeStore :=
  { poolInit s with freeList := fun i => if i < 12 then none else s.freeList i, exhausted := false }

/-- The tags once `kheap_init` has marked every page as allocated, by no allocation. -/
def clearTags (t : PageTags) : PageTags :=
  { blockLevel := fun i => if i < heapPageCount then pageAllocated else t.blockLevel i
    allocLevel := fun i => if i < heapPageCount then 0 else t.allocLevel i }

/-- `kheap_init`. -/
def kheapInit (h : Kheap) : Kheap :=
  let s := clearLists h.store
  let t := clearTags h.tags
  let half := 2 ^ buddyMaxLevel
  let t := markBlockFree t 0 buddyMaxLevel
  let s := (flPush s buddyMaxLevel 0).1
  let t := markBlockFree t half buddyMaxLevel
  let s := (flPush s buddyMaxLevel half).1
  { store := s, tags := t, allocatedPages := 0, totalAllocs := 0, activeAllocs := 0, initialized := true }

/-- The first loop of `kmalloc`: the first level from `level` on whose free list is not empty. -/
def firstLevel (s : FreeStore) : Nat → Nat → Nat
  | 0, level => level
  | n + 1, level => if level ≤ buddyMaxLevel ∧ !flHas s level then firstLevel s n (level + 1) else level

/-- The level `kmalloc` allocates a block of for a request of `size` bytes. -/
def needLevel (size : BitVec 64) : Nat :=
  let pages := (size.toNat + 4096 - 1) % 2 ^ 64 / 4096
  minLevelForPages (if pages = 0 then 1 else pages)

/-- `kmalloc`, which returns a null pointer when there is no block. The first loop has at most 12 iterations. -/
def kmalloc (h : Kheap) (size : BitVec 64) : Kheap × BitVec 64 :=
  if !h.initialized then (h, 0#64)
  else
    let need := needLevel size
    let allocLevel := firstLevel h.store 12 need
    if allocLevel > buddyMaxLevel then (h, 0#64)
    else
      let (s, pg) := flPop h.store allocLevel
      if pg ≥ heapPageCount then ({ h with store := s }, 0#64)
      else
        let (s, t) := if allocLevel > need then buddySplit pg need allocLevel (s, h.tags) else (s, h.tags)
        let t := markBlockAllocated t pg need
        ({ h with
            store := s
            tags := t
            allocatedPages := (h.allocatedPages + 2 ^ need) % 2 ^ 64
            totalAllocs := (h.totalAllocs + 1) % 2 ^ 64
            activeAllocs := (h.activeAllocs + 1) % 2 ^ 64 }, pageToVaddr pg)

/-- `kfree`. -/
def kfree (h : Kheap) (ptr : BitVec 64) : Option Kheap :=
  if !h.initialized then some h
  else if ptr = 0#64 then some h
  else
    let vaddr := ptr.toNat
    if vaddr < heapBase ∨ vaddr ≥ heapEnd then some h
    else if vaddr % 4096 ≠ 0 then some h
    else
      let pg := vaddrToPage vaddr
      if h.tags.blockLevel pg ≠ pageAllocated ∨ h.tags.allocLevel pg = 0 then some h
      else
        let level := h.tags.allocLevel pg - 1
        -- `pg & ~((1u << level) - 1)` in 32 bits
        let head := pg &&& (2 ^ 32 - 1 - (2 ^ level - 1))
        let t := markBlockFree h.tags head level
        let s := (flPush h.store level head).1
        (buddyCoalesce 12 (s, t) head level).map (fun (s, t) =>
          { h with
            store := s
            tags := t
            allocatedPages := (h.allocatedPages + (2 ^ 64 - 2 ^ level)) % 2 ^ 64
            activeAllocs := (h.activeAllocs + (2 ^ 64 - 1)) % 2 ^ 64 })

/-- The locals of `kheap_verify_integrity`: `ok`, `visited` and `free_pages_from_lists`. -/
structure Verify where
  ok : Bool
  visited : Nat → Bool
  freePages : Nat

/-- The body of the inner loop of `kheap_verify_integrity`, for a node on the list of level `lvl`. -/
def verifyNode (h : Kheap) (lvl : Nat) (v : Verify) (n : FreeNode) : Verify :=
  let pg := h.store.pageIdx n
  if pg ≥ heapPageCount then { v with ok := false }
  else
    { ok := v.ok && h.tags.blockLevel pg == lvl % 256 && !v.visited pg &&
        (List.range' 1 (2 ^ lvl - 1)).all (fun i => pg + i ≥ heapPageCount || h.tags.blockLevel (pg + i) == pageInterior)
      visited := Function.update v.visited pg true
      freePages := (v.freePages + 2 ^ lvl) % 2 ^ 64 }

/-- The outer loop of `kheap_verify_integrity`, over the given levels. -/
def verifyLevels (h : Kheap) : List Nat → Verify → Option Verify
  | [], v => some v
  | lvl :: lvls, v => (forEach h.store.next (verifyNode h lvl) nodeFuel v (h.store.freeList lvl)).bind (verifyLevels h lvls)

/-- `kheap_verify_integrity`. -/
def kheapVerifyIntegrity (h : Kheap) : Option Nat :=
  if !h.initialized then some 0
  else (verifyLevels h (List.range 12) { ok := true, visited := fun _ => false, freePages := 0 }).map fun v =>
    let expectedFree := (heapPageCount + (2 ^ 64 - h.allocatedPages)) % 2 ^ 64
    if v.ok ∧ v.freePages = expectedFree then 1 else 0

end TsOs
