import TsOs.Kheap
import TsOs.Lib.Bytes
import TsOs.Lib.Chains

/-!
# The slab allocator

`kernel/slab.c`: objects of up to 1024 bytes in slots of heap pages, one list of pages for each of seven sizes. A page starts with
its `slab_page_t`, and a free slot starts with the index of the next free one; both are kept in the bytes of the memory, which
the clients write too. Pointers are addresses, with 0 for a null pointer; the lock and the messages are left out.
-/

namespace TsOs

open Bytes LinkedList

/-- The memory, byte by byte. -/
abbrev Memory : Type := Nat → BitVec 8

/-- `slab_sizes`, of `SLAB_CLASS_COUNT` entries. -/
def slabSizes : Fin 7 → Nat := ![16, 32, 64, 128, 256, 512, 1024]

/-- `SLAB_HEADER_SIZE`: the 40 bytes of a `slab_page_t`, rounded up to a multiple of 16. -/
def slabHeaderSize : Nat := 48

/-- `PAGE_SIZE`. -/
def pageSize : Nat := 4096

/-! ## The fields of a `slab_page_t` -/

def classSize (mem : Memory) (sp : Nat) : Nat := le 8 mem sp
def freeHead (mem : Memory) (sp : Nat) : Nat := le 8 mem (sp + 8)
def usedCount (mem : Memory) (sp : Nat) : Nat := le 8 mem (sp + 16)
def slotCount (mem : Memory) (sp : Nat) : Nat := le 8 mem (sp + 24)

/-- A pointer that may be null. -/
def toPtr (addr : Nat) : Option Nat := if addr = 0 then none else some addr

/-- The field `next`. -/
def slabNext (mem : Memory) (sp : Nat) : Option Nat := toPtr (le 8 mem (sp + 32))

/-- `size_to_class`. `none` stands for -1. -/
def sizeToClass (size : Nat) : Option (Fin 7) := (List.finRange 7).find? (fun i => size ≤ slabSizes i)

/-- `slot_addr`, in 64 bits. -/
def slotAddr (mem : Memory) (sp slotIdx : Nat) : Nat := (sp + slabHeaderSize + slotIdx * classSize mem sp) % 2 ^ 64

/-- An index of the free list of a page: an index past the slots ends the list. -/
def toSlot (mem : Memory) (sp idx : Nat) : Option Nat := if idx < slotCount mem sp then some idx else none

/-- The index stored in a free slot. -/
def slotNext (mem : Memory) (sp slot : Nat) : Option Nat := toSlot mem sp (le 8 mem (slotAddr mem sp slot))

/-- More iterations than a list of distinct slots has. -/
def slotFuel : Nat := 257

/-- More iterations than a list of distinct pages of the heap has. -/
def slabFuel : Nat := 4097

/-! ## One page -/

/-- The number of slots that `slab_page_init` finds room for. -/
def slotsOf (i : Fin 7) : Nat := (pageSize - slabHeaderSize) / slabSizes i

/-- `slab_page_init`. -/
def slabPageInit (mem : Memory) (sp : Nat) (i : Fin 7) : Memory :=
  let objSize := slabSizes i
  let count := slotsOf i
  let mem := putLe 8 mem sp objSize
  let mem := putLe 8 mem (sp + 24) count
  let mem := putLe 8 mem (sp + 16) 0
  let mem := putLe 8 mem (sp + 32) 0
  let mem := (List.range (count - 1)).foldl (fun mem j => putLe 8 mem (slotAddr mem sp j) (j + 1)) mem
  let mem := putLe 8 mem (slotAddr mem sp (count - 1)) count
  putLe 8 mem (sp + 8) 0

/-- `slab_page_alloc`. -/
def slabPageAlloc (mem : Memory) (sp : Nat) : Memory × Nat :=
  if freeHead mem sp ≥ slotCount mem sp then (mem, 0)
  else
    let slot := freeHead mem sp
    let mem := putLe 8 mem (sp + 8) (le 8 mem (slotAddr mem sp slot))
    let mem := putLe 8 mem (sp + 16) (usedCount mem sp + 1)
    (mem, slotAddr mem sp slot)

/-- `slab_page_free`. The walk over the free list looks for the slot that is to be freed. -/
def slabPageFree (mem : Memory) (sp ptr : Nat) : Option (Memory × Bool) :=
  let base := sp + slabHeaderSize
  if ptr < base then some (mem, false)
  else if ptr ≥ sp + pageSize then some (mem, false)
  else if (ptr - base) % classSize mem sp ≠ 0 then some (mem, false)
  else
    let slot := (ptr - base) / classSize mem sp
    match findNode (slotNext mem sp) (fun check => check == slot) slotFuel (toSlot mem sp (freeHead mem sp)) with
    | none => none
    | some (some _) => some (mem, false)
    | some none =>
      let mem := putLe 8 mem (slotAddr mem sp slot) (freeHead mem sp)
      let mem := putLe 8 mem (sp + 8) slot
      some (putLe 8 mem (sp + 16) (usedCount mem sp + (2 ^ 64 - 1)), true)

/-! ## The allocator -/

/-- The static state of `slab.c`, the heap under it and the memory. `g_slab_allocated_bytes` is a `uint64_t`. -/
structure Slab where
  heap : Kheap
  mem : Memory
  lists : Fin 7 → Nat
  allocatedBytes : Nat
  initialized : Bool

/-- `slab_init`. -/
def slabInit (s : Slab) : Slab := { s with lists := fun _ => 0, allocatedBytes := 0, initialized := true }

/-- The end of `slab_alloc`: a slot of the page is taken. -/
def takeSlot (s : Slab) (sp : Nat) : Slab × Nat :=
  let (mem, obj) := slabPageAlloc s.mem sp
  ({ s with
      mem := mem
      allocatedBytes := if obj ≠ 0 then (s.allocatedBytes + classSize mem sp) % 2 ^ 64 else s.allocatedBytes }, obj)

/-- `slab_alloc`. -/
def slabAlloc (s : Slab) (size : BitVec 64) : Option (Slab × Nat) :=
  if !s.initialized ∨ size = 0#64 then some (s, 0)
  else
    match sizeToClass size.toNat with
    | none =>
      let (heap, ptr) := kmalloc s.heap size
      some ({ s with heap := heap }, ptr.toNat)
    | some i =>
      match findNode (slabNext s.mem) (fun sp => !decide (freeHead s.mem sp ≥ slotCount s.mem sp)) slabFuel
          (toPtr (s.lists i)) with
      | none => none
      | some (some sp) => some (takeSlot s sp)
      | some none =>
        let (heap, page) := kmalloc s.heap (BitVec.ofNat 64 pageSize)
        if page = 0#64 then some ({ s with heap := heap }, 0)
        else
          let sp := page.toNat
          let mem := slabPageInit s.mem sp i
          let mem := putLe 8 mem (sp + 32) (s.lists i)
          some (takeSlot { s with heap := heap, mem := mem, lists := Function.update s.lists i sp } sp)

/-- The write `*pp = v` of `slab_free`. -/
def Slab.setLink (s : Slab) (i : Fin 7) (pp : Link Nat) (v : Nat) : Slab :=
  match pp with
  | .head => { s with lists := Function.update s.lists i v }
  | .after p => { s with mem := putLe 8 s.mem (p + 32) v }

/-- The end of `slab_free` for an object of page `sp` of list `i`, whose slot is free by now: a page without objects leaves its
list and goes back to the heap. -/
def releasePage (s : Slab) (i : Fin 7) (sp : Nat) : Option Slab :=
  let s := { s with allocatedBytes := (s.allocatedBytes + (2 ^ 64 - classSize s.mem sp)) % 2 ^ 64 }
  if usedCount s.mem sp = 0 then
    (findLink (slabNext s.mem) (fun p => p == sp) slabFuel .head (toPtr (s.lists i))).bind fun r =>
      let s := match r with
        | some (pp, _) => s.setLink i pp (le 8 s.mem (sp + 32))
        | none => s
      (kfree s.heap (BitVec.ofNat 64 sp)).map fun heap => { s with heap := heap }
  else some s

/-- The inner loop of `slab_free`, over the pages of list `i`: `some none` when it ends, `some (some s)` when `slab_free` returns
from it. -/
def freeInList (s : Slab) (ptr : Nat) (i : Fin 7) : Nat → Option Nat → Option (Option Slab)
  | 0, _ => none
  | _ + 1, none => some none
  | n + 1, some sp =>
    if sp ≤ ptr ∧ ptr < sp + pageSize then
      match slabPageFree s.mem sp ptr with
      | none => none
      | some (mem, true) => (releasePage { s with mem := mem } i sp).map some
      | some (_, false) => freeInList s ptr i n (slabNext s.mem sp)
    else freeInList s ptr i n (slabNext s.mem sp)

/-- The outer loop of `slab_free`, and the fall back to `kfree` behind it. -/
def freeInLists (s : Slab) (ptr : Nat) : List (Fin 7) → Option Slab
  | [] => (kfree s.heap (BitVec.ofNat 64 ptr)).map fun heap => { s with heap := heap }
  | i :: is => (freeInList s ptr i slabFuel (toPtr (s.lists i))).bind fun
    | some s => some s
    | none => freeInLists s ptr is

/-- `slab_free`. -/
def slabFree (s : Slab) (ptr : Nat) : Option Slab :=
  if !s.initialized ∨ ptr = 0 then some s else freeInLists s ptr (List.finRange 7)

end TsOs
