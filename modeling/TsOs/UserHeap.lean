import TsOs.Lib.Bytes

/-!
# The heap of a user program

`libc/userspace/malloc.c`: a list of blocks in address order, whose headers stand in the heap itself, between the bytes that the
program gets. The heap is grown with `sys_brk`, whose answer is an argument of the calls here. Pointers and sizes are 64-bit words;
a field of a header and the bytes of a block are at consecutive addresses.
-/

namespace TsOs

open Bytes

/-- The memory of the process, the static state of `malloc.c`, and the break that the kernel keeps for the process. -/
structure UserHeap where
  mem : Nat → BitVec 8
  head : Nat
  brk : Nat
  base : Nat
  kernelBrk : Nat

namespace UserHeap

/-- `MIN_BLOCK_SIZE`. -/
def minBlockSize : Nat := 16

/-- `BLOCK_HDR_SIZE`: a `size_t`, an `int` with its padding, and a pointer. -/
def blockHdrSize : Nat := 24

/-- More iterations than a loop over distinct blocks makes. -/
def blockFuel : Nat := 2 ^ 64

/-- `blk->size`. -/
def size (h : UserHeap) (blk : Nat) : Nat := le 8 h.mem blk

/-- `blk->free`, as a condition. -/
def isFree (h : UserHeap) (blk : Nat) : Bool := le 4 h.mem (blk + 8) != 0

/-- `blk->next`. -/
def next (h : UserHeap) (blk : Nat) : Nat := le 8 h.mem (blk + 16)

/-- `blk->size = v`. -/
def setSize (h : UserHeap) (blk v : Nat) : UserHeap := { h with mem := putLe 8 h.mem blk v }

/-- `blk->free = v`. -/
def setFree (h : UserHeap) (blk v : Nat) : UserHeap := { h with mem := putLe 4 h.mem (blk + 8) v }

/-- `blk->next = v`. -/
def setNext (h : UserHeap) (blk v : Nat) : UserHeap := { h with mem := putLe 8 h.mem (blk + 16) v }

/-- `sys_brk`: the break for the argument 0; otherwise it is moved to `addr`, or nothing is done. -/
def sysBrk (h : UserHeap) (grant : Bool) (addr : Nat) : UserHeap × BitVec 64 :=
  if addr = 0 then (h, BitVec.ofNat 64 h.kernelBrk)
  else if grant then ({ h with kernelBrk := addr }, BitVec.ofNat 64 addr)
  else (h, -1#64)

/-- `page_align`. -/
def pageAlign (size : Nat) : Nat := (size + 4096 - 1) % 2 ^ 64 &&& (2 ^ 64 - 1 - (2 ^ 12 - 1))

/-- `grow_heap`. -/
def growHeap (h : UserHeap) (grant : Bool) (nbytes : Nat) : UserHeap × Bool :=
  let pages := pageAlign nbytes
  let newBrk := (h.brk + pages) % 2 ^ 64
  let (h, ret) := h.sysBrk grant newBrk
  if ret.toInt < 0 then (h, false) else ({ h with brk := ret.toNat }, true)

/-- `split_block`. -/
def splitBlock (h : UserHeap) (blk size : Nat) : UserHeap :=
  if h.size blk ≥ (size + blockHdrSize + minBlockSize) % 2 ^ 64 then
    let newBlk := (blk + blockHdrSize + size) % 2 ^ 64
    let h := h.setSize newBlk (h.size blk + (2 ^ 64 - size) + (2 ^ 64 - blockHdrSize))
    let h := h.setFree newBlk 1
    let h := h.setNext newBlk (h.next blk)
    let h := h.setNext blk newBlk
    h.setSize blk size
  else h

/-- A block takes in the one behind it. -/
def absorbNext (h : UserHeap) (blk : Nat) : UserHeap :=
  let h := h.setSize blk (h.size blk + (blockHdrSize + h.size (h.next blk)))
  h.setNext blk (h.next (h.next blk))

/-- The loop of `coalesce`, on fuel. -/
def coalesceFrom : Nat → UserHeap → Nat → Option UserHeap
  | 0, _, _ => none
  | n + 1, h, cur =>
    if cur ≠ 0 ∧ h.next cur ≠ 0 then
      if h.isFree cur && h.isFree (h.next cur) then coalesceFrom n (h.absorbNext cur) cur
      else coalesceFrom n h (h.next cur)
    else some h

/-- `coalesce`. -/
def coalesce (h : UserHeap) : Option UserHeap := coalesceFrom blockFuel h h.head

/-- The search of `malloc` for the first free block of at least `size` bytes, on fuel. -/
def findFit (h : UserHeap) (size : Nat) : Nat → Nat → Option (Option Nat)
  | 0, _ => none
  | n + 1, cur =>
    if cur = 0 then some none
    else if h.isFree cur && decide (size ≤ h.size cur) then some (some cur)
    else findFit h size n (h.next cur)

/-- `while (last->next) last = last->next`, on fuel. -/
def lastBlock (h : UserHeap) : Nat → Nat → Option Nat
  | 0, _ => none
  | n + 1, last => if h.next last = 0 then some last else lastBlock h n (h.next last)

/-- A free block is split and handed out. -/
def takeBlock (h : UserHeap) (blk size : Nat) : UserHeap × Nat :=
  let h := h.splitBlock blk size
  (h.setFree blk 0, (blk + blockHdrSize) % 2 ^ 64)

/-- The header of a block that `malloc` adds at the end. -/
def newHeader (h : UserHeap) (blk needed : Nat) : UserHeap :=
  let h := h.setSize blk (needed + (2 ^ 64 - blockHdrSize))
  let h := h.setFree blk 0
  h.setNext blk 0

/-- `malloc` once the heap has been grown by `needed` bytes: the last block is extended if it is free, otherwise one is added behind
it. -/
def mallocGrown (h : UserHeap) (size needed : Nat) : Option (UserHeap × Nat) :=
  if h.head ≠ 0 then
    (h.lastBlock blockFuel h.head).bind fun last =>
      if h.isFree last then
        let h := h.setSize last (h.size last + needed)
        some (h.takeBlock last size)
      else
        let newBlk := (last + blockHdrSize + h.size last) % 2 ^ 64
        let h := h.newHeader newBlk needed
        (h.lastBlock blockFuel h.head).map fun last => (h.setNext last newBlk, (newBlk + blockHdrSize) % 2 ^ 64)
  else
    let newBlk := h.base
    let h := h.newHeader newBlk needed
    some ({ h with head := newBlk }, (newBlk + blockHdrSize) % 2 ^ 64)

/-- The size `malloc` gives for a request: a multiple of 8, at least `MIN_BLOCK_SIZE`. -/
def alignSize (size : Nat) : Nat :=
  let size := (size + 7) % 2 ^ 64 &&& (2 ^ 64 - 1 - (2 ^ 3 - 1))
  if size < minBlockSize then minBlockSize else size

/-- The first call of `malloc` asks for the break. -/
def initHeap (h : UserHeap) (grant : Bool) : Option UserHeap :=
  if h.base = 0 then
    let (h, ret) := h.sysBrk grant 0
    if ret.toInt < 0 then none else some { h with base := ret.toNat, brk := ret.toNat }
  else some h

/-- `malloc`. -/
def malloc (h : UserHeap) (grant : Bool) (size : Nat) : Option (UserHeap × Nat) :=
  if size = 0 then some (h, 0)
  else
    let size := alignSize size
    match h.initHeap grant with
    | none => some (h, 0)
    | some h =>
      match h.findFit size blockFuel h.head with
      | none => none
      | some (some cur) => some (h.takeBlock cur size)
      | some none =>
        let needed := (size + blockHdrSize) % 2 ^ 64
        match h.growHeap grant needed with
        | (h, false) => some (h, 0)
        | (h, true) => h.mallocGrown size needed

/-- `for (i = 0; i < n; i++) dst[i] = 0`. -/
def zeroBytes (mem : Nat → BitVec 8) (dst : Nat) : Nat → Nat → BitVec 8
  | 0 => mem
  | n + 1 => Function.update (zeroBytes mem dst n) (dst + n) 0#8

/-- `for (i = 0; i < n; i++) dst[i] = src[i]`. -/
def copyBytes (mem : Nat → BitVec 8) (dst src : Nat) : Nat → Nat → BitVec 8
  | 0 => mem
  | n + 1 => Function.update (copyBytes mem dst src n) (dst + n) (copyBytes mem dst src n (src + n))

/-- `calloc`. -/
def calloc (h : UserHeap) (grant : Bool) (nmemb size : Nat) : Option (UserHeap × Nat) :=
  if nmemb = 0 ∨ size = 0 then some (h, 0)
  else
    let total := nmemb * size % 2 ^ 64
    if total / nmemb ≠ size then some (h, 0)
    else
      (h.malloc grant total).map fun (h, p) =>
        if p = 0 then (h, 0) else ({ h with mem := zeroBytes h.mem p total }, p)

/-- The header of the block whose bytes are at `ptr`. -/
def headerOf (ptr : Nat) : Nat := (ptr + (2 ^ 64 - blockHdrSize)) % 2 ^ 64

/-- `free`. -/
def free (h : UserHeap) (ptr : Nat) : Option UserHeap :=
  if ptr = 0 then some h else (h.setFree (headerOf ptr) 1).coalesce

/-- `realloc`. -/
def realloc (h : UserHeap) (grant : Bool) (ptr size : Nat) : Option (UserHeap × Nat) :=
  if ptr = 0 then h.malloc grant size
  else if size = 0 then (h.free ptr).map fun h => (h, 0)
  else
    let blk := headerOf ptr
    if h.size blk ≥ size then some (h, ptr)
    else
      let avail := (h.size blk + blockHdrSize + h.size (h.next blk)) % 2 ^ 64
      if h.next blk ≠ 0 ∧ h.isFree (h.next blk) = true ∧ avail ≥ size then
        some ((h.absorbNext blk).splitBlock blk size, ptr)
      else
        (h.malloc grant size).bind fun (h, newPtr) =>
          if newPtr = 0 then some (h, 0)
          else
            let copySize := if h.size blk < size then h.size blk else size
            (free { h with mem := copyBytes h.mem newPtr ptr copySize } ptr).map fun h => (h, newPtr)

end UserHeap

/-! ## A program that uses the heap -/

/-- A call of the program; `grant` says whether the kernel moves the break if it is asked to. -/
inductive HeapOp where
  | malloc (grant : Bool) (size : Nat)
  | calloc (grant : Bool) (nmemb size : Nat)
  | realloc (grant : Bool) (ptr size : Nat)
  | free (ptr : Nat)
  | write (addr : Nat) (byte : BitVec 8)

/-- What the program has been given and has not given back: the pointer and the size it asked for. -/
structure LiveBlock where
  ptr : Nat
  size : Nat
  deriving DecidableEq

/-- The heap, what the program holds of it, and what the last call has returned. -/
structure HeapUse where
  heap : UserHeap
  live : List LiveBlock
  ret : Nat

/-- A pointer that is not null is recorded. -/
def recordLive (live : List LiveBlock) (ptr size : Nat) : List LiveBlock := if ptr = 0 then live else ⟨ptr, size⟩ :: live

/-- A pointer that has been given back is forgotten. -/
def dropLive (live : List LiveBlock) (ptr : Nat) : List LiveBlock := live.filter fun l => l.ptr ≠ ptr

/-- The call, and what the program holds afterwards. -/
def HeapOp.step (s : HeapUse) : HeapOp → Option HeapUse
  | .malloc grant size => (s.heap.malloc grant size).map fun (h, r) => ⟨h, recordLive s.live r size, r⟩
  | .calloc grant nmemb size => (s.heap.calloc grant nmemb size).map fun (h, r) => ⟨h, recordLive s.live r (nmemb * size), r⟩
  | .realloc grant ptr size => (s.heap.realloc grant ptr size).map fun (h, r) =>
    ⟨h, if r = 0 ∧ size ≠ 0 then s.live else recordLive (dropLive s.live ptr) r size, r⟩
  | .free ptr => (s.heap.free ptr).map fun h => ⟨h, dropLive s.live ptr, 0⟩
  | .write addr byte => some ⟨{ s.heap with mem := Function.update s.heap.mem addr byte }, s.live, 0⟩

end TsOs
