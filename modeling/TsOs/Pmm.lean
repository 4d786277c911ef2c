import Mathlib

/-!
# The physical memory manager

`kernel/pmm.c`: one bit for each 4 KiB frame, set while the frame is used. Addresses are natural numbers below `2 ^ 64`; the
calls run one after the other, so the lock is not part of the state, nor is `g_reserved_frames`, which only the statistics read.
-/

namespace TsOs

/-- `PMM_MAX_FRAMES`. -/
def pmmMaxFrames : Nat := 2 ^ 20

/-- The static state of `pmm.c`. `g_total_frames` never exceeds `PMM_MAX_FRAMES`. -/
structure Pmm where
  bitmap : Nat → BitVec 64
  totalFrames : Nat
  freeFrames : BitVec 64
  initialized : Bool
  total_le : totalFrames ≤ pmmMaxFrames

/-- `pmm_status_t`. -/
inductive PmmStatus where
  | ok
  | notInit
  | invalid
  | alreadyFree
  deriving DecidableEq, Repr

/-- `_bit_mask`. -/
def bitMask (n : Nat) : BitVec 64 := 1#64 <<< (n % 64)

/-- `_is_used`. -/
def Pmm.isUsed (p : Pmm) (n : Nat) : Bool := p.bitmap (n / 64) &&& bitMask n != 0#64

/-- `_set_used`. -/
def Pmm.setUsed (p : Pmm) (n : Nat) : Pmm :=
  { p with bitmap := Function.update p.bitmap (n / 64) (p.bitmap (n / 64) ||| bitMask n) }

/-- `_set_free`. -/
def Pmm.setFree (p : Pmm) (n : Nat) : Pmm :=
  { p with bitmap := Function.update p.bitmap (n / 64) (p.bitmap (n / 64) &&& ~~~bitMask n) }

/-- The bits of word `w` that `pmm_alloc_frame` may pick: free frames, without frame 0 and those past the total. -/
def Pmm.freeBits (p : Pmm) (nWords w : Nat) : BitVec 64 :=
  let freeBits := ~~~p.bitmap w
  let freeBits := if w = 0 then freeBits &&& ~~~1#64 else freeBits
  if w = nWords - 1 ∧ p.totalFrames % 64 ≠ 0 then freeBits &&& (1#64 <<< (p.totalFrames % 64) - 1#64) else freeBits

/-- The loop of `pmm_alloc_frame` over the words. -/
def allocScan (p : Pmm) (nWords : Nat) : List Nat → Pmm × Nat
  | [] => (p, 0)
  | w :: ws =>
    if p.bitmap w = BitVec.allOnes 64 then allocScan p nWords ws
    else if p.freeBits nWords w = 0#64 then allocScan p nWords ws
    else
      let frame := w * 64 + (p.freeBits nWords w).ctz.toNat
      if frame ≥ p.totalFrames then (p, 0)
      else ({ p.setUsed frame with freeFrames := p.freeFrames - 1 }, frame * 4096)

/-- `pmm_alloc_frame`. The result is a physical address, or 0. -/
def pmmAllocFrame (p : Pmm) : Pmm × Nat :=
  if !p.initialized then (p, 0)
  else
    let nWords := (p.totalFrames + 63) / 64
    let nWords := if nWords = 0 then 1 else nWords
    allocScan p nWords (List.range nWords)

/-- `pmm_free_frame`. -/
def pmmFreeFrame (p : Pmm) (addr : Nat) : Pmm × PmmStatus :=
  if !p.initialized then (p, .notInit)
  else if addr % 4096 ≠ 0 then (p, .invalid)
  else
    let frame := addr / 4096
    if frame = 0 ∨ frame ≥ p.totalFrames then (p, .invalid)
    else if !p.isUsed frame then (p, .alreadyFree)
    else ({ p.setFree frame with freeFrames := p.freeFrames + 1 }, .ok)

/-- The search of `pmm_alloc_frames` for `count` free frames in a row, given the run that ends before the frames to come. -/
def findRun (p : Pmm) (count : Nat) : List Nat → Nat → Nat → Option Nat
  | [], _, _ => none
  | f :: fs, runStart, runLen =>
    if !p.isUsed f then
      let runStart := if runLen = 0 then f else runStart
      if runLen + 1 = count then some runStart else findRun p count fs runStart (runLen + 1)
    else findRun p count fs runStart 0

/-- `pmm_alloc_frames`. -/
def pmmAllocFrames (p : Pmm) (count : Nat) : Pmm × Nat :=
  if !p.initialized || count == 0 then (p, 0)
  else if count = 1 then pmmAllocFrame p
  else if count > p.freeFrames.toNat then (p, 0)
  else
    match findRun p count (List.range' 1 (p.totalFrames - 1)) 0 0 with
    | none => (p, 0)
    | some runStart =>
      ((List.range' runStart count).foldl (fun p i => { p.setUsed i with freeFrames := p.freeFrames - 1 }) p, runStart * 4096)

/-- `pmm_mark_used`. -/
def pmmMarkUsed (p : Pmm) (addr : Nat) : Pmm :=
  if addr % 4096 ≠ 0 then p
  else
    let frame := addr / 4096
    if frame ≥ p.totalFrames then p
    else if !p.isUsed frame then { p.setUsed frame with freeFrames := p.freeFrames - 1 }
    else p

/-- `pmm_mark_free`. -/
def pmmMarkFree (p : Pmm) (addr : Nat) : Pmm :=
  if addr % 4096 ≠ 0 then p
  else
    let frame := addr / 4096
    if frame = 0 then p
    else if frame ≥ p.totalFrames then p
    else if p.isUsed frame then { p.setFree frame with freeFrames := p.freeFrames + 1 }
    else p

end TsOs
