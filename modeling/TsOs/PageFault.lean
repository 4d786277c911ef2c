import TsOs.Vmm

/-!
# The page-fault handler

`handler_pf` of `kernel/main.c`: demand pages are given a frame and copy-on-write pages a copy; any other fault halts the
machine. The counter of nested faults and the messages are left out.
-/

namespace TsOs

/-- The fields of the running task that the handler reads. -/
structure UserRegions where
  stackBase : BitVec 64
  stackSize : BitVec 64
  heapStart : BitVec 64
  heapBrk : BitVec 64

/-- What the walk of the handler finds: a level that is not present, a huge page, or the leaf slot. -/
inductive LeafLookup where
  | absent
  | huge
  | slot (table : Nat) (index : Fin 512)
  deriving DecidableEq, Repr

/-- The walk of the handler from the table root in CR3. -/
def findLeaf (mem : Nat → Fin 512 → BitVec 64) (pml4 : Nat) (va : BitVec 64) : LeafLookup :=
  let pml4e := mem pml4 (pml4Index va)
  if !hasFlag pml4e ptePresent then .absent
  else
    let pdpe := mem (frameOf (pteAddr pml4e)) (pdptIndex va)
    if !hasFlag pdpe ptePresent then .absent
    else if hasFlag pdpe ptePs then .huge
    else
      let pde := mem (frameOf (pteAddr pdpe)) (pdIndex va)
      if !hasFlag pde ptePresent then .absent
      else if hasFlag pde ptePs then .huge
      else .slot (frameOf (pteAddr pde)) (ptIndex va)

/-- The addresses at which the handler resolves demand pages: the kernel half, the stack and the heap of the task. -/
def validDemand (task : Option UserRegions) (va : BitVec 64) : Bool :=
  if vaIsKernel va then true
  else
    match task with
    | none => false
    | some t =>
      (t.stackBase.ule va && va.ult (t.stackBase + t.stackSize)) ||
      (t.heapStart != 0#64 && t.heapStart.ule va && va.ult t.heapBrk)

/-- The outcome of one part of the handler: resolved, halted, or left to the next part. -/
inductive FaultStep where
  | resolved
  | halt
  | pass
  deriving DecidableEq, Repr

/-- The demand-page part of the handler. -/
def resolveDemand (errorCode page : BitVec 64) (cr3 : Nat) (task : Option UserRegions) : VmmM FaultStep := do
  if !(!hasFlag errorCode 1#64 && (vaIsKernel page || vaIsUser page) && validDemand task page) then return .pass
  else
    match findLeaf (← get).mem cr3 page with
    | .absent => return .pass
    | .huge => return .halt
    | .slot table i =>
      let oldPte ← readEntry table i
      if !hasFlag oldPte pteDemand then return .pass
      else
        let newFrame ← allocFrame
        if newFrame = 0#64 then return .halt
        else
          zeroPage (frameOf newFrame)
          writeEntry table i (pteMake newFrame ((oldPte &&& ~~~(pteDemand ||| pteAddrMask)) ||| ptePresent))
          return .resolved

/-- The copy-on-write part of the handler. -/
def resolveCow (errorCode page : BitVec 64) (cr3 : Nat) : VmmM FaultStep := do
  if !(hasFlag errorCode 2#64 && vaIsUser page) then return .halt
  else
    match findLeaf (← get).mem cr3 page with
    | .absent => return .halt
    | .huge => return .halt
    | .slot table i =>
      let oldPte ← readEntry table i
      if !hasFlag oldPte pteCow then return .halt
      else
        let newFrame ← allocFrame
        if newFrame = 0#64 then return .halt
        else
          copyPage (frameOf newFrame) (frameOf (pteAddr oldPte))
          writeEntry table i (pteMake newFrame ((pteFlags oldPte ||| pteWritable) &&& ~~~pteCow))
          return .resolved

/-- `handler_pf`: whether the fault is resolved; otherwise the kernel panics. -/
def handlerPf (errorCode cr2 : BitVec 64) (cr3 : Nat) (task : Option UserRegions) : VmmM Bool := do
  let page := cr2 &&& ~~~0xFFF#64
  match ← resolveDemand errorCode page cr3 task with
  | .resolved => return true
  | .halt => return false
  | .pass =>
    match ← resolveCow errorCode page cr3 with
    | .resolved => return true
    | _ => return false

end TsOs
