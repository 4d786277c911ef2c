import TsOs.SpaceSet

/-!
# The translation cache

The TLB of the processor while an address space is active: it may hold any leaf entry that was present at some time and was not
dropped since, by `pt_invlpg` of its page or by a load of CR3. The calls of the memory manager are run with the invalidations they
make.
-/

namespace TsOs

/-- The leaf entries that the TLB may hold for an address. -/
abbrev Tlb := BitVec 64 → BitVec 64 → Prop

/-- What a call drops from the TLB. -/
inductive Invalidation where
  | nothing
  | page (va : BitVec 64)
  | all
  deriving DecidableEq, Repr

/-- Whether the entries for an address are dropped; `invlpg` drops those of the whole page. -/
def Invalidation.Drops (va : BitVec 64) : Invalidation → Prop
  | .nothing => False
  | .page va' => va &&& ~~~0xFFF#64 = va' &&& ~~~0xFFF#64
  | .all => True

def Tlb.drop (tlb : Tlb) (inv : Invalidation) : Tlb := fun va e => tlb va e ∧ ¬ inv.Drops va

/-- The processor may load any leaf entry that is present. -/
def Tlb.fill (tlb : Tlb) (mem : Nat → Fin 512 → BitVec 64) (cr3 : Nat) : Tlb :=
  fun va e => tlb va e ∨ userLeaf mem cr3 va = some e ∧ hasFlag e ptePresent = true

/-- The memory manager with the TLB. -/
structure CachedSpace where
  vmm : Vmm
  tlb : Tlb

/-- The state after a load of CR3. -/
def CachedSpace.loaded (cr3 : Nat) (m : Vmm) : CachedSpace := { vmm := m, tlb := Tlb.fill (fun _ _ => False) m.mem cr3 }

/-- The calls on the active address space. `alloc` provides frames to be mapped. -/
inductive TlbOp where
  | alloc
  | map (v : UserVa) (frame : Nat) (flags : MapFlags)
  | merge (v : UserVa) (frame : Nat) (flags : MapFlags)
  | mapDemand (v : UserVa) (flags : MapFlags)
  | unmap (v : UserVa)
  | unmapFree (v : UserVa)
  | fault (v : UserVa) (errorCode : BitVec 64) (task : Option UserRegions)
  | clone
  | switch

/-- One call with the address space of PML4 `cr3` active. The result is what the call drops from the TLB; it is `none` when the fault
handler halts the machine. A clone goes to a new address space. -/
def TlbOp.exec (cr3 : Nat) : TlbOp → VmmM (Option Invalidation)
  | .alloc => do
    let _ ← allocFrame
    return some .nothing
  | .map v frame flags => do
    let st ← vmmMapPage (.ofRoot cr3) v.addr (frameAddr frame) flags.bits
    return some (if st = .ok then .page v.addr else .nothing)
  | .merge v frame flags => do
    let (_, flushed) ← vmmMapPageMerge (.ofRoot cr3) v.addr (frameAddr frame) flags.bits
    return some (if flushed then .page v.addr else .nothing)
  | .mapDemand v flags => do
    let st ← vmmMapDemandPage (.ofRoot cr3) v.addr flags.bits
    return some (if st = .ok then .page v.addr else .nothing)
  | .unmap v => do
    let st ← vmmUnmapPage (.ofRoot cr3) v.addr
    return some (if st = .ok then .page v.addr else .nothing)
  | .unmapFree v => do
    let st ← vmmUnmapAndFree (.ofRoot cr3) v.addr
    return some (if st = .ok then .page v.addr else .nothing)
  | .fault v errorCode task => do
    if ← handlerPf errorCode v.addr cr3 task then return some (.page v.addr) else return none
  | .clone => do
    match ← vmmCreateAddressSpace with
    | (_, none) => return some .nothing
    | (_, some dst) =>
      let _ ← vmmCloneAddressSpace (.ofRoot cr3) dst
      return some .nothing
  | .switch => return some .all

/-- One call, with the TLB: entries that the call does not drop stay, and the entries of the new tables may be loaded. A call changes
no leaf entry twice, so that no other entry is present in between. -/
def TlbOp.step (cr3 : Nat) (s : CachedSpace) (op : TlbOp) : Option CachedSpace :=
  match (op.exec cr3).run s.vmm with
  | (none, _) => none
  | (some inv, m) => some { vmm := m, tlb := (s.tlb.drop inv).fill m.mem cr3 }

end TsOs
