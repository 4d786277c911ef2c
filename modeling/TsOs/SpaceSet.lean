import TsOs.UserSpace

/-!
# Several address spaces

The address spaces that exist at one time, the calls that create, change, copy and destroy them, and the accesses that user code
makes through them. The hardware follows the current page tables.
-/

namespace TsOs

/-- The memory manager with the PML4s of the address spaces that exist. -/
structure LiveSpaces where
  vmm : Vmm
  live : List Nat

/-- `vmm_create_address_space`; the address space exists when the call succeeds. -/
def LiveSpaces.create (s : LiveSpaces) : LiveSpaces :=
  match vmmCreateAddressSpace.run s.vmm with
  | ((_, some as), m) => { vmm := m, live := as.pml4.toList ++ s.live }
  | ((_, none), m) => { s with vmm := m }

/-- The calls on the address spaces. -/
inductive SpacesOp where
  | create
  | map (r : Nat) (v : UserVa) (flags : MapFlags)
  | clone (r d : Nat)
  | fault (r : Nat) (v : UserVa) (errorCode : BitVec 64) (task : Option UserRegions)
  | unmapFree (r : Nat) (v : UserVa)
  | destroy (r : Nat)

/-- One call. It can be made on address spaces that exist, and it does not return when the fault handler halts the machine. -/
def SpacesOp.step (s : LiveSpaces) : SpacesOp → Option LiveSpaces
  | .create => some s.create
  | .map r v flags =>
    if r ∈ s.live then some { s with vmm := ((mapFresh (.ofRoot r) v.addr flags.bits).run s.vmm).2 } else none
  | .clone r d =>
    if r ∈ s.live ∧ d ∈ s.live then some { s with vmm := ((vmmCloneAddressSpace (.ofRoot r) (.ofRoot d)).run s.vmm).2 } else none
  | .fault r v errorCode task =>
    if r ∈ s.live then
      match (handlerPf errorCode v.addr r task).run s.vmm with
      | (true, m) => some { s with vmm := m }
      | (false, _) => none
    else none
  | .unmapFree r v =>
    if r ∈ s.live then some { s with vmm := ((vmmUnmapAndFree (.ofRoot r) v.addr).run s.vmm).2 } else none
  | .destroy r =>
    if r ∈ s.live then
      some { vmm := ((vmmDestroyAddressSpace (.ofRoot r)).run s.vmm).2, live := s.live.filter (· ≠ r) }
    else none

/-! ## User accesses -/

/-- The leaf entry that the hardware finds for an address, when all tables on the way are there. -/
def userLeaf (mem : Nat → Fin 512 → BitVec 64) (cr3 : Nat) (va : BitVec 64) : Option (BitVec 64) :=
  match findLeaf mem cr3 va with
  | .slot t i => some (mem t i)
  | _ => none

/-- The word of a page in which the byte at `va` lies. -/
def wordIndex (va : BitVec 64) : Fin 512 := Fin.ofNat 512 ((va &&& 0xFFF#64) >>> 3).toNat

/-- The position of the byte at `va` in its word, in bits. -/
def byteShift (va : BitVec 64) : Nat := 8 * (va &&& 7#64).toNat

/-- The byte that user code reads at `va`, when the page is present. -/
def readByte (mem : Nat → Fin 512 → BitVec 64) (cr3 : Nat) (va : BitVec 64) : Option (BitVec 8) :=
  match userLeaf mem cr3 va with
  | some e =>
    if hasFlag e ptePresent then some ((mem (frameOf (pteAddr e)) (wordIndex va) >>> byteShift va).setWidth 8) else none
  | none => none

/-- A word with the byte at `va` replaced. -/
def withByte (word va : BitVec 64) (b : BitVec 8) : BitVec 64 :=
  (word &&& ~~~(0xFF#64 <<< byteShift va)) ||| (b.setWidth 64 <<< byteShift va)

/-- User code writes the byte `b` at `va`. The write updates the frame of a page that is present and writable; for any other page
it is a page fault (with the bits for a write in user mode in the error code), after which the instruction is executed again. The
result is false when the fault handler halts the machine. -/
def userWrite (cr3 : Nat) (va : BitVec 64) (b : BitVec 8) (task : Option UserRegions) : VmmM Bool := do
  let m ← get
  match userLeaf m.mem cr3 va with
  | some e =>
    if hasFlag e ptePresent && hasFlag e pteWritable then
      let frame := frameOf (pteAddr e)
      writeEntry frame (wordIndex va) (withByte (m.mem frame (wordIndex va)) va b)
      return true
    else handlerPf (if hasFlag e ptePresent then 7#64 else 6#64) va cr3 task
  | none => handlerPf 6#64 va cr3 task

/-- What happens to address spaces that share pages: they are created and filled, cloned into new ones, and written to. -/
inductive CowOp where
  | create
  | map (r : Nat) (v : UserVa) (flags : MapFlags)
  | clone (r : Nat)
  | write (r : Nat) (v : UserVa) (b : BitVec 8) (task : Option UserRegions)

def CowOp.step (s : LiveSpaces) : CowOp → Option LiveSpaces
  | .create => some s.create
  | .map r v flags => SpacesOp.step s (.map r v flags)
  | .clone r =>
    if r ∈ s.live then
      match vmmCreateAddressSpace.run s.vmm with
      | ((_, some d), m) =>
        some { vmm := ((vmmCloneAddressSpace (.ofRoot r) d).run m).2, live := d.pml4.toList ++ s.live }
      | ((_, none), m) => some { s with vmm := m }
    else none
  | .write r v b task =>
    if r ∈ s.live then
      match (userWrite r v.addr b task).run s.vmm with
      | (true, m) => some { s with vmm := m }
      | (false, _) => none
    else none

end TsOs
