import TsOs.Process
import TsOs.UserMemory
import TsOs.Elf

/-!
# The address spaces of tasks

The part of `scheduler_tick`, `sys_fork`, `sys_execve`, `sys_wait`, `sys_exit` and of `task_create`, `task_destroy` and `task_wait`
that deals with address spaces: which one a task has, when CR3 is loaded, and when an address space is created and destroyed. The
blocks that `slab_alloc` returns are arguments of the calls. A block that was freed keeps its content until it is a task again. The
store of the exit status by `sys_wait` is a write through the address space of the caller that follows the call. Stacks, saved
registers and descriptor tables are not part of the state.
-/

namespace TsOs

open LinkedList

/-- A pointer to an `address_space_t`. -/
abbrev SpacePtr := BitVec 64

/-- The tasks with their address spaces, the memory manager and CR3, as the frame of the PML4 that is loaded. `taskList` is
`g_task_list`, which the idle task is not on, and `kernelSpace` the address of `g_kernel_aspace`. -/
structure Kernel where
  procs : Processes
  nextPid : Nat
  taskList : List TaskPtr
  vmm : Vmm
  isKernel : TaskPtr → Bool
  addressSpace : TaskPtr → Option SpacePtr
  regions : TaskPtr → UserRegions
  spaces : SpacePtr → AddressSpace
  kernelSpace : SpacePtr
  cr3 : Nat

/-- The tasks that exist. -/
def Kernel.tasks (k : Kernel) : List TaskPtr := k.procs.sched.idle.toList ++ k.taskList

/-- The state of a task. -/
def Kernel.state (k : Kernel) (t : TaskPtr) : TaskState := (k.procs.sched.mlfq.tasks t).state

/-- The address space of a task. The memory manager treats a null pointer as it does a null PML4. -/
def Kernel.spaceOf (k : Kernel) (t : TaskPtr) : AddressSpace :=
  match k.addressSpace t with
  | none => { pml4 := none, isKernel := false }
  | some p => k.spaces p

/-- `vmm_switch_address_space`. -/
def Kernel.vmmSwitchAddressSpace (k : Kernel) (as : AddressSpace) : Kernel :=
  match as.pml4 with
  | none => k
  | some pml4 => { k with cr3 := pml4 }

/-- `scheduler_tick` with the load of CR3: the address space is switched when the next task has another one. -/
def Kernel.tick (k : Kernel) : Option Kernel :=
  (schedulerTick k.procs.sched).map fun s =>
    let k' := { k with procs := { k.procs with sched := s } }
    match k.procs.sched.current, s.current with
    | some prev, some next =>
      if next = prev then k'
      else if k.addressSpace next ≠ k.addressSpace prev then k'.vmmSwitchAddressSpace (k.spaceOf next)
      else k'
    | _, _ => k'

/-! ## Creation and destruction of tasks -/

/-- `TASK_USER_STACK_BASE`. -/
def taskUserStackBase : BitVec 64 := 0x4000000000#64

/-- `TASK_USER_STACK_SIZE`. -/
def taskUserStackSize : BitVec 64 := 0x10000#64

/-- The loop that installs the demand pages of a user stack. The status of the pages is not looked at. -/
def mapUserStack (as : AddressSpace) : Nat → BitVec 64 → VmmM Unit
  | 0, _ => return ()
  | n + 1, va =>
    if va.ult (taskUserStackBase + taskUserStackSize) then do
      let _ ← vmmMapDemandPage as va heapFlags
      mapUserStack as n (va + 4096#64)
    else return ()

/-- A write to the fields of a task for its address space. -/
def Kernel.setSpace (k : Kernel) (t : TaskPtr) (as : Option SpacePtr) (regions : UserRegions) : Kernel :=
  { k with addressSpace := Function.update k.addressSpace t as, regions := Function.update k.regions t regions }

/-- The regions of a task without a stack and a heap. -/
def noRegions : UserRegions := { stackBase := 0#64, stackSize := 0#64, heapStart := 0#64, heapBrk := 0#64 }

/-- The regions of a task with a user stack and an empty heap at `heap`. -/
def stackRegions (heap : BitVec 64) : UserRegions :=
  { stackBase := taskUserStackBase, stackSize := taskUserStackSize, heapStart := heap, heapBrk := heap }

/-- The blocks that `task_create` is given: the task, whether the FPU area and the kernel stack can be had, the address space. They are
blocks on pages of the kernel heap that are present. A page of the heap that is touched for the first time takes a frame in
`handler_pf`, which the heap never gives back; that frame is not in this model. -/
structure TaskBlocks where
  pcb : Option TaskPtr
  rest : Bool
  space : Option SpacePtr
  deriving DecidableEq, Repr

/-- The block of a new user task as `task_create` fills it in before it allocates anything else. -/
def Kernel.fillTask (k : Kernel) (t : TaskPtr) : Kernel :=
  { k with
    procs := k.procs.newTask t k.nextPid
    nextPid := (k.nextPid + 1) % 2 ^ 64
    isKernel := Function.update k.isKernel t false }.setSpace t none noRegions

/-- `task_create` of a user task. A task that cannot be completed is off the task list again. -/
def Kernel.taskCreate (k : Kernel) (b : TaskBlocks) : Kernel × Option TaskPtr :=
  match b.pcb with
  | none => (k, none)
  | some t =>
    let k := k.fillTask t
    if !b.rest then (k, none)
    else
      match b.space with
      | none => (k, none)
      | some p =>
        match vmmCreateAddressSpace.run k.vmm with
        | ((_, none), m) => ({ k with vmm := m }, none)
        | ((_, some as), m) =>
          let m := ((mapUserStack as 16 taskUserStackBase).run m).2
          let k := { k with vmm := m, spaces := Function.update k.spaces p as, taskList := t :: k.taskList }
          (k.setSpace t (some p) (stackRegions 0#64), some t)

/-- `vmm_destroy_address_space` of an `address_space_t`. -/
def Kernel.destroySpace (k : Kernel) (p : SpacePtr) : Kernel :=
  match (vmmDestroyAddressSpace (k.spaces p)).run k.vmm with
  | ((_, as), m) => { k with vmm := m, spaces := Function.update k.spaces p as }

/-- The end of `task_destroy`: the task is off the list, and its block is freed. -/
def Kernel.dropTask (k : Kernel) (t : TaskPtr) : Kernel :=
  { k with
    taskList := k.taskList.erase t
    procs := { k.procs with sched := { k.procs.sched with mlfq := k.procs.sched.mlfq.setState t .dead } } }

/-- `task_destroy`. -/
def Kernel.taskDestroy (k : Kernel) (t : TaskPtr) : Kernel :=
  match k.isKernel t, k.addressSpace t with
  | false, some p => (k.destroySpace p).dropTask t
  | _, _ => k.dropTask t

/-! ## System calls -/

/-- `sys_fork`. -/
def Kernel.sysFork (k : Kernel) (b : TaskBlocks) : Kernel × Int :=
  match k.procs.sched.current with
  | none => (k, -1)
  | some parent =>
    match k.taskCreate b with
    | (k, none) => (k, -1)
    | (k, some child) =>
      let k := { k with procs := k.procs.linkChild parent child }
      match (vmmCloneAddressSpace (k.spaceOf parent) (k.spaceOf child)).run k.vmm with
      | (st, m) =>
        let k := { k with vmm := m }
        if st ≠ .ok then (k.taskDestroy child, -1)
        else
          ({ k with procs := { k.procs with sched := schedulerAddTask k.procs.sched (some child) } }, (k.procs.procs child).pid)

/-- `get_pte_flags`, for the PML4 of the current task. -/
def getPteFlags (m : Vmm) (pml4 : Nat) (vaddr : BitVec 64) : BitVec 64 :=
  let pml4e := m.mem pml4 (pml4Index vaddr)
  if !hasFlag pml4e ptePresent then 0#64
  else
    let pdpe := m.mem (frameOf (pteAddr pml4e)) (pdptIndex vaddr)
    if !hasFlag pdpe ptePresent then 0#64
    else if hasFlag pdpe ptePs then pdpe
    else
      let pde := m.mem (frameOf (pteAddr pdpe)) (pdIndex vaddr)
      if !hasFlag pde ptePresent then 0#64
      else if hasFlag pde ptePs then pde
      else m.mem (frameOf (pteAddr pde)) (ptIndex vaddr)

/-- The loop of `validate_user_pointer` over the pages of a range. -/
def userPagesReadable (m : Vmm) (pml4 : Nat) (stop : BitVec 64) : Nat → BitVec 64 → Bool
  | 0, _ => true
  | n + 1, addr =>
    if addr.ult stop then
      let pte := getPteFlags m pml4 addr
      if !hasFlag pte ptePresent || !hasFlag pte pteUser then false
      else userPagesReadable m pml4 stop n (addr + 4096#64)
    else true

/-- `validate_user_pointer`. Without an address space no page is present. -/
def validateUserPointer (m : Vmm) (as : AddressSpace) (ptr size : BitVec 64) : Bool :=
  match as.pml4 with
  | none => false
  | some pml4 =>
    if ptr.ult 0x1000#64 then false
    else if size = 0#64 then false
    else if (ptr + size).ult ptr then false
    else if (0x00007FFFFFFFFFFF#64).ult (ptr + size) then false
    else userPagesReadable m pml4 (ptr + size) (size.toNat / 4096 + 2) (ptr &&& ~~~0xFFF#64)

/-- The image at `addr`, as it is read through CR3. The loader writes to frames that are free before, so it reads what was there
when the call was made. -/
def Kernel.imageAt (k : Kernel) (addr : BitVec 64) : Image :=
  fun i => (readByte k.vmm.mem k.cr3 (addr + BitVec.ofNat 64 i)).getD 0#8

/-- `sys_execve`, given the block for the new address space. -/
def Kernel.sysExecve (k : Kernel) (elfAddr elfSize : BitVec 64) (block : Option SpacePtr) : Kernel × Int :=
  match k.procs.sched.current with
  | none => (k, -1)
  | some cur =>
    if !validateUserPointer k.vmm (k.spaceOf cur) elfAddr elfSize then (k, -1)
    else
      match block with
      | none => (k, -1)
      | some p =>
        match vmmCreateAddressSpace.run k.vmm with
        | ((_, none), m) => ({ k with vmm := m }, -1)
        | ((_, some as), m) =>
          match (elfLoad (k.imageAt elfAddr) elfSize as).run m with
          | ((st, result), m) =>
            let k := { k with vmm := m, spaces := Function.update k.spaces p as }
            if st ≠ .ok then (k.destroySpace p, -1)
            else
              let k := match k.addressSpace cur with
                | none => k
                | some old => k.destroySpace old
              let m := ((mapUserStack as 16 taskUserStackBase).run k.vmm).2
              ({ k with vmm := m }.setSpace cur (some p) (stackRegions (pageUp result.top)), 0)

/-- `task_wait`. -/
def Kernel.taskWait (k : Kernel) : Option (Kernel × Int) :=
  match k.procs.sched.current with
  | none => some (k, -1)
  | some cur =>
    match zombieChild k.procs cur with
    | none => none
    | some (some (pp, child)) =>
      let k := { k with procs := k.procs.unlinkChild cur pp child }
      some (k.taskDestroy child, (BitVec.ofNat 32 (k.procs.procs child).pid).toInt)
    | some none => (waitForChildren k.procs cur).map (fun p => ({ k with procs := p }, -1))

/-- `sys_wait`, up to the store of the status. -/
def Kernel.sysWait (k : Kernel) (cur : TaskPtr) (statusPtr : BitVec 64) : Option (Kernel × Int) :=
  if statusPtr ≠ 0#64 ∧ validateUserPointer k.vmm (k.spaceOf cur) statusPtr 4#64 = false then some (k, -1)
  else k.taskWait

/-! ## Runs -/

/-- What happens to the tasks: ticks, and what the current task does. -/
inductive KernelOp where
  | tick
  | fork (blocks : TaskBlocks)
  | execve (elfAddr elfSize : BitVec 64) (block : Option SpacePtr)
  | wait (statusPtr : BitVec 64)
  | exit (code : Int)
  | write (v : UserVa) (b : BitVec 8)

/-- A block that no task is in. -/
def Kernel.pcbFree (k : Kernel) (t : TaskPtr) : Bool := t ∉ k.tasks

/-- A block that holds the address space of no task. -/
def Kernel.spaceFree (k : Kernel) (p : SpacePtr) : Bool :=
  p != k.kernelSpace && k.tasks.all fun t => k.addressSpace t != some p

/-- What the task `cur` does. The allocator gives out blocks that are not in use, and a write that halts the machine does not
return. -/
def KernelOp.byTask (k : Kernel) (cur : TaskPtr) : KernelOp → Option Kernel
  | .tick => k.tick
  | .fork b => if b.pcb.all k.pcbFree ∧ b.space.all k.spaceFree then some (k.sysFork b).1 else none
  | .execve elfAddr elfSize block => if block.all k.spaceFree then some (k.sysExecve elfAddr elfSize block).1 else none
  | .wait statusPtr => (k.sysWait cur statusPtr).map Prod.fst
  | .exit code => (taskExit k.procs code).map (fun p => { k with procs := p })
  | .write v b =>
    match (userWrite k.cr3 v.addr b (some (k.regions cur))).run k.vmm with
    | (true, m) => some { k with vmm := m }
    | (false, _) => none

/-- One step. Only a user task makes system calls, and a task that has exited makes none: `sys_exit` does not return. -/
def KernelOp.step (k : Kernel) (op : KernelOp) : Option Kernel :=
  match op, k.procs.sched.current with
  | .tick, _ => k.tick
  | _, none => none
  | op, some cur => if k.isKernel cur = false ∧ k.state cur ≠ .zombie then op.byTask k cur else none

end TsOs
