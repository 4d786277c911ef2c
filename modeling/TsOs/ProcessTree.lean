import TsOs.TaskSpaces

/-!
# The process tree

`sys_fork`, `sys_wait` and `task_exit` as they work on the tasks and on the links between them, without the memory of the tasks. What
memory decides is an argument of the calls: whether `task_create` completes the child and whether its address space can be cloned,
and whether the pointer given to `sys_wait` is null or valid. `Kernel.table` is this part of the kernel's state.
-/

namespace TsOs

open LinkedList

/-- The tasks and `g_task_list`. -/
structure TaskTable where
  procs : Processes
  nextPid : Nat
  taskList : List TaskPtr
  isKernel : TaskPtr → Bool

namespace TaskTable

/-- The tasks that exist. -/
def tasks (k : TaskTable) : List TaskPtr := k.procs.sched.idle.toList ++ k.taskList

/-- The state of a task. -/
def state (k : TaskTable) (t : TaskPtr) : TaskState := (k.procs.sched.mlfq.tasks t).state

/-- The sibling links. -/
def sibling (k : TaskTable) : TaskPtr → Option TaskPtr := fun t => (k.procs.procs t).siblingNext

/-- The block of a new user task as `task_create` fills it in before it allocates anything else. -/
def fillTask (k : TaskTable) (t : TaskPtr) : TaskTable :=
  { k with
    procs := k.procs.newTask t k.nextPid
    nextPid := (k.nextPid + 1) % 2 ^ 64
    isKernel := Function.update k.isKernel t false }

/-- `task_destroy`: the task is off the list, and its block is freed. -/
def taskDestroy (k : TaskTable) (t : TaskPtr) : TaskTable :=
  { k with
    taskList := k.taskList.erase t
    procs := { k.procs with sched := { k.procs.sched with mlfq := k.procs.sched.mlfq.setState t .dead } } }

end TaskTable

/-- How `sys_fork` ends for a child whose block could be had: an allocation of `task_create` fails, `vmm_clone_address_space` fails,
or neither. -/
inductive ForkEnd where
  | incomplete
  | cloneFails
  | done
  deriving DecidableEq, Repr

namespace TaskTable

/-- A child with all its parts is on the task list and becomes the first child of its parent. -/
def adopt (k : TaskTable) (parent child : TaskPtr) : TaskTable :=
  { k with taskList := child :: k.taskList, procs := k.procs.linkChild parent child }

/-- `scheduler_add_task`. -/
def addTask (k : TaskTable) (t : TaskPtr) : TaskTable :=
  { k with procs := { k.procs with sched := schedulerAddTask k.procs.sched (some t) } }

/-- `sys_fork`. -/
def sysFork (k : TaskTable) (pcb : Option TaskPtr) (ending : ForkEnd) : TaskTable × Int :=
  match k.procs.sched.current, pcb with
  | none, _ => (k, -1)
  | some _, none => (k, -1)
  | some parent, some child =>
    let k := k.fillTask child
    match ending with
    | .incomplete => (k, -1)
    | .cloneFails => ((k.adopt parent child).taskDestroy child, -1)
    | .done =>
      let k := k.adopt parent child
      (k.addTask child, (k.procs.procs child).pid)

/-- `task_wait`: what it returns, and the status it stores. -/
def taskWait (k : TaskTable) : Option (TaskTable × Int × Option Int) :=
  match k.procs.sched.current with
  | none => some (k, -1, none)
  | some cur =>
    match zombieChild k.procs cur with
    | none => none
    | some (some (pp, child)) =>
      some ({ k with procs := k.procs.unlinkChild cur pp child }.taskDestroy child,
        (BitVec.ofNat 32 (k.procs.procs child).pid).toInt, some (k.procs.procs child).exitCode)
    | some none => (waitForChildren k.procs cur).map (fun p => ({ k with procs := p }, -1, none))

/-- `sys_wait`, for a status pointer that is null or valid, or for one that is neither. -/
def sysWait (k : TaskTable) (statusOk : Bool) : Option (TaskTable × Int × Option Int) :=
  if statusOk then k.taskWait else some (k, -1, none)

end TaskTable

/-- What happens to the tasks: ticks, and what the current task does. -/
inductive TreeOp where
  | tick
  | fork (pcb : Option TaskPtr) (ending : ForkEnd)
  | wait (statusOk : Bool)
  | exit (code : Int)
  deriving DecidableEq, Repr

/-- What the current task does. The allocator gives out blocks that are not in use. -/
def TreeOp.byTask (k : TaskTable) : TreeOp → Option TaskTable
  | .tick => (schedulerTick k.procs.sched).map (fun s => { k with procs := { k.procs with sched := s } })
  | .fork pcb ending => if pcb.all (fun t => t ∉ k.tasks) then some (k.sysFork pcb ending).1 else none
  | .wait statusOk => (k.sysWait statusOk).map Prod.fst
  | .exit code => (taskExit k.procs code).map (fun p => { k with procs := p })

/-- The current task is one that can make a system call: a user task that has not exited. -/
def TaskTable.Calls (k : TaskTable) (cur : TaskPtr) : Prop :=
  k.procs.sched.current = some cur ∧ k.isKernel cur = false ∧ k.state cur ≠ .zombie

/-- One step. -/
def TreeOp.step (k : TaskTable) (op : TreeOp) : Option TaskTable :=
  match op, k.procs.sched.current with
  | .tick, _ => TreeOp.byTask k .tick
  | _, none => none
  | op, some cur => if k.isKernel cur = false ∧ k.state cur ≠ .zombie then op.byTask k else none

/-! ## The kernel's part -/

/-- The tasks of the kernel. -/
def Kernel.table (k : Kernel) : TaskTable :=
  { procs := k.procs, nextPid := k.nextPid, taskList := k.taskList, isKernel := k.isKernel }

/-- How `sys_fork` of the kernel ends. -/
def Kernel.forkEnd (k : Kernel) (b : TaskBlocks) : ForkEnd :=
  match k.procs.sched.current with
  | none => .incomplete
  | some parent =>
    match k.taskCreate b with
    | (_, none) => .incomplete
    | (k, some child) =>
      if ((vmmCloneAddressSpace (k.spaceOf parent) (k.spaceOf child)).run k.vmm).1 ≠ .ok then .cloneFails else .done

/-- Whether `sys_wait` of the kernel goes on to `task_wait`. -/
def Kernel.statusOk (k : Kernel) (statusPtr : BitVec 64) : Bool :=
  match k.procs.sched.current with
  | none => false
  | some cur => statusPtr == 0#64 || validateUserPointer k.vmm (k.spaceOf cur) statusPtr 4#64

/-- The step of the task table that a step of the kernel is; `none` for one that leaves the tasks alone. -/
def KernelOp.treeOp (k : Kernel) : KernelOp → Option TreeOp
  | .tick => some .tick
  | .fork b => some (.fork b.pcb (k.forkEnd b))
  | .wait statusPtr => some (.wait (k.statusOk statusPtr))
  | .exit code => some (.exit code)
  | .execve _ _ _ => none
  | .write _ _ => none

end TsOs
