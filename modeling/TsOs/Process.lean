import TsOs.Scheduler

/-!
# The life of a process

`task_exit` of `kernel/task.c` and what it calls: the children of the task are given to the init task, and a parent that waits is
woken; `task_wait`; and the parts of `task_create` and `sys_fork` that work on the process tree. `g_current_task` is the current
task of the scheduler: `scheduler.c` sets both together. The log lines are left out.
-/

namespace TsOs

open LinkedList

/-- The fields of `task_t` for the process tree. -/
structure Proc where
  pid : Nat
  exitCode : Int
  parent : Option TaskPtr
  children : Option TaskPtr
  siblingNext : Option TaskPtr
  isWaitingForChildren : Bool
  deriving DecidableEq, Repr

/-- The scheduler, the process tree and `g_init_task`. -/
structure Processes where
  sched : Scheduler
  procs : TaskPtr → Proc
  initTask : Option TaskPtr

/-- A write to the process fields of one task. -/
def Processes.modify (k : Processes) (t : TaskPtr) (f : Proc → Proc) : Processes :=
  { k with procs := Function.update k.procs t (f (k.procs t)) }

/-- `task_wake`. -/
def taskWake (k : Processes) (task : Option TaskPtr) : Processes :=
  match task with
  | none => k
  | some t =>
    if (k.sched.mlfq.tasks t).state ≠ .blocked then k
    else
      let k := k.modify t (fun p => { p with isWaitingForChildren := false })
      { k with sched := schedulerWakeTask k.sched (some t) }

/-- The loop of `task_reparent_children` without an init task. -/
def orphanLoop : Nat → Processes → Option TaskPtr → Option Processes
  | 0, _, _ => none
  | _ + 1, k, none => some k
  | n + 1, k, some child =>
    let next := (k.procs child).siblingNext
    orphanLoop n (k.modify child (fun p => { p with parent := none, siblingNext := none })) next

/-- The loop of `task_reparent_children` that moves the children to `init`. -/
def adoptLoop (init : TaskPtr) : Nat → Processes → Option TaskPtr → Option Processes
  | 0, _, _ => none
  | _ + 1, k, none => some k
  | n + 1, k, some child =>
    let next := (k.procs child).siblingNext
    let k := k.modify child (fun p => { p with parent := some init })
    let k := k.modify child (fun p => { p with siblingNext := (k.procs init).children })
    let k := k.modify init (fun p => { p with children := some child })
    adoptLoop init n k next

/-- `task_reparent_children`. -/
def taskReparentChildren (k : Processes) (task : TaskPtr) : Option Processes :=
  match (k.procs task).children with
  | none => some k
  | some child =>
    let moved := match k.initTask with
      | none => orphanLoop loopFuel k (some child)
      | some init => adoptLoop init loopFuel k (some child)
    moved.map (fun k => k.modify task (fun p => { p with children := none }))

/-- `task_exit`. The init task halts the machine: the call does not return. -/
def taskExit (k : Processes) (code : Int) : Option Processes :=
  match k.sched.current with
  | none => some k
  | some cur =>
    let k := k.modify cur (fun p => { p with exitCode := code })
    (taskReparentChildren k cur).bind fun k =>
      let k := { k with sched := { k.sched with mlfq := k.sched.mlfq.setState cur .zombie } }
      let k := match (k.procs cur).parent with
        | none => k
        | some parent => if (k.procs parent).isWaitingForChildren then taskWake k (some parent) else k
      if (k.procs cur).pid = 1 then none else some k

/-- The block that `task_create` clears and fills in for a task with the given process number, and `g_init_task`. -/
def Processes.newTask (k : Processes) (t : TaskPtr) (pid : Nat) : Processes :=
  { sched := { k.sched with
      mlfq := k.sched.mlfq.modify t (fun _ =>
        { state := .created, timeSlice := 5, remainingTicks := 5, mlfqLevel := 0, next := none }) }
    procs := Function.update k.procs t
      { pid := pid, exitCode := 0, parent := none, children := none, siblingNext := none, isWaitingForChildren := false }
    initTask := if pid = 1 then some t else k.initTask }

/-- How `sys_fork` makes `child` the first child of `parent`. -/
def Processes.linkChild (k : Processes) (parent child : TaskPtr) : Processes :=
  let k := k.modify child (fun p => { p with parent := some parent })
  let k := k.modify child (fun p => { p with siblingNext := (k.procs parent).children })
  k.modify parent (fun p => { p with children := some child })

/-- The search of `task_wait`: the first zombie among the children of `cur`, with the link that leads to it. -/
def zombieChild (k : Processes) (cur : TaskPtr) : Option (Option (Link TaskPtr × TaskPtr)) :=
  findLink (fun t => (k.procs t).siblingNext) (fun t => (k.sched.mlfq.tasks t).state == .zombie) loopFuel .head
    (k.procs cur).children

/-- The assignment `*pp = child->sibling_next` of `task_wait`. -/
def Processes.unlinkChild (k : Processes) (cur : TaskPtr) (pp : Link TaskPtr) (child : TaskPtr) : Processes :=
  let next := (k.procs child).siblingNext
  match pp with
  | .head => k.modify cur (fun p => { p with children := next })
  | .after t => k.modify t (fun p => { p with siblingNext := next })

/-- The end of `task_wait` without a zombie: a task that has children blocks. -/
def waitForChildren (k : Processes) (cur : TaskPtr) : Option Processes :=
  if (k.procs cur).children.isSome then
    let k := k.modify cur (fun p => { p with isWaitingForChildren := true })
    (blockCurrent k.sched).map (fun s => { k with sched := s })
  else some k

/-- `task_wait`, for the tasks and the process tree: what it returns, and the status it stores. A child that is reaped is destroyed. -/
def Processes.taskWait (k : Processes) : Option (Processes × Int × Option Int) :=
  match k.sched.current with
  | none => some (k, -1, none)
  | some cur =>
    match zombieChild k cur with
    | none => none
    | some (some (pp, child)) =>
      let k' := k.unlinkChild cur pp child
      some ({ k' with sched := { k'.sched with mlfq := k'.sched.mlfq.setState child .dead } },
        (BitVec.ofNat 32 (k.procs child).pid).toInt, some (k.procs child).exitCode)
    | some none => (waitForChildren k cur).map (fun k => (k, -1, none))

/-- The calls that decide when a task runs and when it ends. -/
inductive ProcOp where
  | add (task : Option TaskPtr)
  | tick
  | wake (task : Option TaskPtr)
  | exit (code : Int)
  deriving DecidableEq, Repr

/-- One call. -/
def ProcOp.run (k : Processes) : ProcOp → Option Processes
  | .add task => some { k with sched := schedulerAddTask k.sched task }
  | .tick => (schedulerTick k.sched).map (fun s => { k with sched := s })
  | .wake task => some (taskWake k task)
  | .exit code => taskExit k code

/-- The calls by which a task becomes runnable or stops being so. -/
inductive CountOp where
  | add (task : Option TaskPtr)
  | remove (task : Option TaskPtr)
  | tick
  | exit (code : Int)
  | wait
  | wake (task : Option TaskPtr)
  deriving DecidableEq, Repr

/-- One call. -/
def CountOp.run (k : Processes) : CountOp → Option Processes
  | .add task => some { k with sched := schedulerAddTask k.sched task }
  | .remove task => (schedulerRemoveTask k.sched task).map (fun s => { k with sched := s })
  | .tick => (schedulerTick k.sched).map (fun s => { k with sched := s })
  | .exit code => taskExit k code
  | .wait => k.taskWait.map Prod.fst
  | .wake task => some (taskWake k task)

/-- A sequence of calls, one after the other. -/
def runProcs (k : Processes) : List ProcOp → Option Processes
  | [] => some k
  | op :: ops => (op.run k).bind (fun k' => runProcs k' ops)

end TsOs
