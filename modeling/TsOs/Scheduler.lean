import TsOs.Mlfq

/-!
# The scheduler

`kernel/scheduler.c`: the current task, the idle task and the count of ready tasks over the queues of `mlfq.c`. A tick is
modelled up to the context switch. When the code behind `context_switch` runs, the task that called it has just been made
current by the tick that switched back to it, so the assignment `g_current = prev` there changes nothing. The stack pointers,
the floating-point state and the address space that a switch loads are not part of the state.
-/

namespace TsOs

/-- The static state of `scheduler.c`, with the queues it drives. `readyCount` is a `uint64_t`. -/
structure Scheduler where
  mlfq : Mlfq
  current : Option TaskPtr
  idle : Option TaskPtr
  readyCount : Nat
  initialized : Bool

/-- The assignment `task->state = v`. -/
def Mlfq.setState (s : Mlfq) (t : TaskPtr) (v : TaskState) : Mlfq := s.modify t (fun k => { k with state := v })

/-- `scheduler_init`, given the result of `task_create_idle`; `none` when there is no idle task and the kernel halts. -/
def schedulerInit (tasks : TaskPtr → Task) (idle : Option TaskPtr) : Option Scheduler :=
  match idle with
  | none => none
  | some i =>
    let m := mlfqEnqueue (mlfqInit tasks) (some i) 3
    some { mlfq := m.setState i .running, current := some i, idle := some i, readyCount := 0, initialized := true }

/-- `scheduler_add_task`. -/
def schedulerAddTask (s : Scheduler) (task : Option TaskPtr) : Scheduler :=
  match task with
  | none => s
  | some t => { s with mlfq := mlfqEnqueue s.mlfq (some t) 0, readyCount := (s.readyCount + 1) % 2 ^ 64 }

/-- `if (task != g_idle_task) g_ready_count--;`. -/
def dropReady (s : Scheduler) (t : TaskPtr) : Scheduler :=
  if some t ≠ s.idle then { s with readyCount := (s.readyCount + (2 ^ 64 - 1)) % 2 ^ 64 } else s

/-- `scheduler_remove_task`. -/
def schedulerRemoveTask (s : Scheduler) (task : Option TaskPtr) : Option Scheduler :=
  match task with
  | none => some s
  | some t => (mlfqDequeue s.mlfq (some t)).map (fun m => dropReady { s with mlfq := m.setState t .zombie } t)

/-- The choice of the next task and the switch to it, once the quantum of `prev` has expired and `prev` has decayed. -/
def switchFrom (s : Scheduler) (prev : TaskPtr) : Option Scheduler :=
  match (mlfqPickHighest s.mlfq).or s.idle with
  | none => some s
  | some next =>
    if next = prev then some { s with mlfq := s.mlfq.setState prev .running }
    else (mlfqDequeue s.mlfq (some next)).map (fun m => { s with mlfq := m.setState next .running, current := some next })

/-- `scheduler_tick`. -/
def schedulerTick (s : Scheduler) : Option Scheduler :=
  if !s.initialized then some s
  else match s.current with
    | none => some s
    | some prev =>
      (mlfqTick s.mlfq).bind fun m =>
        -- the decrement stops at zero, as the test before it does
        let m := m.modify prev (fun k => { k with remainingTicks := k.remainingTicks - 1 })
        if (m.tasks prev).remainingTicks > 0 then some { s with mlfq := m }
        else if (m.tasks prev).state = .running then
          (mlfqDecay m (some prev)).bind (fun m => switchFrom { s with mlfq := m } prev)
        else switchFrom { s with mlfq := m } prev

/-- `scheduler_wake_task`. -/
def schedulerWakeTask (s : Scheduler) (task : Option TaskPtr) : Scheduler :=
  match task with
  | none => s
  | some t =>
    if (s.mlfq.tasks t).state ≠ .blocked then s
    else { s with mlfq := mlfqEnqueue (s.mlfq.setState t .ready) (some t) 0, readyCount := (s.readyCount + 1) % 2 ^ 64 }

/-- `scheduler_unqueue_task`. -/
def schedulerUnqueueTask (s : Scheduler) (task : Option TaskPtr) : Option Scheduler :=
  match task with
  | none => some s
  | some t =>
    if (s.mlfq.tasks t).state ≠ .running ∧ (s.mlfq.tasks t).state ≠ .ready then some s
    else (mlfqDequeue s.mlfq (some t)).map (fun m => dropReady { s with mlfq := m } t)

/-- The blocking of the current task, as `task_wait` does it: `scheduler_unqueue_task(cur)`, then the state `BLOCKED`. -/
def blockCurrent (s : Scheduler) : Option Scheduler :=
  match s.current with
  | none => some s
  | some cur =>
    (schedulerUnqueueTask s (some cur)).map (fun s => { s with mlfq := s.mlfq.setState cur .blocked })

/-- The calls into the scheduler. -/
inductive SchedOp where
  | add (task : Option TaskPtr)
  | tick
  | block
  | wake (task : Option TaskPtr)
  | remove (task : Option TaskPtr)
  deriving DecidableEq, Repr

/-- One call. -/
def SchedOp.run (s : Scheduler) : SchedOp → Option Scheduler
  | .add task => some (schedulerAddTask s task)
  | .tick => schedulerTick s
  | .block => blockCurrent s
  | .wake task => some (schedulerWakeTask s task)
  | .remove task => schedulerRemoveTask s task

/-- A sequence of calls, one after the other. -/
def runScheduler (s : Scheduler) : List SchedOp → Option Scheduler
  | [] => some s
  | op :: ops => (op.run s).bind (fun s' => runScheduler s' ops)

end TsOs
