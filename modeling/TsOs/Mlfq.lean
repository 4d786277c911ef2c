import TsOs.Task

/-!
# The multi-level feedback queue

`kernel/mlfq.c`. Four ready queues, each a singly linked list threaded through the `next` field of the tasks, with a tail
pointer and a count; a bitmap of the queues that are not empty; the ticks since the last boost. The walks along `next` are
loops on fuel (`loopFuel`): an operation returns `none` when a walk does not end.
-/

namespace TsOs

open LinkedList

/-- `MLFQ_BOOST_INTERVAL`. -/
def mlfqBoostInterval : Nat := 200

/-- A priority level: an index of `mlfq_queues`, of which there are `MLFQ_LEVELS`. -/
abbrev Level : Type := Fin 4

instance levels_neZero : NeZero 4 := ⟨by norm_num⟩

/-- `mlfq_quanta`: the quantum of each level, in ticks. -/
def mlfqQuanta : Level → Nat
  | 0 => 2
  | 1 => 4
  | 2 => 8
  | 3 => 16

/-- `mlfd_queue_t`. `count` is a `uint32_t`. -/
structure MlfqQueue where
  head : Option TaskPtr
  tail : Option TaskPtr
  count : Nat
  deriving DecidableEq, Repr

/-- The state `mlfq.c` works on: the task control blocks, the queues, the bitmap and the ticks since the last boost. -/
structure Mlfq where
  tasks : TaskPtr → Task
  queues : Level → MlfqQueue
  bitmap : BitVec 32
  ticksSinceBoost : Nat

namespace Mlfq

/-- The `next` field of every task. -/
def next (s : Mlfq) : TaskPtr → Option TaskPtr := fun t => (s.tasks t).next

/-- A write to the fields of one task. -/
def modify (s : Mlfq) (t : TaskPtr) (f : Task → Task) : Mlfq :=
  { s with tasks := Function.update s.tasks t (f (s.tasks t)) }

/-- A write to one queue descriptor. -/
def setQueue (s : Mlfq) (l : Level) (q : MlfqQueue) : Mlfq :=
  { s with queues := Function.update s.queues l q }

end Mlfq

/-- The array index of a level, when the level is one: `0 <= level && level < MLFQ_LEVELS`. -/
def levelIdx (level : Int) : Option Level :=
  if h : 0 ≤ level ∧ level < 4 then some ⟨level.toNat, by omega⟩ else none

/-- The mask `1u << level` of a level in the bitmap. -/
def levelBit (l : Level) : BitVec 32 := 1#32 <<< l.val

/-- `mlfq_init`. The task control blocks are not touched. -/
def mlfqInit (tasks : TaskPtr → Task) : Mlfq :=
  { tasks := tasks, queues := fun _ => { head := none, tail := none, count := 0 }, bitmap := 0#32, ticksSinceBoost := 0 }

/-- The append at the tail that `mlfq_enqueue` and `mlfq_boost_all` share: link the task behind the tail (or make it the head
of an empty queue), make it the tail, count it. -/
def pushTail (s : Mlfq) (l : Level) (t : TaskPtr) : Mlfq :=
  let s := match (s.queues l).tail with
    | some tl => s.modify tl (fun k => { k with next := some t })
    | none => s.setQueue l { s.queues l with head := some t }
  s.setQueue l { s.queues l with tail := some t, count := ((s.queues l).count + 1) % 2 ^ 32 }

/-- `mlfq_enqueue`. -/
def mlfqEnqueue (s : Mlfq) (task : Option TaskPtr) (level : Int) : Mlfq :=
  match task, levelIdx level with
  | some t, some l =>
    let s := s.modify t (fun k =>
      { k with next := none, mlfqLevel := level, state := .ready, remainingTicks := mlfqQuanta l,
               timeSlice := mlfqQuanta l })
    let s := pushTail s l t
    { s with bitmap := s.bitmap ||| levelBit l }
  | _, _ => s

/-- The write `*pp = v` of `mlfq_dequeue`: to the head pointer of the queue or to the `next` field of a task. -/
def setLink (s : Mlfq) (l : Level) (pp : Link TaskPtr) (v : Option TaskPtr) : Mlfq :=
  match pp with
  | .head => s.setQueue l { s.queues l with head := v }
  | .after p => s.modify p (fun k => { k with next := v })

/-- What `mlfq_dequeue` does to the tail pointer once the task is unlinked: an empty queue loses its tail and its bit, and a
queue whose tail was the task gets the last node of the list as tail. -/
def fixTail (s : Mlfq) (l : Level) (t : TaskPtr) : Option Mlfq :=
  match (s.queues l).head with
  | none => some { s.setQueue l { s.queues l with tail := none } with bitmap := s.bitmap &&& ~~~levelBit l }
  | some h =>
    if (s.queues l).tail = some t then
      (lastFrom s.next loopFuel h).map (fun tl => s.setQueue l { s.queues l with tail := some tl })
    else some s

/-- `mlfq_dequeue`. -/
def mlfqDequeue (s : Mlfq) (task : Option TaskPtr) : Option Mlfq :=
  match task with
  | none => some s
  | some t =>
    match levelIdx (s.tasks t).mlfqLevel with
    | none => some s
    | some l =>
      match findLink s.next (fun u => u == t) loopFuel .head (s.queues l).head with
      | none => none
      | some none => some s
      | some (some (pp, _)) =>
        (fixTail (setLink s l pp (s.next t)) l t).map (fun s =>
          (s.setQueue l { s.queues l with count := ((s.queues l).count + (2 ^ 32 - 1)) % 2 ^ 32 }).modify t
            (fun k => { k with next := none }))

/-- `__builtin_ctz`: the index of the lowest bit that is set, of a word that is not zero. -/
def builtinCtz {w : Nat} (b : BitVec w) : Nat := b.ctz.toNat

/-- `mlfq_pick_highest`. -/
def mlfqPickHighest (s : Mlfq) : Option TaskPtr :=
  if s.bitmap = 0#32 then none
  else if h : builtinCtz s.bitmap < 4 then (s.queues ⟨builtinCtz s.bitmap, h⟩).head
  else none

/-- `mlfq_decay`. -/
def mlfqDecay (s : Mlfq) (task : Option TaskPtr) : Option Mlfq :=
  match task with
  | none => some s
  | some t =>
    let currentLevel := (s.tasks t).mlfqLevel
    if currentLevel ≥ 3 then (mlfqDequeue s (some t)).map (fun s => mlfqEnqueue s (some t) currentLevel)
    else (mlfqDequeue s (some t)).map (fun s => mlfqEnqueue s (some t) (currentLevel + 1))

/-- The state of the first loop of `mlfq_boost_all`: the queues so far and the list collected from them. -/
structure Collect where
  mlfq : Mlfq
  head : Option TaskPtr
  tail : Option TaskPtr

/-- One iteration of the first loop of `mlfq_boost_all`: link the queue of a level behind the collected list and clear it. -/
def collectLevel (c : Collect) (l : Level) : Collect :=
  let q := c.mlfq.queues l
  if q.head = none then c
  else
    let (s, head) := match c.tail with
      | some ct => (c.mlfq.modify ct (fun k => { k with next := q.head }), c.head)
      | none => (c.mlfq, q.head)
    { mlfq := s.setQueue l { head := none, tail := none, count := 0 }, head := head, tail := q.tail }

/-- The second loop of `mlfq_boost_all`: append the collected tasks to level 0, one by one. -/
def boostLoop : Nat → Mlfq → Option TaskPtr → Option Mlfq
  | 0, _, _ => none
  | _ + 1, s, none => some s
  | n + 1, s, some t =>
    let next := s.next t
    let s := s.modify t (fun k =>
      { k with mlfqLevel := 0, remainingTicks := mlfqQuanta 0, timeSlice := mlfqQuanta 0, next := none })
    boostLoop n (pushTail s 0 t) next

/-- `mlfq_boost_all`. -/
def mlfqBoostAll (s : Mlfq) : Option Mlfq :=
  let c := [1, 2, 3].foldl collectLevel { mlfq := s, head := none, tail := none }
  let s : Mlfq := { c.mlfq with bitmap := c.mlfq.bitmap &&& 1#32 }
  let r : Option Mlfq := match c.head with
    | none => some s
    | some h => (boostLoop loopFuel s (some h)).map (fun s => { s with bitmap := s.bitmap ||| 1#32 })
  r.map (fun s => { s with ticksSinceBoost := 0 })

/-- `mlfq_tick`. -/
def mlfqTick (s : Mlfq) : Option Mlfq :=
  let s : Mlfq := { s with ticksSinceBoost := (s.ticksSinceBoost + 1) % 2 ^ 64 }
  if s.ticksSinceBoost ≥ mlfqBoostInterval then mlfqBoostAll s else some s

/-- The calls into `mlfq.c`. -/
inductive MlfqOp where
  | enqueue (task : Option TaskPtr) (level : Int)
  | dequeue (task : Option TaskPtr)
  | decay (task : Option TaskPtr)
  | boostAll
  | tick
  deriving DecidableEq, Repr

/-- One call. -/
def MlfqOp.run (s : Mlfq) : MlfqOp → Option Mlfq
  | .enqueue task level => some (mlfqEnqueue s task level)
  | .dequeue task => mlfqDequeue s task
  | .decay task => mlfqDecay s task
  | .boostAll => mlfqBoostAll s
  | .tick => mlfqTick s

/-- A sequence of calls, one after the other. -/
def runMlfq (s : Mlfq) : List MlfqOp → Option Mlfq
  | [] => some s
  | op :: ops => (op.run s).bind (fun s' => runMlfq s' ops)

end TsOs
