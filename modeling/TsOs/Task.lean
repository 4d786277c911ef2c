import TsOs.Lib.Linked

/-!
# The task control block

The part of `task_t` (`kernel/task.h`) that the queues and the scheduler read and write. The fields of the process tree are those
of `Proc`; the other fields of the block (the saved stack, the address space, the descriptor table) are read by no function
modelled over it.

A task is known by its address. Every kernel pointer lies in the top 2 GiB of the address space, at or above
`HIGHER_HALF_OFFSET`: the kernel image, the map of physical memory and the kernel heap are all there. `TaskPtr` is the offset
in that window, and a pointer that may be null is an `Option TaskPtr`.
-/

namespace TsOs

/-- A pointer to a `task_t`: the offset of its address from `HIGHER_HALF_OFFSET`. -/
abbrev TaskPtr : Type := Fin (2 ^ 31)

instance taskPtr_neZero : NeZero (2 ^ 31) := ⟨by norm_num⟩

instance taskPtr_lawful : LawfulBEq TaskPtr := inferInstance

/-- `task_state_t`. -/
inductive TaskState where
  | created | ready | running | blocked | sleeping | zombie | dead
  deriving DecidableEq, Repr

/-- `task_t`, the scheduling part. `timeSlice` and `remainingTicks` are `uint64_t`, `mlfqLevel` is an `int`. -/
structure Task where
  state : TaskState
  timeSlice : Nat
  remainingTicks : Nat
  mlfqLevel : Int
  next : Option TaskPtr
  deriving DecidableEq, Repr

/-- The number of iterations after which a loop along `next` links has met some task twice: more than there are addresses. -/
def loopFuel : Nat := 2 ^ 31 + 1

/-- A list of distinct tasks is shorter than the fuel of a loop over it, and its length fits in a `uint32_t`. -/
theorem TaskPtr.length_lt {xs : List TaskPtr} (h : xs.Nodup) : xs.length < loopFuel ∧ xs.length < 2 ^ 32 := by
  have hle : xs.length ≤ (List.finRange (2 ^ 31)).length := h.length_le_of_subset (fun x _ => List.mem_finRange x)
  rw [List.length_finRange] at hle
  simp only [loopFuel]
  omega

end TsOs
