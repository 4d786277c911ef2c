import TsOs.Lib.WordStack

/-!
# The first kernel stack of a task

`setup_initial_stack`, `sys_fork` and `sys_execve` write by hand the frame that `context_switch` pops and the frame that the trampoline's
`iretq` loads.
-/

namespace TsOs

/-- `GDT_KERNEL_CS_SEL`. -/
def gdtKernelCsSel : BitVec 64 := 0x08#64

/-- `GDT_USER_DS_SEL`. -/
def gdtUserDsSel : BitVec 64 := 0x1B#64

/-- `GDT_USER_CS_SEL`. -/
def gdtUserCsSel : BitVec 64 := 0x23#64

/-- The fields of a task that the stacks are built from. -/
structure TaskStacks where
  isKernel : Bool
  kernelStackBase : BitVec 64
  kernelStackSize : BitVec 64
  userStackBase : BitVec 64
  userStackSize : BitVec 64

namespace TaskStacks

variable (t : TaskStacks) (mem : BitVec 64 → BitVec 64) (trampoline : BitVec 64)

/-- The end of the kernel stack, aligned to 16 bytes. -/
def stackTop : BitVec 64 :=
  (t.kernelStackBase + t.kernelStackSize) &&& ~~~0xF#64

def userStackTop : BitVec 64 :=
  t.userStackBase + t.userStackSize

/-- `setup_initial_stack`: the memory it leaves, and `kernel_rsp`. -/
def setupInitialStack (entry : BitVec 64) : WordStack :=
  if t.isKernel then
    WordStack.pushAll ⟨mem, t.stackTop⟩ [entry, 0, 0, 0, 0, 0, 0]
  else
    WordStack.pushAll ⟨mem, t.stackTop⟩
      [gdtUserDsSel, t.userStackTop, 0x202#64, gdtUserCsSel, entry, trampoline, 0, 0, 0, 0, 0, 0]

/-- The stack `sys_fork` builds for the child: `kernel_rsp` is saved before the `iretq` frame is pushed. -/
def sysForkStack (userRip userRflags : BitVec 64) : WordStack :=
  let sp := WordStack.pushAll ⟨mem, t.stackTop⟩ [trampoline, 0, 0, 0, 0, 0, 0]
  ⟨(sp.pushAll [userRip, gdtUserCsSel, userRflags, t.userStackTop, gdtUserDsSel]).mem, sp.sp⟩

/-- The stack `sys_execve` builds: `kernel_rsp` is saved after both frames are pushed. -/
def sysExecveStack (entry : BitVec 64) : WordStack :=
  WordStack.pushAll ⟨mem, t.stackTop⟩
    [trampoline, 0, 0, 0, 0, 0, 0, entry, gdtUserCsSel, 0x202#64, t.userStackTop, gdtUserDsSel]

end TaskStacks

/-- What `iretq` loads. -/
structure IretqFrame where
  rip : BitVec 64
  cs : BitVec 64
  rflags : BitVec 64
  rsp : BitVec 64
  ss : BitVec 64
  deriving DecidableEq

/-- The registers that a switch to a task reads or changes, `rax`, and the stack `rsp` points into. -/
structure Cpu where
  stack : WordStack
  rax : BitVec 64
  rbx : BitVec 64
  rbp : BitVec 64
  r12 : BitVec 64
  r13 : BitVec 64
  r14 : BitVec 64
  r15 : BitVec 64
  rip : BitVec 64
  cs : BitVec 64
  rflags : BitVec 64
  ss : BitVec 64

namespace Cpu

/-- The registers that say where a task runs. -/
def frame (c : Cpu) : IretqFrame :=
  ⟨c.rip, c.cs, c.rflags, c.stack.sp, c.ss⟩

/-- The second half of `context_switch`: load `kernel_rsp` of the next task, six pops and `ret`. -/
def contextSwitch (c : Cpu) (next : WordStack) : Cpu :=
  let (rbx, sp) := next.pop
  let (rbp, sp) := sp.pop
  let (r12, sp) := sp.pop
  let (r13, sp) := sp.pop
  let (r14, sp) := sp.pop
  let (r15, sp) := sp.pop
  let (rip, sp) := sp.pop
  { c with stack := sp, rbx, rbp, r12, r13, r14, r15, rip }

/-- `iretq`, the whole of `user_task_iretq_trampoline`. -/
def iretq (c : Cpu) : Cpu :=
  let (rip, sp) := c.stack.pop
  let (cs, sp) := sp.pop
  let (rflags, sp) := sp.pop
  let (rsp, sp) := sp.pop
  let (ss, sp) := sp.pop
  { c with stack := ⟨sp.mem, rsp⟩, rip, cs, rflags, ss }

/-- Switch to a task, and run the trampoline when the switch returns there. -/
def resume (c : Cpu) (trampoline : BitVec 64) (next : WordStack) : Cpu :=
  let c := c.contextSwitch next
  if c.rip = trampoline then c.iretq else c

end Cpu

end TsOs
