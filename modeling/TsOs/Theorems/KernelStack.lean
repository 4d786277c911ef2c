import TsOs.KernelStack

/-!
# What the hand-built stacks decode to

The frames of `setup_initial_stack` are the ones `context_switch` and `iretq` read. `sys_fork` pushes its `iretq` frame below the
`kernel_rsp` it saved, so `iretq` loads the words above the stack; `sys_execve` saves `kernel_rsp` below both frames, so the switch pops
the `iretq` frame into registers and returns to 0.
-/

namespace TsOs

open WordStack

namespace KernelStackAux

variable (c : Cpu) (next : WordStack)

theorem contextSwitch_rip : (c.contextSwitch next).rip = next.peek 6 := by
  simp [Cpu.contextSwitch]

theorem contextSwitch_sp : (c.contextSwitch next).stack.sp = next.sp + 56#64 := by
  simp [Cpu.contextSwitch, pop, BitVec.add_assoc]

theorem peek_contextSwitch (k : Nat) : (c.contextSwitch next).stack.peek k = next.peek (k + 7) := by
  simp [Cpu.contextSwitch]

theorem frame_iretq : c.iretq.frame = ⟨c.stack.peek 0, c.stack.peek 1, c.stack.peek 2, c.stack.peek 3, c.stack.peek 4⟩ := by
  simp [Cpu.iretq, Cpu.frame]

/-- When the switch returns to the trampoline, the task starts with the frame that stands above the return address. -/
theorem frame_resume (trampoline : BitVec 64) (h : next.peek 6 = trampoline) :
    (c.resume trampoline next).frame = ⟨next.peek 7, next.peek 8, next.peek 9, next.peek 10, next.peek 11⟩ := by
  unfold Cpu.resume
  rw [if_pos ((contextSwitch_rip c next).trans h), frame_iretq]
  simp only [peek_contextSwitch]

theorem rax_resume (trampoline : BitVec 64) : (c.resume trampoline next).rax = c.rax := by
  simp only [Cpu.resume]
  split <;> rfl

variable (t : TaskStacks) (mem : BitVec 64 → BitVec 64) (trampoline rip rflags : BitVec 64)

/-- The child's stack seen from the saved `kernel_rsp`: five words of the pushes lie below it. -/
theorem peek_sysForkStack {k : Nat} (hk : k < 2 ^ 59) :
    (t.sysForkStack mem trampoline rip rflags).peek k =
      [0, 0, 0, 0, 0, 0, trampoline][k]?.getD (peek ⟨mem, t.stackTop⟩ (k - 7)) := by
  have hsub : ∀ s : WordStack, ∀ vs : List (BitVec 64), vs.length = 5 →
      (WordStack.mk (s.pushAll vs).mem s.sp).peek k = s.peek k := by
    intro s vs hvs
    have h := peek_pushAll s vs (k := k + 5) (by omega)
    rw [List.getElem?_eq_none (by simp; omega), hvs] at h
    rw [← show _ = s.peek k from h]
    simp only [peek, sp_pushAll, hvs]
    congr 1
    bv_omega
  rw [TaskStacks.sysForkStack, hsub _ _ rfl, peek_pushAll _ _ (by omega)]
  rfl

end KernelStackAux

open KernelStackAux

/-- A new kernel task starts at its entry with an empty stack, and a new user task at its entry in user mode. A forked child starts as
its parent left off exactly when `rax` happens to be 0 and the words above the child's stack happen to be the intended frame. From the
stack of `sys_execve` the program is never reached. -/
theorem kernelStacks_decode_iff (t : TaskStacks) (mem : BitVec 64 → BitVec 64) (c : Cpu) (trampoline : BitVec 64)
    (htramp : trampoline ≠ 0) (hcs : c.cs = gdtKernelCsSel) (entry userRip userRflags userRsp : BitVec 64) :
    (t.isKernel = true →
      (c.contextSwitch (t.setupInitialStack mem trampoline entry)).frame = ⟨entry, c.cs, c.rflags, t.stackTop, c.ss⟩) ∧
    (t.isKernel = false →
      (c.resume trampoline (t.setupInitialStack mem trampoline entry)).frame =
        ⟨entry, gdtUserCsSel, 0x202#64, t.userStackTop, gdtUserDsSel⟩) ∧
    ((c.resume trampoline (t.sysForkStack mem trampoline userRip userRflags)).frame =
          ⟨userRip, gdtUserCsSel, userRflags, userRsp, gdtUserDsSel⟩ ∧
        (c.resume trampoline (t.sysForkStack mem trampoline userRip userRflags)).rax = 0 ↔
      c.rax = 0 ∧ (List.range 5).map (peek ⟨mem, t.stackTop⟩) = [userRip, gdtUserCsSel, userRflags, userRsp, gdtUserDsSel]) ∧
    (c.resume trampoline (t.sysExecveStack mem trampoline entry)).frame ≠
      ⟨entry, gdtUserCsSel, 0x202#64, t.userStackTop, gdtUserDsSel⟩ := by
  refine ⟨?_, ?_, ?_, ?_⟩
  · intro hk
    have hrip := contextSwitch_rip c (t.setupInitialStack mem trampoline entry)
    have hsp := contextSwitch_sp c (t.setupInitialStack mem trampoline entry)
    simp only [TaskStacks.setupInitialStack, hk, if_true] at hrip hsp ⊢
    rw [peek_pushAll _ _ (by omega)] at hrip
    rw [sp_pushAll] at hsp
    simp only [Cpu.frame, hrip, hsp]
    simp [Cpu.contextSwitch]
  · intro hu
    have hpeek : ∀ k < 2 ^ 60, (t.setupInitialStack mem trampoline entry).peek k =
        [0, 0, 0, 0, 0, 0, trampoline, entry, gdtUserCsSel, 0x202#64, t.userStackTop, gdtUserDsSel][k]?.getD
          (peek ⟨mem, t.stackTop⟩ (k - 12)) := by
      intro k hk
      simp only [TaskStacks.setupInitialStack, hu]
      exact peek_pushAll _ _ hk
    rw [frame_resume c _ trampoline (hpeek 6 (by omega))]
    simp [hpeek]
  · have hret := peek_sysForkStack t mem trampoline userRip userRflags (k := 6) (by omega)
    rw [frame_resume c _ trampoline hret, rax_resume]
    simp [peek_sysForkStack, List.range_succ, and_comm]
  · -- the switch returns to the sixth zero, still in kernel mode
    have hrip : (c.contextSwitch (t.sysExecveStack mem trampoline entry)).rip = 0 := by
      rw [contextSwitch_rip, TaskStacks.sysExecveStack, peek_pushAll _ _ (by omega)]
      rfl
    unfold Cpu.resume
    rw [if_neg (by rw [hrip]; exact htramp.symm)]
    intro h
    have hmode : c.cs = gdtUserCsSel := congrArg IretqFrame.cs h
    rw [hcs] at hmode
    exact absurd hmode (by decide)

/-- A processor in kernel mode, and a task with its kernel stack at 1 MiB. -/
def sampleSwitch : Cpu × TaskStacks :=
  (⟨⟨fun _ => 0, 0⟩, 0, 0, 0, 0, 0, 0, 0, 0, gdtKernelCsSel, 0x202#64, 0⟩,
    ⟨false, 0x100000#64, 0x4000#64, 0x7FFFF000#64, 0x10000#64⟩)

theorem kernelStacks_decode_sample :
    (sampleSwitch.1.resume 0x200000#64 (sampleSwitch.2.setupInitialStack (fun _ => 0) 0x200000#64 0x400000#64)).frame =
      ⟨0x400000#64, gdtUserCsSel, 0x202#64, sampleSwitch.2.userStackTop, gdtUserDsSel⟩ :=
  (kernelStacks_decode_iff sampleSwitch.2 (fun _ => 0) sampleSwitch.1 0x200000#64 (by decide) rfl 0x400000#64 0 0 0).2.1 rfl

/-- Above the child's stack memory is zero: the child starts at address 0 with code selector 0. From the stack of `sys_execve` the
processor goes to address 0 in kernel mode. -/
theorem fork_and_execve_lose_frame :
    (sampleSwitch.1.resume 0x200000#64
      (sampleSwitch.2.sysForkStack (fun _ => 0) 0x200000#64 0x400123#64 0x202#64)).frame = ⟨0, 0, 0, 0, 0⟩ ∧
    (sampleSwitch.1.resume 0x200000#64 (sampleSwitch.2.sysExecveStack (fun _ => 0) 0x200000#64 0x400000#64)).rip = 0 ∧
    (sampleSwitch.1.resume 0x200000#64 (sampleSwitch.2.sysExecveStack (fun _ => 0) 0x200000#64 0x400000#64)).cs =
      gdtKernelCsSel := by
  decide

end TsOs
