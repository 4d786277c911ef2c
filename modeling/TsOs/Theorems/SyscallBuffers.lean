import TsOs.Theorems.DemandPages
import TsOs.Theorems.FileIo
import TsOs.Theorems.UserPointer

/-!
# Buffers in the heap and on the stack

`sys_read` and `sys_write` check their buffer with `validate_user_pointer`, which asks for a present leaf on every page. A page of the
heap or the stack that was not touched yet has a demand entry only: the fault handler would resolve it, the check refuses it.
-/

namespace TsOs

open UserPointerAux MemAux Runs

/-- The buffer lies inside the heap, from `user_heap_start` to `user_heap_brk`, or inside the user stack. -/
def InRegions (t : UserRegions) (buf count : BitVec 64) : Prop :=
  t.heapStart.toNat ≤ buf.toNat ∧ buf.toNat + count.toNat ≤ t.heapBrk.toNat ∨
    t.stackBase.toNat ≤ buf.toNat ∧ buf.toNat + count.toNat ≤ t.stackBase.toNat + t.stackSize.toNat

/-- The buffer is not empty and not in the first page, and each of its bytes is present for user code already. -/
def Touched (r : Nat) (s : UserMemory) (buf count : BitVec 64) : Prop :=
  0 < count.toNat ∧ 0x1000 ≤ buf.toNat ∧
    ∀ a : BitVec 64, buf.toNat ≤ a.toNat → a.toNat < buf.toNat + count.toNat → UserTranslated s.vmm (.ofRoot r) a

/-- Heap and stack end in the user half. -/
def RegionsEnd (t : UserRegions) : Prop := t.heapBrk.toNat < 2 ^ 47 ∧ t.stackBase.toNat + t.stackSize.toNat < 2 ^ 47

namespace BufferAux

variable {r : Nat} {s : UserMemory} {buf count : BitVec 64}

/-- For a buffer of the heap or the stack the checks of the end of `validate_user_pointer` never fail. -/
theorem validate_inRegions (h : RegionsEnd s.regions) (hbuf : InRegions s.regions buf count) :
    validateUserPointer s.vmm (.ofRoot r) buf count = true ↔ Touched r s buf count := by
  have hend : buf.toNat + count.toNat < 2 ^ 47 := by
    unfold RegionsEnd at h
    unfold InRegions at hbuf
    omega
  rw [validate_iff]
  constructor
  · rintro ⟨hpos, hlow, -, -, hall⟩
    exact ⟨hpos, hlow, hall⟩
  · rintro ⟨hpos, hlow, hall⟩
    exact ⟨hpos, hlow, by omega, by omega, hall⟩

/-- `sys_brk` takes no break outside the user half. -/
theorem sysBrk_regions (newBrk : BitVec 64) (h : RegionsEnd s.regions) : RegionsEnd (sysBrk r newBrk s).2.regions := by
  have hmove : ∀ start, newBrk.ult 0x800000000000#64 = true →
      RegionsEnd { s.regions with heapStart := start, heapBrk := newBrk } := by
    intro start hlt
    rw [BitVec.ult, decide_eq_true_eq] at hlt
    exact ⟨hlt, h.2⟩
  unfold sysBrk
  dsimp only
  split
  · exact h
  split
  · exact h
  rename_i hlt
  rw [Bool.not_eq_true', Bool.not_eq_false] at hlt
  split
  · exact hmove _ hlt
  split
  · exact h
  split
  · rcases (mapDemandRange _ _ _ _ _).run s.vmm with ⟨_ | _, m⟩
    · exact h
    · exact hmove _ hlt
  split
  · exact hmove _ hlt
  · exact hmove _ hlt

theorem sysMmap_regions (addr length prot : BitVec 64) : (sysMmap r addr length prot s).2.regions = s.regions := by
  unfold sysMmap
  dsimp only
  split
  · rfl
  · rcases (mapDemandRange _ _ _ _ _).run s.vmm with ⟨_ | _, m⟩ <;> rfl

/-- No call or access takes a region out of the user half. -/
theorem step_regions {s s' : MemHistory} {op : MemOp} (h : RegionsEnd s.mem.regions) (hs : op.step r s = some s') :
    RegionsEnd s'.mem.regions := by
  obtain ⟨s1, hact, rfl⟩ := act_of_step hs
  show RegionsEnd s1.mem.regions
  cases op with
  | brk newBrk =>
    have hbrk := sysBrk_regions (r := r) newBrk h
    unfold MemOp.act at hact
    dsimp only at hact
    split at hact
    · cases hact
    rcases hrun : sysBrk r newBrk s.mem with ⟨_ | ret, mem⟩
    · simp only [hrun] at hbrk hact
      cases hact
      exact hbrk
    · simp only [hrun] at hbrk hact
      split at hact <;>
      · cases hact
        exact hbrk
  | mmap addr length prot =>
    have hsame := sysMmap_regions (r := r) (s := s.mem) addr length prot
    unfold MemOp.act at hact
    rcases hrun : sysMmap r addr length prot s.mem with ⟨_ | base, mem⟩ <;>
    · simp only [hrun] at hsame hact
      cases hact
      rw [← hsame] at h
      exact h
  | munmap addr length =>
    unfold MemOp.act sysMunmap at hact
    dsimp only at hact
    by_cases hz : addr = 0#64 ∨ length = 0#64
    · rw [if_pos hz] at hact
      cases hact
      exact h
    · rw [if_neg hz] at hact
      cases hact
      exact h
  | access va errorCode =>
    unfold MemOp.act at hact
    dsimp only at hact
    rcases hrun : (handlerPf errorCode va.addr r (some s.mem.regions)).run s.mem.vmm with ⟨_ | _, m⟩
    · rw [hrun] at hact
      cases hact
    · rw [hrun] at hact
      cases hact
      exact h

end BufferAux

open BufferAux

/-- After any run of calls and accesses, a buffer of the heap or the stack makes `sys_read` and `sys_write` fail on an open file exactly
when it is empty, in the first page, or has a byte that is not present yet. -/
theorem syscall_buffer_iff {r : Nat} {mem : UserMemory} {top : Nat} (h : RegionsEnd mem.regions) {ops : List MemOp} {s : MemHistory}
    (hrun : run (MemOp.step r) ⟨mem, [], [], top⟩ ops = some s) {buf count : BitVec 64} (hbuf : InRegions s.mem.regions buf count)
    (files : OpenFiles) {fd : Int} {f : FileEntry} (hfd : fd ≠ 1) (hf : files.descriptor fd = some f) (hdata : f.data ≠ 0)
    (blockSize : BitVec 64) (answer : FileAnswer) :
    ((sysRead files blockSize fd (validateUserPointer s.mem.vmm (.ofRoot r) buf count) count answer).2.2 ≠ .nothing ↔
      Touched r s.mem buf count) ∧
    ((files.files f.data).flags ≠ 0 →
      ((sysWrite files blockSize fd (validateUserPointer s.mem.vmm (.ofRoot r) buf count) count answer).2.2 ≠ .nothing ↔
        Touched r s.mem buf count)) := by
  have hend : RegionsEnd s.mem.regions :=
    Each.last (Q := fun s => RegionsEnd s.mem.regions)
      (Each.of_step (I := fun s => RegionsEnd s.mem.regions) (fun s op s' hI hs => ⟨step_regions hI hs, step_regions hI hs⟩) h) h hrun
  rw [← validate_inRegions hend hbuf]
  unfold sysRead sysWrite ext2FdRead ext2FdWrite
  rw [if_neg hfd, if_neg hfd, hf]
  dsimp only
  rw [if_neg hdata, if_neg hdata]
  refine ⟨?_, fun hflags => ?_⟩
  · cases validateUserPointer s.mem.vmm (.ofRoot r) buf count <;> simp
  · rw [if_neg hflags]
    cases validateUserPointer s.mem.vmm (.ofRoot r) buf count <;> simp

/-- A file that is open for reading only, and a buffer in a page of the heap that was touched after `sys_brk`. -/
theorem syscall_buffer_new_task :
    let files := { soleTask with fdTable := fun _ _ => ⟨some .ext2, 1, 1, 2⟩, files := fun _ => ⟨12, 0, 0⟩ }
    ∃ s, run (MemOp.step 2) ⟨newTask, [], [], 0x500⟩ [.brk 0x502000#64, .access ⟨0x500000#64, by decide⟩ 6#64] = some s ∧
      (sysRead files 1024 3 (validateUserPointer s.mem.vmm (.ofRoot 2) 0x500010#64 8#64) 8#64 ⟨some 100, 1⟩).2.2 =
        .file 12 [0, 1, 2, 3, 4, 5, 6, 7] ∧
      Touched 2 s.mem 0x500010#64 8#64 := by
  have hend : (run (MemOp.step 2) ⟨newTask, [], [], 0x500⟩ [.brk 0x502000#64, .access ⟨0x500000#64, by decide⟩ 6#64]).map (fun s =>
      (s.mem.regions.heapStart, s.mem.regions.heapBrk, validateUserPointer s.mem.vmm (.ofRoot 2) 0x500010#64 8#64)) =
      some (0x500000#64, 0x502000#64, true) := by
    decide +kernel
  obtain ⟨s, hs, heq⟩ := Option.map_eq_some_iff.mp hend
  simp only [Prod.mk.injEq] at heq
  obtain ⟨hstart, hbrk, hvalid⟩ := heq
  have hbuf : InRegions s.mem.regions 0x500010#64 8#64 := by
    refine .inl ?_
    rw [hstart, hbrk]
    decide
  have hread := syscall_buffer_iff ⟨by decide, by decide⟩ hs hbuf
    { soleTask with fdTable := fun _ _ => ⟨some .ext2, 1, 1, 2⟩, files := fun _ => ⟨12, 0, 0⟩ } (show (3 : Int) ≠ 1 by decide) rfl
    (by decide) 1024 ⟨some 100, 1⟩
  rw [hvalid] at hread
  refine ⟨s, hs, ?_, hread.1.mp ?_⟩
  · rw [hvalid]
    decide
  · decide

/-- After `sys_brk` has grown the heap, no call accepts a buffer in it that was not touched. -/
theorem syscall_refuses_untouched :
    ∃ s, run (MemOp.step 2) ⟨newTask, [], [], 0x500⟩ [.brk 0x502000#64] = some s ∧ InRegions s.mem.regions 0x500000#64 8#64 ∧
      ∀ files blockSize fd answer,
        (sysRead files blockSize fd (validateUserPointer s.mem.vmm (.ofRoot 2) 0x500000#64 8#64) 8#64 answer).2 = (-1, .nothing) ∧
        (sysWrite files blockSize fd (validateUserPointer s.mem.vmm (.ofRoot 2) 0x500000#64 8#64) 8#64 answer).2 = (-1, .nothing) := by
  have hend : (run (MemOp.step 2) ⟨newTask, [], [], 0x500⟩ [.brk 0x502000#64]).map (fun s =>
      (s.mem.regions.heapStart, s.mem.regions.heapBrk, validateUserPointer s.mem.vmm (.ofRoot 2) 0x500000#64 8#64)) =
      some (0x500000#64, 0x502000#64, false) := by
    decide +kernel
  obtain ⟨s, hs, heq⟩ := Option.map_eq_some_iff.mp hend
  simp only [Prod.mk.injEq] at heq
  obtain ⟨hstart, hbrk, hvalid⟩ := heq
  refine ⟨s, hs, .inl ?_, fun files blockSize fd answer => ?_⟩
  · rw [hstart, hbrk]
    decide
  · rw [hvalid]
    unfold sysRead sysWrite
    exact ⟨by split <;> [rfl; split <;> rfl], by split <;> [rfl; split <;> rfl]⟩

end TsOs
