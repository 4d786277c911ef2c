import TsOs.Lemmas.SpaceLife
import TsOs.Theorems.VmmMap

/-!
# The life of an address space leaks nothing

An address space is created, used by any sequence of operations and destroyed: the frames are then marked as before its creation,
and as many are counted free.
-/

namespace TsOs

open StateProg PteAux TableAux VmmRun WalkAux List BitVec

/-- The operations on one address space between its creation and its destruction. -/
inductive SpaceOp where
  | mapFresh (v : UserVa) (flags : MapFlags)
  | mapDemand (v : UserVa) (flags : MapFlags)
  | fault (v : UserVa) (errorCode : BitVec 64) (task : Option UserRegions)
  | unmapFree (v : UserVa)

/-- One operation; false says that the fault handler halted the machine. -/
def SpaceOp.apply (r : Nat) : SpaceOp → VmmM Bool
  | .mapFresh v flags => do
    let _ ← TsOs.mapFresh (.ofRoot r) v.addr flags.bits
    return true
  | .mapDemand v flags => do
    let _ ← vmmMapDemandPage (.ofRoot r) v.addr flags.bits
    return true
  | .fault v errorCode task => handlerPf errorCode v.addr r task
  | .unmapFree v => do
    let _ ← vmmUnmapAndFree (.ofRoot r) v.addr
    return true

/-- A sequence of operations, up to a halt. -/
def applyOps (r : Nat) : List SpaceOp → VmmM Bool
  | [] => return true
  | op :: ops => do
    if ← op.apply r then applyOps r ops else return false

namespace SpaceLifeAux

variable {p₀ : Pmm} {live : List Nat} {m : Vmm} {r : Nat}

theorem apply_keeps (h : Spaces p₀ [r] m) (op : SpaceOp) : Keeps p₀ [r] m ((op.apply r).run m).2 := by
  have hr := mem_singleton_self r
  cases op with
  | mapFresh v flags => exact mapFresh_keeps h hr v flags
  | mapDemand v flags => exact vmmMapDemandPage_keeps h hr v flags
  | fault v errorCode task => exact handlerPf_keeps h hr v errorCode task
  | unmapFree v =>
    refine vmmUnmapAndFree_keeps h hr v fun f _ r' hr' _ => ?_
    exact mem_singleton.mp hr'

theorem applyOps_keeps (h : Spaces p₀ [r] m) (ops : List SpaceOp) : Keeps p₀ [r] m ((applyOps r ops).run m).2 := by
  induction ops generalizing m with
  | nil => exact Keeps.refl h
  | cons op ops ih =>
    have hk := apply_keeps h op
    rw [applyOps, run_bind]
    cases ((op.apply r).run m).1 with
    | false => exact hk
    | true => exact hk.trans (ih hk.spaces)

/-- Before any address space exists the invariant says what holds of the kernel. -/
theorem spaces_nil (h : Ground p₀ m) : Spaces p₀ [] m where
  toGround := h
  tables := tables_of_distinct (fun _ hr => absurd hr not_mem_nil)
  owned := by
    rintro f ⟨r, hr, -⟩
    exact absurd hr not_mem_nil
  small _ hr := absurd hr not_mem_nil
  leaf _ hr := absurd hr not_mem_nil
  mapped := by
    rintro f ⟨r, hr, -⟩
    exact absurd hr not_mem_nil
  inj _ hr := absurd hr not_mem_nil
  unshared _ hr := absurd hr not_mem_nil

theorem accounted_nil (m : Vmm) : Accounted m.pmm [] (fun _ => False) m where
  noCow _ hr := absurd hr not_mem_nil
  frames _ hf := .inl hf

/-- Equal marks and an equal drift give equal counts. -/
theorem freeFrames_eq {p q : Pmm} (hused : ∀ f, p.isUsed f = q.isUsed f) (htotal : p.totalFrames = q.totalFrames)
    (hdrift : p.drift = q.drift) : p.freeFrames = q.freeFrames := by
  have hcount : p.clearCount = q.clearCount := by
    rw [Pmm.clearCount, Pmm.clearCount, htotal]
    simp only [hused]
  rw [Pmm.drift, Pmm.drift] at hdrift
  bv_omega

end SpaceLifeAux

open SpaceLifeAux

/-- The life of an address space leaks nothing: after its creation, any operations on it that do not halt the machine, and its
destruction, the bitmap and the free count of the frames are those before its creation. -/
theorem addressSpace_life_no_leak (m m₁ m₂ : Vmm) (as : AddressSpace) (r : Nat) (ops : List SpaceOp) (hground : Ground m.pmm m)
    (hcreate : vmmCreateAddressSpace.run m = ((.ok, some as), m₁)) (hroot : as.pml4 = some r)
    (hops : (applyOps r ops).run m₁ = (true, m₂)) :
    ∃ m₃, (vmmDestroyAddressSpace as).run m₂ = ((.ok, { pml4 := none, isKernel := false }), m₃) ∧
      m₃.pmm.bitmap = m.pmm.bitmap ∧ m₃.pmm.freeFrames = m.pmm.freeFrames := by
  have h0 := spaces_nil hground
  obtain ⟨c, hc, rfl, hrun⟩ := createSpace_eq h0.init h0.kernel_not_free (congrArg (·.1.2) hcreate)
  rw [hrun] at hcreate
  cases hcreate
  cases hroot
  have h1 := h0.create hc
  have ha1 := Accounted.create h0 (accounted_nil m) hc
  have hk := applyOps_keeps h1 ops
  rw [hops] at hk
  have h2 := hk.spaces
  have ha2 := hk.accounted _ ha1
  obtain ⟨m₃, hrun3, h3, hused⟩ := destroySpace_spaces h2 (mem_singleton_self r)
    (fun f _ r' hr' _ => mem_singleton.mp hr')
  -- what is still marked was marked before, and what was marked before was never freed
  have heq : ∀ f, m₃.pmm.isUsed f = m.pmm.isUsed f := by
    intro f
    rw [Bool.eq_iff_iff, hused f]
    constructor
    · rintro ⟨hu, hnot⟩
      rcases ha2.frames f hu with hbase | ⟨r', hr', p, hp, ht⟩ | ⟨r', hr', p, i, hm⟩ | hx
      · exact hbase
      · exact absurd (.inl ⟨p, hp, mem_singleton.mp hr' ▸ ht⟩) hnot
      · exact absurd (.inr ⟨p, i, mem_singleton.mp hr' ▸ hm⟩) hnot
      · exact absurd hx id
    · intro hbase
      refine ⟨h2.base f hbase, ?_⟩
      have hnot : ¬ m.pmm.Free f := fun hfree => Spaces.not_free_of_used hbase hfree
      rintro (⟨p, hp, ht⟩ | ⟨p, i, hm⟩)
      · exact hnot (h2.owned f ⟨r, mem_singleton_self r, p, hp, ht⟩).1
      · exact hnot (h2.mapped f ⟨r, mem_singleton_self r, p, i, hm⟩).1
  exact ⟨m₃, hrun3, PmmAux.bitmap_ext heq, freeFrames_eq heq h3.total h3.drift⟩

/-- A page of its own, a page of the stack that is touched, and one that is unmapped again. -/
def SpaceLifeAux.sampleOps : List SpaceOp :=
  let flags : MapFlags := ⟨pteWritable, by decide, by decide, by decide⟩
  [.mapFresh ⟨0x1000#64, by decide⟩ flags, .mapDemand ⟨0x2000#64, by decide⟩ flags,
    .fault ⟨0x2008#64, by decide⟩ 2#64 (some ⟨0x2000#64, 0x1000#64, 0#64, 0#64⟩),
    .mapFresh ⟨0x40000000#64, by decide⟩ flags, .unmapFree ⟨0x40000000#64, by decide⟩]

theorem SpaceLifeAux.emptyVmm_ground : Ground emptyVmm.pmm emptyVmm where
  init := rfl
  pmmInit := rfl
  total := rfl
  drift := rfl
  base _ h := h
  kernelFrame h := nomatch h.2.2
  kernelUser i _ h := by
    rw [show emptyVmm.mem emptyVmm.kernelPml4 i = 0#64 from rfl] at h
    cases h

/-- The PML4 of the first address space is frame 2, and the operations on it return. -/
theorem SpaceLifeAux.emptyVmm_view : (vmmCreateAddressSpace.run emptyVmm).1 = (.ok, some (.ofRoot 2)) ∧
    ((applyOps 2 sampleOps).run (vmmCreateAddressSpace.run emptyVmm).2).1 = true :=
  ⟨by decide +kernel, by decide +kernel⟩

theorem addressSpace_life_no_leak_sample :
    let m₁ := (vmmCreateAddressSpace.run emptyVmm).2
    let m₂ := ((applyOps 2 sampleOps).run m₁).2
    ∃ m₃, (vmmDestroyAddressSpace (.ofRoot 2)).run m₂ = ((.ok, { pml4 := none, isKernel := false }), m₃) ∧
      m₃.pmm.bitmap = emptyVmm.pmm.bitmap ∧ m₃.pmm.freeFrames = emptyVmm.pmm.freeFrames := by
  obtain ⟨hcreate, hops⟩ := emptyVmm_view
  exact addressSpace_life_no_leak emptyVmm _ _ (.ofRoot 2) 2 sampleOps emptyVmm_ground (run_eq_of_fst hcreate) rfl
    (run_eq_of_fst hops)

end TsOs
