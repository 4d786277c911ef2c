import TsOs.Tlb
import TsOs.Lemmas.LeafEffects
import TsOs.Theorems.SpaceSet

/-!
# Coherence of the translation cache

Every call on the active address space drops from the TLB the page whose leaf it changes, except a clone: it makes the writable pages
of the source read-only and drops nothing. In a run whose clones find no writable page the TLB stays coherent.
-/

namespace TsOs

open StateProg PteAux TableAux VaAux VmmRun WalkAux CloneAux Runs List BitVec TlbOp

/-- No entry in the TLB maps a page to another frame than the page tables do, or allows a write that they forbid. -/
def Coherent (r : Nat) (s : CachedSpace) : Prop :=
  ∀ (va : UserVa) e, s.tlb va.addr e → ∃ cur, userLeaf s.vmm.mem r va.addr = some cur ∧ hasFlag cur ptePresent = true ∧
    pteAddr e = pteAddr cur ∧ (hasFlag e pteWritable = true → hasFlag cur pteWritable = true)

/-- What is asked of a call: a frame to be mapped is allocated and not in use in the address space, a mapping that is added to a page
does not make a copy-on-write page writable, and a clone finds no writable page. -/
def TlbOp.Careful (p₀ : Pmm) (r : Nat) (s : CachedSpace) : TlbOp → Prop
  | .map _ g _ => InFlight p₀ [r] g s.vmm
  | .merge v g flags => InFlight p₀ [r] g s.vmm ∧
      (hasFlag (leafAt s.vmm.mem r v.addr) pteCow = true → hasFlag flags.bits pteWritable = false)
  | .clone => ∀ p i f, Maps s.vmm.mem r p i f → hasFlag (entryAt s.vmm.mem r p i) pteWritable = false
  | _ => True

namespace TlbAux

variable {p₀ : Pmm} {m m' : Vmm} {r : Nat}

/-- A leaf that is present and that the call does not drop from the TLB has not changed. -/
def Quiet (r : Nat) (inv : Invalidation) (m m' : Vmm) : Prop :=
  ∀ va : UserVa, hasFlag (leafAt m.mem r va.addr) ptePresent = true → ¬ inv.Drops va.addr →
    leafAt m'.mem r va.addr = leafAt m.mem r va.addr

theorem samePage {va v : UserVa} (hpath : vaPath va.addr = vaPath v.addr) (hpt : ptIndex va.addr = ptIndex v.addr) :
    va.addr &&& ~~~0xFFF#64 = v.addr &&& ~~~0xFFF#64 := by
  have hnum := (pageNumber_eq_iff va.addr v.addr).mpr ⟨hpath, hpt⟩
  have hva := va.user
  have hv := v.user
  rw [← toNat_inj, page_toNat, page_toNat]
  rw [pageNumber, pageNumber] at hnum
  omega

theorem page_page (v : UserVa) : v.page.addr &&& ~~~0xFFF#64 = v.addr &&& ~~~0xFFF#64 := by
  unfold UserVa.page
  rw [BitVec.and_assoc, BitVec.and_self]

theorem quiet_of_same (h : SameLeaves [r] m m') (inv : Invalidation) : Quiet r inv m m' :=
  fun va _ _ => h r (mem_singleton_self r) _ _ va.leafPath

theorem quiet_of_only {v : UserVa} (h : OnlyLeaf [r] r (vaPath v.addr) (ptIndex v.addr) m m') : Quiet r (.page v.addr) m m' := by
  intro va _ hdrop
  refine h r (mem_singleton_self r) _ _ va.leafPath ?_
  intro hc
  exact hdrop (samePage hc.2.1 hc.2.2)

/-- The tables that an unmapping removes hold no leaf that is present. -/
theorem quiet_of_swept {v : UserVa} (h : Swept [r] r v.addr m m') : Quiet r (.page v.addr) m m' := by
  intro va hpres hdrop
  have hne : ¬ (r = r ∧ vaPath va.addr = vaPath v.addr ∧ ptIndex va.addr = ptIndex v.addr) :=
    fun hc => hdrop (samePage hc.2.1 hc.2.2)
  rcases h.other r (mem_singleton_self r) _ _ va.leafPath hne with hsame | ⟨hva, -, hnone⟩
  · exact hsame
  · have := hnone (ptIndex va.addr) fun hc => hne ⟨rfl, hva.2, hc⟩
    rw [leafAt, this] at hpres
    cases hpres

/-- A page that is not writable stays as it is when it is cloned. -/
theorem srcLeaf_of_readOnly {e : BitVec 64} (h : hasFlag e ptePresent = true → hasFlag e pteWritable = false) : srcLeaf e = e := by
  unfold srcLeaf
  split
  · rename_i hp
    have hw := h hp
    have hflags : hasFlag (pteFlags e) pteWritable = false := by
      rw [hasFlag_writable] at hw ⊢
      rw [getLsbD_pteFlags (by omega), hw]
    unfold cowLeaf
    rw [hflags, Bool.false_and, if_neg (by simp)]
  · rfl

section Calls

variable (h : Spaces p₀ [r] m)

include h

theorem alloc_quiet {inv : Option Invalidation} (hrun : (TlbOp.alloc.exec r).run m = (inv, m')) :
    Spaces p₀ [r] m' ∧ ∀ i, Quiet r i m m' := by
  rcases allocFrame_run m with ⟨hnone, -⟩ | ⟨f, hf, -, -, -, hsome⟩
  · rw [exec, bind_run hnone] at hrun
    cases hrun
    exact ⟨h, fun i => quiet_of_same (fun _ _ _ _ _ => rfl) i⟩
  · rw [exec, bind_run hsome, alloc_self] at hrun
    cases hrun
    refine ⟨h.alloc hf _, fun i => quiet_of_same (fun r' hr' q j hq => ?_) i⟩
    exact (Spaces.same_view (h.alloc_tables hf _) hr' hq.1).2 j

theorem clone_quiet (hro : ∀ p i f, Maps m.mem r p i f → hasFlag (entryAt m.mem r p i) pteWritable = false)
    {inv : Option Invalidation} (hrun : (TlbOp.clone.exec r).run m = (inv, m')) : Spaces p₀ [r] m' ∧ ∀ i, Quiet r i m m' := by
  rcases createSpace_run h.init h.kernel_not_free with ⟨-, hcreate⟩ | ⟨d, hd, hcreate⟩
  · rw [exec, bind_run hcreate] at hrun
    cases hrun
    exact ⟨h, fun i => quiet_of_same (fun _ _ _ _ _ => rfl) i⟩
  · have hne : r ≠ d := by
      intro hrd
      exact h.not_table_of_free hd ⟨r, mem_singleton_self r, [], .nil 256, hrd ▸ rfl⟩
    have hr : r ∈ [d, r] := mem_cons_of_mem d (mem_singleton_self r)
    obtain ⟨st, m1, hclone, hcloned⟩ := cloneSpace_spaces (h.create hd) hr mem_cons_self hne LifeAux.created_empty
    rw [exec, bind_run hcreate] at hrun
    dsimp only at hrun
    rw [bind_run hclone] at hrun
    cases hrun
    refine ⟨hcloned.spaces.sub fun r' hr' => mem_cons_of_mem d hr', fun i va _ _ => ?_⟩
    have hold : leafAt (m.alloc d (newPml4 m)).mem r va.addr = leafAt m.mem r va.addr :=
      (Spaces.same_view (h.alloc_tables hd _) (mem_singleton_self r) va.leafPath.1).2 _
    rcases hcloned.leaf r hr hne _ (ptIndex va.addr) va.leafPath with hsame | ⟨-, hsrc⟩
    · exact hsame.trans hold
    · rw [leafAt, hsrc]
      refine (srcLeaf_of_readOnly fun hp => ?_).trans hold
      rw [show entryAt (m.alloc d (newPml4 m)).mem r (vaPath va.addr) (ptIndex va.addr) = _ from hold] at hp ⊢
      exact hro _ _ _ ⟨va.leafPath, hp, rfl⟩

end Calls

variable {tlb : Tlb} {inv : Invalidation}

/-- Every call keeps the invariant of the address space, and drops the page whose leaf it changes. -/
theorem exec_quiet {op : TlbOp} (h : Spaces p₀ [r] m) (hop : op.Careful p₀ r ⟨m, tlb⟩)
    (hrun : (op.exec r).run m = (some inv, m')) : Spaces p₀ [r] m' ∧ Quiet r inv m m' := by
  have hr := mem_singleton_self r
  have halone : ∀ v, UnmapAlone [r] r v m := fun v f _ r' hr' _ => mem_singleton.mp hr'
  cases op with
  | alloc => exact (alloc_quiet h hrun).imp id fun hq => hq inv
  | map v g flags =>
    obtain ⟨st, m1, hmap, h1, ⟨hst, hsame⟩ | ⟨rfl, honly⟩⟩ := vmmMapPage_effect h hr v hop flags
    · rw [exec, bind_run hmap, if_neg hst] at hrun
      cases hrun
      exact ⟨h1, quiet_of_same hsame _⟩
    · rw [exec, bind_run hmap, if_pos rfl] at hrun
      cases hrun
      exact ⟨h1, quiet_of_only honly⟩
  | merge v g flags =>
    obtain ⟨st, flushed, m1, hmap, h1, -, ⟨rfl, hsame, -⟩ | ⟨rfl, honly, -⟩⟩ :=
      vmmMapPageMerge_effect h hr v flags (fun _ => ⟨g, rfl, hop.1⟩) hop.2 (halone v)
    · rw [exec, bind_run hmap] at hrun
      cases hrun
      exact ⟨h1, quiet_of_same hsame _⟩
    · rw [exec, bind_run hmap] at hrun
      cases hrun
      exact ⟨h1, quiet_of_only honly⟩
  | mapDemand v flags =>
    obtain ⟨st, m1, hmap, h1, ⟨hst, hsame, -⟩ | ⟨rfl, honly, -⟩⟩ := vmmMapDemandPage_effect h hr v flags
    · rw [exec, bind_run hmap, if_neg hst] at hrun
      cases hrun
      exact ⟨h1, quiet_of_same hsame _⟩
    · rw [exec, bind_run hmap, if_pos rfl] at hrun
      cases hrun
      exact ⟨h1, quiet_of_only honly⟩
  | unmap v =>
    obtain ⟨st, m1, hunmap, h1, ⟨hst, rfl⟩ | ⟨rfl, hswept⟩⟩ := vmmUnmapPage_effect h hr v
    · rw [exec, bind_run hunmap, if_neg hst] at hrun
      cases hrun
      exact ⟨h1, quiet_of_same (fun _ _ _ _ _ => rfl) _⟩
    · rw [exec, bind_run hunmap, if_pos rfl] at hrun
      cases hrun
      exact ⟨h1, quiet_of_swept hswept⟩
  | unmapFree v =>
    obtain ⟨st, m1, hunmap, h1, ⟨hst, rfl⟩ | ⟨rfl, hswept⟩⟩ := vmmUnmapAndFree_effect h hr v (halone v)
    · rw [exec, bind_run hunmap, if_neg hst] at hrun
      cases hrun
      exact ⟨h1, quiet_of_same (fun _ _ _ _ _ => rfl) _⟩
    · rw [exec, bind_run hunmap, if_pos rfl] at hrun
      cases hrun
      exact ⟨h1, quiet_of_swept hswept⟩
  | fault v errorCode task =>
    rcases handlerPf_run h hr v.addr v.page.index_lt errorCode task with hpf | ⟨m1, hpf, hend⟩
    · rw [exec, bind_run hpf] at hrun
      cases hrun
    · rw [exec, bind_run hpf] at hrun
      cases hrun
      refine ⟨(FaultEnd.keeps (v := v.page) h hr hend).spaces, fun va hp hdrop => ?_⟩
      refine quiet_of_only (FaultEnd.only (v := v.page) h hr hend).1 va hp ?_
      rw [Invalidation.Drops, page_page]
      exact hdrop
  | clone => exact (clone_quiet h hop hrun).imp id fun hq => hq inv
  | switch =>
    cases hrun
    exact ⟨h, fun _ _ hdrop => absurd trivial hdrop⟩

/-- Entries that are kept still agree with the page tables, and so do those that are loaded. -/
theorem coherent_of_quiet (h : Spaces p₀ [r] m) (h' : Spaces p₀ [r] m') (hc : Coherent r ⟨m, tlb⟩)
    (hq : Quiet r inv m m') : Coherent r ⟨m', (tlb.drop inv).fill m'.mem r⟩ := by
  have hr := mem_singleton_self r
  intro va e he
  rcases he with ⟨hold, hdrop⟩ | ⟨hnew, hp⟩
  · obtain ⟨cur, hcur, hp, haddr, hw⟩ := hc va e hold
    rw [userLeaf_present_iff h hr va hp] at hcur
    refine ⟨cur, (userLeaf_present_iff h' hr va hp).mpr ?_, hp, haddr, hw⟩
    rw [← hcur] at hp ⊢
    exact hq va hp hdrop
  · exact ⟨e, hnew, hp, rfl, id⟩

theorem step_of_exec {op : TlbOp} (hrun : (op.exec r).run m = (some inv, m')) :
    op.step r ⟨m, tlb⟩ = some ⟨m', (tlb.drop inv).fill m'.mem r⟩ := by
  unfold step
  rw [hrun]

theorem loaded_coherent (r : Nat) (m : Vmm) : Coherent r (.loaded r m) := by
  intro va e he
  rcases he with he | ⟨he, hp⟩
  · cases he
  · exact ⟨e, he, hp, rfl, id⟩

end TlbAux

open TlbAux SpaceSetAux SpaceLifeAux

/-- After CR3 is loaded, the TLB is coherent after every call of a run whose clones find no writable page. -/
theorem tlb_coherent (p₀ : Pmm) (r : Nat) (m : Vmm) (h : Spaces p₀ [r] m) (ops : List TlbOp)
    (hops : Each (TlbOp.step r) (fun s op _ => op.Careful p₀ r s) (.loaded r m) ops) :
    Each (TlbOp.step r) (fun _ _ s' => Coherent r s') (.loaded r m) ops := by
  refine Each.of_inv (I := fun s => Spaces p₀ [r] s.vmm ∧ Coherent r s) (fun s op s' hI hs hop => ?_) ⟨h, loaded_coherent r m⟩ hops
  obtain ⟨h, hc⟩ := hI
  unfold step at hs
  rcases hrun : (op.exec r).run s.vmm with ⟨_ | inv, m'⟩
  · rw [hrun] at hs
    cases hs
  · rw [hrun] at hs
    cases hs
    obtain ⟨h', hq⟩ := exec_quiet h hop hrun
    have hc' := coherent_of_quiet h h' hc hq
    exact ⟨⟨h', hc'⟩, hc'⟩

namespace TlbAux

/-- Flags of a page that user code may only read. -/
def readFlags : MapFlags := ⟨ptePresent ||| pteUser, by decide, by decide, by decide⟩

theorem stackPage_user : (0x2000#64).toNat < 2 ^ 47 := by decide

/-- The page above `samplePage`, and a task whose stack it is. -/
def stackPage : UserVa := ⟨0x2000#64, stackPage_user⟩

def stackTask : UserRegions := { stackBase := 0x2000#64, stackSize := 0x1000#64, heapStart := 0#64, heapBrk := 0#64 }

/-- An address space without pages, in which frame 3 is allocated to be mapped. -/
def frameReady : Vmm := (allocFrame.run (emptyVmm.alloc 2 (newPml4 emptyVmm))).2

/-- The address space with a page of frame 3 that may only be read. -/
def readPage : Vmm := ((vmmMapPage (.ofRoot 2) samplePage.addr (frameAddr 3) readFlags.bits).run frameReady).2

/-- The frame that is allocated, and the page that it is mapped to. -/
theorem readPage_view : (allocFrame.run (emptyVmm.alloc 2 (newPml4 emptyVmm))).1 = frameAddr 3 ∧
    ((vmmMapPage (.ofRoot 2) samplePage.addr (frameAddr 3) readFlags.bits).run frameReady).1 = .ok ∧
    userLeaf readPage.mem 2 samplePage.addr = some 0x3005#64 :=
  ⟨by decide +kernel, by decide +kernel, by decide +kernel⟩

theorem frameReady_spaces : Spaces emptyVmm.pmm [2] frameReady ∧ InFlight emptyVmm.pmm [2] 3 frameReady ∧
    (∀ q j, LeafPath q → entryAt frameReady.mem 2 q j = 0#64) ∧
    (TlbOp.alloc.exec 2).run (emptyVmm.alloc 2 (newPml4 emptyVmm)) = (some .nothing, frameReady) := by
  have hspaces : Spaces emptyVmm.pmm [2] (emptyVmm.alloc 2 (newPml4 emptyVmm)) := (spaces_nil emptyVmm_ground).create first_create.1
  have haddr := readPage_view.1
  rcases allocFrame_run (emptyVmm.alloc 2 (newPml4 emptyVmm)) with ⟨hnone, -⟩ | ⟨f, hf, -, -, hof, hsome⟩
  · rw [hnone] at haddr
    exact absurd haddr (by decide)
  · obtain rfl : f = 3 := by
      rw [hsome] at haddr
      rw [← hof, show frameAddr f = frameAddr 3 from haddr]
      decide
    have hready : frameReady = (emptyVmm.alloc 2 (newPml4 emptyVmm)).alloc 3 ((emptyVmm.alloc 2 (newPml4 emptyVmm)).mem 3) := by
      rw [frameReady, hsome, alloc_self]
    rw [hready]
    refine ⟨hspaces.alloc hf _, .alloc hspaces hf _, fun q j hq => ?_, ?_⟩
    · exact ((Spaces.same_view (hspaces.alloc_tables hf _) (mem_singleton_self 2) hq.1).2 j).trans (LifeAux.created_leaf hq j)
    · rw [exec, bind_run hsome, alloc_self]
      rfl

theorem readPage_readOnly (p : List (Fin 512)) (i : Fin 512) (f : Nat) (hm : Maps readPage.mem 2 p i f) :
    hasFlag (entryAt readPage.mem 2 p i) pteWritable = false := by
  obtain ⟨hspaces, hflight, hold, -⟩ := frameReady_spaces
  obtain ⟨st, m, hrun, h1, hcases⟩ := vmmMapPage_effect hspaces (mem_singleton_self 2) samplePage hflight readFlags
  have hm1 : readPage = m := by
    rw [readPage, hrun]
  by_cases hpage : p = vaPath samplePage.addr ∧ i = ptIndex samplePage.addr
  · obtain ⟨rfl, rfl⟩ := hpage
    have hleaf := readPage_view.2.2
    rw [hm1] at hleaf ⊢
    rw [← leafAt, (userLeaf_present_iff h1 (mem_singleton_self 2) samplePage (by decide)).mp hleaf]
    decide
  · have hzero : entryAt readPage.mem 2 p i = 0#64 := by
      rw [hm1]
      rcases hcases with ⟨-, hsame⟩ | ⟨-, honly⟩
      · exact (hsame 2 (mem_singleton_self 2) p i hm.1).trans (hold p i hm.1)
      · exact (honly 2 (mem_singleton_self 2) p i hm.1 fun hc => hpage hc.2).trans (hold p i hm.1)
    rw [hzero]
    decide

end TlbAux

/-- A page that may only be read is mapped and cloned; a page of the stack is touched and unmapped. -/
theorem tlb_coherent_sample :
    Each (TlbOp.step 2) (fun _ _ s' => Coherent 2 s') (.loaded 2 (emptyVmm.alloc 2 (newPml4 emptyVmm)))
      [.alloc, .map samplePage 3 readFlags, .clone, .mapDemand stackPage sampleFlags, .fault stackPage 6#64 (some stackTask),
        .unmapFree stackPage] := by
  have hspaces : Spaces emptyVmm.pmm [2] (emptyVmm.alloc 2 (newPml4 emptyVmm)) := (spaces_nil emptyVmm_ground).create first_create.1
  obtain ⟨-, hflight, -, halloc⟩ := frameReady_spaces
  have hread := readPage_readOnly
  have hmap : (TlbOp.exec 2 (.map samplePage 3 readFlags)).run frameReady = (some (.page samplePage.addr), readPage) := by
    have hok := readPage_view.2.1
    have hrun : (vmmMapPage (.ofRoot 2) samplePage.addr (frameAddr 3) readFlags.bits).run frameReady = (.ok, readPage) := by
      rw [readPage, ← hok, Prod.mk.eta]
    rw [exec, bind_run hrun]
    rfl
  have htrivial : ∀ s, Each (step 2) (fun s op _ => op.Careful emptyVmm.pmm 2 s) s
      [.mapDemand stackPage sampleFlags, .fault stackPage 6#64 (some stackTask), .unmapFree stackPage] := by
    intro s
    simp only [Each, TlbOp.Careful, true_and]
    repeat' split
    all_goals trivial
  have hclone : ∀ s : CachedSpace, (∀ p i f, Maps s.vmm.mem 2 p i f → hasFlag (entryAt s.vmm.mem 2 p i) pteWritable = false) →
      Each (step 2) (fun s op _ => op.Careful emptyVmm.pmm 2 s) s
        [.clone, .mapDemand stackPage sampleFlags, .fault stackPage 6#64 (some stackTask), .unmapFree stackPage] := by
    intro s hs
    rw [Each]
    split
    · exact ⟨hs, htrivial _⟩
    · trivial
  generalize emptyVmm.alloc 2 (newPml4 emptyVmm) = m, frameReady = m1, readPage = m2 at hspaces hflight halloc hread hmap
  refine tlb_coherent emptyVmm.pmm 2 m hspaces _ ?_
  unfold CachedSpace.loaded
  rw [each_cons_some (step_of_exec halloc), each_cons_some (step_of_exec hmap)]
  exact ⟨trivial, hflight, hclone _ hread⟩

namespace TlbAux

theorem onePage_create : vmmCreateAddressSpace.run onePage = ((.ok, some (.ofRoot 7)), twoSpaces) := by
  obtain ⟨c, -, hc, hrun⟩ := createSpace_eq onePage_spaces.init onePage_spaces.kernel_not_free onePage_root
  cases hc
  exact hrun

end TlbAux

/-- An address space with a writable page is cloned: the entry in the TLB still allows writes to the page, which is shared now. -/
theorem tlb_stale_after_clone : ¬ Each (TlbOp.step 2) (fun _ _ s' => Coherent 2 s') (.loaded 2 onePage) [.clone] := by
  have h2 : 2 ∈ [7, 2] := by decide
  have h7 : 7 ∈ [7, 2] := by decide
  obtain ⟨st, m, hclone, hcloned⟩ := cloneSpace_spaces twoSpaces_spaces h2 h7 (by decide) LifeAux.created_empty
  have hst : st = .ok := by
    by_contra hst
    exact twoSpaces_enough (hcloned.short.mp hst)
  have hrun : (clone.exec 2).run onePage = (some .nothing, m) := by
    rw [exec, bind_run onePage_create]
    dsimp only
    rw [bind_run hclone]
    rfl
  unfold CachedSpace.loaded
  rw [each_cons_some (step_of_exec hrun)]
  rintro ⟨hbad, -⟩
  -- the entry that was loaded before the clone
  have hold : userLeaf onePage.mem 2 samplePage.addr = some 0x3003#64 := by decide +kernel
  obtain ⟨cur, hcur, hp, -, hw⟩ := hbad samplePage 0x3003#64 (.inl ⟨.inr ⟨hold, by decide⟩, id⟩)
  have hleaf := (userLeaf_present_iff hcloned.spaces h2 samplePage hp).mp hcur
  rw [leafAt, hcloned.src hst _ _ samplePage.leafPath] at hleaf
  have hro := srcLeaf_readOnly (twoSpaces_spaces.leaf 2 h2 _ _ samplePage.leafPath) twoSpaces_maps.2.1
  rw [hleaf, hw (by decide)] at hro
  cases hro

end TsOs
