import TsOs.Lib.Runs
import TsOs.SpaceSet
import TsOs.Lemmas.LeafEffects
import TsOs.Theorems.SpaceLife

/-!
# Frames of several address spaces

Frames that address spaces share after a clone: which calls free a frame that is still mapped, and that a write through one address
space is not seen through another.
-/

namespace TsOs

open StateProg PteAux TableAux VmmRun WalkAux FreeTablesAux Runs List BitVec

/-- No frame that is mapped is marked free. -/
def MappedInUse (s : LiveSpaces) : Prop :=
  ∀ r ∈ s.live, ∀ p i f, Maps s.vmm.mem r p i f → s.vmm.pmm.isUsed f = true

/-- The calls that free no shared frame: a clone goes to another address space, which maps nothing yet, and what is unmapped and
freed or destroyed is mapped by no other address space. -/
def SpacesOp.Alone (s : LiveSpaces) : SpacesOp → Prop
  | .clone r d => r ≠ d ∧ ∀ p i f, ¬ Maps s.vmm.mem d p i f
  | .unmapFree r v => UnmapAlone s.live r v s.vmm
  | .destroy r => MapsAlone s.live r s.vmm
  | _ => True

namespace SpaceSetAux

variable {p₀ : Pmm} {s s' : LiveSpaces} {live : List Nat}

theorem create_eq {m : Vmm} (h : Spaces p₀ live m) {c : Nat}
    (hroot : (vmmCreateAddressSpace.run m).1.2 = some (.ofRoot c)) :
    m.pmm.Free c ∧ LiveSpaces.create ⟨m, live⟩ = ⟨m.alloc c (newPml4 m), c :: live⟩ := by
  obtain ⟨c', hc, hc', hrun⟩ := createSpace_eq h.init h.kernel_not_free hroot
  cases hc'
  exact ⟨hc, by simp only [LiveSpaces.create, hrun]; rfl⟩

theorem create_spaces (h : Spaces p₀ s.live s.vmm) : Spaces p₀ s.create.live s.create.vmm := by
  unfold LiveSpaces.create
  rcases createSpace_run h.init h.kernel_not_free with ⟨-, hrun⟩ | ⟨c, hc, hrun⟩
  · simp only [hrun]
    exact h
  · simp only [hrun]
    exact h.create hc

section Steps

variable {live : List Nat} {m : Vmm} {r : Nat}

theorem step_map (hr : r ∈ live) (v : UserVa) (flags : MapFlags) :
    SpacesOp.step ⟨m, live⟩ (.map r v flags) = some ⟨((mapFresh (.ofRoot r) v.addr flags.bits).run m).2, live⟩ := by
  exact if_pos hr

theorem step_clone {d : Nat} (hr : r ∈ live) (hd : d ∈ live) :
    SpacesOp.step ⟨m, live⟩ (.clone r d) = some ⟨((vmmCloneAddressSpace (.ofRoot r) (.ofRoot d)).run m).2, live⟩ := by
  exact if_pos ⟨hr, hd⟩

theorem step_destroy (hr : r ∈ live) :
    SpacesOp.step ⟨m, live⟩ (.destroy r) = some ⟨((vmmDestroyAddressSpace (.ofRoot r)).run m).2, live.filter (· ≠ r)⟩ := by
  exact if_pos hr

end Steps

/-- Every call that frees no shared frame keeps the invariant of the address spaces. -/
theorem step_spaces {op : SpacesOp} (h : Spaces p₀ s.live s.vmm) (hs : op.step s = some s') (ha : op.Alone s) :
    Spaces p₀ s'.live s'.vmm := by
  cases op with
  | create =>
    cases hs
    exact create_spaces h
  | map r v flags =>
    rw [SpacesOp.step, Option.ite_none_right_eq_some] at hs
    obtain ⟨hr, hs⟩ := hs
    cases hs
    exact (mapFresh_keeps h hr v flags).spaces
  | clone r d =>
    rw [SpacesOp.step, Option.ite_none_right_eq_some] at hs
    obtain ⟨⟨hr, hd⟩, hs⟩ := hs
    cases hs
    obtain ⟨st, m', hrun, hcloned⟩ := cloneSpace_spaces h hr hd ha.1 ha.2
    rw [hrun]
    exact hcloned.spaces
  | fault r v errorCode task =>
    rw [SpacesOp.step, Option.ite_none_right_eq_some] at hs
    obtain ⟨hr, hs⟩ := hs
    have hk := handlerPf_keeps h hr v errorCode task
    rcases hrun : (handlerPf errorCode v.addr r task).run s.vmm with ⟨ok, m⟩
    rw [hrun] at hs hk
    cases ok with
    | false => cases hs
    | true =>
      cases hs
      exact hk.spaces
  | unmapFree r v =>
    rw [SpacesOp.step, Option.ite_none_right_eq_some] at hs
    obtain ⟨hr, hs⟩ := hs
    cases hs
    exact (vmmUnmapAndFree_keeps h hr v ha).spaces
  | destroy r =>
    rw [SpacesOp.step, Option.ite_none_right_eq_some] at hs
    obtain ⟨hr, hs⟩ := hs
    cases hs
    obtain ⟨m', hrun, hspaces, -⟩ := destroySpace_spaces h hr ha
    rw [hrun]
    exact hspaces

theorem mappedInUse_of_spaces (h : Spaces p₀ s.live s.vmm) : MappedInUse s :=
  fun r hr p i f hm => (h.mapped f ⟨r, hr, p, i, hm⟩).2.1

/-- A frame that another address space maps as well is free after the destruction, and is still mapped. -/
theorem destroy_shared {m : Vmm} {r r' f : Nat} {p p' : List (Fin 512)} {i i' : Fin 512}
    (h : Spaces p₀ live m) (hr : r ∈ live) (hr' : r' ∈ live) (hne : r' ≠ r) (hm : Maps m.mem r p i f)
    (hm' : Maps m.mem r' p' i' f) :
    Maps ((vmmDestroyAddressSpace (.ofRoot r)).run m).2.mem r' p' i' f ∧
      ((vmmDestroyAddressSpace (.ofRoot r)).run m).2.pmm.isUsed f = false := by
  obtain ⟨fs, mem', hrun, hmem, hfs⟩ := destroySpace_run h hr
  rw [hrun]
  have hsame : ∀ f, IsTable [r'] m.mem f → ({ m with mem := mem' } : Vmm).mem f = m.mem f := by
    intro f hf
    obtain ⟨r1, hr1, q, hq, ht⟩ := hf
    rw [mem_singleton.mp hr1] at ht
    refine hmem f ?_
    rintro rfl
    exact hne (h.root_unique hr' hq hr ht).1
  have hview := Spaces.same_view hsame mem_cons_self hm'.1.1
  refine ⟨⟨hm'.1, ?_⟩, ?_⟩
  · rw [show entryAt mem' r' p' i' = _ from hview.2 i']
    exact hm'.2
  · obtain ⟨-, -, hused⟩ := Pmm.dropAll_spec h.pmmInit fs (fun g hg => by
      have hown : p₀.Free g := by
        rcases (hfs g).mp hg with ⟨q, hq, ht⟩ | ⟨q, j, hmg⟩
        · exact (h.owned g ⟨r, hr, q, hq, ht⟩).1
        · exact (h.mapped g ⟨r, hr, q, j, hmg⟩).1
      exact ⟨hown.1, h.total ▸ hown.2.1⟩)
    rw [← Bool.not_eq_true]
    intro hu
    exact ((hused f).mp hu).2 ((hfs f).mpr (.inr ⟨p, i, hm⟩))

end SpaceSetAux

open SpaceSetAux SpaceLifeAux

/-- In a run whose calls free no shared frame, no frame that an address space maps is ever marked free. -/
theorem mapped_frames_in_use (m : Vmm) (hground : Ground m.pmm m) (ops : List SpacesOp)
    (halone : Each SpacesOp.step (fun s op _ => op.Alone s) ⟨m, []⟩ ops) :
    Each SpacesOp.step (fun _ _ s' => MappedInUse s') ⟨m, []⟩ ops := by
  refine Each.of_inv (I := fun s => Spaces m.pmm s.live s.vmm) (fun s op s' h hs ha => ?_) (spaces_nil hground) halone
  have h' := step_spaces h hs ha
  exact ⟨h', mappedInUse_of_spaces h'⟩

/-- A page of user code that may be written. -/
theorem SpaceSetAux.samplePage_user : (0x1000#64).toNat < 2 ^ 47 := by decide

def SpaceSetAux.samplePage : UserVa := ⟨0x1000#64, samplePage_user⟩

theorem SpaceSetAux.writable_noAddr : pteWritable &&& pteAddrMask = 0#64 := by decide

theorem SpaceSetAux.writable_noCow : hasFlag pteWritable pteCow = false := by decide

theorem SpaceSetAux.writable_noDemand : hasFlag pteWritable pteDemand = false := by decide

def SpaceSetAux.sampleFlags : MapFlags := ⟨pteWritable, writable_noAddr, writable_noCow, writable_noDemand⟩

namespace SpaceSetAux

/-- An address space with one page, of frame 3. -/
def onePage : Vmm :=
  ((mapFresh (.ofRoot 2) samplePage.addr sampleFlags.bits).run (emptyVmm.alloc 2 (newPml4 emptyVmm))).2

/-- The same with another address space that is still empty. -/
def twoSpaces : Vmm := onePage.alloc 7 (newPml4 onePage)

theorem first_create : emptyVmm.pmm.Free 2 ∧
    SpacesOp.step ⟨emptyVmm, []⟩ .create = some ⟨emptyVmm.alloc 2 (newPml4 emptyVmm), [2]⟩ := by
  obtain ⟨hc, heq⟩ := create_eq (c := 2) (spaces_nil emptyVmm_ground) (congrArg Prod.snd emptyVmm_view.1)
  exact ⟨hc, congrArg some heq⟩

theorem onePage_step : SpacesOp.step ⟨emptyVmm.alloc 2 (newPml4 emptyVmm), [2]⟩ (.map 2 samplePage sampleFlags) =
    some ⟨onePage, [2]⟩ := step_map (List.mem_singleton_self 2) samplePage sampleFlags

theorem onePage_spaces : Spaces emptyVmm.pmm [2] onePage :=
  (mapFresh_keeps ((spaces_nil emptyVmm_ground).create first_create.1) (mem_singleton_self 2) samplePage sampleFlags).spaces

/-- The PML4 of the second address space is frame 7; then the page of the first address space is as before, and there are frames
enough for a clone of its three tables and for a third address space. -/
theorem twoSpaces_view : (vmmCreateAddressSpace.run onePage).1.2 = some (.ofRoot 7) ∧
    Maps twoSpaces.mem 2 (vaPath samplePage.addr) (ptIndex samplePage.addr) 3 ∧
    ¬ twoSpaces.pmm.freeCount < tableCount twoSpaces.mem 2 2 userEntries ∧
    (vmmCreateAddressSpace.run twoSpaces).1.2 = some (.ofRoot 8) :=
  ⟨by decide +kernel, ⟨samplePage.leafPath, by decide +kernel, by decide +kernel⟩, by decide +kernel, by decide +kernel⟩

theorem onePage_root : (vmmCreateAddressSpace.run onePage).1.2 = some (.ofRoot 7) := twoSpaces_view.1

theorem second_create : onePage.pmm.Free 7 ∧ SpacesOp.step ⟨onePage, [2]⟩ .create = some ⟨twoSpaces, [7, 2]⟩ := by
  obtain ⟨hc, heq⟩ := create_eq (c := 7) onePage_spaces onePage_root
  exact ⟨hc, congrArg some heq⟩

theorem twoSpaces_spaces : Spaces emptyVmm.pmm [7, 2] twoSpaces := onePage_spaces.create second_create.1

theorem twoSpaces_maps : Maps twoSpaces.mem 2 (vaPath samplePage.addr) (ptIndex samplePage.addr) 3 := twoSpaces_view.2.1

theorem twoSpaces_enough : ¬ twoSpaces.pmm.freeCount < tableCount twoSpaces.mem 2 2 userEntries := twoSpaces_view.2.2.1

end SpaceSetAux

/-- Of three address spaces the first has a page; it is cloned into the second and written to, and the third is destroyed. -/
theorem mapped_frames_in_use_sample :
    Each SpacesOp.step (fun _ _ s' => MappedInUse s') ⟨emptyVmm, []⟩
      [.create, .map 2 samplePage sampleFlags, .create, .create, .clone 2 7, .fault 2 samplePage 7#64 none, .destroy 8] := by
  refine mapped_frames_in_use emptyVmm emptyVmm_ground _ ?_
  obtain ⟨h8, hthird⟩ := create_eq (c := 8) twoSpaces_spaces twoSpaces_view.2.2.2
  have hspaces := twoSpaces_spaces.create h8
  have hempty : ∀ r ∈ [8, 7], ∀ p i, LeafPath p → entryAt (twoSpaces.alloc 8 (newPml4 twoSpaces)).mem r p i = 0#64 := by
    intro r hr p i hp
    rcases mem_cons.mp hr with rfl | hr
    · exact LifeAux.created_leaf hp i
    · rw [mem_singleton.mp hr]
      exact ((Spaces.same_view (twoSpaces_spaces.alloc_tables h8 _) mem_cons_self hp.1).2 i).trans (LifeAux.created_leaf hp i)
  rw [each_cons_some first_create.2, each_cons_some onePage_step, each_cons_some second_create.2,
    each_cons_some (congrArg some hthird)]
  generalize twoSpaces.alloc 8 (newPml4 twoSpaces) = m at hspaces hempty
  have h2 : 2 ∈ [8, 7, 2] := by decide
  have hnone : ∀ {m : Vmm} {r : Nat}, (∀ p i, LeafPath p → entryAt m.mem r p i = 0#64) → ∀ p i f, ¬ Maps m.mem r p i f := by
    intro m r hzero p i f hm
    have hp := hm.2.1
    rw [hzero p i hm.1] at hp
    cases hp
  have h7 := hnone (hempty 7 (by decide))
  obtain ⟨st, m1, hclone, hcloned⟩ := cloneSpace_spaces hspaces h2 (show 7 ∈ [8, 7, 2] by decide) (by decide) h7
  rw [each_cons_some (step_clone h2 (by decide)), hclone]
  refine ⟨trivial, trivial, trivial, trivial, ⟨by decide, h7⟩, ?_⟩
  rcases handlerPf_run hcloned.spaces h2 samplePage.addr samplePage.page.index_lt 7#64 none with hpf | ⟨m2, hpf, hend⟩
  · refine each_cons_none ?_
    simp only [SpacesOp.step, if_pos h2, hpf]
  · have hstep : SpacesOp.step ⟨m1, [8, 7, 2]⟩ (.fault 2 samplePage 7#64 none) = some ⟨m2, [8, 7, 2]⟩ := by
      simp only [SpacesOp.step, if_pos h2, hpf]
    rw [each_cons_some hstep, each_cons_some (step_destroy (by decide))]
    refine ⟨trivial, fun f hf => absurd hf ?_, trivial⟩
    -- no step has touched the third address space
    rintro ⟨p, i, hm⟩
    refine hnone (fun p i hp => ?_) p i f hm
    rw [(FaultEnd.only (v := samplePage.page) hcloned.spaces h2 hend).1 8 (by decide) p i hp fun hc => absurd hc.1 (by decide)]
    rcases hcloned.leaf 8 (by decide) (by decide) p i hp with hsame | ⟨hsrc, -⟩
    · exact hsame.trans (hempty 8 mem_cons_self p i hp)
    · exact absurd hsrc (by decide)

/-- An address space is cloned and destroyed: the frame of its page is free while the clone maps it. -/
theorem mapped_frame_freed_by_destroy :
    ¬ Each SpacesOp.step (fun _ _ s' => MappedInUse s') ⟨emptyVmm, []⟩
      [.create, .map 2 samplePage sampleFlags, .create, .clone 2 7, .destroy 2] := by
  have h2 : 2 ∈ [7, 2] := by decide
  have h7 : 7 ∈ [7, 2] := by decide
  obtain ⟨st, m, hrun, hcloned⟩ := cloneSpace_spaces twoSpaces_spaces h2 h7 (by decide) LifeAux.created_empty
  have hst : st = .ok := by
    by_contra hst
    exact twoSpaces_enough (hcloned.short.mp hst)
  rw [each_cons_some first_create.2, each_cons_some onePage_step, each_cons_some second_create.2,
    each_cons_some (step_clone h2 h7), each_cons_some (step_destroy h2), hrun]
  rintro ⟨-, -, -, -, hbad, -⟩
  have hsrc : Maps m.mem 2 (vaPath samplePage.addr) (ptIndex samplePage.addr) 3 := by
    refine ⟨samplePage.leafPath, ?_⟩
    rw [hcloned.src hst _ _ samplePage.leafPath, CloneAux.srcLeaf_present, CloneAux.srcLeaf_frame]
    exact twoSpaces_maps.2
  obtain ⟨hmaps, hfree⟩ := destroy_shared hcloned.spaces h2 h7 (by decide) hsrc ((hcloned.copy hst _ _ _).mpr twoSpaces_maps)
  have := hbad 7 (by show 7 ∈ [7, 2].filter (· ≠ 2); decide) _ _ _ hmaps
  rw [hfree] at this
  cases this

end TsOs
