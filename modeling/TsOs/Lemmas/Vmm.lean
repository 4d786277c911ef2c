import TsOs.Lemmas.Prune
import TsOs.UserSpace

/-!
# The operations on an address space

What each function of `kernel/vmm.c` does to the tables and the frames, given what `pt_walk_to_leaf` does.
-/

namespace TsOs

open StateProg PteAux TableAux VmmRun WalkAux List BitVec

namespace VmmAux

/-- The flags with which `vmm_map_page` links tables. -/
theorem interFlags_link (flags : BitVec 64) : LinkFlags ((ptePresent ||| pteWritable) ||| (flags &&& pteUser)) where
  present := by
    rw [hasFlag_present, getLsbD_or]
    rfl
  small := by
    rw [hasFlag_ps, getLsbD_or, getLsbD_and, show pteUser.getLsbD 7 = false from rfl, Bool.and_false]
    rfl
  noAddr := by
    rw [BitVec.and_or_distrib_right, BitVec.and_assoc, show pteUser &&& pteAddrMask = 0#64 from rfl, BitVec.and_zero]
    rfl

end VmmAux

variable {live : List Nat} {m : Vmm} {p0 : Pmm} {r : Nat}

/-- In a tree without huge pages the walk returns the leaf slot of the address. -/
theorem WalkAux.WalkEnd.slot {f : Nat} {i : Fin 512} {va : BitVec 64} {create : Bool} {m' : Vmm}
    (hend : WalkEnd 256 live r va create m m' (some (f, i))) (h : Spaces p0 live m') (hr : r ∈ live) :
    tableAt m'.mem r (vaPath va) = some f ∧ i = ptIndex va := by
  rcases hend.found f i rfl with hslot | ⟨q, hq, -, hf, hpres, hps⟩
  · exact hslot
  · have hsmall := h.small r hr q i hq
    rw [entryAt_eq hf, hpres, hps] at hsmall
    cases hsmall rfl

open VmmAux

/-- The checks of `vmm_map_page` fail without effect, or all hold. -/
theorem vmmMapPage_checks (as : AddressSpace) (v p flags : BitVec 64) (m : Vmm) :
    (∃ st, st ≠ .ok ∧ (vmmMapPage as v p flags).run m = (st, m)) ∨
    ∃ r, m.initialized = true ∧ as.pml4 = some r ∧ validateVaddr v = true ∧ validatePaddr p = true := by
  rw [vmmMapPage, bind_run (get_run m)]
  cases hi : m.initialized with
  | false => exact .inl ⟨.notInit, nofun, rfl⟩
  | true =>
    cases hr : as.pml4 with
    | none => exact .inl ⟨.invalid, nofun, rfl⟩
    | some r =>
      cases hv : validateVaddr v with
      | false => exact .inl ⟨.invalid, nofun, rfl⟩
      | true =>
        cases hp : validatePaddr p with
        | false => exact .inl ⟨.invalid, nofun, rfl⟩
        | true => exact .inr ⟨r, rfl, rfl, rfl, rfl⟩

variable {as : AddressSpace} {v : BitVec 64}

/-- What `vmm_map_page` did when it returns: a page was mapped after some growth, or only the growth happened. -/
theorem vmmMapPage_run {p : BitVec 64} (flags : BitVec 64) {B : Nat}
    (hi : m.initialized = true) (hr : as.pml4 = some r) (hv : validateVaddr v = true) (hp : validatePaddr p = true)
    (ht : Tables B m.mem live) (hk : Kept B live m) (hlive : r ∈ live) (hB : (pml4Index v).val < B) :
    ∃ st m1, Grown B live r m m1 ∧
      ((vmmMapPage as v p flags).run m = (st, m1) ∧ st ≠ .ok ∨
       ∃ f, tableAt m1.mem r (vaPath v) = some f ∧ hasFlag (m1.mem f (ptIndex v)) ptePresent = false ∧
        (vmmMapPage as v p flags).run m = (.ok, m1.store f (ptIndex v) (pteMake p (flags ||| ptePresent)))) := by
  obtain ⟨res, m1, hrun, hend⟩ := ptWalkToLeaf_spec true _ ht hk hlive hB (fun _ => interFlags_link flags)
  rw [vmmMapPage, bind_run (get_run m), hi, hr, hv, hp]
  dsimp only [Bool.not_true]
  rw [if_neg (by simp), if_neg (by simp), if_neg (by simp), bind_run hrun]
  cases res with
  | none => exact ⟨.noMem, m1, hend.grown, .inl ⟨rfl, nofun⟩⟩
  | some fi =>
    obtain ⟨f, i⟩ := fi
    rw [bind_run (readEntry_run m1 f i)]
    cases hpres : hasFlag (m1.mem f i) ptePresent with
    | true =>
      exact ⟨.alreadyMap, m1, hend.grown, .inl ⟨rfl, nofun⟩⟩
    | false =>
      rcases hend.found f i rfl with ⟨htab, rfl⟩ | ⟨q, -, -, -, hhuge, -⟩
      · exact ⟨.ok, m1, hend.grown, .inr ⟨f, htab, hpres, rfl⟩⟩
      · rw [hpres] at hhuge
        cases hhuge

variable (h : Spaces p0 live m) (hr : as.pml4 = some r) (hlive : r ∈ live) (hB : (pml4Index v).val < 256)
include h hr hlive hB

/-- `vmm_map_demand_page` grows the tree and stores a leaf where there was none, or only grows the tree. -/
theorem vmmMapDemandPage_run (flags : BitVec 64) :
    ∃ st m1, Grown 256 live r m m1 ∧
      ((vmmMapDemandPage as v flags).run m = (st, m1) ∧ st ≠ .ok ∧
        (st = .alreadyMap → hasFlag (entryAt m1.mem r (vaPath v) (ptIndex v)) (ptePresent ||| pteDemand) = true) ∨
       ∃ f, tableAt m1.mem r (vaPath v) = some f ∧ hasFlag (m1.mem f (ptIndex v)) (ptePresent ||| pteDemand) = false ∧
        (vmmMapDemandPage as v flags).run m =
          (.ok, m1.store f (ptIndex v) (((flags &&& ~~~pteAddrMask) ||| pteDemand) &&& ~~~ptePresent))) := by
  rw [vmmMapDemandPage, bind_run (get_run m), h.init, hr]
  dsimp only [Bool.not_true]
  rw [if_neg (by simp)]
  cases hv : validateVaddr v with
  | false => exact ⟨.invalid, m, Grown.refl h.tables h.kept hlive, .inl ⟨rfl, nofun, nofun⟩⟩
  | true =>
    obtain ⟨res, m1, hrun, hend⟩ := ptWalkToLeaf_spec true _ h.tables h.kept hlive hB (fun _ => interFlags_link flags)
    rw [if_neg (by simp), bind_run hrun]
    cases res with
    | none => exact ⟨.noMem, m1, hend.grown, .inl ⟨rfl, nofun, nofun⟩⟩
    | some fi =>
      obtain ⟨f, i⟩ := fi
      obtain ⟨htab, rfl⟩ := hend.slot (hend.grown.spaces h hlive) hlive
      rw [bind_run (readEntry_run m1 f _)]
      cases hpres : hasFlag (m1.mem f (ptIndex v)) (ptePresent ||| pteDemand) with
      | true =>
        refine ⟨.alreadyMap, m1, hend.grown, .inl ⟨rfl, nofun, fun _ => ?_⟩⟩
        rw [entryAt_eq htab, hpres]
      | false =>
        exact ⟨.ok, m1, hend.grown, .inr ⟨f, htab, hpres, rfl⟩⟩

/-- `vmm_map_page_merge` grows the tree and stores a leaf over one that was not present, adds the flags to one that was, or only
grows the tree. -/
theorem vmmMapPageMerge_run {p : BitVec 64} (flags : BitVec 64) :
    ∃ m1, Grown 256 live r m m1 ∧
      ((∃ st, (vmmMapPageMerge as v p flags).run m = ((st, false), m1) ∧
        (st = .ok → hasFlag (entryAt m1.mem r (vaPath v) (ptIndex v)) ptePresent = true)) ∨
       ∃ f, tableAt m1.mem r (vaPath v) = some f ∧
        (hasFlag (m1.mem f (ptIndex v)) ptePresent = true ∧
          (vmmMapPageMerge as v p flags).run m =
            ((.ok, true), m1.store f (ptIndex v) (mergedLeaf (m1.mem f (ptIndex v)) (flags ||| ptePresent))) ∨
         hasFlag (m1.mem f (ptIndex v)) ptePresent = false ∧ validatePaddr p = true ∧
          (vmmMapPageMerge as v p flags).run m = ((.ok, true), m1.store f (ptIndex v) (pteMake p (flags ||| ptePresent))))) := by
  have hrefl := Grown.refl h.tables h.kept hlive
  rw [vmmMapPageMerge, bind_run (get_run m), h.init, hr]
  dsimp only [Bool.not_true]
  rw [if_neg (by simp)]
  cases hv : validateVaddr v with
  | false => exact ⟨m, hrefl, .inl ⟨.invalid, rfl, nofun⟩⟩
  | true =>
    rw [if_neg (by simp)]
    cases hp : validatePaddr p with
    | false => exact ⟨m, hrefl, .inl ⟨.invalid, rfl, nofun⟩⟩
    | true =>
      obtain ⟨res, m1, hrun, hend⟩ := ptWalkToLeaf_spec true _ h.tables h.kept hlive hB (fun _ => interFlags_link flags)
      rw [if_neg (by simp), bind_run hrun]
      cases res with
      | none => exact ⟨m1, hend.grown, .inl ⟨.noMem, rfl, nofun⟩⟩
      | some fi =>
        obtain ⟨f, i⟩ := fi
        obtain ⟨htab, rfl⟩ := hend.slot (hend.grown.spaces h hlive) hlive
        refine ⟨m1, hend.grown, ?_⟩
        rw [bind_run (readEntry_run m1 f _)]
        cases hpres : hasFlag (m1.mem f (ptIndex v)) ptePresent with
        | true =>
          by_cases hsame : mergedLeaf (m1.mem f (ptIndex v)) (flags ||| ptePresent) ≠ m1.mem f (ptIndex v)
          · rw [if_pos hsame]
            exact .inr ⟨f, htab, .inl ⟨hpres, rfl⟩⟩
          · rw [if_neg hsame]
            refine .inl ⟨.ok, rfl, fun _ => ?_⟩
            rw [entryAt_eq htab, hpres]
        | false =>
          exact .inr ⟨f, htab, .inr ⟨hpres, rfl, rfl⟩⟩

/-- `vmm_unmap_page` finds nothing to unmap, or clears the leaf and cleans up. -/
theorem vmmUnmapPage_run :
    (∃ st, st ≠ .ok ∧ (vmmUnmapPage as v).run m = (st, m)) ∨
    ∃ f, tableAt m.mem r (vaPath v) = some f ∧
      (vmmUnmapPage as v).run m = (.ok, ((ptCleanupEmptyTables r v).run (m.store f (ptIndex v) 0#64)).2) := by
  rw [vmmUnmapPage, bind_run (get_run m), h.init, hr]
  dsimp only [Bool.not_true]
  rw [if_neg (by simp)]
  cases hv : validateVaddr v with
  | false => exact .inl ⟨.invalid, nofun, rfl⟩
  | true =>
    obtain ⟨res, m', hrun, hend⟩ := ptWalkToLeaf_spec false 0#64 h.tables h.kept hlive hB nofun
    obtain rfl := hend.same rfl
    rw [if_neg (by simp), bind_run hrun]
    cases res with
    | none => exact .inl ⟨.notMapped, nofun, rfl⟩
    | some fi =>
      obtain ⟨f, i⟩ := fi
      obtain ⟨htab, rfl⟩ := hend.slot h hlive
      rw [bind_run (readEntry_run m' f _)]
      cases hset : hasFlag (m'.mem f (ptIndex v)) (ptePresent ||| pteDemand) with
      | false => exact .inl ⟨.notMapped, nofun, rfl⟩
      | true =>
        exact .inr ⟨f, htab, rfl⟩

/-- `vmm_unmap_and_free` finds nothing to unmap, or clears the leaf, frees the frame of a present one, and cleans up. -/
theorem vmmUnmapAndFree_run :
    (∃ st, st ≠ .ok ∧ (vmmUnmapAndFree as v).run m = (st, m)) ∨
    ∃ f m1, tableAt m.mem r (vaPath v) = some f ∧
      (hasFlag (m.mem f (ptIndex v)) ptePresent = false ∧ m1 = m.store f (ptIndex v) 0#64 ∨
       hasFlag (m.mem f (ptIndex v)) ptePresent = true ∧
        m1 = { m.store f (ptIndex v) 0#64 with pmm := m.pmm.drop (pteFrame (m.mem f (ptIndex v))) }) ∧
      (vmmUnmapAndFree as v).run m = (.ok, ((ptCleanupEmptyTables r v).run m1).2) := by
  rw [vmmUnmapAndFree, bind_run (get_run m), h.init, hr]
  dsimp only [Bool.not_true]
  rw [if_neg (by simp)]
  cases hv : validateVaddr v with
  | false => exact .inl ⟨.invalid, nofun, rfl⟩
  | true =>
    obtain ⟨res, m', hrun, hend⟩ := ptWalkToLeaf_spec false 0#64 h.tables h.kept hlive hB nofun
    obtain rfl := hend.same rfl
    rw [if_neg (by simp), bind_run hrun]
    cases res with
    | none => exact .inl ⟨.notMapped, nofun, rfl⟩
    | some fi =>
      obtain ⟨f, i⟩ := fi
      obtain ⟨htab, rfl⟩ := hend.slot h hlive
      have hleaf := h.leaf r hlive (vaPath v) (ptIndex v) ⟨TablePath.vaPath hB, rfl⟩
      rw [entryAt_eq htab] at hleaf
      rw [bind_run (readEntry_run m' f _)]
      cases hd : hasFlag (m'.mem f (ptIndex v)) pteDemand with
      | true =>
        exact .inr ⟨f, _, htab, .inl ⟨hleaf.demand hd, rfl⟩, rfl⟩
      | false =>
        rw [if_neg (by simp)]
        cases hpres : hasFlag (m'.mem f (ptIndex v)) ptePresent with
        | false => exact .inl ⟨.notMapped, nofun, rfl⟩
        | true =>
          rw [if_neg (by simp), bind_run (writeEntry_run _ _ _ _), bind_run (freeFrame_pteAddr_run _ _)]
          exact .inr ⟨f, _, htab, .inr ⟨hpres, rfl⟩, rfl⟩

end TsOs
