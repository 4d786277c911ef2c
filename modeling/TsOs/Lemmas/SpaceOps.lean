import TsOs.Lemmas.PageFault
import TsOs.Lemmas.Translate

/-!
# The operations keep the invariant

Each operation on an address space of a task keeps the invariant of the address spaces, and, but for the resolution of a
copy-on-write fault, the account of the frames.
-/

namespace TsOs

open StateProg PteAux TableAux VmmRun WalkAux VaAux List BitVec

/-! ## The leaves that are stored -/

variable {e : BitVec 64} {g : Nat}

namespace LeafAux

theorem getLsbD_leaf (h : LeafOk e) :
    (e.getLsbD 10 = true → e.getLsbD 0 = false) ∧ (e.getLsbD 9 = true → e.getLsbD 0 = true ∧ e.getLsbD 1 = false) := by
  obtain ⟨hd, hc⟩ := h
  rw [hasFlag_demand, hasFlag_present] at hd
  rw [hasFlag_cow, hasFlag_present, hasFlag_writable] at hc
  exact ⟨hd, hc⟩

/-- A present leaf without the bits of copy-on-write and demand pages. -/
theorem leafOk_plain (hd : hasFlag e pteDemand = false) (hc : hasFlag e pteCow = false) : LeafOk e where
  demand h := by
    rw [hd] at h
    cases h
  cow h := by
    rw [hc] at h
    cases h

/-- The leaf of `vmm_map_page`. -/
theorem mapLeaf (hg : g < 2 ^ 40) (flags : MapFlags) :
    let e := pteMake (frameAddr g) (flags.bits ||| ptePresent)
    hasFlag e ptePresent = true ∧ pteFrame e = g ∧ hasFlag e pteDemand = false ∧ hasFlag e pteCow = false := by
  have hd := flags.noDemand
  have hc := flags.noCow
  rw [hasFlag_demand] at hd
  rw [hasFlag_cow] at hc
  refine ⟨?_, ?_, ?_, ?_⟩
  · rw [hasFlag_present, getLsbD_pteMake (by omega), getLsbD_or, show ptePresent.getLsbD 0 = true from rfl, Bool.or_true]
  · refine pteFrame_make hg ?_
    rw [and_or_distrib_right, flags.noAddr]
    rfl
  · rw [hasFlag_demand, getLsbD_pteMake (by omega), getLsbD_or, hd]
    rfl
  · rw [hasFlag_cow, getLsbD_pteMake (by omega), getLsbD_or, hc]
    rfl

/-- The leaf of `vmm_map_demand_page`. -/
theorem lazyLeaf (flags : MapFlags) :
    let e := ((flags.bits &&& ~~~pteAddrMask) ||| pteDemand) &&& ~~~ptePresent
    hasFlag e ptePresent = false ∧ hasFlag e pteCow = false := by
  have hc := flags.noCow
  rw [hasFlag_cow] at hc
  refine ⟨?_, ?_⟩
  · rw [hasFlag_present, getLsbD_and, show (~~~ptePresent).getLsbD 0 = false from rfl, Bool.and_false]
  · rw [hasFlag_cow, getLsbD_and, getLsbD_or, getLsbD_and, hc]
    rfl

/-- The leaf of a resolved demand page. -/
theorem demandLeaf_ok (hg : g < 2 ^ 40) {old : BitVec 64} (h : LeafOk old) (hd : hasFlag old pteDemand = true) :
    hasFlag (demandLeaf old g) ptePresent = true ∧ pteFrame (demandLeaf old g) = g ∧
    hasFlag (demandLeaf old g) pteDemand = false ∧ hasFlag (demandLeaf old g) pteCow = false := by
  have hcow : old.getLsbD 9 = false := by
    obtain ⟨hdem, hcow⟩ := getLsbD_leaf h
    rw [hasFlag_demand] at hd
    cases hb : old.getLsbD 9 with
    | false => rfl
    | true =>
      have := (hcow hb).1
      rw [hdem hd] at this
      cases this
  simp only [demandLeaf]
  refine ⟨?_, ?_, ?_, ?_⟩
  · rw [hasFlag_present, getLsbD_pteMake (by omega), getLsbD_or, show ptePresent.getLsbD 0 = true from rfl, Bool.or_true]
  · refine pteFrame_make hg ?_
    rw [BitVec.and_or_distrib_right, BitVec.and_assoc, show ~~~(pteDemand ||| pteAddrMask) &&& pteAddrMask = 0#64 by decide,
      and_zero]
    rfl
  · rw [hasFlag_demand, getLsbD_pteMake (by omega), getLsbD_or, getLsbD_and,
      show (~~~(pteDemand ||| pteAddrMask)).getLsbD 10 = false from rfl, Bool.and_false]
    rfl
  · rw [hasFlag_cow, getLsbD_pteMake (by omega), getLsbD_or, getLsbD_and, hcow]
    rfl

/-- The leaf of a resolved copy-on-write page. -/
theorem copyLeaf_ok (hg : g < 2 ^ 40) {old : BitVec 64} (h : LeafOk old) (hc : hasFlag old pteCow = true) :
    hasFlag (copyLeaf old g) ptePresent = true ∧ pteFrame (copyLeaf old g) = g ∧
    hasFlag (copyLeaf old g) pteDemand = false ∧ hasFlag (copyLeaf old g) pteCow = false := by
  obtain ⟨hdem, hcow⟩ := getLsbD_leaf h
  rw [hasFlag_cow] at hc
  have hpres := (hcow hc).1
  have hdem' : old.getLsbD 10 = false := by
    cases hb : old.getLsbD 10 with
    | false => rfl
    | true =>
      rw [hdem hb] at hpres
      cases hpres
  simp only [copyLeaf]
  refine ⟨?_, ?_, ?_, ?_⟩
  · rw [hasFlag_present, getLsbD_pteMake (by omega), getLsbD_and, getLsbD_or, getLsbD_pteFlags (by omega), hpres]
    rfl
  · refine pteFrame_make hg ?_
    rw [BitVec.and_assoc, BitVec.and_comm (~~~pteCow), ← BitVec.and_assoc, BitVec.and_or_distrib_right, pteFlags_and_mask]
    rw [show 0#64 ||| pteWritable &&& pteAddrMask = 0#64 by decide, zero_and]
  · rw [hasFlag_demand, getLsbD_pteMake (by omega), getLsbD_and, getLsbD_or, getLsbD_pteFlags (by omega), hdem']
    rfl
  · rw [hasFlag_cow, getLsbD_pteMake (by omega), getLsbD_and, show (~~~pteCow).getLsbD 9 = false from rfl, Bool.and_false]

end LeafAux

open LeafAux

/-! ## Stores and frames in flight -/

variable {p0 : Pmm} {live : List Nat} {m m' : Vmm} {r : Nat}

/-- The step from `m` to `m'` keeps the invariant and the account. -/
structure Keeps (p0 : Pmm) (live : List Nat) (m m' : Vmm) : Prop where
  spaces : Spaces p0 live m'
  accounted : ∀ X, Accounted p0 live X m → Accounted p0 live X m'

theorem Keeps.refl (h : Spaces p0 live m) : Keeps p0 live m m := ⟨h, fun _ ha => ha⟩

theorem Keeps.trans {m'' : Vmm} (h : Keeps p0 live m m') (h' : Keeps p0 live m' m'') : Keeps p0 live m m'' :=
  ⟨h'.spaces, fun X ha => h'.accounted X (h.accounted X ha)⟩

theorem Keeps.grown (h : Spaces p0 live m) (hr : r ∈ live) (hg : Grown 256 live r m m') : Keeps p0 live m m' :=
  ⟨hg.spaces h hr, fun _ ha => hg.accounted ha hr⟩

theorem Keeps.pruning (h : Spaces p0 live m) (hp : Pruning live r m m') : Keeps p0 live m m' :=
  ⟨hp.spaces h, fun _ ha => hp.accounted h ha⟩

/-- A frame that is allocated but neither a table nor mapped. -/
structure InFlight (p0 : Pmm) (live : List Nat) (g : Nat) (m : Vmm) : Prop where
  free : p0.Free g
  used : m.pmm.isUsed g = true
  notTable : ¬ IsTable live m.mem g
  notMapped : ¬ IsMapped live m.mem g

theorem InFlight.alloc (h : Spaces p0 live m) (hg : m.pmm.Free g) (page : Fin 512 → BitVec 64) :
    InFlight p0 live g (m.alloc g page) where
  free := h.free_of_free hg
  used := (Spaces.alloc_isUsed page g).mpr (.inl rfl)
  notTable ht := h.not_table_of_free hg ((Spaces.isTable_iff_of_same_tables (h.alloc_tables hg page) g).mp ht)
  notMapped := by
    rintro ⟨r, hr, p, i, hm⟩
    exact h.not_mapped_of_free hg ⟨r, hr, p, i, (Spaces.maps_iff_of_same_tables (h.alloc_tables hg page) hr p i g).mp hm⟩

theorem InFlight.grown (h : InFlight p0 live g m) (hg : Grown 256 live r m m') : InFlight p0 live g m' where
  free := h.free
  used := hg.used_mono h.used
  notTable ht := by
    rcases hg.isTable_cases ht with hold | ⟨hfree, -⟩
    · exact h.notTable hold
    · exact Spaces.not_free_of_used h.used hfree
  notMapped hm := h.notMapped ((hg.isMapped_iff g).mp hm)

theorem store_self (m : Vmm) (t : Nat) (i : Fin 512) (e : BitVec 64) : (m.store t i e).mem t i = e := setEntry_self _ _ _ _

variable {p : List (Fin 512)} {t : Nat}

section

variable (h : Spaces p0 live m) (hr : r ∈ live) (hp : LeafPath p) (ht : tableAt m.mem r p = some t)
include h hr hp ht

theorem LeafSet.store (i : Fin 512) (e : BitVec 64) : LeafSet live r p i t m (m.store t i e) where
  steady := by
    refine ⟨rfl, rfl, rfl, rfl, rfl, ?_⟩
    funext j
    refine setEntry_of_ne ?_
    rintro ⟨hk, -⟩
    exact h.kernel_not_table ⟨r, hr, p, hp.1, hk ▸ ht⟩
  root := hr
  path := hp
  table := ht
  mem _ _ _ hne := setEntry_of_ne hne

/-- A leaf that is not present is stored over one that is not. -/
theorem Keeps.lazy {i : Fin 512} (hold : hasFlag (m.mem t i) ptePresent = false)
    (hpres : hasFlag e ptePresent = false) (hcow : hasFlag e pteCow = false) : Keeps p0 live m (m.store t i e) := by
  have hl := LeafSet.store h hr hp ht i e
  refine ⟨hl.spaces h (fun f hf _ => hf) ?_ ?_, fun X ha => hl.accounted h ha ?_ fun f hf => ⟨hf, .inl, ?_⟩⟩
  · rw [store_self]
    refine ⟨fun _ => hpres, fun hc => ?_⟩
    rw [hcow] at hc
    cases hc
  · intro g hg
    rw [store_self, hpres] at hg
    cases hg
  · rw [store_self]
    exact hcow
  · intro hp'
    rw [hold] at hp'
    cases hp'

/-- A leaf that maps a frame in flight is stored. -/
theorem Spaces.mapNew (hg : InFlight p0 live g m) {i : Fin 512} (hleaf : LeafOk e)
    (hfr : pteFrame e = g) : Spaces p0 live (m.store t i e) := by
  have hl := LeafSet.store h hr hp ht i e
  refine hl.spaces h (fun f hf _ => hf) (by rw [store_self]; exact hleaf) fun g' _ hg' => ?_
  rw [store_self, hfr] at hg'
  subst hg'
  exact ⟨hg.free, hg.used, hg.notTable, fun r' hr' q j hm => absurd ⟨r', hr', q, j, hm⟩ hg.notMapped⟩

theorem Spaces.mapNew_accounted {X : Nat → Prop} (ha : Accounted p0 live (fun f => f = g ∨ X f) m) {i : Fin 512}
    (hold : hasFlag (m.mem t i) ptePresent = false) (hpres : hasFlag e ptePresent = true) (hfr : pteFrame e = g)
    (hcow : hasFlag e pteCow = false) : Accounted p0 live X (m.store t i e) := by
  refine (LeafSet.store h hr hp ht i e).accounted h ha (by rw [store_self]; exact hcow) fun f hf => ⟨hf, ?_, ?_⟩
  · rintro (rfl | hx)
    · rw [store_self]
      exact .inr ⟨hpres, hfr⟩
    · exact .inl hx
  · intro hp'
    rw [hold] at hp'
    cases hp'

end

/-! ## The operations -/

theorem AddressSpace.ofRoot_pml4 (r : Nat) : (AddressSpace.ofRoot r).pml4 = some r := rfl

theorem UserVa.index_lt (v : UserVa) : (pml4Index v.addr).val < 256 := by
  rw [pml4Index_val]
  have := v.user
  omega

theorem UserVa.leafPath (v : UserVa) : LeafPath (vaPath v.addr) := ⟨TablePath.vaPath v.index_lt, rfl⟩

/-- The page of an address of the user half. -/
def UserVa.page (v : UserVa) : UserVa where
  addr := v.addr &&& ~~~0xFFF#64
  user := by
    rw [BitVec.toNat_and]
    exact Nat.lt_of_le_of_lt Nat.and_le_left v.user

/-- The address of a page by the mask of 32 bits. -/
theorem pageMask_toNat (a : BitVec 64) : (a &&& pageMask).toNat = a.toNat % 2 ^ 32 / 4096 * 4096 := by
  have hmask : pageMask = 0xFFFFFFFF#64 &&& ~~~0xFFF#64 := by decide
  have hlow : (0xFFFFFFFF#64).toNat = 2 ^ 32 - 1 := by decide
  rw [hmask, ← BitVec.and_assoc, page_toNat, BitVec.toNat_and, hlow, Nat.and_two_pow_sub_one_eq_mod]

theorem alloc_self (m : Vmm) (g : Nat) : ({ m with pmm := m.pmm.take g } : Vmm) = m.alloc g (m.mem g) := by
  rw [Vmm.alloc, Function.update_eq_self]

variable (h : Spaces p0 live m) (hr : r ∈ live)
include h hr

theorem mapFresh_keeps (v : UserVa) (flags : MapFlags) :
    Keeps p0 live m ((mapFresh (.ofRoot r) v.addr flags.bits).run m).2 := by
  rw [mapFresh]
  rcases allocFrame_run m with ⟨hnone, -⟩ | ⟨g, hg, -, hne, -, hrun⟩
  · rw [bind_run hnone]
    exact Keeps.refl h
  rw [bind_run hrun, if_neg hne, alloc_self]
  have h1 := h.alloc hg (m.mem g)
  have hfl := InFlight.alloc h hg (m.mem g)
  have ha1 := fun X (ha : Accounted p0 live X m) => h.alloc_accounted ha hg (m.mem g)
  generalize m.alloc g (m.mem g) = m1 at h1 hfl ha1 ⊢
  -- the frame is given back from any state that only grew
  have hback : ∀ m2, Grown 256 live r m1 m2 → Keeps p0 live m { m2 with pmm := m2.pmm.drop g } := by
    intro m2 hgrown
    have h2 := hgrown.spaces h1 hr
    have hfl2 := hfl.grown hgrown
    exact ⟨h2.drop hfl2.free hfl2.notTable hfl2.notMapped,
      fun X ha => h2.drop_accounted hfl2.free (hgrown.accounted (ha1 X ha) hr)⟩
  rcases vmmMapPage_checks (.ofRoot r) v.addr (frameAddr g) flags.bits m1 with ⟨st, hst, hrun2⟩ | ⟨-, hi, -, hv, hpa⟩
  · rw [bind_run hrun2, if_pos hst, bind_run (freeFrame_run m1 (lt_of_free hg))]
    exact hback m1 (Grown.refl h1.tables h1.kept hr)
  have hroot := AddressSpace.ofRoot_pml4 r
  obtain ⟨st, m2, hgrown, ⟨hrun2, hst⟩ | ⟨f, hf, hold, hrun2⟩⟩ :=
    vmmMapPage_run flags.bits hi hroot hv hpa h1.tables h1.kept hr v.index_lt
  · rw [bind_run hrun2, if_pos hst, bind_run (freeFrame_run m2 (lt_of_free hg))]
    exact hback m2 hgrown
  · rw [bind_run hrun2]
    obtain ⟨hpres, hfr, hd, hc⟩ := mapLeaf (lt_of_free hg) flags
    have h2 := hgrown.spaces h1 hr
    exact ⟨h2.mapNew hr v.leafPath hf (hfl.grown hgrown) (leafOk_plain hd hc) hfr,
      fun X ha => h2.mapNew_accounted hr v.leafPath hf (hgrown.accounted (ha1 X ha) hr) hold hpres hfr hc⟩

theorem vmmMapDemandPage_keeps (v : UserVa) (flags : MapFlags) :
    Keeps p0 live m ((vmmMapDemandPage (.ofRoot r) v.addr flags.bits).run m).2 := by
  obtain ⟨st, m1, hgrown, ⟨hrun, -⟩ | ⟨f, hf, hold, hrun⟩⟩ :=
    vmmMapDemandPage_run h (AddressSpace.ofRoot_pml4 r) hr v.index_lt flags.bits
  · rw [hrun]
    exact Keeps.grown h hr hgrown
  · rw [hrun]
    obtain ⟨hpres, hcow⟩ := lazyLeaf flags
    rw [hasFlag_or, Bool.or_eq_false_iff] at hold
    have hk := Keeps.grown h hr hgrown
    exact hk.trans (Keeps.lazy hk.spaces hr v.leafPath hf hold.1 hpres hcow)

/-- A resolved fault: the account is kept because without copy-on-write pages the page was a demand page. -/
theorem FaultEnd.keeps {v : UserVa} {step : FaultStep} (hf : FaultEnd r v.addr m step m') :
    Keeps p0 live m m' := by
  have hleaf : ∀ {t}, tableAt m.mem r (vaPath v.addr) = some t → LeafOk (m.mem t (ptIndex v.addr)) := by
    intro t ht
    have := h.leaf r hr (vaPath v.addr) (ptIndex v.addr) v.leafPath
    rwa [entryAt_eq ht] at this
  cases hf with
  | same => exact Keeps.refl h
  | @demand t g ht hd hg =>
    obtain ⟨hpres, hfr, hd', hc'⟩ := demandLeaf_ok (lt_of_free hg) (hleaf ht) hd
    have h1 := h.alloc hg (fun _ => 0#64)
    have hsame := h.alloc_tables hg (fun _ => 0#64)
    have ht1 := (Spaces.same_view hsame hr v.leafPath.1).1.trans ht
    have hfl := InFlight.alloc h hg (fun _ => 0#64)
    refine ⟨h1.mapNew hr v.leafPath ht1 hfl (leafOk_plain hd' hc') hfr, fun X ha => ?_⟩
    refine h1.mapNew_accounted hr v.leafPath ht1 (h.alloc_accounted ha hg _) ?_ hpres hfr hc'
    rw [hsame t ⟨r, hr, _, v.leafPath.1, ht⟩]
    exact (hleaf ht).demand hd
  | @cow t g ht hc hg =>
    obtain ⟨-, hfr, hd', hc'⟩ := copyLeaf_ok (lt_of_free hg) (hleaf ht) hc
    have h1 := h.alloc hg (m.mem (pteFrame (m.mem t (ptIndex v.addr))))
    have hsame := h.alloc_tables hg (m.mem (pteFrame (m.mem t (ptIndex v.addr))))
    have ht1 := (Spaces.same_view hsame hr v.leafPath.1).1.trans ht
    have hfl := InFlight.alloc h hg (m.mem (pteFrame (m.mem t (ptIndex v.addr))))
    refine ⟨h1.mapNew hr v.leafPath ht1 hfl (leafOk_plain hd' hc') hfr, fun X ha => ?_⟩
    have := ha.noCow r hr (vaPath v.addr) (ptIndex v.addr) v.leafPath
    rw [entryAt_eq ht, hc] at this
    cases this

theorem handlerPf_keeps (v : UserVa) (errorCode : BitVec 64) (task : Option UserRegions) :
    Keeps p0 live m ((handlerPf errorCode v.addr r task).run m).2 := by
  rcases handlerPf_run h hr v.addr v.page.index_lt errorCode task with hrun | ⟨m', hrun, hend⟩
  · rw [hrun]
    exact Keeps.refl h
  · rw [hrun]
    exact FaultEnd.keeps (v := v.page) h hr hend

/-- The frame that `vmm_unmap_and_free` of `v` frees is mapped by no other address space. -/
def UnmapAlone (live : List Nat) (r : Nat) (v : UserVa) (m : Vmm) : Prop :=
  ∀ f, Maps m.mem r (vaPath v.addr) (ptIndex v.addr) f → ∀ r' ∈ live, (∃ p i, Maps m.mem r' p i f) → r' = r

/-- A present leaf is cleared and its frame freed. -/
theorem Keeps.unmap {v : UserVa} (halone : UnmapAlone live r v m)
    (ht : tableAt m.mem r (vaPath v.addr) = some t) (hpres : hasFlag (m.mem t (ptIndex v.addr)) ptePresent = true) :
    Keeps p0 live m { m.store t (ptIndex v.addr) 0#64 with pmm := m.pmm.drop (pteFrame (m.mem t (ptIndex v.addr))) } := by
  have hmaps : Maps m.mem r (vaPath v.addr) (ptIndex v.addr) (pteFrame (m.mem t (ptIndex v.addr))) := by
    refine ⟨v.leafPath, ?_⟩
    rw [entryAt_eq ht]
    exact ⟨hpres, rfl⟩
  generalize pteFrame (m.mem t (ptIndex v.addr)) = g at hmaps ⊢
  obtain ⟨hfree, -, hnt⟩ := h.mapped g ⟨r, hr, _, _, hmaps⟩
  have hdrop := Pmm.isUsed_drop h.pmmInit hfree.1 (h.total ▸ hfree.2.1)
  have hs := LeafSet.store h hr v.leafPath ht (ptIndex v.addr) 0#64
  have hl : LeafSet live r (vaPath v.addr) (ptIndex v.addr) t m
      { m.store t (ptIndex v.addr) 0#64 with pmm := m.pmm.drop g } :=
    ⟨⟨rfl, Pmm.drop_initialized _ _, Pmm.drop_totalFrames _ _, Pmm.drift_drop _ _, rfl, hs.steady.kernelMem⟩, hr, v.leafPath, ht,
      hs.mem⟩
  refine ⟨hl.spaces h ?_ ?_ ?_, fun X ha => hl.accounted h ha ?_ ?_⟩
  · intro f hf hcases
    have hne : f ≠ g := by
      rintro rfl
      rcases hcases with hbase | htab | ⟨r', hr', q, j, hslot, hm⟩
      · rw [hfree.2.2] at hbase
        cases hbase
      · exact hnt htab
      · obtain rfl := halone f hmaps r' hr' ⟨q, j, hm⟩
        exact hslot ⟨rfl, h.inj r' hr' q j _ _ f hm hmaps⟩
    exact (Pmm.isUsed_drop_of_ne _ hne).trans hf
  · exact (store_self m t (ptIndex v.addr) 0#64).symm ▸ LeafOk.zero
  · intro g' hg'
    rw [show _ = 0#64 from store_self m t (ptIndex v.addr) 0#64] at hg'
    cases hg'
  · rw [show _ = 0#64 from store_self m t (ptIndex v.addr) 0#64, hasFlag_zero]
  · intro f hf
    rw [show _ = _ from hdrop f, Bool.and_eq_true, Bool.not_eq_true', decide_eq_false_iff_not] at hf
    refine ⟨hf.2, .inl, fun _ hfg => hf.1 (hfg.symm.trans ?_)⟩
    have := hmaps.2.2
    rwa [entryAt_eq ht] at this

theorem vmmUnmapAndFree_keeps (v : UserVa) (halone : UnmapAlone live r v m) :
    Keeps p0 live m ((vmmUnmapAndFree (.ofRoot r) v.addr).run m).2 := by
  rcases vmmUnmapAndFree_run h (AddressSpace.ofRoot_pml4 r) hr v.index_lt with ⟨st, -, hrun⟩ | ⟨t, m1, ht, hcases, hrun⟩
  · rw [hrun]
    exact Keeps.refl h
  · have hk : Keeps p0 live m m1 := by
      rcases hcases with ⟨habs, rfl⟩ | ⟨hpres, rfl⟩
      · exact Keeps.lazy h hr v.leafPath ht habs (hasFlag_zero _) (hasFlag_zero _)
      · exact Keeps.unmap h hr halone ht hpres
    obtain ⟨m', hclean, hprune⟩ := ptCleanupEmptyTables_run hk.spaces hr v.index_lt
    rw [hrun, hclean]
    exact hk.trans (Keeps.pruning hk.spaces hprune.pruning)

end TsOs
