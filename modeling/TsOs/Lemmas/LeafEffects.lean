import TsOs.Lemmas.Clone
import TsOs.SpaceSet

/-!
# What the operations do to leaves and pages

Which leaf entries an operation on an address space changes, and that the content of the pages that are mapped stays as it is. User
accesses depend on these only.
-/

namespace TsOs

open StateProg PteAux TableAux VmmRun WalkAux FaultAux FreeTablesAux CloneAux Function List BitVec LeafSet AddressSpace

variable {p0 : Pmm} {live : List Nat} {m m' : Vmm} {r : Nat}

/-- The leaf entry of an address. -/
def leafAt (mem : Nat → Fin 512 → BitVec 64) (r : Nat) (va : BitVec 64) : BitVec 64 := entryAt mem r (vaPath va) (ptIndex va)

/-- From `m` to `m'` no leaf entry has changed but the leaf `i` of the PT at `p` in the tree of `r`. -/
def OnlyLeaf (live : List Nat) (r : Nat) (p : List (Fin 512)) (i : Fin 512) (m m' : Vmm) : Prop :=
  ∀ r' ∈ live, ∀ q j, LeafPath q → ¬ (r' = r ∧ q = p ∧ j = i) → entryAt m'.mem r' q j = entryAt m.mem r' q j

/-- From `m` to `m'` the frames in use that are no tables have kept their content. -/
def DataKept (live : List Nat) (m m' : Vmm) : Prop := ∀ f, ¬ m.pmm.Free f → ¬ IsTable live m.mem f → m'.mem f = m.mem f

variable {p : List (Fin 512)} {t : Nat}

namespace LeafAux

/-- A frame is allocated and filled, and a leaf is stored. -/
theorem allocStore_only (h : Spaces p0 live m) (hr : r ∈ live) (hp : LeafPath p) {g : Nat}
    (ht : tableAt m.mem r p = some t) (hg : m.pmm.Free g) (page : Fin 512 → BitVec 64) (i : Fin 512) (e : BitVec 64) :
    OnlyLeaf live r p i m ((m.alloc g page).store t i e) ∧ DataKept live m ((m.alloc g page).store t i e) ∧
      entryAt ((m.alloc g page).store t i e).mem r p i = e := by
  have h1 := h.alloc hg page
  have hsame := h.alloc_tables hg page
  have hl := store h1 hr hp ((Spaces.same_view hsame hr hp.1).1.trans ht) i e
  obtain ⟨-, hself, hother⟩ := hl.view h1
  refine ⟨fun r' hr' q j hq hne => ?_, fun f hfree hnt => ?_, ?_⟩
  · rw [hother r' hr' q j hq.1 hne, (Spaces.same_view hsame hr' hq.1).2 j]
  · have hft : f ≠ t := by
      rintro rfl
      exact hnt ⟨r, hr, p, hp.1, ht⟩
    have hfg : f ≠ g := fun hfg => hfree (hfg ▸ hg)
    rw [show ((m.alloc g page).store t i e).mem f = (m.alloc g page).mem f from funext fun j => setEntry_of_ne fun hc => hft hc.1,
      Spaces.alloc_mem_of_ne page hfg]
  · rw [hself, store_self]

end LeafAux

open LeafAux

variable {v : UserVa}

/-- A fault changes the leaf of its page only, and no page that is mapped. -/
theorem FaultEnd.only (h : Spaces p0 live m) (hr : r ∈ live) {step : FaultStep} (hf : FaultEnd r v.addr m step m') :
    OnlyLeaf live r (vaPath v.addr) (ptIndex v.addr) m m' ∧ DataKept live m m' := by
  cases hf with
  | same => exact ⟨fun _ _ _ _ _ _ => rfl, fun _ _ _ => rfl⟩
  | demand ht hd hg =>
    obtain ⟨honly, hdata, -⟩ := allocStore_only h hr v.leafPath ht hg (fun _ => 0#64) (ptIndex v.addr) _
    exact ⟨honly, hdata⟩
  | cow ht hc hg =>
    obtain ⟨honly, hdata, -⟩ := allocStore_only h hr v.leafPath ht hg _ (ptIndex v.addr) _
    exact ⟨honly, hdata⟩

/-- The page of a fault that is resolved is present. -/
theorem FaultEnd.present (h : Spaces p0 live m) (hr : r ∈ live) {step : FaultStep} (hf : FaultEnd r v.addr m step m')
    (hstep : step = .resolved) : hasFlag (leafAt m'.mem r v.addr) ptePresent = true := by
  have hleaf : ∀ {t}, tableAt m.mem r (vaPath v.addr) = some t → LeafOk (m.mem t (ptIndex v.addr)) := by
    intro t ht
    have := h.leaf r hr _ (ptIndex v.addr) v.leafPath
    rwa [entryAt_eq ht] at this
  cases hf with
  | same hne => exact absurd hstep hne
  | demand ht hd hg =>
    obtain ⟨-, -, hself⟩ := allocStore_only h hr v.leafPath ht hg (fun _ => 0#64) (ptIndex v.addr) _
    rw [leafAt, hself]
    exact (demandLeaf_ok (lt_of_free hg) (hleaf ht) hd).1
  | cow ht hc hg =>
    obtain ⟨-, -, hself⟩ := allocStore_only h hr v.leafPath ht hg _ (ptIndex v.addr) _
    rw [leafAt, hself]
    exact (copyLeaf_ok (lt_of_free hg) (hleaf ht) hc).1

/-- From `m` to `m'` no leaf entry has changed. -/
def SameLeaves (live : List Nat) (m m' : Vmm) : Prop :=
  ∀ r' ∈ live, ∀ q j, LeafPath q → entryAt m'.mem r' q j = entryAt m.mem r' q j

theorem Grown.sameLeaves (hg : Grown 256 live r m m') : SameLeaves live m m' := fun _ hr' _ j hq => hg.leaf_eq hr' hq j

/-- New tables are made of frames that were free. -/
theorem Grown.dataKept (hg : Grown 256 live r m m') (hr : r ∈ live) : DataKept live m m' :=
  fun f hf hnt => hg.frames f hf fun p hp ht => hnt ⟨r, hr, p, hp, ht⟩

/-- A store to a table after that changes none of the frames. -/
theorem Grown.dataKept_store (hg : Grown 256 live r m m') (hr : r ∈ live) (hp : TablePath 256 p)
    (ht : tableAt m'.mem r p = some t) (i : Fin 512) (e : BitVec 64) : DataKept live m (m'.store t i e) := by
  intro f hf hnt
  have hne : f ≠ t := by
    intro he
    subst he
    rcases hg.fresh p f hp ht with hold | hfree
    · exact hnt ⟨r, hr, p, hp, hold⟩
    · exact hf hfree
  exact (funext fun j => setEntry_of_ne fun hc => hne hc.1).trans (hg.dataKept hr f hf hnt)

theorem SameLeaves.only {m'' : Vmm} {i : Fin 512} (h : SameLeaves live m m')
    (h' : OnlyLeaf live r p i m' m'') : OnlyLeaf live r p i m m'' :=
  fun r' hr' q j hq hne => (h' r' hr' q j hq hne).trans (h r' hr' q j hq)

theorem LeafSet.only {i : Fin 512} {n : Nat} (h : Spaces p0 live m) (hl : LeafSet live r p i n m m') :
    OnlyLeaf live r p i m m' :=
  fun r' hr' q j hq hne => (hl.view h).2.2 r' hr' q j hq.1 hne

/-! ## Mapping -/

/-- `vmm_map_page` of a frame in flight. -/
theorem vmmMapPage_effect (h : Spaces p0 live m) (hr : r ∈ live) (v : UserVa) {g : Nat} (hg : InFlight p0 live g m)
    (flags : MapFlags) :
    ∃ st m', (vmmMapPage (.ofRoot r) v.addr (frameAddr g) flags.bits).run m = (st, m') ∧ Spaces p0 live m' ∧
      (st ≠ .ok ∧ SameLeaves live m m' ∨ st = .ok ∧ OnlyLeaf live r (vaPath v.addr) (ptIndex v.addr) m m') := by
  rcases vmmMapPage_checks (.ofRoot r) v.addr (frameAddr g) flags.bits m with ⟨st, hst, hrun⟩ | ⟨r1, hi, hroot, hv, hpa⟩
  · exact ⟨st, m, hrun, h, .inl ⟨hst, fun _ _ _ _ _ => rfl⟩⟩
  · cases hroot
    obtain ⟨st, m1, hgrown, ⟨hrun, hst⟩ | ⟨f, hf, hold, hrun⟩⟩ :=
      vmmMapPage_run flags.bits hi (ofRoot_pml4 r) hv hpa h.tables h.kept hr v.index_lt
    · exact ⟨st, m1, hrun, hgrown.spaces h hr, .inl ⟨hst, hgrown.sameLeaves⟩⟩
    · have h1 := hgrown.spaces h hr
      obtain ⟨-, hfr, hd, hc⟩ := mapLeaf (lt_of_free hg.free) flags
      exact ⟨.ok, _, hrun, h1.mapNew hr v.leafPath hf (hg.grown hgrown) (leafOk_plain hd hc) hfr,
        .inr ⟨rfl, hgrown.sameLeaves.only ((store h1 hr v.leafPath hf _ _).only h1)⟩⟩

/-- The leaf that `vmm_map_demand_page` stores. -/
def lazyEntry (flags : BitVec 64) : BitVec 64 := ((flags &&& ~~~pteAddrMask) ||| pteDemand) &&& ~~~ptePresent

/-- `vmm_map_demand_page` stores a leaf where there was none. -/
theorem vmmMapDemandPage_effect (h : Spaces p0 live m) (hr : r ∈ live) (v : UserVa) (flags : MapFlags) :
    ∃ st m', (vmmMapDemandPage (.ofRoot r) v.addr flags.bits).run m = (st, m') ∧ Spaces p0 live m' ∧
      (st ≠ .ok ∧ SameLeaves live m m' ∧
        (st = .alreadyMap → hasFlag (leafAt m.mem r v.addr) (ptePresent ||| pteDemand) = true) ∨
       st = .ok ∧ OnlyLeaf live r (vaPath v.addr) (ptIndex v.addr) m m' ∧
        hasFlag (leafAt m.mem r v.addr) (ptePresent ||| pteDemand) = false ∧ leafAt m'.mem r v.addr = lazyEntry flags.bits) := by
  have hkeeps := (vmmMapDemandPage_keeps h hr v flags).spaces
  obtain ⟨st, m1, hgrown, ⟨hrun, hst, halready⟩ | ⟨f, hf, hold, hrun⟩⟩ :=
    vmmMapDemandPage_run h (ofRoot_pml4 r) hr v.index_lt flags.bits
  · rw [hrun] at hkeeps
    refine ⟨st, m1, hrun, hkeeps, .inl ⟨hst, hgrown.sameLeaves, fun hal => ?_⟩⟩
    rw [leafAt, ← hgrown.sameLeaves r hr _ _ v.leafPath]
    exact halready hal
  · have h1 := hgrown.spaces h hr
    have hl := store h1 hr v.leafPath hf (ptIndex v.addr) (lazyEntry flags.bits)
    rw [hrun] at hkeeps
    refine ⟨.ok, _, hrun, hkeeps, .inr ⟨rfl, hgrown.sameLeaves.only (hl.only h1), ?_, ?_⟩⟩
    · rw [leafAt, ← hgrown.sameLeaves r hr _ _ v.leafPath, entryAt_eq hf]
      exact hold
    · exact (hl.view h1).2.1.trans (store_self _ _ _ _)

namespace LeafAux

theorem getLsbD_mergedLeaf (old leafFlags : BitVec 64) {i : Nat} (hi : i < 12) :
    (mergedLeaf old leafFlags).getLsbD i = (old.getLsbD i || leafFlags.getLsbD i) := by
  have hmask : pteAddrMask.getLsbD i = false := by
    have : ∀ k : Fin 12, pteAddrMask.getLsbD k = false := by decide
    exact this ⟨i, hi⟩
  have hnx : (~~~pteNx).getLsbD i = true := by
    have : ∀ k : Fin 12, (~~~pteNx).getLsbD k = true := by decide
    exact this ⟨i, hi⟩
  simp only [mergedLeaf, getLsbD_or, getLsbD_and, hmask, Bool.and_false, Bool.false_or]
  split
  · rw [getLsbD_and, hnx, Bool.and_true, getLsbD_or]
  · rw [getLsbD_or]

/-- The address bits of a page that is mapped again. -/
theorem mergedLeaf_frame {old leafFlags : BitVec 64} (h : leafFlags &&& pteAddrMask = 0#64) :
    pteFrame (mergedLeaf old leafFlags) = pteFrame old := by
  have hor : (old ||| leafFlags) &&& pteAddrMask = old &&& pteAddrMask := by
    rw [and_or_distrib_right, h, or_zero]
  have haddr : pteAddr (mergedLeaf old leafFlags) = pteAddr old := by
    simp only [pteAddr, mergedLeaf]
    rw [BitVec.and_or_distrib_right, BitVec.and_assoc, BitVec.and_self]
    split
    · rw [BitVec.and_assoc, show ~~~pteNx &&& pteAddrMask = pteAddrMask by decide, hor, BitVec.or_self]
    · rw [hor, BitVec.or_self]
  unfold pteFrame
  rw [haddr]

/-- A page that is mapped again keeps its frame; a copy-on-write page stays one unless the new mapping is writable. -/
theorem mergedLeaf_ok {old : BitVec 64} (hpres : hasFlag old ptePresent = true) (hok : LeafOk old) (flags : MapFlags)
    (hcow : hasFlag old pteCow = true → hasFlag flags.bits pteWritable = false) :
    pteFrame (mergedLeaf old (flags.bits ||| ptePresent)) = pteFrame old ∧ LeafOk (mergedLeaf old (flags.bits ||| ptePresent)) := by
  have hdem : hasFlag old pteDemand = false := by
    rw [← Bool.not_eq_true]
    intro hd
    rw [hok.demand hd] at hpres
    cases hpres
  have hflag : ∀ i, i < 12 → (mergedLeaf old (flags.bits ||| ptePresent)).getLsbD i =
      (old.getLsbD i || (flags.bits.getLsbD i || ptePresent.getLsbD i)) := by
    intro i hi
    rw [getLsbD_mergedLeaf _ _ hi, getLsbD_or]
  have hd := flags.noDemand
  have hc := flags.noCow
  have hcw := hok.cow
  rw [hasFlag_demand] at hdem hd
  rw [hasFlag_cow] at hcow hcw hc
  rw [hasFlag_writable] at hcow hcw
  rw [hasFlag_present] at hpres hcw
  refine ⟨mergedLeaf_frame ?_, ⟨fun h => ?_, fun h => ⟨?_, ?_⟩⟩⟩
  · rw [and_or_distrib_right, flags.noAddr]
    rfl
  · rw [hasFlag_demand, hflag 10 (by omega), hdem, hd] at h
    exact absurd h (by decide)
  · rw [hasFlag_present, hflag 0 (by omega), hpres, Bool.true_or]
  · rw [hasFlag_cow, hflag 9 (by omega), hc, show ptePresent.getLsbD 9 = false by decide, Bool.or_self, Bool.or_false] at h
    rw [hasFlag_writable, hflag 1 (by omega), (hcw h).2, hcow h]
    rfl

end LeafAux

/-- The leaf that `vmm_map_page_merge` of the frame at `p` leaves where `old` was. -/
def mergeResult (old p flags : BitVec 64) : BitVec 64 :=
  if hasFlag old ptePresent then mergedLeaf old (flags ||| ptePresent) else pteMake p (flags ||| ptePresent)

namespace LeafAux

/-- A present leaf of a page that is not shared gets more flags. -/
theorem merge_spaces (h : Spaces p0 live m) (hr : r ∈ live) (ht : tableAt m.mem r (vaPath v.addr) = some t)
    (hpres : hasFlag (m.mem t (ptIndex v.addr)) ptePresent = true) (flags : MapFlags)
    (hcow : hasFlag (m.mem t (ptIndex v.addr)) pteCow = true → hasFlag flags.bits pteWritable = false)
    (halone : UnmapAlone live r v m) :
    Spaces p0 live (m.store t (ptIndex v.addr) (mergedLeaf (m.mem t (ptIndex v.addr)) (flags.bits ||| ptePresent))) := by
  have hentry : entryAt m.mem r (vaPath v.addr) (ptIndex v.addr) = m.mem t (ptIndex v.addr) := entryAt_eq ht _
  have hok := h.leaf r hr _ (ptIndex v.addr) v.leafPath
  rw [hentry] at hok
  obtain ⟨hframe, hleaf⟩ := mergedLeaf_ok hpres hok flags hcow
  have hmaps : Maps m.mem r (vaPath v.addr) (ptIndex v.addr) (pteFrame (m.mem t (ptIndex v.addr))) := by
    refine ⟨v.leafPath, ?_⟩
    rw [hentry]
    exact ⟨hpres, rfl⟩
  have hl := store h hr v.leafPath ht (ptIndex v.addr) (mergedLeaf (m.mem t (ptIndex v.addr)) (flags.bits ||| ptePresent))
  refine hl.spaces h (fun _ hf _ => hf) (by rw [store_self]; exact hleaf) fun g _ hg => ?_
  rw [store_self, hframe] at hg
  rw [hg] at hmaps
  obtain ⟨hfree, hu, hnt⟩ := h.mapped g ⟨r, hr, _, _, hmaps⟩
  refine ⟨hfree, hu, hnt, fun r' hr' q j hm => ?_⟩
  obtain rfl := halone g hmaps r' hr' ⟨q, j, hm⟩
  exact ⟨rfl, h.inj r' hr q j _ _ g hm hmaps⟩

end LeafAux

/-- `vmm_map_page_merge` on a page that is not shared and does not become writable while it is copy-on-write; the frame is one in
flight, unless the page is present, when the call does not use it. -/
theorem vmmMapPageMerge_effect (h : Spaces p0 live m) (hr : r ∈ live) (v : UserVa) {p : BitVec 64} (flags : MapFlags)
    (hnew : hasFlag (leafAt m.mem r v.addr) ptePresent = false → ∃ g, p = frameAddr g ∧ InFlight p0 live g m)
    (hcow : hasFlag (leafAt m.mem r v.addr) pteCow = true → hasFlag flags.bits pteWritable = false)
    (halone : UnmapAlone live r v m) :
    ∃ st flushed m', (vmmMapPageMerge (.ofRoot r) v.addr p flags.bits).run m = ((st, flushed), m') ∧ Spaces p0 live m' ∧
      DataKept live m m' ∧
      (flushed = false ∧ SameLeaves live m m' ∧ (st = .ok → hasFlag (leafAt m.mem r v.addr) ptePresent = true) ∨
       flushed = true ∧ OnlyLeaf live r (vaPath v.addr) (ptIndex v.addr) m m' ∧
        leafAt m'.mem r v.addr = mergeResult (leafAt m.mem r v.addr) p flags.bits) := by
  obtain ⟨m1, hgrown, hcases⟩ := vmmMapPageMerge_run (p := p) h (ofRoot_pml4 r) hr v.index_lt flags.bits
  have h1 := hgrown.spaces h hr
  have hsame : leafAt m.mem r v.addr = entryAt m1.mem r (vaPath v.addr) (ptIndex v.addr) :=
    (hgrown.sameLeaves r hr _ _ v.leafPath).symm
  rcases hcases with ⟨st, hrun, hok⟩ | ⟨f, hf, hwrite⟩
  · refine ⟨st, false, m1, hrun, h1, hgrown.dataKept hr, .inl ⟨rfl, hgrown.sameLeaves, fun hst => ?_⟩⟩
    rw [hsame]
    exact hok hst
  · rw [hsame, entryAt_eq hf] at hnew hcow ⊢
    have hstored : ∀ e, OnlyLeaf live r (vaPath v.addr) (ptIndex v.addr) m (m1.store f (ptIndex v.addr) e) ∧
        leafAt (m1.store f (ptIndex v.addr) e).mem r v.addr = e := by
      intro e
      have hl := store h1 hr v.leafPath hf (ptIndex v.addr) e
      exact ⟨hgrown.sameLeaves.only (hl.only h1), (hl.view h1).2.1.trans (store_self _ _ _ _)⟩
    have hdata := hgrown.dataKept_store hr v.leafPath.1 hf (ptIndex v.addr)
    unfold mergeResult
    rcases hwrite with ⟨hpres, hrun⟩ | ⟨hold, -, hrun⟩
    · have halone1 : UnmapAlone live r v m1 := by
        intro g hg r' hr' hm
        obtain ⟨q, j, hm⟩ := hm
        exact halone g ((hgrown.maps_iff hr _ _ _).mp hg) r' hr' ⟨q, j, (hgrown.maps_iff hr' _ _ _).mp hm⟩
      obtain ⟨honly, hself⟩ := hstored (mergedLeaf (m1.mem f (ptIndex v.addr)) (flags.bits ||| ptePresent))
      refine ⟨.ok, true, _, hrun, merge_spaces h1 hr hf hpres flags hcow halone1, hdata _, .inr ⟨rfl, honly, ?_⟩⟩
      rw [hself, if_pos hpres]
    · obtain ⟨g, rfl, hg⟩ := hnew hold
      obtain ⟨-, hfr, hd, hc⟩ := mapLeaf (lt_of_free hg.free) flags
      obtain ⟨honly, hself⟩ := hstored (pteMake (frameAddr g) (flags.bits ||| ptePresent))
      refine ⟨.ok, true, _, hrun, h1.mapNew hr v.leafPath hf (hg.grown hgrown) (leafOk_plain hd hc) hfr, hdata _,
        .inr ⟨rfl, honly, ?_⟩⟩
      rw [hself, hold, if_neg (by simp)]

/-! ## Unmapping -/

/-- What the cleanup does to the leaves: those of the PT of the address are gone when none of them is present. -/
theorem PruningOf.leaf {va : BitVec 64} (h : Spaces p0 live m) (hp : PruningOf live r va m m') {r' : Nat} (hr' : r' ∈ live)
    {q : List (Fin 512)} (hq : LeafPath q) :
    (∀ j, entryAt m'.mem r' q j = entryAt m.mem r' q j) ∨
    (r' = r ∧ q = vaPath va) ∧ ∀ j, entryAt m'.mem r' q j = 0#64 ∧ hasFlag (entryAt m.mem r' q j) ptePresent = false := by
  induction hp with
  | refl => exact .inl fun _ => rfl
  | @tail m1 m2 hp hstep ih =>
    obtain ⟨p, i, n, c, hpre, hprune, rfl⟩ := hstep
    have h1 := (PruningOf.pruning hp).spaces h
    obtain ⟨hnew, -, -, hents⟩ := hprune.view h1
    by_cases hpt : r' = r ∧ q = p ++ [i]
    · -- the PT itself is removed
      obtain ⟨rfl, rfl⟩ := hpt
      have hva : p ++ [i] = vaPath va := hpre.eq_of_length hq.2
      refine .inr ⟨⟨rfl, hva⟩, fun j => ⟨entryAt_none hnew j, ?_⟩⟩
      rcases ih with hsame | ⟨-, hall⟩
      · rw [← hsame j, entryAt_eq hprune.child]
        exact hprune.empty j
      · exact (hall j).2
    · have hsame : ∀ j, entryAt (pruned m1 n i c).mem r' q j = entryAt m1.mem r' q j := by
        intro j
        refine hents r' hr' q j hq.1 hpt fun hc => ?_
        have hlen := hprune.path.1
        rw [length_append, length_singleton, ← hc.2.1, hq.2] at hlen
        omega
      rcases ih with hold | ⟨hva, hall⟩
      · exact .inl fun j => (hsame j).trans (hold j)
      · exact .inr ⟨hva, fun j => ⟨(hsame j).trans (hall j).1, (hall j).2⟩⟩

/-- From `m` to `m'` the leaf of `va` was cleared, and with it the other leaves of its PT when none of them is present. -/
structure Swept (live : List Nat) (r : Nat) (va : BitVec 64) (m m' : Vmm) : Prop where
  cleared : leafAt m'.mem r va = 0#64
  other : ∀ r' ∈ live, ∀ q j, LeafPath q → ¬ (r' = r ∧ q = vaPath va ∧ j = ptIndex va) →
    entryAt m'.mem r' q j = entryAt m.mem r' q j ∨
    (r' = r ∧ q = vaPath va) ∧ entryAt m'.mem r' q j = 0#64 ∧
      ∀ k, k ≠ ptIndex va → hasFlag (entryAt m.mem r' q k) ptePresent = false

/-- A leaf is cleared and the empty tables above it are removed. -/
theorem Swept.of_clear {m1 : Vmm} (h : Spaces p0 live m) (h1 : Spaces p0 live m1)
    (hl : LeafSet live r (vaPath v.addr) (ptIndex v.addr) t m m1) (hzero : m1.mem t (ptIndex v.addr) = 0#64)
    (hp : PruningOf live r v.addr m1 m') : Swept live r v.addr m m' := by
  obtain ⟨-, hself, hother⟩ := hl.view h
  rw [hzero] at hself
  constructor
  · rcases hp.leaf h1 hl.root v.leafPath with hsame | ⟨-, hall⟩
    · exact (hsame _).trans hself
    · exact (hall _).1
  · intro r' hr' q j hq hne
    rcases hp.leaf h1 hr' hq with hsame | ⟨hva, hall⟩
    · exact .inl ((hsame j).trans (hother r' hr' q j hq.1 hne))
    · refine .inr ⟨hva, (hall j).1, fun k hk => ?_⟩
      rw [← hother r' hr' q k hq.1 fun hc => hk hc.2.2]
      exact (hall k).2

section

variable (h : Spaces p0 live m) (hr : r ∈ live)
include h hr

/-- `vmm_unmap_page` clears a leaf or does nothing. -/
theorem vmmUnmapPage_effect (v : UserVa) :
    ∃ st m', (vmmUnmapPage (.ofRoot r) v.addr).run m = (st, m') ∧ Spaces p0 live m' ∧
      (st ≠ .ok ∧ m' = m ∨ st = .ok ∧ Swept live r v.addr m m') := by
  rcases vmmUnmapPage_run h (ofRoot_pml4 r) hr v.index_lt with ⟨st, hst, hrun⟩ | ⟨t, ht, hrun⟩
  · exact ⟨st, m, hrun, h, .inl ⟨hst, rfl⟩⟩
  · have hl := store h hr v.leafPath ht (ptIndex v.addr) 0#64
    have h1 : Spaces p0 live (m.store t (ptIndex v.addr) 0#64) := by
      refine hl.spaces h (fun _ hf _ => hf) (by rw [store_self]; exact LeafOk.zero) fun g hg => ?_
      rw [store_self] at hg
      cases hg
    obtain ⟨m', hclean, hprune⟩ := ptCleanupEmptyTables_run h1 hr v.index_lt
    rw [hclean] at hrun
    exact ⟨.ok, m', hrun, hprune.pruning.spaces h1, .inr ⟨rfl, Swept.of_clear h h1 hl (store_self _ _ _ _) hprune⟩⟩

/-- `vmm_unmap_and_free` clears a leaf or does nothing. -/
theorem vmmUnmapAndFree_effect (v : UserVa) (halone : UnmapAlone live r v m) :
    ∃ st m', (vmmUnmapAndFree (.ofRoot r) v.addr).run m = (st, m') ∧ Spaces p0 live m' ∧
      (st ≠ .ok ∧ m' = m ∨ st = .ok ∧ Swept live r v.addr m m') := by
  have hkeeps := (vmmUnmapAndFree_keeps h hr v halone).spaces
  rcases vmmUnmapAndFree_run h (ofRoot_pml4 r) hr v.index_lt with ⟨st, hst, hrun⟩ | ⟨t, m1, ht, hcases, hrun⟩
  · exact ⟨st, m, hrun, h, .inl ⟨hst, rfl⟩⟩
  · have key : Spaces p0 live m1 ∧ LeafSet live r (vaPath v.addr) (ptIndex v.addr) t m m1 ∧
        m1.mem t (ptIndex v.addr) = 0#64 := by
      have hl := store h hr v.leafPath ht (ptIndex v.addr) 0#64
      rcases hcases with ⟨habs, rfl⟩ | ⟨hpres, rfl⟩
      · exact ⟨(Keeps.lazy h hr v.leafPath ht habs (hasFlag_zero _) (hasFlag_zero _)).spaces, hl, store_self _ _ _ _⟩
      · exact ⟨(Keeps.unmap h hr halone ht hpres).spaces, ⟨⟨rfl, Pmm.drop_initialized _ _, Pmm.drop_totalFrames _ _,
          Pmm.drift_drop _ _, rfl, hl.steady.kernelMem⟩, hr, v.leafPath, ht, hl.mem⟩, store_self _ _ _ _⟩
    obtain ⟨h1, hl, hzero⟩ := key
    obtain ⟨m', hclean, hprune⟩ := ptCleanupEmptyTables_run h1 hr v.index_lt
    rw [hrun, hclean] at hkeeps
    rw [hclean] at hrun
    exact ⟨.ok, m', hrun, hkeeps, .inr ⟨rfl, Swept.of_clear h h1 hl hzero hprune⟩⟩

/-! ## User accesses -/

/-- In a tree without huge pages the walk finds the PT of the address, if there is one. -/
theorem findLeaf_eq (v : UserVa) :
    findLeaf m.mem r v.addr = ((tableAt m.mem r (vaPath v.addr)).map fun t => LeafLookup.slot t (ptIndex v.addr)).getD .absent := by
  have hp3 : TablePath 256 ([pml4Index v.addr, pdptIndex v.addr] ++ [pdIndex v.addr]) := v.leafPath.1
  have hp2 : TablePath 256 ([pml4Index v.addr] ++ [pdptIndex v.addr]) := hp3.of_append
  have hp1 : TablePath 256 ([] ++ [pml4Index v.addr]) := hp2.of_append
  have hframe : ∀ e, frameOf (pteAddr e) = pteFrame e := fun _ => rfl
  simp only [findLeaf, hframe]
  cases h1 : hasFlag (m.mem r (pml4Index v.addr)) ptePresent with
  | false =>
    rw [vaPath, tableAt_none (childOf_absent h1)]
    rfl
  | true =>
    obtain ⟨hs1, ht1⟩ := PruneAux.next_table h hr hp1 (tableAt_nil r) h1
    rw [hframe] at ht1
    rw [vaPath, tableAt_child (childOf_present h1 hs1)]
    generalize pteFrame (m.mem r (pml4Index v.addr)) = pdpt at ht1 ⊢
    cases h2 : hasFlag (m.mem pdpt (pdptIndex v.addr)) ptePresent with
    | false =>
      rw [tableAt_none (childOf_absent h2)]
      rfl
    | true =>
      obtain ⟨hs2, ht2⟩ := PruneAux.next_table h hr hp2 ht1 h2
      rw [hframe] at ht2
      rw [tableAt_child (childOf_present h2 hs2), hs2]
      generalize pteFrame (m.mem pdpt (pdptIndex v.addr)) = pd at ht2 ⊢
      cases h3 : hasFlag (m.mem pd (pdIndex v.addr)) ptePresent with
      | false =>
        rw [tableAt_none (childOf_absent h3)]
        rfl
      | true =>
        obtain ⟨hs3, -⟩ := PruneAux.next_table h hr hp3 ht2 h3
        rw [tableAt_child (childOf_present h3 hs3), hs3]
        rfl

omit h hr in
theorem vaIsUser_of_lt (v : UserVa) : vaIsUser v.addr = true := by
  have hv := v.user
  rw [vaIsUser, beq_iff_eq]
  apply eq_of_getLsbD_eq
  intro i hi
  rw [getLsbD_and, getLsbD_zero]
  by_cases hlow : i < 48
  · have hmask : ∀ k : Fin 48, (0xFFFF000000000000#64).getLsbD k = false := by decide
    rw [hmask ⟨i, hlow⟩, Bool.and_false]
  · have hbit : v.addr.getLsbD i = false :=
      Nat.testBit_lt_two_pow (Nat.lt_of_lt_of_le hv (Nat.pow_le_pow_right (by omega) (by omega)))
    rw [hbit, Bool.false_and]

/-- The first access to a demand page in a region that the handler knows. -/
theorem handlerPf_demand (v : UserVa) {errorCode : BitVec 64} {task : Option UserRegions}
    (hd : hasFlag (leafAt m.mem r v.page.addr) pteDemand = true) (hvalid : validDemand task v.page.addr = true)
    (herr : hasFlag errorCode 1#64 = false) (hfree : ∃ g, m.pmm.Free g) :
    ∃ g m', m.pmm.Free g ∧ (handlerPf errorCode v.addr r task).run m = (true, m') ∧ (∀ i, m'.mem g i = 0#64) ∧
      leafAt m'.mem r v.page.addr = demandLeaf (leafAt m.mem r v.page.addr) g := by
  cases ht : tableAt m.mem r (vaPath v.page.addr) with
  | none =>
    rw [leafAt, entryAt_none ht] at hd
    cases hd
  | some t =>
    have hleaf : leafAt m.mem r v.page.addr = m.mem t (ptIndex v.page.addr) := entryAt_eq ht _
    rw [hleaf] at hd ⊢
    rcases allocFrame_run m with ⟨-, hnone⟩ | ⟨g, hg, -, hne, hfr, halloc⟩
    · obtain ⟨g, hg⟩ := hfree
      exact absurd hg (hnone h.pmmInit g)
    · have hres : (resolveDemand errorCode v.page.addr r task).run m =
          (.resolved, (m.alloc g (fun _ => 0#64)).store t (ptIndex v.page.addr) (demandLeaf (m.mem t (ptIndex v.page.addr)) g)) := by
        rw [resolveDemand, herr, vaIsUser_of_lt v.page, hvalid, Bool.or_true, if_neg (by simp), bind_run (get_run m),
          findLeaf_eq h hr v.page, ht]
        dsimp only [Option.map_some, Option.getD_some]
        rw [bind_run (readEntry_run _ _ _), hd, if_neg (by simp), bind_run halloc, if_neg hne, hfr]
        rfl
      refine ⟨g, _, hg, by rw [handlerPf]; exact bind_run hres, fun i => ?_, ?_⟩
      · have hgt : g ≠ t := by
          intro hc
          exact h.not_table_of_free hg ⟨r, hr, _, v.page.leafPath.1, hc ▸ ht⟩
        rw [show ((m.alloc g (fun _ => 0#64)).store t (ptIndex v.page.addr) (demandLeaf (m.mem t (ptIndex v.page.addr)) g)).mem g i =
          (m.alloc g (fun _ => 0#64)).mem g i from setEntry_of_ne fun hc => hgt hc.1]
        exact congrFun (update_self g _ m.mem) i
      · exact (allocStore_only h hr v.page.leafPath ht hg (fun _ => 0#64) (ptIndex v.page.addr) _).2.2

/-- The hardware finds a leaf that is present. -/
theorem userLeaf_present_iff (v : UserVa) {e : BitVec 64} (he : hasFlag e ptePresent = true) :
    userLeaf m.mem r v.addr = some e ↔ leafAt m.mem r v.addr = e := by
  unfold userLeaf leafAt
  rw [findLeaf_eq h hr v]
  cases ht : tableAt m.mem r (vaPath v.addr) with
  | none =>
    rw [entryAt_none ht]
    refine ⟨nofun, ?_⟩
    intro hz
    rw [← hz] at he
    cases he
  | some t =>
    rw [entryAt_eq ht]
    exact Option.some_inj

/-- What user code reads depends on the leaf of the address and on the frame it maps. -/
theorem readByte_eq (v : UserVa) :
    readByte m.mem r v.addr =
      if hasFlag (leafAt m.mem r v.addr) ptePresent then
        some ((m.mem (pteFrame (leafAt m.mem r v.addr)) (wordIndex v.addr) >>> byteShift v.addr).setWidth 8)
      else none := by
  unfold readByte userLeaf leafAt
  rw [findLeaf_eq h hr v]
  cases ht : tableAt m.mem r (vaPath v.addr) with
  | none =>
    rw [entryAt_none ht]
    rfl
  | some t =>
    rw [entryAt_eq ht]
    rfl

theorem readByte_congr {live' : List Nat} (h' : Spaces p0 live' m') (hr' : r ∈ live')
    (v : UserVa) (hleaf : leafAt m'.mem r v.addr = leafAt m.mem r v.addr)
    (hdata : ∀ f, Maps m.mem r (vaPath v.addr) (ptIndex v.addr) f → m'.mem f = m.mem f) :
    readByte m'.mem r v.addr = readByte m.mem r v.addr := by
  rw [readByte_eq h hr v, readByte_eq h' hr' v, hleaf]
  by_cases hp : hasFlag (leafAt m.mem r v.addr) ptePresent = true
  · rw [if_pos hp, if_pos hp, hdata (pteFrame (leafAt m.mem r v.addr)) ⟨v.leafPath, hp, rfl⟩]
  · rw [if_neg hp, if_neg hp]

/-- A write of user code updates the frame of a writable page, or is a page fault. -/
theorem userWrite_cases (v : UserVa) (b : BitVec 8) (task : Option UserRegions) :
    (∃ f w, Maps m.mem r (vaPath v.addr) (ptIndex v.addr) f ∧ hasFlag (leafAt m.mem r v.addr) pteWritable = true ∧
      (userWrite r v.addr b task).run m = (true, m.store f (wordIndex v.addr) w)) ∨
    ∃ errorCode, (userWrite r v.addr b task).run m = (handlerPf errorCode v.addr r task).run m := by
  rw [userWrite, bind_run (get_run m), userLeaf, findLeaf_eq h hr v]
  cases ht : tableAt m.mem r (vaPath v.addr) with
  | none => exact .inr ⟨6#64, rfl⟩
  | some t =>
    have hleaf : leafAt m.mem r v.addr = m.mem t (ptIndex v.addr) := entryAt_eq ht _
    simp only [Option.map_some, Option.getD_some, ← hleaf]
    by_cases hpw : (hasFlag (leafAt m.mem r v.addr) ptePresent && hasFlag (leafAt m.mem r v.addr) pteWritable) = true
    · rw [if_pos hpw]
      rw [Bool.and_eq_true] at hpw
      exact .inl ⟨pteFrame (leafAt m.mem r v.addr), _, ⟨v.leafPath, hpw.1, rfl⟩, hpw.2, rfl⟩
    · rw [if_neg hpw]
      exact .inr ⟨_, rfl⟩

end

/-- Memory with the content of one frame replaced. -/
def Vmm.setPage (m : Vmm) (f : Nat) (page : Fin 512 → BitVec 64) : Vmm := { m with mem := Function.update m.mem f page }

/-- A frame that is no table may hold anything. -/
theorem Spaces.setPage (h : Spaces p0 live m) {f : Nat} (hfree : p0.Free f) (hnt : ¬ IsTable live m.mem f)
    (page : Fin 512 → BitVec 64) :
    Spaces p0 live (m.setPage f page) ∧ ∀ g, IsTable live m.mem g → (m.setPage f page).mem g = m.mem g := by
  have hmem : ∀ g, g ≠ f → (m.setPage f page).mem g = m.mem g := fun g hg => update_of_ne hg _ _
  have htab : ∀ g, IsTable live m.mem g → (m.setPage f page).mem g = m.mem g := by
    intro g hg
    refine hmem g ?_
    rintro rfl
    exact hnt hg
  refine ⟨h.of_same_tables htab ⟨rfl, rfl, rfl, rfl, rfl, hmem _ ?_⟩ fun _ hu _ => hu, htab⟩
  rintro rfl
  exact h.kernelFrame hfree

/-- Data written to a mapped frame is no part of a table. -/
theorem Spaces.storeData (h : Spaces p0 live m) {f : Nat} (hf : IsMapped live m.mem f) (i : Fin 512) (w : BitVec 64) :
    Spaces p0 live (m.store f i w) ∧ ∀ g, IsTable live m.mem g → (m.store f i w).mem g = m.mem g := by
  obtain ⟨hfree, -, hnt⟩ := h.mapped f hf
  exact h.setPage hfree hnt _

end TsOs
