import TsOs.Elf
import TsOs.Lemmas.LeafEffects

/-!
# What the ELF loader does to the address spaces

`elf_load` works on one address space. Whatever the image is and wherever the loader stops, the pages it has mapped are frames of
their own, so that the address space can be destroyed again.
-/

namespace TsOs

open StateProg PteAux TableAux VmmRun WalkAux FaultAux XlateAux LeafAux Function List Spaces

variable {p0 : Pmm} {live : List Nat} {m m' : Vmm} {d : Nat}

/-- An address space into which an image is loaded: it shares no frame, and no page of it is copy-on-write. -/
structure Loading (p0 : Pmm) (live : List Nat) (d : Nat) (m : Vmm) : Prop where
  spaces : Spaces p0 live m
  root : d ∈ live
  alone : MapsAlone live d m
  noCow : ∀ p i, LeafPath p → hasFlag (entryAt m.mem d p i) pteCow = false

namespace ElfAux

/-- A change of memory outside the tables. -/
theorem loading_of_same_tables (hl : Loading p0 live d m) (h : Spaces p0 live m')
    (hmem : ∀ f, IsTable live m.mem f → m'.mem f = m.mem f) : Loading p0 live d m' := by
  refine ⟨h, hl.root, fun f hf r' hr' hm => ?_, fun p i hp => ?_⟩
  · obtain ⟨p, i, hf⟩ := hf
    obtain ⟨p', i', hm⟩ := hm
    exact hl.alone f ⟨p, i, (maps_iff_of_same_tables hmem hl.root p i f).mp hf⟩ r' hr'
      ⟨p', i', (maps_iff_of_same_tables hmem hr' p' i' f).mp hm⟩
  · rw [(same_view hmem hl.root hp.1).2 i]
    exact hl.noCow p i hp

theorem Loading.alloc (hl : Loading p0 live d m) {g : Nat} (hg : m.pmm.Free g) (page : Fin 512 → BitVec 64) :
    Loading p0 live d (m.alloc g page) :=
  loading_of_same_tables hl (hl.spaces.alloc hg page) (hl.spaces.alloc_tables hg page)

/-! ## Copies -/

/-- A page with the byte at the offset `off` replaced. -/
def setByte (page : Fin 512 → BitVec 64) (off : BitVec 64) (b : BitVec 8) : Fin 512 → BitVec 64 :=
  Function.update page (wordIndex off) (withByte (page (wordIndex off)) off b)

/-- What `copy_page_overlap` makes of a page. -/
def overlapPage (file : Image) (ph : ElfPhdr) (va : BitVec 64) (page : Fin 512 → BitVec 64) : Fin 512 → BitVec 64 :=
  let lo := if ph.vaddr.ult va then va else ph.vaddr
  let hi := if (va + 4096#64).ult (ph.vaddr + ph.filesz) then va + 4096#64 else ph.vaddr + ph.filesz
  if !lo.ult hi then page
  else
    (List.range (hi - lo).toNat).foldl (fun page k =>
      setByte page (lo - va + BitVec.ofNat 64 k) (file (ph.offset + (lo - ph.vaddr) + BitVec.ofNat 64 k).toNat)) page

/-- Bytes written to one frame. -/
theorem writeBytes_run (frame : Nat) (off : Nat → BitVec 64) (byte : Nat → BitVec 8) (xs : List Nat) (m : Vmm) :
    (xs.forM fun k => writeByte frame (off k) (byte k)).run m =
      ((), m.setPage frame (xs.foldl (fun page k => setByte page (off k) (byte k)) (m.mem frame))) := by
  induction xs generalizing m with
  | nil =>
    unfold Vmm.setPage
    rw [foldl_nil, update_eq_self]
    rfl
  | cons k xs ih =>
    have hfirst : ((writeByte frame (off k) (byte k)).run m).2 = m.setPage frame (setByte (m.mem frame) (off k) (byte k)) := rfl
    rw [run_forM_cons, hfirst, ih]
    unfold Vmm.setPage
    simp only [update_idem, update_self, foldl_cons]

theorem copyPageOverlap_run (file : Image) (ph : ElfPhdr) (frame : Nat) (va : BitVec 64) (m : Vmm) :
    (copyPageOverlap file ph frame va).run m = ((), m.setPage frame (overlapPage file ph va (m.mem frame))) := by
  unfold copyPageOverlap overlapPage
  dsimp only
  generalize (if ph.vaddr.ult va then va else ph.vaddr) = lo
  generalize (if (va + 4096#64).ult (ph.vaddr + ph.filesz) then va + 4096#64 else ph.vaddr + ph.filesz) = hi
  split
  · exact writeBytes_run frame (fun _ => 0#64) (fun _ => 0#8) [] m
  · exact writeBytes_run frame _ _ _ m

/-! ## Pages -/

/-- `vmm_translate` of an address of the user half: an address in the frame of a leaf that is present, or 0. -/
theorem vmmTranslate_leaf {r : Nat} (h : Spaces p0 live m) (hr : r ∈ live) (v : UserVa) :
    vmmTranslate m (.ofRoot r) v.addr =
      if hasFlag (leafAt m.mem r v.addr) ptePresent then pteAddr (leafAt m.mem r v.addr) + (v.addr &&& 0xFFF#64) else 0#64 := by
  have hp3 : TablePath 256 ([pml4Index v.addr, pdptIndex v.addr] ++ [pdIndex v.addr]) := v.leafPath.1
  have hp2 : TablePath 256 ([pml4Index v.addr] ++ [pdptIndex v.addr]) := hp3.of_append
  have hp1 : TablePath 256 ([] ++ [pml4Index v.addr]) := hp2.of_append
  have hentry : entryAt m.mem r [] (pml4Index v.addr) = m.mem r (pml4Index v.addr) := entryAt_eq (tableAt_nil r) _
  have hroot := h.small r hr [] (pml4Index v.addr) hp1
  rw [vmmTranslate_eq h.init (AddressSpace.ofRoot_pml4 r) hroot]
  exact xlate_of_small (h.small r hr _ _ hp2) (h.small r hr _ _ hp3)

/-- The address of a page that is present is one of its frame. -/
theorem vmmTranslate_present {r : Nat} (h : Spaces p0 live m) (hr : r ∈ live) (v : UserVa)
    (hpres : hasFlag (leafAt m.mem r v.addr) ptePresent = true) :
    (vmmTranslate m (.ofRoot r) v.addr).toNat = pteFrame (leafAt m.mem r v.addr) * 4096 + v.addr.toNat % 4096 ∧
      frameOf (vmmTranslate m (.ofRoot r) v.addr) = pteFrame (leafAt m.mem r v.addr) ∧
      vmmTranslate m (.ofRoot r) v.addr ≠ 0#64 := by
  obtain ⟨haddr, hlt⟩ := pteAddr_eq (leafAt m.mem r v.addr)
  have hpos := (h.mapped (pteFrame (leafAt m.mem r v.addr)) ⟨r, hr, _, _, v.leafPath, hpres, rfl⟩).1.1
  have hval : (vmmTranslate m (.ofRoot r) v.addr).toNat = pteFrame (leafAt m.mem r v.addr) * 4096 + v.addr.toNat % 4096 := by
    rw [vmmTranslate_leaf h hr v, if_pos hpres, haddr, BitVec.toNat_add, toNat_frameAddr hlt, VaAux.offset_toNat]
    omega
  refine ⟨hval, ?_, fun hz => ?_⟩
  · rw [frameOf]
    omega
  · rw [hz] at hval
    have : (0#64).toNat = 0 := rfl
    omega

/-- The flags of a segment are flags that callers may pass. -/
def segmentMapFlags (ph : ElfPhdr) : MapFlags where
  bits := segmentFlags ph
  noAddr := by
    unfold segmentFlags
    split <;> split <;> split <;> decide
  noCow := by
    unfold segmentFlags
    split <;> split <;> split <;> decide
  noDemand := by
    unfold segmentFlags
    split <;> split <;> split <;> decide

theorem mergeResult_noCow {old : BitVec 64} (hold : hasFlag old pteCow = false) (p : BitVec 64) (flags : MapFlags) :
    hasFlag (mergeResult old p flags.bits) pteCow = false := by
  have hc := flags.noCow
  have hpc : ptePresent.getLsbD 9 = false := by decide
  rw [hasFlag_cow] at hold hc ⊢
  unfold mergeResult
  split
  · rw [getLsbD_mergedLeaf _ _ (by omega), BitVec.getLsbD_or, hold, hc]
    rfl
  · rw [getLsbD_pteMake (by omega), BitVec.getLsbD_or, hc]
    rfl

/-- The leaf that a merge leaves is present, and has the frame of the old one if that was present. -/
theorem mergeResult_frame {old p : BitVec 64} (flags : MapFlags) {g : Nat}
    (hnew : hasFlag old ptePresent = false → p = frameAddr g ∧ g < 2 ^ 40) :
    hasFlag (mergeResult old p flags.bits) ptePresent = true ∧
      pteFrame (mergeResult old p flags.bits) = if hasFlag old ptePresent then pteFrame old else g := by
  unfold mergeResult
  cases hpres : hasFlag old ptePresent with
  | true =>
    rw [if_pos rfl]
    refine ⟨?_, mergedLeaf_frame ?_⟩
    · rw [hasFlag_present] at hpres ⊢
      rw [getLsbD_mergedLeaf _ _ (by omega), hpres, Bool.true_or]
    · rw [BitVec.and_or_distrib_right, flags.noAddr]
      rfl
  | false =>
    obtain ⟨rfl, hg⟩ := hnew hpres
    exact ⟨(mapLeaf hg flags).1, (mapLeaf hg flags).2.1⟩

/-- From `m` to `m'` the page `v` of the tree of `d` was mapped, to the frame `g` unless it was present, and no other page. -/
structure Merged (d : Nat) (v : UserVa) (g : Nat) (m m' : Vmm) : Prop where
  leaves : ∀ q j, LeafPath q → ¬ (q = vaPath v.addr ∧ j = ptIndex v.addr) → entryAt m'.mem d q j = entryAt m.mem d q j
  present : hasFlag (leafAt m'.mem d v.addr) ptePresent = true
  frame : pteFrame (leafAt m'.mem d v.addr) = if hasFlag (leafAt m.mem d v.addr) ptePresent then pteFrame (leafAt m.mem d v.addr) else g

/-- A page of the image is mapped, or more flags are given to it. -/
theorem Loading.merge (hl : Loading p0 live d m) (v : UserVa) {p : BitVec 64} {g : Nat} (flags : MapFlags)
    (hnew : hasFlag (leafAt m.mem d v.addr) ptePresent = false → p = frameAddr g ∧ InFlight p0 live g m) :
    ∃ st flushed m', (vmmMapPageMerge (.ofRoot d) v.addr p flags.bits).run m = ((st, flushed), m') ∧ Loading p0 live d m' ∧
      DataKept live m m' ∧ (st = .ok → Merged d v g m m') := by
  have hcow := hl.noCow _ (ptIndex v.addr) v.leafPath
  have halone : UnmapAlone live d v m := fun f hf => hl.alone f ⟨_, _, hf⟩
  obtain ⟨st, flushed, m', hrun, h', hdata, hcases⟩ := vmmMapPageMerge_effect hl.spaces hl.root v flags
    (fun habs => ⟨g, hnew habs⟩) (fun hc => absurd (hcow.symm.trans hc) (by simp)) halone
  obtain ⟨hpres, hframe⟩ := mergeResult_frame (p := p) flags (g := g)
    (fun habs => ⟨(hnew habs).1, lt_of_free (hnew habs).2.free⟩)
  refine ⟨st, flushed, m', hrun, ⟨h', hl.root, fun f hf r' hr' hm => ?_, fun q j hq => ?_⟩, hdata, fun hst => ?_⟩
  · obtain ⟨q, j, hf⟩ := hf
    obtain ⟨q', j', hm⟩ := hm
    by_cases hrd : r' = d
    · exact hrd
    rcases hcases with ⟨-, hsame, -⟩ | ⟨-, honly, hleaf⟩
    · unfold Maps at hf hm
      rw [hsame d hl.root q j hf.1] at hf
      rw [hsame r' hr' q' j' hm.1] at hm
      exact hl.alone f ⟨q, j, hf⟩ r' hr' ⟨q', j', hm⟩
    · have hold : Maps m.mem r' q' j' f := by
        unfold Maps at hm ⊢
        rwa [honly r' hr' q' j' hm.1 fun hc => hrd hc.1] at hm
      by_cases hpage : q = vaPath v.addr ∧ j = ptIndex v.addr
      · -- the page itself: the frame is the old one or the one in flight
        obtain ⟨rfl, rfl⟩ := hpage
        have hnow : pteFrame (leafAt m'.mem d v.addr) = f := hf.2.2
        rw [hleaf, hframe] at hnow
        split at hnow
        · next hold' => exact hl.alone f ⟨_, _, hf.1, hold', hnow⟩ r' hr' ⟨q', j', hold⟩
        · next habs =>
          rw [Bool.not_eq_true] at habs
          exact absurd ⟨r', hr', q', j', hnow ▸ hold⟩ (hnew habs).2.notMapped
      · unfold Maps at hf
        rw [honly d hl.root q j hf.1 fun hc => hpage hc.2] at hf
        exact hl.alone f ⟨q, j, hf⟩ r' hr' ⟨q', j', hold⟩
  · rcases hcases with ⟨-, hsame, -⟩ | ⟨-, honly, hleaf⟩
    · rw [hsame d hl.root q j hq]
      exact hl.noCow q j hq
    · by_cases hpage : q = vaPath v.addr ∧ j = ptIndex v.addr
      · obtain ⟨rfl, rfl⟩ := hpage
        change hasFlag (leafAt m'.mem d v.addr) pteCow = false
        rw [hleaf]
        exact mergeResult_noCow hcow p flags
      · rw [honly d hl.root q j hq fun hc => hpage hc.2]
        exact hl.noCow q j hq
  · rcases hcases with ⟨-, hsame, hold⟩ | ⟨-, honly, hleaf⟩
    · have hkept : leafAt m'.mem d v.addr = leafAt m.mem d v.addr := hsame d hl.root _ _ v.leafPath
      refine ⟨fun q j hq _ => hsame d hl.root q j hq, ?_, ?_⟩
      · rw [hkept]
        exact hold hst
      · rw [hkept, if_pos (hold hst)]
    · refine ⟨fun q j hq hne => honly d hl.root q j hq fun hc => hne hc.2, ?_, ?_⟩
      · rw [hleaf]
        exact hpres
      · rw [hleaf]
        exact hframe

/-! ## The loops -/

/-- From `m` to `m'` the page `v` of a segment was loaded: its frame is a new one unless it was present, and has the bytes of the
segment; the other pages are what they were. -/
structure PageLoaded (file : Image) (ph : ElfPhdr) (d : Nat) (v : UserVa) (m m' : Vmm) : Prop where
  leaves : ∀ q j, LeafPath q → ¬ (q = vaPath v.addr ∧ j = ptIndex v.addr) → entryAt m'.mem d q j = entryAt m.mem d q j
  present : hasFlag (leafAt m'.mem d v.addr) ptePresent = true
  page : m'.mem (pteFrame (leafAt m'.mem d v.addr)) = overlapPage file ph v.addr
    (if hasFlag (leafAt m.mem d v.addr) ptePresent then m.mem (pteFrame (leafAt m.mem d v.addr)) else fun _ => 0#64)
  data : ∀ q j f, Maps m.mem d q j f → ¬ (q = vaPath v.addr ∧ j = ptIndex v.addr) → m'.mem f = m.mem f

/-- One page: the loop stops, or it goes on with the page loaded. -/
theorem loadPages_step (file : Image) (ph : ElfPhdr) {stop : BitVec 64} (n : Nat) (v : UserVa) (hv : v.addr.ult stop = true)
    (hl : Loading p0 live d m) :
    (∃ st m', st ≠ .ok ∧ (loadPages (.ofRoot d) file ph stop (n + 1) v.addr).run m = (st, m') ∧ Loading p0 live d m') ∨
    ∃ m', (loadPages (.ofRoot d) file ph stop (n + 1) v.addr).run m =
        (loadPages (.ofRoot d) file ph stop n (v.addr + 4096#64)).run m' ∧
      Loading p0 live d m' ∧ PageLoaded file ph d v m m' := by
  rw [loadPages, if_pos hv, bind_run (get_run m)]
  have hflags : segmentFlags ph = (segmentMapFlags ph).bits := rfl
  cases hpres : hasFlag (leafAt m.mem d v.addr) ptePresent with
  | true =>
    obtain ⟨-, hframe, hne⟩ := vmmTranslate_present hl.spaces hl.root v hpres
    rw [if_pos hne, bind_run (copyPageOverlap_run file ph _ v.addr m), hframe]
    have hmaps : Maps m.mem d (vaPath v.addr) (ptIndex v.addr) (pteFrame (leafAt m.mem d v.addr)) := ⟨v.leafPath, hpres, rfl⟩
    obtain ⟨hfree, hused, hnt⟩ := hl.spaces.mapped _ ⟨d, hl.root, _, _, hmaps⟩
    obtain ⟨h1, htab⟩ := hl.spaces.setPage hfree hnt (overlapPage file ph v.addr (m.mem (pteFrame (leafAt m.mem d v.addr))))
    have hview : ∀ q j, LeafPath q → _ := fun q j hq => (same_view htab hl.root hq.1).2 j
    have hleaf := hview _ (ptIndex v.addr) v.leafPath
    obtain ⟨st, flushed, m', hrun, hl', hdata, hok⟩ := Loading.merge (g := 0) (p := vmmTranslate m (.ofRoot d) v.addr)
      (loading_of_same_tables hl h1 htab) v (segmentMapFlags ph) (fun habs => by
        rw [leafAt, hleaf] at habs
        exact absurd (hpres.symm.trans habs) (by simp))
    rw [hflags, bind_run hrun]
    dsimp only
    by_cases hst : st = .ok
    · have hm := hok hst
      rw [if_neg (not_not.2 hst)]
      have hkept : ∀ f, m.pmm.isUsed f = true → ¬ IsTable live m.mem f → m'.mem f =
          (m.setPage (pteFrame (leafAt m.mem d v.addr)) (overlapPage file ph v.addr (m.mem (pteFrame (leafAt m.mem d v.addr))))).mem f :=
        fun f hu hn => hdata f (not_free_of_used hu) fun ht => hn ((isTable_iff_of_same_tables htab f).1 ht)
      have hsame : pteFrame (leafAt m'.mem d v.addr) = pteFrame (leafAt m.mem d v.addr) := by
        rw [hm.frame, leafAt, hleaf]
        exact if_pos hpres
      refine .inr ⟨m', rfl, hl', ⟨fun q j hq hne => ?_, hm.present, ?_, fun q j f hf hne => ?_⟩⟩
      · exact (hm.leaves q j hq hne).trans (hview q j hq)
      · rw [hsame, hkept _ hused hnt, if_pos hpres]
        exact update_self _ _ _
      · obtain ⟨-, hu, hn⟩ := hl.spaces.mapped f ⟨d, hl.root, q, j, hf⟩
        rw [hkept f hu hn]
        refine update_of_ne (fun he => hne ?_) _ _
        subst he
        exact hl.spaces.inj d hl.root _ _ _ _ _ hf hmaps
    · rw [if_pos hst]
      exact .inl ⟨.mapFailed, m', by simp, rfl, hl'⟩
  | false =>
    have hzero : vmmTranslate m (.ofRoot d) v.addr = 0#64 := by
      rw [vmmTranslate_leaf hl.spaces hl.root v, hpres, if_neg (by simp)]
    rw [hzero, if_neg (by simp)]
    rcases allocFrame_run m with ⟨hnone, -⟩ | ⟨g, hg, -, hne, hfr, hrun⟩
    · rw [bind_run hnone]
      exact .inl ⟨.noMem, m, by simp, rfl, hl⟩
    rw [bind_run hrun, if_neg hne, hfr, bind_run (zeroPage_run _ g), bind_run (copyPageOverlap_run file ph g v.addr _)]
    have halloc : Vmm.setPage { m with pmm := m.pmm.take g, mem := update m.mem g fun _ => 0#64 } g
        (overlapPage file ph v.addr (update m.mem g (fun _ => 0#64) g)) =
        m.alloc g (overlapPage file ph v.addr fun _ => 0#64) := by
      unfold Vmm.setPage Vmm.alloc
      simp only [update_idem, update_self]
    rw [halloc]
    have hflight := InFlight.alloc hl.spaces hg (overlapPage file ph v.addr fun _ => 0#64)
    have htab := hl.spaces.alloc_tables hg (overlapPage file ph v.addr fun _ => 0#64)
    have hview : ∀ q j, LeafPath q → _ := fun q j hq => (same_view htab hl.root hq.1).2 j
    obtain ⟨st, flushed, m', hrun, hl', hdata, hok⟩ :=
      Loading.merge (Loading.alloc hl hg _) v (segmentMapFlags ph) fun _ => ⟨rfl, hflight⟩
    rw [hflags, bind_run hrun]
    dsimp only
    by_cases hst : st = .ok
    · have hm := hok hst
      rw [if_neg (not_not.2 hst)]
      have hkept : ∀ f, (m.alloc g (overlapPage file ph v.addr fun _ => 0#64)).pmm.isUsed f = true → ¬ IsTable live m.mem f →
          m'.mem f = (m.alloc g (overlapPage file ph v.addr fun _ => 0#64)).mem f :=
        fun f hu hn => hdata f (not_free_of_used hu) fun ht => hn ((isTable_iff_of_same_tables htab f).1 ht)
      have hsame : pteFrame (leafAt m'.mem d v.addr) = g := by
        rw [hm.frame, leafAt, hview _ _ v.leafPath]
        exact if_neg (by rw [← leafAt, hpres]; simp)
      refine .inr ⟨m', rfl, hl', ⟨fun q j hq hne => ?_, hm.present, ?_, fun q j f hf hne => ?_⟩⟩
      · exact (hm.leaves q j hq hne).trans (hview q j hq)
      · rw [hsame, hkept g hflight.used (hl.spaces.not_table_of_free hg), if_neg (by rw [hpres]; simp)]
        exact update_self _ _ _
      · obtain ⟨-, hu, hn⟩ := hl.spaces.mapped f ⟨d, hl.root, q, j, hf⟩
        rw [hkept f ((alloc_isUsed _ f).2 (.inr hu)) hn]
        refine alloc_mem_of_ne _ fun he => ?_
        subst he
        exact not_free_of_used hu hg
    · rw [if_pos hst]
      exact .inl ⟨.mapFailed, m', by simp, rfl, hl'⟩

/-- The loop over the pages of a segment that ends in the user half. -/
theorem loadPages_loading (file : Image) (ph : ElfPhdr) {stop : BitVec 64} (hstop : stop.toNat ≤ 2 ^ 47) (n : Nat) (va : BitVec 64)
    (hl : Loading p0 live d m) :
    ∃ st m', (loadPages (.ofRoot d) file ph stop n va).run m = (st, m') ∧ Loading p0 live d m' := by
  induction n generalizing va m with
  | zero => exact ⟨.ok, m, rfl, hl⟩
  | succ n ih =>
    by_cases hva : va.ult stop = true
    · have hlt : va.toNat < 2 ^ 47 := by
        rw [BitVec.ult, decide_eq_true_eq] at hva
        omega
      rcases loadPages_step file ph n ⟨va, hlt⟩ hva hl with ⟨st, m', -, hrun, hl'⟩ | ⟨m', hrun, hl', -⟩
      · exact ⟨st, m', hrun, hl'⟩
      · rw [hrun]
        exact ih _ hl'
    · rw [loadPages, if_neg hva]
      exact ⟨.ok, m, rfl, hl⟩

/-- The end of a segment, as the source rounds it up, lies in the user half. -/
theorem pageUp_le (a : BitVec 64) : (pageUp a).toNat ≤ 2 ^ 47 := by
  rw [pageUp, pageMask_toNat]
  omega

theorem loadSegments_loading (file : Image) (size : BitVec 64) (hdr : ElfHeader) (n i : Nat) (result : ElfLoadResult)
    (hl : Loading p0 live d m) :
    ∃ res m', (loadSegments (.ofRoot d) file size hdr n i result).run m = (res, m') ∧ Loading p0 live d m' := by
  induction n generalizing i result m with
  | zero => exact ⟨_, m, rfl, hl⟩
  | succ n ih =>
    rw [loadSegments]
    dsimp only
    split
    · exact ih _ _ hl
    · split
      · exact ⟨_, m, rfl, hl⟩
      · obtain ⟨st, m1, hrun, hl1⟩ := loadPages_loading file (elfPhdr file hdr i) (pageUp_le _) _ _ hl
        rw [bind_run hrun]
        split
        · exact ⟨_, m1, rfl, hl1⟩
        · exact ih _ _ hl1

end ElfAux

open ElfAux

/-- `elf_load` keeps the address spaces, and the one it loads into shares no frame. -/
theorem elfLoad_loading (file : Image) (size : BitVec 64) (hl : Loading p0 live d m) :
    ∃ res m', (elfLoad file size (.ofRoot d)).run m = (res, m') ∧ Loading p0 live d m' := by
  unfold elfLoad
  dsimp only
  split
  · exact ⟨_, m, rfl, hl⟩
  · obtain ⟨res, m', hrun, hl'⟩ := loadSegments_loading file size (elfHeader file) (elfHeader file).phnum 0
      { entry := (elfHeader file).entry, top := 0#64, phdrCount := 0 } hl
    rw [bind_run hrun]
    split
    · exact ⟨_, m', rfl, hl'⟩
    · split <;> exact ⟨_, m', rfl, hl'⟩

/-- A new address space is ready to be loaded into. -/
theorem Loading.created {c : Nat} (h : Spaces p0 live m) (hc : m.pmm.Free c) :
    Loading p0 (c :: live) c (m.alloc c (newPml4 m)) where
  spaces := h.create hc
  root := mem_cons_self
  alone f hf := by
    obtain ⟨p, i, hf⟩ := hf
    exact absurd hf (LifeAux.created_empty p i f)
  noCow p i hp := by
    rw [LifeAux.created_leaf hp, hasFlag_zero]

end TsOs
