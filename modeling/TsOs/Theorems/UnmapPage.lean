import TsOs.Lemmas.UnmapView

/-!
# Unmapping one page

What `vmm_unmap_page` and `vmm_unmap_and_free` do to the leaf entries that a walk finds for the other pages, in a tree that may have
huge pages and pages filled on demand. A PT is removed when it has no present entry, whatever else is in it, and a huge page is
cleared as a whole.
-/

namespace TsOs

open Radix StateProg PteAux TableAux VmmRun VaAux XlateAux MapAux UnmapAux List BitVec

/-- A walk finds the same leaf entry in `m'` as in `m` for every page but that of `v`. -/
def OthersUnchanged (r : Nat) (v : BitVec 64) (m m' : Vmm) : Prop :=
  ∀ w, isPageAligned w = true → vaIsCanonical w = true → w ≠ v → walkLeaf m' r w = walkLeaf m r w

/-- When there is something to unmap at `v`, it is a page of a PT, and the PT has a present entry besides or nothing at all. -/
def NeighboursSafe (m : Vmm) (r : Nat) (v : BitVec 64) : Prop :=
  v ≠ 0#64 → hasFlag (walkLeaf m r v) (ptePresent ||| pteDemand) = true →
    ∃ t, tableAt m.mem r (vaPath v) = some t ∧
      ((∀ j, j ≠ ptIndex v → hasFlag (m.mem t j) ptePresent = false) → ∀ j, j ≠ ptIndex v → m.mem t j = 0#64)

namespace UnmapAux

variable {m m' : Vmm} {r : Nat} {v : BitVec 64}

/-- The address of another page of the PT of `v`. -/
theorem neighbour (hc : vaIsCanonical v = true) (j : Fin 512) :
    ∃ w, isPageAligned w = true ∧ vaIsCanonical w = true ∧ vaPath w = vaPath v ∧ ptIndex w = j := by
  have hw : (BitVec.ofNat 64 (v.toNat / 2 ^ 21 * 2 ^ 21 + j.val * 4096)).toNat = v.toNat / 2 ^ 21 * 2 ^ 21 + j.val * 4096 := by
    rw [toNat_ofNat]
    omega
  refine ⟨BitVec.ofNat 64 (v.toNat / 2 ^ 21 * 2 ^ 21 + j.val * 4096), ?_, ?_, ?_, ?_⟩
  · rw [isPageAligned_iff, hw]
    omega
  · rw [vaIsCanonical_iff] at hc ⊢
    omega
  · simp only [vaPath, cons.injEq, and_true, Fin.ext_iff, pml4Index_val, pdptIndex_val, pdIndex_val, hw]
    omega
  · rw [Fin.ext_iff, ptIndex_val]
    omega

/-- Two pages differ when an index does. -/
theorem page_ne {w : BitVec 64} (ha : isPageAligned v = true) (hw : isPageAligned w = true) (hc : vaIsCanonical v = true)
    (hcw : vaIsCanonical w = true) : pageNumber w ≠ pageNumber v ↔ w ≠ v := by
  rw [isPageAligned_iff] at ha hw
  refine not_congr ⟨fun h => ?_, fun h => by rw [h]⟩
  have := pageNumber_of_canonical hcw hc h
  apply eq_of_toNat_eq
  omega

theorem root_small (hwf : PageTree m r) (i : Fin 512) : hugeEntry (m.mem r i) = false := by
  rw [hugeEntry]
  cases hp : hasFlag (m.mem r i) ptePresent with
  | false => rfl
  | true => rw [hwf.small i hp]; rfl

variable (hwf : PageTree m r) (ha : isPageAligned v = true) (hc : vaIsCanonical v = true)
include hwf ha hc

omit ha in
/-- Clearing a huge page takes the leaf entry from every page in it. -/
theorem huge_cleared {p q : List (Fin 512)} {i : Fin 512} {t : Nat}
    (hpath : vaPath v = p ++ [i] ++ q) (hne : p ≠ []) (ht : tableAt m.mem r p = some t) (hh : hugeEntry (m.mem t i) = true)
    {m1 : Vmm} (hm1 : m1.mem = setEntry m.mem t i 0#64) :
    ¬ OthersUnchanged r v m ((ptCleanupEmptyTables r v).run m1).2 := by
  have hr := mem_singleton_self r
  have hpi : TablePath 512 (p ++ [i]) := TablePath.of_append (hpath ▸ TablePath.vaPath (pml4Index v).isLt)
  have hnone : childOf (setEntry m.mem t i 0#64 t i) = none := by rw [setEntry_self, childOf_zero]
  obtain ⟨hcut, htabs, -, -⟩ := set_table (setEntry m.mem t i 0#64) i hwf.distinct hr ht
    (fun _ _ _ _ _ _ _ hne => setEntry_of_ne hne) hpi (fun c _ hc' => by rw [childOf_of_huge hh] at hc'; cases hc')
    (fun c _ hc' => by rw [hnone] at hc'; cases hc')
  rw [hnone] at hcut
  have hgone : tableAt m1.mem r (vaPath v) = none := by
    rw [hm1, hpath]
    exact walk_append_none hcut q
  rw [cleanup_without_table hgone]
  intro hsame
  -- a page of the same huge page, at another index of the PT
  obtain ⟨j, hj⟩ : ∃ j : Fin 512, j ≠ ptIndex v := exists_ne _
  obtain ⟨w, haw, hcw, hpw, hiw⟩ := neighbour hc j
  have hroot : hugeEntry (m1.mem r (pml4Index w)) = false := by
    have hrt : ¬ (r = t ∧ pml4Index w = i) := by
      rintro ⟨rfl, -⟩
      exact hne (hwf.distinct.distinct r r p [] r ⟨hr, hpi.of_append⟩ ⟨hr, .nil 512⟩ ht (tableAt_nil r)).2
    rw [hm1, setEntry_of_ne hrt]
    exact root_small hwf _
  have hfound := hsame w haw hcw fun h => hj (by rw [← hiw, h])
  rw [walkLeaf_eq hroot, walkLeaf_eq (root_small hwf _)] at hfound
  have ht' : tableAt m1.mem r p = some t := by
    rw [hm1, htabs r hr p hpi.of_append, ht]
    rintro ⟨-, h⟩
    simp at h
  have hzero : m1.mem t i = 0#64 := by rw [hm1, setEntry_self]
  rw [← hpw] at hpath
  rw [leafView_of_cut hpath hne ht (childOf_of_huge hh), leafView_of_cut hpath hne ht' (by rw [hzero, childOf_zero]), hzero,
    hugeEntry_zero, if_neg Bool.false_ne_true, if_pos hh] at hfound
  rw [← hfound] at hh
  cases hh

/-- Clearing a page of a PT leaves the other pages alone exactly when the PT stays or holds nothing else. -/
theorem leaf_cleared {t : Nat}
    (ht : tableAt m.mem r (vaPath v) = some t) {m1 : Vmm} (hm1 : m1.mem = setEntry m.mem t (ptIndex v) 0#64) :
    OthersUnchanged r v m ((ptCleanupEmptyTables r v).run m1).2 ↔
      ((∀ j, j ≠ ptIndex v → hasFlag (m.mem t j) ptePresent = false) → ∀ j, j ≠ ptIndex v → m.mem t j = 0#64) := by
  obtain ⟨htabs, htab1, hroot1, hview1⟩ := leafView_clear_leaf hwf.distinct ht
  rw [← hm1] at htabs htab1 hroot1 hview1
  have hother : ∀ j, j ≠ ptIndex v → m1.mem t j = m.mem t j := fun j hj => by rw [hm1, setEntry_of_ne fun h => hj h.2]
  have hself : m1.mem t (ptIndex v) = 0#64 := by rw [hm1, setEntry_self]
  obtain ⟨m', hrun, hcases⟩ := cleanup_view htabs htab1
  rw [hrun]
  rcases hcases with ⟨⟨j, hj⟩, rfl⟩ | ⟨hempty, hroot', hview'⟩
  · -- the PT stays
    have hne : j ≠ ptIndex v := by
      rintro rfl
      rw [hself] at hj
      cases hj
    refine ⟨fun _ hall => ?_, fun _ w haw hcw hwv => ?_⟩
    · rw [hother j hne, hall j hne] at hj
      cases hj
    · rw [walkLeaf_eq (by rw [hroot1]; exact root_small hwf _), walkLeaf_eq (root_small hwf _)]
      exact hview1 w ((page_ne ha haw hc hcw).mpr hwv)
  · -- the PT is removed
    have hsmall : ∀ i, hugeEntry (m'.mem r i) = false := by
      intro i
      rcases hroot' i with h | h
      · rw [h, hroot1]
        exact root_small hwf i
      · rw [h, hugeEntry_zero]
    have hwalk : ∀ w, walkLeaf m' r w = walkLeaf m r w ↔
        leafView (entryAt m'.mem r) w = leafView (entryAt m.mem r) w := by
      intro w
      rw [walkLeaf_eq (hsmall _), walkLeaf_eq (root_small hwf _)]
    constructor
    · intro hsame _ j hj
      obtain ⟨w, haw, hcw, hpw, hiw⟩ := neighbour hc j
      have hfound := (hwalk w).mp (hsame w haw hcw fun h => hj (by rw [← hiw, h]))
      rw [hview', if_pos hpw, leafView_of_table (hpw ▸ ht), hiw] at hfound
      exact hfound.symm
    · intro hzero w haw hcw hwv
      have hpage := (page_ne ha haw hc hcw).mpr hwv
      rw [hwalk, hview']
      split
      · next hpw =>
        have hj : ptIndex w ≠ ptIndex v := fun h => hpage ((pageNumber_eq_iff w v).mpr ⟨hpw, h⟩)
        rw [leafView_of_table (hpw ▸ ht)]
        exact (hzero (fun j hj => by rw [← hother j hj]; exact hempty j) _ hj).symm
      · exact hview1 w hpage

variable {as : AddressSpace} (hi : m.initialized = true) (hr : as.pml4 = some r) {call : VmmM VmmStatus}
  (hcall : call = vmmUnmapPage as v ∨ call = vmmUnmapAndFree as v)
include hi hr hcall

/-- Both calls find nothing to unmap, or clear the entry that the walk found and clean up. -/
theorem unmap_run :
    ((v = 0#64 ∨ hasFlag (walkLeaf m r v) (ptePresent ||| pteDemand) = false) ∧ (call.run m).2 = m) ∨
    (v ≠ 0#64 ∧ hasFlag (walkLeaf m r v) (ptePresent ||| pteDemand) = true) ∧
      ∃ t i m1, leafSlot m.mem r v = some (t, i) ∧ m1.mem = setEntry m.mem t i 0#64 ∧
        (call.run m).2 = ((ptCleanupEmptyTables r v).run m1).2 := by
  have hwalk := ptWalkToLeaf_lookup m r v 0#64 (root_small hwf _)
  by_cases hv : v = 0#64
  · refine .inl ⟨.inl hv, ?_⟩
    rcases hcall with rfl | rfl
    · rw [vmmUnmapPage, bind_run (get_run m), hi, hr, hv]
      rfl
    · rw [vmmUnmapAndFree, bind_run (get_run m), hi, hr, hv]
      rfl
  have hvalid : validateVaddr v = true := by simp [validateVaddr, ha, hc, hv]
  have hleaf : walkLeaf m r v = (leafSlot m.mem r v).elim 0#64 fun x => m.mem x.1 x.2 := by
    rw [walkLeaf, hwalk]
    cases leafSlot m.mem r v <;> rfl
  rcases hcall with rfl | rfl
  · rw [vmmUnmapPage, bind_run (get_run m), hi, hr, hvalid]
    dsimp only [Bool.not_true]
    rw [if_neg (by simp), if_neg (by simp), bind_run hwalk, hleaf]
    cases leafSlot m.mem r v with
    | none => exact .inl ⟨.inr (hasFlag_zero _), rfl⟩
    | some ti =>
      obtain ⟨t, i⟩ := ti
      dsimp only [Option.elim_some]
      rw [bind_run (readEntry_run m t i)]
      cases hasFlag (m.mem t i) (ptePresent ||| pteDemand) with
      | false => exact .inl ⟨.inr rfl, rfl⟩
      | true => exact .inr ⟨⟨hv, rfl⟩, t, i, m.store t i 0#64, rfl, rfl, rfl⟩
  · rw [vmmUnmapAndFree, bind_run (get_run m), hi, hr, hvalid]
    dsimp only [Bool.not_true]
    rw [if_neg (by simp), if_neg (by simp), bind_run hwalk, hleaf]
    cases leafSlot m.mem r v with
    | none => exact .inl ⟨.inr (hasFlag_zero _), rfl⟩
    | some ti =>
      obtain ⟨t, i⟩ := ti
      dsimp only [Option.elim_some]
      rw [bind_run (readEntry_run m t i), hasFlag_or]
      cases hasFlag (m.mem t i) pteDemand with
      | true => exact .inr ⟨⟨hv, Bool.or_true _⟩, t, i, m.store t i 0#64, rfl, rfl, rfl⟩
      | false =>
        rw [if_neg Bool.false_ne_true]
        cases hasFlag (m.mem t i) ptePresent with
        | false => exact .inl ⟨.inr rfl, rfl⟩
        | true =>
          rw [if_neg (by simp), bind_run (writeEntry_run _ _ _ _), bind_run (freeFrame_pteAddr_run _ _)]
          exact .inr ⟨⟨hv, rfl⟩, t, i, { m.store t i 0#64 with pmm := m.pmm.drop (pteFrame (m.mem t i)) }, rfl, rfl, rfl⟩

/-- What holds for both calls. -/
theorem unmap_iff :
    OthersUnchanged r v m (call.run m).2 ↔ NeighboursSafe m r v := by
  rcases unmap_run hwf ha hc hi hr hcall with ⟨hno, hrun⟩ | ⟨⟨hv, hflag⟩, t, i, m1, hslot, hm1, hrun⟩
  · rw [hrun]
    refine ⟨fun _ hv hflag => ?_, fun _ _ _ _ _ => rfl⟩
    rcases hno with h | h
    · exact absurd h hv
    · rw [h] at hflag
      cases hflag
  rw [hrun]
  rcases leafSlot_cases m.mem r v with ⟨hs, -⟩ | ⟨p, i', q, t', hpath, hne, ht, hh, hs, -⟩ | ⟨t', ht, hs, -⟩
  · rw [hs] at hslot
    cases hslot
  · rw [hs] at hslot
    cases hslot
    refine ⟨fun h => absurd h (huge_cleared hwf hc hpath hne ht hh hm1), fun h => ?_⟩
    obtain ⟨t, htab, -⟩ := h hv hflag
    rw [hpath] at htab
    have := upper_of_table htab
    rw [entryAt_eq ht] at this
    rw [hugeEntry, this.2, Bool.and_false] at hh
    cases hh
  · rw [hs] at hslot
    cases hslot
    rw [leaf_cleared hwf ha hc ht hm1]
    refine ⟨fun h _ _ => ⟨t, ht, h⟩, fun h => ?_⟩
    obtain ⟨_, htab, h⟩ := h hv hflag
    cases htab.symm.trans ht
    exact h

end UnmapAux

/-- Unmapping a page leaves what a walk finds for all other pages as it is exactly when the page is not part of a huge page and its
PT keeps a present entry or has held nothing else. -/
theorem unmap_one_page_iff (m : Vmm) (as : AddressSpace) (r : Nat) (v : BitVec 64) (hi : m.initialized = true)
    (hr : as.pml4 = some r) (hwf : PageTree m r) (ha : isPageAligned v = true) (hc : vaIsCanonical v = true) :
    (OthersUnchanged r v m ((vmmUnmapPage as v).run m).2 ↔ NeighboursSafe m r v) ∧
    (OthersUnchanged r v m ((vmmUnmapAndFree as v).run m).2 ↔ NeighboursSafe m r v) :=
  ⟨unmap_iff hwf ha hc hi hr (.inl rfl), unmap_iff hwf ha hc hi hr (.inr rfl)⟩

/-! ## One PT with two pages -/

theorem twoPages_frames : 16 ≤ pmmMaxFrames := by decide

/-- An address space with its PML4 in frame 1 and one table of each level in the frames 2 to 4. In the PT, page 1 is mapped to
frame 5; `neighbour` is the entry of page 2. -/
def twoPages (neighbour : BitVec 64) : Vmm where
  pmm := { bitmap := fun _ => 0x7F#64, totalFrames := 16, freeFrames := 9#64, initialized := true, total_le := twoPages_frames }
  mem := fun f i =>
    if f = 1 ∧ i = 0 then 0x2007#64
    else if f = 2 ∧ i = 0 then 0x3007#64
    else if f = 3 ∧ i = 0 then 0x4007#64
    else if f = 4 ∧ i = 1 then 0x5007#64
    else if f = 4 ∧ i = 2 then neighbour
    else 0#64
  kernelPml4 := 1
  initialized := true

namespace UnmapAux

theorem twoPages_child (e : BitVec 64) {f c : Nat} {i : Fin 512} (hf : f < 4) (h : childOf ((twoPages e).mem f i) = some c) :
    i = 0 ∧ c = f + 1 := by
  have h2 : childOf 0x2007#64 = some 2 := by decide
  have h3 : childOf 0x3007#64 = some 3 := by decide
  have h4 : childOf 0x4007#64 = some 4 := by decide
  simp only [twoPages] at h
  split_ifs at h with h1 h₂ h₃ h₄ h5
  · rw [h2] at h
    exact ⟨h1.2, by have := Option.some.inj h; omega⟩
  · rw [h3] at h
    exact ⟨h₂.2, by have := Option.some.inj h; omega⟩
  · rw [h4] at h
    exact ⟨h₃.2, by have := Option.some.inj h; omega⟩
  · omega
  · omega
  · cases h

theorem twoPages_tables (e : BitVec 64) (p : List (Fin 512)) (f : Nat) (hlen : p.length ≤ 3)
    (h : tableAt (twoPages e).mem 1 p = some f) : p = List.replicate p.length 0 ∧ f = p.length + 1 := by
  induction p using reverseRecOn generalizing f with
  | nil => exact ⟨rfl, (Option.some.inj h).symm⟩
  | append_singleton p i ih =>
    rw [length_append, length_singleton] at hlen
    rw [tableAt_snoc] at h
    cases ht : tableAt (twoPages e).mem 1 p with
    | none =>
      rw [entryAt_none ht] at h
      cases h
    | some g =>
      obtain ⟨hp, rfl⟩ := ih g (by omega) ht
      rw [entryAt_eq ht] at h
      obtain ⟨rfl, rfl⟩ := twoPages_child e (by omega) h
      refine ⟨?_, by simp⟩
      rw [List.length_append, List.length_singleton, List.replicate_succ', ← hp]

theorem twoPages_tree (e : BitVec 64) : PageTree (twoPages e) 1 where
  distinct := by
    refine tables_of_distinct fun r hr r' hr' p p' f hp hp' hf hf' => ?_
    obtain rfl := mem_singleton.mp hr
    obtain rfl := mem_singleton.mp hr'
    obtain ⟨h1, h2⟩ := twoPages_tables e p f hp.1 hf
    obtain ⟨h1', h2'⟩ := twoPages_tables e p' f hp'.1 hf'
    refine ⟨rfl, ?_⟩
    rw [h1, h1', show p.length = p'.length by omega]
  kept := by
    intro r hr p f hp hf hfree
    obtain rfl := mem_singleton.mp hr
    obtain ⟨-, rfl⟩ := twoPages_tables e p f hp.1 hf
    have hlen := hp.1
    have hused : ∀ k < 4, (twoPages 0#64).pmm.isUsed (k + 1) = true := by decide
    have hnot : (twoPages 0#64).pmm.isUsed (p.length + 1) = false := hfree.2.2
    rw [hused p.length (by omega)] at hnot
    cases hnot
  small := by
    intro i hp
    by_cases hi : i = 0
    · have hentry : (twoPages e).mem 1 i = 0x2007#64 := by simp [twoPages, hi]
      rw [hentry]
      decide
    · simp [twoPages, hi, hasFlag_zero]

end UnmapAux

/-- With another page mapped in the PT, unmapping page 1 is exact. -/
theorem unmap_one_page_present :
    PageTree (twoPages 0x6007#64) 1 ∧ walkLeaf (twoPages 0x6007#64) 1 0x1000#64 = 0x5007#64 ∧
    OthersUnchanged 1 0x1000#64 (twoPages 0x6007#64) ((vmmUnmapPage ⟨some 1, false⟩ 0x1000#64).run (twoPages 0x6007#64)).2 := by
  refine ⟨UnmapAux.twoPages_tree _, by decide +kernel, ?_⟩
  refine (unmap_one_page_iff (twoPages 0x6007#64) ⟨some 1, false⟩ 1 0x1000#64 rfl rfl (UnmapAux.twoPages_tree _) (by decide)
    (by decide)).1.mpr fun _ _ => ⟨4, by decide +kernel, fun h => ?_⟩
  exact absurd (h 2 (by decide)) (by decide +kernel)

/-- The last mapped page of a PT takes a page that is filled on demand with it. -/
theorem unmap_loses_demand_page :
    PageTree (twoPages 0x406#64) 1 ∧
    walkLeaf (twoPages 0x406#64) 1 0x2000#64 = 0x406#64 ∧
    ((vmmUnmapPage ⟨some 1, false⟩ 0x1000#64).run (twoPages 0x406#64)).1 = .ok ∧
    walkLeaf ((vmmUnmapPage ⟨some 1, false⟩ 0x1000#64).run (twoPages 0x406#64)).2 1 0x2000#64 = 0#64 ∧
    ((vmmUnmapAndFree ⟨some 1, false⟩ 0x1000#64).run (twoPages 0x406#64)).1 = .ok ∧
    walkLeaf ((vmmUnmapAndFree ⟨some 1, false⟩ 0x1000#64).run (twoPages 0x406#64)).2 1 0x2000#64 = 0#64 :=
  ⟨UnmapAux.twoPages_tree _, by decide +kernel, by decide +kernel, by decide +kernel, by decide +kernel, by decide +kernel⟩

end TsOs
