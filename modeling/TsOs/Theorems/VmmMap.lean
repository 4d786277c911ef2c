import TsOs.Lemmas.Translate
import TsOs.Lemmas.Vmm

/-!
# Mapping is exact

What `vmm_map_page` does to `vmm_translate`: on success one page changes, on failure none, whatever tables were created.
-/

namespace TsOs

open StateProg PteAux TableAux VmmRun WalkAux VaAux XlateAux List BitVec

/-- A well-formed tree of tables: no frame is a table twice, no table is a free frame, and the PML4, where the processor has no
huge pages, has none. -/
structure PageTree (m : Vmm) (r : Nat) : Prop where
  distinct : Tables 512 m.mem [r]
  kept : Kept 512 [r] m
  small : ∀ i, hasFlag (m.mem r i) ptePresent = true → hasFlag (m.mem r i) ptePs = false

namespace MapAux

variable {m m' : Vmm} {r : Nat}

theorem rootEntry (mem : Nat → Fin 512 → BitVec 64) (r : Nat) (i : Fin 512) : entryAt mem r [] i = mem r i :=
  entryAt_eq (tableAt_nil r) i

theorem small_grown (hwf : PageTree m r) (hg : Grown 512 [r] r m m') (i : Fin 512)
    (hp : hasFlag (m'.mem r i) ptePresent = true) : hasFlag (m'.mem r i) ptePs = false := by
  have hup := hg.upper [] i ⟨by simp, fun j _ => j.isLt⟩
  rw [rootEntry] at hup
  rcases hup with heq | ⟨-, -, hps⟩
  · rw [heq] at hp ⊢
    exact hwf.small i hp
  · exact hps

/-- Growth changes no translation. -/
theorem translate_grown {as : AddressSpace} (hi : m.initialized = true) (hr : as.pml4 = some r) (hwf : PageTree m r)
    (hg : Grown 512 [r] r m m') (a : BitVec 64) : vmmTranslate m' as a = vmmTranslate m as a := by
  rw [vmmTranslate_eq hi hr (hwf.small _), vmmTranslate_eq (hg.init.trans hi) hr (small_grown hwf hg _),
    xlate_grown hg (pml4Index a).isLt]

end MapAux

open MapAux

/-- After a store to the leaf of `v` that page is translated by it, and all others as before. -/
theorem MapAux.translate_store {as : AddressSpace} {m : Vmm} {r f : Nat} {v e : BitVec 64} (hi : m.initialized = true)
    (hr : as.pml4 = some r) (hwf : PageTree m r) (hf : tableAt m.mem r (vaPath v) = some f)
    (he : hasFlag e ptePresent = true) (a : BitVec 64) :
    vmmTranslate (m.store f (ptIndex v) e) as a =
      if pageNumber a = pageNumber v then pteAddr e + (a &&& 0xFFF#64) else vmmTranslate m as a := by
  have hpath := TablePath.vaPath (pml4Index v).isLt
  have hroot := mem_singleton_self r
  obtain ⟨htab, hent, hents⟩ := set_leaf (setEntry m.mem f (ptIndex v) e) (ptIndex v) hwf.distinct hroot hf
    (fun _ _ _ _ _ _ _ hne => setEntry_of_ne hne) hpath rfl
  have hself : setEntry m.mem f (ptIndex v) e r = m.mem r := by
    funext i
    have := hents r hroot [] i (.nil 512) (by simp [vaPath])
    rwa [rootEntry, rootEntry] at this
  have hnew : vmmTranslate (m.store f (ptIndex v) e) as a = xlate (entryAt (m.store f (ptIndex v) e).mem r) a := by
    have hi' : (m.store f (ptIndex v) e).initialized = true := hi
    refine vmmTranslate_eq hi' hr ?_
    rw [store_mem, hself]
    exact hwf.small _
  rw [hnew, vmmTranslate_eq hi hr (hwf.small _), store_mem]
  split
  · next hpage =>
    obtain ⟨hva, hpt⟩ := (pageNumber_eq_iff a v).mp hpage
    have hf' := (htab r hroot _ hpath).trans hf
    rw [← hva] at hf'
    have hmem : setEntry m.mem f (ptIndex v) e f (ptIndex a) = e := by rw [hpt, setEntry_self]
    rw [xlate_leaf hf' (by rw [hmem]; exact he), hmem]
  · next hpage =>
    refine xlate_set (pml4Index a).isLt (fun q i hq hne => hents r hroot q i hq ?_) hpage
    rintro ⟨-, hqi⟩
    exact hne hqi

/-- Mapping is exact up to the bits of an address that `vmm_translate` does not read: a success maps the page, and changes the
translation of no canonical address outside it; a failure changes no translation. -/
theorem vmmMapPage_exact (m : Vmm) (as : AddressSpace) (v p flags : BitVec 64) (hwf : ∀ r, as.pml4 = some r → PageTree m r)
    (hp : p.toNat < 2 ^ 52) (hflags : flags &&& pteAddrMask = 0#64) :
    let res := (vmmMapPage as v p flags).run m
    (res.1 = .ok →
      (∀ o < 4096, vmmTranslate res.2 as (v + BitVec.ofNat 64 o) = p + BitVec.ofNat 64 o) ∧
      (∀ a, vaIsCanonical a = true → a.toNat / 4096 ≠ v.toNat / 4096 → vmmTranslate res.2 as a = vmmTranslate m as a) ∧
      ∀ a, pageNumber a ≠ pageNumber v → vmmTranslate res.2 as a = vmmTranslate m as a) ∧
    (res.1 ≠ .ok → ∀ a, vmmTranslate res.2 as a = vmmTranslate m as a) := by
  intro res
  rcases vmmMapPage_checks as v p flags m with ⟨st, hst, hrun⟩ | ⟨r, hi, hr, hv, hpa⟩
  · rw [show res = (st, m) from hrun]
    exact ⟨fun h => absurd h hst, fun _ _ => rfl⟩
  have htree := hwf r hr
  obtain ⟨st, m1, hg, hcases⟩ := vmmMapPage_run flags hi hr hv hpa htree.distinct htree.kept
    (mem_singleton_self r) (pml4Index v).isLt
  have hgrown := translate_grown hi hr htree hg
  rcases hcases with ⟨hrun, hst⟩ | ⟨f, hf, -, hrun⟩
  · rw [show res = (st, m1) from hrun]
    exact ⟨fun h => absurd h hst, fun _ => hgrown⟩
  rw [show res = _ from hrun]
  have htree1 : PageTree m1 r := ⟨hg.distinct, hg.kept htree.kept, small_grown htree hg⟩
  have hpresent : hasFlag (pteMake p (flags ||| ptePresent)) ptePresent = true := by
    rw [hasFlag_present, getLsbD_pteMake (by omega), getLsbD_or, show ptePresent.getLsbD 0 = true from rfl, Bool.or_true]
  have hstore := translate_store (hg.init.trans hi) hr htree1 hf hpresent
  rw [validatePaddr, Bool.and_eq_true, isPageAligned_iff] at hpa
  rw [validateVaddr, Bool.and_eq_true, Bool.and_eq_true, isPageAligned_iff] at hv
  have haddr : pteAddr (pteMake p (flags ||| ptePresent)) = p := by
    rw [pteAddr_pteMake, and_addrMask_of_lt hpa.1 hp]
    rw [and_or_distrib_right, hflags]
    rfl
  have hother : ∀ a, pageNumber a ≠ pageNumber v →
      vmmTranslate (m1.store f (ptIndex v) (pteMake p (flags ||| ptePresent))) as a = vmmTranslate m as a := by
    intro a ha
    rw [hstore a, if_neg ha, hgrown]
  refine ⟨fun _ => ⟨?_, ?_, hother⟩, fun h => absurd rfl h⟩
  · intro o ho
    obtain ⟨hpage, hoff⟩ := pageNumber_add_offset hv.1.1 ho
    rw [hstore, if_pos hpage, haddr, hoff]
  · intro a ha hne
    exact hother a (fun hpage => hne (pageNumber_of_canonical ha hv.1.2 hpage))

/-- A memory of 16 frames, all zero, of which 0 and 1 are used, with an empty PML4 in frame 1. -/
def emptyVmm : Vmm where
  pmm := { bitmap := fun _ => 3#64, totalFrames := 16, freeFrames := 14#64, initialized := true, total_le := by decide }
  mem := fun _ _ => 0#64
  kernelPml4 := 1
  initialized := true

theorem MapAux.emptyVmm_tree (r : Nat) (h : some 1 = some r) : PageTree emptyVmm r := by
  cases h
  have hempty : ∀ i, hasFlag (emptyVmm.mem 1 i) ptePresent = false := fun _ => hasFlag_zero _
  have hreach : ∀ r ∈ [1], ∀ p f, TablePath 512 p → tableAt emptyVmm.mem r p = some f → p = [] ∧ f = 1 := by
    intro r hr p f hp hf
    rw [mem_singleton] at hr
    exact tableAt_of_empty (fun i _ => hempty i) hp (hr ▸ hf)
  refine ⟨tables_of_distinct ?_, ?_, ?_⟩
  · intro r hr r' hr' p p' f hp hp' hf hf'
    exact ⟨(mem_singleton.mp hr).trans (mem_singleton.mp hr').symm,
      (hreach r hr p f hp hf).1.trans (hreach r' hr' p' f hp' hf').1.symm⟩
  · intro r hr p f hp hf
    rw [(hreach r hr p f hp hf).2]
    exact fun hfree => nomatch hfree.2.2
  · intro i hi
    rw [hempty i] at hi
    cases hi

/-- A page is mapped in an empty address space. -/
theorem vmmMapPage_exact_empty :
    ((vmmMapPage ⟨some 1, false⟩ 0x1000#64 0x5000#64 pteWritable).run emptyVmm).1 = .ok ∧
    vmmTranslate ((vmmMapPage ⟨some 1, false⟩ 0x1000#64 0x5000#64 pteWritable).run emptyVmm).2 ⟨some 1, false⟩
      (0x1000#64 + BitVec.ofNat 64 5) = 0x5000#64 + BitVec.ofNat 64 5 := by
  have hok : ((vmmMapPage ⟨some 1, false⟩ 0x1000#64 0x5000#64 pteWritable).run emptyVmm).1 = .ok := by decide +kernel
  refine ⟨hok, ?_⟩
  exact ((vmmMapPage_exact emptyVmm ⟨some 1, false⟩ 0x1000#64 0x5000#64 pteWritable MapAux.emptyVmm_tree (by decide)
    (by decide)).1 hok).1 5 (by decide)

/-- An address outside the mapped page that differs from it only in the bits 48 to 63 is translated through the new mapping. -/
theorem vmmMapPage_changes_alias :
    (∀ r, (⟨some 1, false⟩ : AddressSpace).pml4 = some r → PageTree emptyVmm r) ∧
    (0x1000000001000#64).toNat / 4096 ≠ (0x1000#64).toNat / 4096 ∧
    ((vmmMapPage ⟨some 1, false⟩ 0x1000#64 0x5000#64 pteWritable).run emptyVmm).1 = .ok ∧
    vmmTranslate emptyVmm ⟨some 1, false⟩ 0x1000000001000#64 = 0#64 ∧
    vmmTranslate ((vmmMapPage ⟨some 1, false⟩ 0x1000#64 0x5000#64 pteWritable).run emptyVmm).2 ⟨some 1, false⟩
      0x1000000001000#64 = 0x5000#64 :=
  ⟨MapAux.emptyVmm_tree, by decide, by decide +kernel, by decide +kernel, by decide +kernel⟩

end TsOs
