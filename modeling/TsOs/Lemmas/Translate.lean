import TsOs.Lemmas.PageWalk
import TsOs.Vmm

/-!
# Translation through the tables

`xlate` is `vmm_translate` over the entries of a tree; what a walk adds, and a store to one leaf, do to it.
-/

namespace TsOs

open Bits Radix StateProg PteAux TableAux VmmRun WalkAux List Nat

/-! ## The fields of an address -/

namespace VaAux

theorem index_val (va : BitVec 64) (k : Nat) : (Fin.ofNat 512 ((va >>> k) &&& 0x1FF#64).toNat).val = va.toNat / 2 ^ k % 512 := by
  have hmask : (0x1FF#64).toNat = 2 ^ 9 - 1 := by decide
  rw [BitVec.toNat_and, BitVec.toNat_ushiftRight, hmask, and_two_pow_sub_one_eq_mod, shiftRight_eq_div_pow]
  exact mod_mod _ 512

theorem pml4Index_val (va : BitVec 64) : (pml4Index va).val = va.toNat / 2 ^ 39 % 512 := index_val va 39
theorem pdptIndex_val (va : BitVec 64) : (pdptIndex va).val = va.toNat / 2 ^ 30 % 512 := index_val va 30
theorem pdIndex_val (va : BitVec 64) : (pdIndex va).val = va.toNat / 2 ^ 21 % 512 := index_val va 21
theorem ptIndex_val (va : BitVec 64) : (ptIndex va).val = va.toNat / 2 ^ 12 % 512 := index_val va 12

theorem offset_toNat (va : BitVec 64) : (va &&& 0xFFF#64).toNat = va.toNat % 4096 := by
  have hmask : (0xFFF#64).toNat = 2 ^ 12 - 1 := by decide
  rw [BitVec.toNat_and, hmask, and_two_pow_sub_one_eq_mod]

theorem isPageAligned_iff (va : BitVec 64) : isPageAligned va = true ↔ va.toNat % 4096 = 0 := by
  rw [isPageAligned, beq_iff_eq, ← BitVec.toNat_inj, offset_toNat]
  rfl

/-- The first address of a page. -/
theorem page_toNat (a : BitVec 64) : (a &&& ~~~0xFFF#64).toNat = a.toNat / 4096 * 4096 := by
  have h : a &&& ~~~0xFFF#64 = a >>> 12 <<< 12 := by
    apply BitVec.eq_of_getLsbD_eq
    intro i hi
    have hmask : (~~~0xFFF#64).getLsbD i = decide (12 ≤ i) := by
      have : ∀ k : Fin 64, (~~~0xFFF#64).getLsbD k = decide (12 ≤ k.val) := by decide
      exact this ⟨i, hi⟩
    rw [BitVec.getLsbD_and, hmask]
    by_cases h12 : 12 ≤ i
    · simp [hi, h12, Nat.add_sub_cancel' h12]
    · simp [h12]
  rw [h, BitVec.toNat_shiftLeft, BitVec.toNat_ushiftRight, shiftLeft_eq]
  omega

end VaAux

open VaAux

/-- The number of the page of an address, of which the processor and `vmm_translate` read 36 bits. -/
def pageNumber (va : BitVec 64) : Nat := va.toNat / 4096 % 2 ^ 36

variable {va : BitVec 64}

namespace VaAux

/-- The indices of an address determine its page, and are determined by it. -/
theorem pageNumber_eq_iff (a b : BitVec 64) :
    pageNumber a = pageNumber b ↔ vaPath a = vaPath b ∧ ptIndex a = ptIndex b := by
  simp only [pageNumber, vaPath, cons.injEq, and_true, Fin.ext_iff, pml4Index_val, pdptIndex_val, pdIndex_val, ptIndex_val]
  omega

theorem pageNumber_add_offset (ha : va.toNat % 4096 = 0) {o : Nat} (ho : o < 4096) :
    pageNumber (va + BitVec.ofNat 64 o) = pageNumber va ∧ (va + BitVec.ofNat 64 o) &&& 0xFFF#64 = BitVec.ofNat 64 o := by
  have hsum : (va + BitVec.ofNat 64 o).toNat = va.toNat + o := by
    rw [BitVec.toNat_add, BitVec.toNat_ofNat]
    omega
  refine ⟨?_, ?_⟩
  · rw [pageNumber, pageNumber]
    omega
  · rw [← BitVec.toNat_inj, offset_toNat, BitVec.toNat_ofNat]
    omega

theorem vaIsCanonical_iff (va : BitVec 64) :
    vaIsCanonical va = true ↔ va.toNat < 2 ^ 47 ∨ 2 ^ 64 - 2 ^ 47 ≤ va.toNat := by
  have hlo : (0x0000800000000000#64).toNat = 2 ^ 47 := by decide
  have hhi : (0xFFFF800000000000#64).toNat = 2 ^ 64 - 2 ^ 47 := by decide
  rw [vaIsCanonical, Bool.or_eq_true, Bool.not_eq_true', BitVec.ult, BitVec.ult, decide_eq_true_eq, decide_eq_false_iff_not, hlo,
    hhi, not_lt]

/-- Among canonical addresses the 36 bits are the page. -/
theorem pageNumber_of_canonical {a b : BitVec 64} (ha : vaIsCanonical a = true) (hb : vaIsCanonical b = true)
    (h : pageNumber a = pageNumber b) : a.toNat / 4096 = b.toNat / 4096 := by
  rw [vaIsCanonical_iff] at ha hb
  rw [pageNumber, pageNumber] at h
  omega

end VaAux

/-! ## Translation over the entries of a tree -/

/-- The steps of `vmm_translate` from the PDPT on. -/
def xlate (entry : List (Fin 512) → Fin 512 → BitVec 64) (va : BitVec 64) : BitVec 64 :=
  let pdpe := entry [pml4Index va] (pdptIndex va)
  let pde := entry [pml4Index va, pdptIndex va] (pdIndex va)
  let pte := entry (vaPath va) (ptIndex va)
  if !hasFlag pdpe ptePresent then 0#64
  else if hasFlag pdpe ptePs then (pdpe &&& 0x000FFFFFC0000000#64) + (va &&& 0x3FFFFFFF#64)
  else if !hasFlag pde ptePresent then 0#64
  else if hasFlag pde ptePs then (pde &&& 0x000FFFFFFFE00000#64) + (va &&& 0x1FFFFF#64)
  else if !hasFlag pte ptePresent then 0#64
  else pteAddr pte + (va &&& 0xFFF#64)

namespace XlateAux

variable {mem mem' : Nat → Fin 512 → BitVec 64} {r : Nat} {i : Fin 512}

/-- Below an entry that leads to no table all entries read as 0. -/
theorem entryAt_below {p : List (Fin 512)} (h : childOf (entryAt mem r p i) = none) (q : List (Fin 512))
    (j : Fin 512) : entryAt mem r (p ++ [i] ++ q) j = 0#64 := by
  rw [← tableAt_snoc] at h
  exact entryAt_none (walk_append_none h q) j

/-- The entries on the way to a table are present and no huge pages. -/
theorem upper_of_table {p q : List (Fin 512)} {f : Nat} (h : tableAt mem r (p ++ [i] ++ q) = some f) :
    hasFlag (entryAt mem r p i) ptePresent = true ∧ hasFlag (entryAt mem r p i) ptePs = false := by
  cases hc : childOf (entryAt mem r p i) with
  | none =>
    rw [← tableAt_snoc] at hc
    rw [tableAt, walk_append_none hc q] at h
    cases h
  | some c => exact ⟨(childOf_some hc).1, (childOf_some hc).2.1⟩

theorem entryAt_next {p : List (Fin 512)} (hp : hasFlag (entryAt mem r p i) ptePresent = true)
    (hs : hasFlag (entryAt mem r p i) ptePs = false) (j : Fin 512) :
    mem (frameOf (pteAddr (entryAt mem r p i))) j = entryAt mem r (p ++ [i]) j := by
  have h : tableAt mem r (p ++ [i]) = childOf (entryAt mem r p i) := tableAt_snoc r p i
  rw [childOf_present hp hs] at h
  exact (entryAt_eq h j).symm

/-- With a PT for the address, the translation is that of the leaf. -/
theorem xlate_leaf {f : Nat} (h : tableAt mem r (vaPath va) = some f) (hp : hasFlag (mem f (ptIndex va)) ptePresent = true) :
    xlate (entryAt mem r) va = pteAddr (mem f (ptIndex va)) + (va &&& 0xFFF#64) := by
  have hpdpe := upper_of_table (p := [pml4Index va]) (i := pdptIndex va) (q := [pdIndex va]) h
  have hpde := upper_of_table (p := [pml4Index va, pdptIndex va]) (i := pdIndex va) (q := []) h
  simp only [xlate, hpdpe.1, hpdpe.2, hpde.1, hpde.2, entryAt_eq h, hp, Bool.not_true, Bool.false_eq_true, if_false]

/-- Without huge pages on the way the translation is that of the leaf. -/
theorem xlate_of_small (hpdpe : hasFlag (entryAt mem r [pml4Index va] (pdptIndex va)) ptePresent = true →
      hasFlag (entryAt mem r [pml4Index va] (pdptIndex va)) ptePs = false)
    (hpde : hasFlag (entryAt mem r [pml4Index va, pdptIndex va] (pdIndex va)) ptePresent = true →
      hasFlag (entryAt mem r [pml4Index va, pdptIndex va] (pdIndex va)) ptePs = false) :
    xlate (entryAt mem r) va = if hasFlag (entryAt mem r (vaPath va) (ptIndex va)) ptePresent
      then pteAddr (entryAt mem r (vaPath va) (ptIndex va)) + (va &&& 0xFFF#64) else 0#64 := by
  unfold xlate
  dsimp only
  -- below an entry that is not present there is no leaf
  cases h2 : hasFlag (entryAt mem r [pml4Index va] (pdptIndex va)) ptePresent with
  | false =>
    have hzero : entryAt mem r (vaPath va) (ptIndex va) = 0#64 :=
      entryAt_below (p := [pml4Index va]) (childOf_absent h2) [pdIndex va] _
    simp [hzero, hasFlag_zero]
  | true =>
    cases h3 : hasFlag (entryAt mem r [pml4Index va, pdptIndex va] (pdIndex va)) ptePresent with
    | false =>
      have hzero : entryAt mem r (vaPath va) (ptIndex va) = 0#64 :=
        entryAt_below (p := [pml4Index va, pdptIndex va]) (childOf_absent h3) [] _
      simp [hpdpe h2, hzero, hasFlag_zero]
    | true =>
      cases h4 : hasFlag (entryAt mem r (vaPath va) (ptIndex va)) ptePresent with
      | false => simp [hpdpe h2, hpde h3]
      | true => simp [hpdpe h2, hpde h3]

/-- `vmm_translate` is `xlate` where the PML4 has no huge pages. -/
theorem vmmTranslate_eq {m : Vmm} {as : AddressSpace} (hi : m.initialized = true) (hr : as.pml4 = some r)
    (hps : hasFlag (m.mem r (pml4Index va)) ptePresent = true → hasFlag (m.mem r (pml4Index va)) ptePs = false) :
    vmmTranslate m as va = xlate (entryAt m.mem r) va := by
  have h0 : entryAt m.mem r [] (pml4Index va) = m.mem r (pml4Index va) := entryAt_eq (tableAt_nil r) _
  simp only [vmmTranslate, hi, hr, Bool.not_true, Bool.false_eq_true, if_false]
  cases hp0 : hasFlag (m.mem r (pml4Index va)) ptePresent with
  | false =>
    have hnone : childOf (entryAt m.mem r [] (pml4Index va)) = none := by rw [h0, childOf_absent hp0]
    have hzero : entryAt m.mem r [pml4Index va] (pdptIndex va) = 0#64 := entryAt_below hnone [] _
    simp only [xlate, hzero, hasFlag_zero, Bool.not_false, if_true]
  | true =>
    rw [← h0] at hp0 hps
    rw [if_neg (by simp), ← h0, entryAt_next hp0 (hps hp0)]
    simp only [xlate, nil_append]
    split
    · rfl
    · next hp1 =>
      split
      · rfl
      · next hs1 =>
        rw [Bool.not_eq_true, Bool.not_eq_false'] at hp1
        rw [Bool.not_eq_true] at hs1
        simp only [entryAt_next hp1 hs1, cons_append, nil_append]
        split
        · rfl
        · next hp2 =>
          split
          · rfl
          · next hs2 =>
            rw [Bool.not_eq_true, Bool.not_eq_false'] at hp2
            rw [Bool.not_eq_true] at hs2
            simp only [entryAt_next hp2 hs2, cons_append, nil_append, vaPath]
            rfl

/-- Growth changes no translation: an empty table translates like an absent one. -/
theorem xlate_grown {B : Nat} {live : List Nat} {m m' : Vmm} (hg : Grown B live r m m')
    (hB : (pml4Index va).val < B) : xlate (entryAt m'.mem r) va = xlate (entryAt m.mem r) va := by
  have hpath := TablePath.vaPath hB
  have hleaf := hg.leaf (vaPath va) (ptIndex va) hpath rfl
  have hpde := hg.upper [pml4Index va, pdptIndex va] (pdIndex va) hpath
  rcases hg.upper [pml4Index va] (pdptIndex va) (hpath.of_append (q := [pdIndex va])) with heq | ⟨habs, hpres, hps⟩
  · rcases hpde with heq' | ⟨habs', hpres', hps'⟩
    · simp only [xlate, hleaf, heq, heq']
    · have hzero : entryAt m.mem r (vaPath va) (ptIndex va) = 0#64 := entryAt_below (childOf_absent habs') [] _
      simp only [xlate, hleaf, heq, hzero, habs', hpres', hps', hasFlag_zero, Bool.not_true, Bool.not_false, Bool.false_eq_true,
        if_false, if_true]
  · have hzero : entryAt m.mem r (vaPath va) (ptIndex va) = 0#64 :=
      entryAt_below (childOf_absent habs) [pdIndex va] _
    have hzero' : entryAt m.mem r [pml4Index va, pdptIndex va] (pdIndex va) = 0#64 :=
      entryAt_below (childOf_absent habs) [] _
    rcases hpde with heq' | ⟨-, hpres', hps'⟩
    · simp only [xlate, hleaf, heq', hzero', habs, hpres, hps, hasFlag_zero, Bool.not_true, Bool.not_false, Bool.false_eq_true,
        if_false, if_true]
    · simp only [xlate, hleaf, hzero, habs, hpres, hps, hpres', hps', hasFlag_zero, Bool.not_true, Bool.not_false,
        Bool.false_eq_true, if_false, if_true]

/-- A store to the leaf of `v` changes the translation of no other page. -/
theorem xlate_set {B : Nat} {v : BitVec 64} (hB : (pml4Index va).val < B)
    (hset : ∀ p i, TablePath B p → ¬ (p = vaPath v ∧ i = ptIndex v) → entryAt mem' r p i = entryAt mem r p i)
    (hne : pageNumber va ≠ pageNumber v) : xlate (entryAt mem' r) va = xlate (entryAt mem r) va := by
  have hpath := TablePath.vaPath hB
  rw [ne_eq, pageNumber_eq_iff] at hne
  have hleaf := hset (vaPath va) (ptIndex va) hpath hne
  have hpde := hset [pml4Index va, pdptIndex va] (pdIndex va) (hpath.of_append (q := [pdIndex va])) (by simp [vaPath])
  have hpdpe := hset [pml4Index va] (pdptIndex va) (hpath.of_append (q := [pdptIndex va, pdIndex va])) (by simp [vaPath])
  simp only [xlate, hleaf, hpde, hpdpe]

end XlateAux

end TsOs
