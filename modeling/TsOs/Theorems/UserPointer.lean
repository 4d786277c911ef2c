import TsOs.Theorems.UserPath

/-!
# Which buffers the system calls accept

`validate_user_pointer` walks the tables on its own, one page at a time. It accepts a range exactly when `vmm_translate` takes every
byte of it through a present leaf with the USER bit.
-/

namespace TsOs

open VaAux UserPathAux Option Bool Nat

/-- The walk of `vmm_translate`: the leaf it ends at, and the address it makes of it. -/
def translateLeaf (m : Vmm) (as : AddressSpace) (vaddr : BitVec 64) : Option (BitVec 64 × BitVec 64) :=
  match as.pml4 with
  | none => none
  | some pml4 =>
    let pml4e := m.mem pml4 (pml4Index vaddr)
    if !hasFlag pml4e ptePresent then none
    else
      let pdpe := m.mem (frameOf (pteAddr pml4e)) (pdptIndex vaddr)
      if !hasFlag pdpe ptePresent then none
      else if hasFlag pdpe ptePs then some (pdpe, (pdpe &&& 0x000FFFFFC0000000#64) + (vaddr &&& 0x3FFFFFFF#64))
      else
        let pde := m.mem (frameOf (pteAddr pdpe)) (pdIndex vaddr)
        if !hasFlag pde ptePresent then none
        else if hasFlag pde ptePs then some (pde, (pde &&& 0x000FFFFFFFE00000#64) + (vaddr &&& 0x1FFFFF#64))
        else
          let pte := m.mem (frameOf (pteAddr pde)) (ptIndex vaddr)
          if !hasFlag pte ptePresent then none else some (pte, pteAddr pte + (vaddr &&& 0xFFF#64))

/-- The byte is translated through a present leaf that user code can access. -/
def UserTranslated (m : Vmm) (as : AddressSpace) (vaddr : BitVec 64) : Prop :=
  ∃ leaf paddr, translateLeaf m as vaddr = some (leaf, paddr) ∧ hasFlag leaf ptePresent = true ∧ hasFlag leaf pteUser = true

namespace UserPointerAux

variable {m : Vmm} {as : AddressSpace} {pml4 : Nat} {vaddr : BitVec 64}

theorem vmmTranslate_eq (m : Vmm) (as : AddressSpace) (vaddr : BitVec 64) : vmmTranslate m as vaddr =
    if m.initialized then ((translateLeaf m as vaddr).map Prod.snd).getD 0#64 else 0#64 := by
  unfold vmmTranslate translateLeaf
  cases m.initialized with
  | false => rfl
  | true =>
    cases as.pml4 with
    | none => rfl
    | some pml4 =>
      dsimp only
      rw [if_neg (by simp), if_pos rfl]
      (repeat' split) <;> rfl

/-- The leaf that `get_pte_flags` finds, when it is present, is the one of the walk of `vmm_translate`. -/
theorem translateLeaf_fst (hr : as.pml4 = some pml4) : (translateLeaf m as vaddr).map Prod.fst =
    if hasFlag (getPteFlags m pml4 vaddr) ptePresent then some (getPteFlags m pml4 vaddr) else none := by
  unfold translateLeaf getPteFlags
  rw [hr]
  dsimp only
  (repeat' split) <;> simp_all [PteAux.hasFlag_zero]

theorem userTranslated_iff (hr : as.pml4 = some pml4) : UserTranslated m as vaddr ↔
    hasFlag (getPteFlags m pml4 vaddr) ptePresent = true ∧ hasFlag (getPteFlags m pml4 vaddr) pteUser = true := by
  have hfst : (translateLeaf m as vaddr).map _ = _ := translateLeaf_fst hr
  constructor
  · rintro ⟨leaf, paddr, hleaf, hpresent, huser⟩
    rw [hleaf] at hfst
    split at hfst
    · rw [← some.inj hfst]
      exact ⟨hpresent, huser⟩
    · cases hfst
  · rintro ⟨hpresent, huser⟩
    rw [if_pos hpresent, map_eq_some_iff] at hfst
    obtain ⟨⟨leaf, paddr⟩, hleaf, rfl⟩ := hfst
    exact ⟨_, paddr, hleaf, hpresent, huser⟩

/-- The bytes of one page have one leaf. -/
theorem userTranslated_page (hr : as.pml4 = some pml4) {a b : BitVec 64} (h : a.toNat / 4096 = b.toNat / 4096) :
    UserTranslated m as a ↔ UserTranslated m as b := by
  have hpage : pageOf a = pageOf b := BitVec.eq_of_toNat_eq (by rw [pageOf, pageOf, page_toNat, page_toNat, h])
  rw [userTranslated_iff hr, userTranslated_iff hr, ← getPteFlags_pageOf, hpage, getPteFlags_pageOf]

/-- The loop tests every page from `addr` up to `stop`. -/
theorem userPagesReadable_iff {stop : BitVec 64} (hr : as.pml4 = some pml4) (hstop : stop.toNat < 2 ^ 47) (n : Nat)
    (haddr : vaddr.toNat % 4096 = 0) (hn : stop.toNat ≤ vaddr.toNat + 4096 * n) :
    userPagesReadable m pml4 stop n vaddr = true ↔
      ∀ a : BitVec 64, vaddr.toNat ≤ a.toNat → a.toNat < stop.toNat → UserTranslated m as a := by
  induction n generalizing vaddr with
  | zero => exact iff_of_true rfl fun a ha hlt => by omega
  | succ n ih =>
    rw [userPagesReadable]
    by_cases hlt : vaddr.toNat < stop.toNat
    · have hnext : (vaddr + 4096#64).toNat = vaddr.toNat + 4096 := by
        rw [BitVec.toNat_add, BitVec.toNat_ofNat]
        omega
      rw [if_pos (by rw [BitVec.ult, decide_eq_true_eq]; exact hlt)]
      dsimp only
      by_cases hu : UserTranslated m as vaddr
      · have hleaf := (userTranslated_iff hr).mp hu
        rw [hleaf.1, hleaf.2, if_neg (by simp), ih (by omega) (by omega)]
        refine forall_congr' fun a => ⟨fun h hle ha => ?_, fun h hle ha => h (by omega) ha⟩
        by_cases hsame : a.toNat < vaddr.toNat + 4096
        · exact (userTranslated_page hr (by omega)).mpr hu
        · exact h (by omega) ha
      · rw [if_pos (by rw [userTranslated_iff hr] at hu; simpa [← not_eq_true, ← not_and_or] using hu)]
        exact iff_of_false false_ne_true fun h => hu (h vaddr (le_refl _) hlt)
    · rw [if_neg (by rw [BitVec.ult, decide_eq_true_eq]; exact hlt)]
      exact iff_of_true rfl fun a ha hlt' => by omega

theorem validate_iff (m : Vmm) (as : AddressSpace) (ptr size : BitVec 64) :
    validateUserPointer m as ptr size = true ↔
      0 < size.toNat ∧ 0x1000 ≤ ptr.toNat ∧ ptr.toNat + size.toNat < 2 ^ 64 ∧ ptr.toNat + size.toNat ≤ 0x7FFFFFFFFFFF ∧
        ∀ a : BitVec 64, ptr.toNat ≤ a.toNat → a.toNat < ptr.toNat + size.toNat → UserTranslated m as a := by
  unfold validateUserPointer
  cases hr : as.pml4 with
  | none =>
    refine iff_of_false false_ne_true fun h => ?_
    obtain ⟨leaf, paddr, hleaf, -⟩ := h.2.2.2.2 ptr (le_refl _) (by omega)
    rw [translateLeaf, hr] at hleaf
    cases hleaf
  | some pml4 =>
    have hzero : size = 0#64 ↔ size.toNat = 0 := BitVec.toNat_inj.symm
    simp only [BitVec.ult, decide_eq_true_eq, BitVec.toNat_add, BitVec.toNat_ofNat, hzero]
    by_cases hrange : 0 < size.toNat ∧ 0x1000 ≤ ptr.toNat ∧ ptr.toNat + size.toNat < 2 ^ 64 ∧
        ptr.toNat + size.toNat ≤ 0x7FFFFFFFFFFF
    · have hsum : (ptr + size).toNat = ptr.toNat + size.toNat := by
        rw [BitVec.toNat_add]
        omega
      rw [if_neg (by omega), if_neg (by omega), if_neg (by omega), if_neg (by omega),
        userPagesReadable_iff hr (by omega) _ (by rw [page_toNat]; omega) (by rw [page_toNat]; omega), page_toNat, hsum]
      refine ⟨fun h => ⟨hrange.1, hrange.2.1, hrange.2.2.1, hrange.2.2.2, fun a hle ha => h a (by omega) ha⟩, fun h a hle ha => ?_⟩
      by_cases hlt : a.toNat < ptr.toNat
      · exact (userTranslated_page hr (by omega)).mpr (h.2.2.2.2 ptr (le_refl _) (by omega))
      · exact h.2.2.2.2 a (by omega) ha
    · refine iff_of_false ?_ fun h => hrange ⟨h.1, h.2.1, h.2.2.1, h.2.2.2.1⟩
      (repeat' split) <;> first | exact false_ne_true | omega

end UserPointerAux

open UserPointerAux

/-- `validate_user_pointer` accepts a range exactly when it is not empty, lies between the first page and the end of the user half, and
`vmm_translate` takes each of its bytes through a present leaf with the USER bit. -/
theorem validateUserPointer_iff (m : Vmm) (as : AddressSpace) (ptr size : BitVec 64) :
    (∀ va, vmmTranslate m as va = if m.initialized then ((translateLeaf m as va).map Prod.snd).getD 0#64 else 0#64) ∧
    (validateUserPointer m as ptr size = true ↔
      0 < size.toNat ∧ 0x1000 ≤ ptr.toNat ∧ ptr.toNat + size.toNat < 2 ^ 64 ∧ ptr.toNat + size.toNat ≤ 0x7FFFFFFFFFFF ∧
        ∀ a : BitVec 64, ptr.toNat ≤ a.toNat → a.toNat < ptr.toNat + size.toNat → UserTranslated m as a) :=
  ⟨vmmTranslate_eq m as, validate_iff m as ptr size⟩

end TsOs
