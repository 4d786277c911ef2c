import TsOs.UserMemory
import TsOs.Lemmas.LeafEffects

/-!
# Ranges of pages

What the loops of the memory calls do to the leaves of an address space, by page number: installing a range of demand pages changes
no leaf that is in use, and unmapping a range changes no leaf in use outside the range, as long as no page table is removed that holds
demand pages outside the range.
-/

namespace TsOs

open StateProg PteAux TableAux VaAux VmmRun WalkAux List BitVec Nat

/-- The number of pages of the user half. -/
def userPages : Nat := 2 ^ 35

/-- The address of page `n`. -/
def pageAddr (n : Nat) : BitVec 64 := BitVec.ofNat 64 (n * 4096)

/-- The leaf of page `n`. -/
def pageLeaf (m : Vmm) (r n : Nat) : BitVec 64 := leafAt m.mem r (pageAddr n)

/-- Page `n` is mapped or demand-mapped. -/
def InUse (m : Vmm) (r n : Nat) : Prop := hasFlag (pageLeaf m r n) (ptePresent ||| pteDemand) = true

namespace RangeAux

variable {p0 : Pmm} {m m' m'' : Vmm} {r n k : Nat}

theorem pageAddr_toNat (hn : n ≤ userPages) : (pageAddr n).toNat = n * 4096 := by
  unfold userPages at hn
  rw [pageAddr, toNat_ofNat]
  omega

/-- The address of a page as an address of the user half. -/
def pageVa (n : Nat) (hn : n < userPages) : UserVa where
  addr := pageAddr n
  user := by
    rw [pageAddr_toNat hn.le]
    unfold userPages at hn
    omega

theorem pageVa_addr (hn : n < userPages) : (pageVa n hn).addr = pageAddr n := rfl

theorem pageNo_lt (v : UserVa) : pageNo v.addr < userPages := by
  have := v.user
  unfold pageNo userPages
  omega

/-- Addresses of one page have one leaf. -/
theorem samePage_iff (v w : UserVa) :
    (vaPath w.addr = vaPath v.addr ∧ ptIndex w.addr = ptIndex v.addr) ↔ pageNo w.addr = pageNo v.addr := by
  have hv := v.user
  have hw := w.user
  rw [← pageNumber_eq_iff, pageNumber, pageNumber, pageNo, pageNo]
  omega

/-- The 512 pages of a PT. -/
theorem samePt_iff (v w : UserVa) : vaPath w.addr = vaPath v.addr ↔ pageNo w.addr / 512 = pageNo v.addr / 512 := by
  have hv := v.user
  have hw := w.user
  simp only [vaPath, cons.injEq, and_true, Fin.ext_iff, pml4Index_val, pdptIndex_val, pdIndex_val, pageNo]
  omega

theorem pageNo_pageAddr (hn : n ≤ userPages) : pageNo (pageAddr n) = n := by
  rw [pageNo, pageAddr_toNat hn]
  omega

theorem pageNo_pageVa (hn : n < userPages) : pageNo (pageVa n hn).addr = n := pageNo_pageAddr hn.le

theorem leafAt_eq (m : Vmm) (r : Nat) (v : UserVa) : leafAt m.mem r v.addr = pageLeaf m r (pageNo v.addr) := by
  obtain ⟨hpath, hpt⟩ := (samePage_iff v (pageVa _ (pageNo_lt v))).mpr (pageNo_pageVa _)
  unfold pageLeaf leafAt
  rw [show pageAddr (pageNo v.addr) = (pageVa _ (pageNo_lt v)).addr from rfl, hpath, hpt]

theorem pageLeaf_of_same (h : SameLeaves [r] m m') (hn : n < userPages) : pageLeaf m' r n = pageLeaf m r n :=
  h r (mem_singleton_self r) _ _ (pageVa n hn).leafPath

theorem pageLeaf_of_only {v : UserVa} (h : OnlyLeaf [r] r (vaPath v.addr) (ptIndex v.addr) m m') (hn : n < userPages)
    (hne : n ≠ pageNo v.addr) : pageLeaf m' r n = pageLeaf m r n := by
  refine h r (mem_singleton_self r) _ _ (pageVa n hn).leafPath ?_
  intro hc
  have := (samePage_iff v (pageVa n hn)).mp hc.2
  rw [pageNo_pageVa] at this
  exact hne this

theorem inUse_iff : InUse m r n ↔ hasFlag (pageLeaf m r n) ptePresent = true ∨ hasFlag (pageLeaf m r n) pteDemand = true := by
  rw [InUse, hasFlag_or, Bool.or_eq_true]

theorem lazyEntry_inUse (flags : BitVec 64) : hasFlag (lazyEntry flags) (ptePresent ||| pteDemand) = true := by
  have hbit : (~~~ptePresent).getLsbD 10 = true := by decide
  have hdemand : pteDemand.getLsbD 10 = true := by decide
  rw [hasFlag_or, hasFlag_demand, lazyEntry, getLsbD_and, getLsbD_or, hbit, hdemand, Bool.or_true, Bool.and_true,
    Bool.or_true]

/-! ## Addresses -/

theorem pageAddr_succ (n : Nat) : pageAddr n + 4096#64 = pageAddr (n + 1) := by
  rw [pageAddr, pageAddr, Nat.add_mul, ofNat_add]

theorem pageAddr_pred (n : Nat) : pageAddr (n + 1) - 4096#64 = pageAddr n := by
  rw [← pageAddr_succ, add_sub_cancel]

theorem pageAddr_ult (hn : n ≤ userPages) (hk : k ≤ userPages) : (pageAddr n).ult (pageAddr k) = decide (n < k) := by
  rw [BitVec.ult, pageAddr_toNat hn, pageAddr_toNat hk, decide_eq_decide]
  omega

theorem pageAddr_ule (hn : n ≤ userPages) (hk : k ≤ userPages) : (pageAddr n).ule (pageAddr k) = decide (n ≤ k) := by
  rw [BitVec.ule, pageAddr_toNat hn, pageAddr_toNat hk, decide_eq_decide]
  omega

theorem pageDown_eq {a : BitVec 64} (ha : a.toNat < 2 ^ 32) : pageDown a = pageAddr (pageNo a) := by
  rw [← toNat_inj, pageDown, pageMask_toNat, pageAddr, toNat_ofNat, pageNo]
  omega

theorem pageUp_eq {a : BitVec 64} (ha : a.toNat + 4095 < 2 ^ 32) : pageUp a = pageAddr (pageCeil a) := by
  have hsum : (a + 4095#64).toNat = a.toNat + 4095 := by
    rw [toNat_add, show (4095#64).toNat = 4095 from rfl]
    omega
  rw [← toNat_inj, pageUp, pageMask_toNat, pageAddr, toNat_ofNat, pageCeil]
  omega

/-- What the mask leaves is the address of a page below 4 GiB. -/
theorem masked_eq (a : BitVec 64) :
    a &&& pageMask = pageAddr (pageNo (a &&& pageMask)) ∧ pageNo (a &&& pageMask) < 2 ^ 20 ∧ pageNo (a &&& pageMask) ≤ pageNo a := by
  rw [← toNat_inj, pageAddr, pageNo, pageNo, toNat_ofNat, pageMask_toNat]
  omega

theorem pageNo_pageUp_le {a : BitVec 64} (ha : a.toNat < 2 ^ 47) : pageNo (pageUp a) ≤ pageCeil a := by
  rw [pageNo, pageUp, pageMask_toNat, toNat_add, pageCeil, show (4095#64).toNat = 4095 from rfl]
  omega

/-- The number of pages between two pages, as the loops count them. -/
theorem pageAddr_diff (hnk : n ≤ k) (hk : k ≤ userPages) : ((pageAddr k - pageAddr n) / 4096#64).toNat = k - n := by
  have hk' := hk
  rw [toNat_udiv, toNat_sub_of_le (by rw [le_def, pageAddr_toNat hk, pageAddr_toNat (hnk.trans hk)]; omega),
    pageAddr_toNat hk, pageAddr_toNat (hnk.trans hk), show (4096#64).toNat = 4096 from rfl]
  omega

end RangeAux

open RangeAux

variable {p0 : Pmm} {m m' m'' : Vmm} {r n k lo hi : Nat}

/-! ## Installing demand pages -/

/-- From `m` to `m'` pages `lo` to `hi` were installed where no page was in use; no other leaf has changed. -/
def InstalledIn (r lo hi : Nat) (flags : BitVec 64) (m m' : Vmm) : Prop :=
  ∀ j, j < userPages → pageLeaf m' r j = pageLeaf m r j ∨
    (lo ≤ j ∧ j < hi) ∧ ¬ InUse m r j ∧ pageLeaf m' r j = lazyEntry flags

variable {j : Nat}

theorem InstalledIn.inUse {flags : BitVec 64} (h : InstalledIn r lo hi flags m m') (hj : j < userPages)
    (hu : InUse m r j) : pageLeaf m' r j = pageLeaf m r j :=
  (h j hj).resolve_right fun hc => hc.2.1 hu

/-- A page that is in use stays in use. -/
theorem InstalledIn.mono {flags : BitVec 64} (h : InstalledIn r lo hi flags m m') (hj : j < userPages)
    (hu : InUse m r j) : InUse m' r j := by
  unfold InUse
  rw [h.inUse hj hu]
  exact hu

/-- A page that is in use was so before, or is one of the range. -/
theorem InstalledIn.new {flags : BitVec 64} (h : InstalledIn r lo hi flags m m') (hj : j < userPages)
    (hu : InUse m' r j) : InUse m r j ∨ lo ≤ j ∧ j < hi := by
  rcases h j hj with hsame | ⟨hin, -⟩
  · unfold InUse at hu ⊢
    rw [← hsame]
    exact .inl hu
  · exact .inr hin

/-- The loop that installs demand pages, on a range of the user half. -/
theorem mapDemandRange_effect (flags : MapFlags) (hfit : k ≠ 0 → n + k ≤ userPages) (h : Spaces p0 [r] m) :
    ∃ ok m', (mapDemandRange (.ofRoot r) flags.bits (pageAddr (n + k)) k (pageAddr n)).run m = (ok, m') ∧ Spaces p0 [r] m' ∧
      InstalledIn r n (n + k) flags.bits m m' ∧ (ok = true → ∀ j, n ≤ j → j < n + k → InUse m' r j) := by
  induction k generalizing n m with
  | zero => exact ⟨true, m, rfl, h, fun _ _ => .inl rfl, fun _ j hj hj' => absurd hj' (by omega)⟩
  | succ k ih =>
    have hk := hfit (by omega)
    have hn : n < userPages := by omega
    have hlt : (pageAddr n).ult (pageAddr (n + (k + 1))) = true := by
      rw [pageAddr_ult hn.le hk, decide_eq_true_eq]
      omega
    obtain ⟨st, m1, hrun, h1, hcases⟩ := vmmMapDemandPage_effect h (mem_singleton_self r) (pageVa n hn) flags
    rw [pageVa_addr] at hrun
    -- the first page is in use when the loop goes on
    have hfirst : InstalledIn r n (n + 1) flags.bits m m1 ∧ (st = .ok ∨ st = .alreadyMap → InUse m1 r n) := by
      rcases hcases with ⟨hst, hsame, halready⟩ | ⟨rfl, honly, hfree, hleaf⟩
      · refine ⟨fun j hj => .inl (pageLeaf_of_same hsame hj), fun hc => ?_⟩
        have hu := halready (hc.resolve_left hst)
        unfold InUse
        rw [pageLeaf_of_same hsame hn]
        exact hu
      · rw [leafAt_eq, pageNo_pageVa] at hfree hleaf
        refine ⟨fun j hj => ?_, fun _ => ?_⟩
        · by_cases hjn : j = n
          · rw [hjn]
            refine .inr ⟨by omega, ?_, hleaf⟩
            rw [InUse, hfree]
            exact nofun
          · exact .inl (pageLeaf_of_only honly hj (by rw [pageNo_pageVa]; exact hjn))
        · rw [InUse, hleaf]
          exact lazyEntry_inUse _
    rw [mapDemandRange, if_pos hlt, bind_run hrun]
    by_cases hst : st ≠ .ok ∧ st ≠ .alreadyMap
    · rw [if_pos hst]
      refine ⟨false, m1, rfl, h1, fun j hj => ?_, nofun⟩
      exact (hfirst.1 j hj).imp id fun hc => ⟨by omega, hc.2⟩
    · rw [if_neg hst, pageAddr_succ]
      have hgo : st = .ok ∨ st = .alreadyMap := by
        by_contra hc
        exact hst (not_or.mp hc)
      obtain ⟨ok, m', hrest, h', hin, hall⟩ := ih (n := n + 1) (fun _ => by omega) h1
      rw [show n + 1 + k = n + (k + 1) by omega] at hrest hin hall
      refine ⟨ok, m', hrest, h', fun j hj => ?_, fun hok j hj hj' => ?_⟩
      · rcases hin j hj with hsame | ⟨hj', hfree, hleaf⟩
        · rw [hsame]
          exact (hfirst.1 j hj).imp id fun hc => ⟨by omega, hc.2⟩
        · refine .inr ⟨by omega, fun hu => hfree ?_, hleaf⟩
          exact hfirst.1.mono hj hu
      · by_cases hjn : j = n
        · rw [hjn]
          exact hin.mono hn (hfirst.2 hgo)
        · exact hall hok j (by omega) hj'

/-! ## Unmapping -/

/-- From `m` to `m'` no page outside `lo` to `hi` that is in use has changed, and none is in use that was not. -/
def KeptOutside (r lo hi : Nat) (m m' : Vmm) : Prop :=
  ∀ j, j < userPages → ¬ (lo ≤ j ∧ j < hi) → pageLeaf m' r j = pageLeaf m r j ∨ ¬ InUse m r j ∧ ¬ InUse m' r j

/-- A PT with a page from `lo` to `hi` and a demand page outside has also a page outside that is present. -/
def Anchored (r lo hi : Nat) (m : Vmm) : Prop :=
  ∀ j, j < userPages → ¬ (lo ≤ j ∧ j < hi) → hasFlag (pageLeaf m r j) pteDemand = true →
    (∃ n, (lo ≤ n ∧ n < hi) ∧ j / 512 = n / 512) →
    ∃ u, u < userPages ∧ ¬ (lo ≤ u ∧ u < hi) ∧ u / 512 = j / 512 ∧ hasFlag (pageLeaf m r u) ptePresent = true

theorem KeptOutside.refl (r lo hi : Nat) (m : Vmm) : KeptOutside r lo hi m m := fun _ _ _ => .inl rfl

section

variable (h : KeptOutside r lo hi m m') (hj : j < userPages) (hout : ¬ (lo ≤ j ∧ j < hi)) (hu : InUse m r j)
include h hj hout hu

theorem KeptOutside.inUse : pageLeaf m' r j = pageLeaf m r j :=
  (h j hj hout).resolve_right fun hc => hc.1 hu

/-- A page outside that is in use stays in use. -/
theorem KeptOutside.mono : InUse m' r j := by
  unfold InUse
  rw [h.inUse hj hout hu]
  exact hu

end

theorem KeptOutside.trans (h : KeptOutside r lo hi m m') (h' : KeptOutside r lo hi m' m'') : KeptOutside r lo hi m m'' := by
  intro j hj hout
  rcases h j hj hout with hsame | ⟨hu, hu'⟩
  · rcases h' j hj hout with hsame' | ⟨hu', hu''⟩
    · exact .inl (hsame'.trans hsame)
    · refine .inr ⟨fun hu => hu' ?_, hu''⟩
      exact h.mono hj hout hu
  · refine .inr ⟨hu, fun hu'' => hu' ?_⟩
    rcases h' j hj hout with hsame' | ⟨-, hn⟩
    · unfold InUse at hu'' ⊢
      rw [← hsame']
      exact hu''
    · exact absurd hu'' hn

theorem Anchored.kept (h : Anchored r lo hi m) (hk : KeptOutside r lo hi m m') : Anchored r lo hi m' := by
  intro j hj hout hd hn
  have hd0 : hasFlag (pageLeaf m r j) pteDemand = true := by
    rcases hk j hj hout with hsame | ⟨-, hn'⟩
    · rw [← hsame]
      exact hd
    · exact absurd (inUse_iff.mpr (.inr hd)) hn'
  obtain ⟨u, hu, huout, hpt, hpres⟩ := h j hj hout hd0 hn
  refine ⟨u, hu, huout, hpt, ?_⟩
  rw [hk.inUse hu huout (inUse_iff.mpr (.inl hpres))]
  exact hpres

theorem page_ne (hj : j < userPages) (hn : n < userPages) (hjn : j ≠ n) :
    ¬ (r = r ∧ vaPath (pageVa j hj).addr = vaPath (pageVa n hn).addr ∧ ptIndex (pageVa j hj).addr = ptIndex (pageVa n hn).addr) := by
  intro hc
  have := (samePage_iff (pageVa n hn) (pageVa j hj)).mp hc.2
  rw [pageNo_pageVa, pageNo_pageVa] at this
  exact hjn this

/-- No page has come into use. -/
def Fewer (r : Nat) (m m' : Vmm) : Prop := ∀ j, j < userPages → InUse m' r j → InUse m r j

theorem Swept.fewer (hn : n < userPages) (hs : Swept [r] r (pageAddr n) m m') : Fewer r m m' := by
  intro j hj hu
  have hzero : pageLeaf m' r j ≠ 0#64 := by
    intro hz
    rw [InUse, hz] at hu
    cases hu
  by_cases hjn : j = n
  · rw [hjn] at hzero
    exact absurd hs.cleared hzero
  · rcases hs.other r (mem_singleton_self r) _ _ (pageVa j hj).leafPath (page_ne hj hn hjn) with hsame | ⟨-, hz, -⟩
    · unfold InUse at hu ⊢
      rw [← show pageLeaf m' r j = pageLeaf m r j from hsame]
      exact hu
    · exact absurd hz hzero

/-- A page of the range is unmapped. -/
theorem Swept.kept (h : Anchored r lo hi m) (hn : n < userPages) (hin : lo ≤ n ∧ n < hi) (hs : Swept [r] r (pageAddr n) m m') :
    KeptOutside r lo hi m m' := by
  intro j hj hout
  have hjn : j ≠ n := fun hc => hout (hc ▸ hin)
  rcases hs.other r (mem_singleton_self r) _ _ (pageVa j hj).leafPath (page_ne hj hn hjn) with hsame | ⟨⟨-, hpath⟩, hzero, hnone⟩
  · exact .inl hsame
  · -- the PT is gone: it had no page outside that is present, and so no demand page outside either
    have hpt := (samePt_iff (pageVa n hn) (pageVa j hj)).mp hpath
    rw [pageNo_pageVa, pageNo_pageVa] at hpt
    have habs : ∀ u, u < userPages → u ≠ n → u / 512 = n / 512 → hasFlag (pageLeaf m r u) ptePresent = false := by
      intro u hu hun hupt
      have hupath : vaPath (pageVa u hu).addr = vaPath (pageVa n hn).addr := by
        rw [samePt_iff, pageNo_pageVa, pageNo_pageVa]
        exact hupt
      have := hnone (ptIndex (pageVa u hu).addr) fun hc => hun (by
        have := (samePage_iff (pageVa n hn) (pageVa u hu)).mp ⟨hupath, hc⟩
        rwa [pageNo_pageVa, pageNo_pageVa] at this)
      rw [show vaPath (pageVa j hj).addr = vaPath (pageVa u hu).addr from hpath.trans hupath.symm] at this
      exact this
    refine .inr ⟨fun hu => ?_, fun hu => ?_⟩
    · rcases inUse_iff.mp hu with hp | hd
      · rw [habs j hj hjn hpt] at hp
        cases hp
      · obtain ⟨u, hu, huout, hupt, hp⟩ := h j hj hout hd ⟨n, hin, hpt⟩
        rw [habs u hu (fun hc => huout (hc ▸ hin)) (hupt.trans hpt)] at hp
        cases hp
    · rw [InUse, show pageLeaf m' r j = 0#64 from hzero] at hu
      cases hu

/-- Pages from `lo` to `hi` were unmapped: no page has come into use, and the others are kept where a PT is left for them. -/
structure Unmapped (r lo hi : Nat) (m m' : Vmm) : Prop where
  fewer : Fewer r m m'
  kept : Anchored r lo hi m → KeptOutside r lo hi m m'

theorem Unmapped.refl (r lo hi : Nat) (m : Vmm) : Unmapped r lo hi m m := ⟨fun _ _ hu => hu, fun _ => .refl r lo hi m⟩

theorem Unmapped.trans (h : Unmapped r lo hi m m') (h' : Unmapped r lo hi m' m'') : Unmapped r lo hi m m'' :=
  ⟨fun j hj hu => h.fewer j hj (h'.fewer j hj hu), fun ha => (h.kept ha).trans (h'.kept (ha.kept (h.kept ha)))⟩

/-- The loop of `sys_munmap`, on a range of the user half. -/
theorem unmapRange_effect (hfit : k ≠ 0 → n + k ≤ userPages) (h : Spaces p0 [r] m) (hlo : lo ≤ n) (hhi : n + k ≤ hi) :
    ∃ m', (unmapRange (.ofRoot r) (pageAddr (n + k)) k (pageAddr n)).run m = ((), m') ∧ Spaces p0 [r] m' ∧
      Unmapped r lo hi m m' := by
  induction k generalizing n m with
  | zero => exact ⟨m, rfl, h, .refl r lo hi m⟩
  | succ k ih =>
    have hk := hfit (by omega)
    have hn : n < userPages := by omega
    have hlt : (pageAddr n).ult (pageAddr (n + (k + 1))) = true := by
      rw [pageAddr_ult hn.le hk, decide_eq_true_eq]
      omega
    obtain ⟨st, m1, hrun, h1, hcases⟩ := vmmUnmapPage_effect h (mem_singleton_self r) (pageVa n hn)
    rw [pageVa_addr] at hrun
    have hkept : Unmapped r lo hi m m1 := by
      rcases hcases with ⟨-, rfl⟩ | ⟨-, hswept⟩
      · exact .refl r lo hi m1
      · exact ⟨hswept.fewer hn, fun ha => hswept.kept ha hn ⟨hlo, by omega⟩⟩
    obtain ⟨m', hrest, h', hkept'⟩ := ih (n := n + 1) (fun _ => by omega) h1 (by omega) (by omega)
    rw [show n + 1 + k = n + (k + 1) by omega] at hrest
    refine ⟨m', ?_, h', hkept.trans hkept'⟩
    rw [unmapRange, if_pos hlt, bind_run hrun, pageAddr_succ]
    exact hrest

/-- The loop of `sys_brk` that unmaps the pages above the new break. -/
theorem unmapFreeRange_effect {va : BitVec 64} (hk : n + k ≤ userPages) (hva : k ≠ 0 → va = pageAddr (n + k - 1))
    (h : Spaces p0 [r] m) (hlo : lo ≤ n) (hhi : n + k ≤ hi) :
    ∃ m', (unmapFreeRange (.ofRoot r) (pageAddr n) k va).run m = ((), m') ∧ Spaces p0 [r] m' ∧ Unmapped r lo hi m m' := by
  induction k generalizing va m with
  | zero => exact ⟨m, rfl, h, .refl r lo hi m⟩
  | succ k ih =>
    obtain rfl : va = pageAddr (n + k) := hva (by omega)
    have hn : n + k < userPages := by omega
    have hle : (pageAddr n).ule (pageAddr (n + k)) = true := by
      rw [pageAddr_ule (by omega) hn.le, decide_eq_true_eq]
      omega
    obtain ⟨st, m1, hrun, h1, hcases⟩ := vmmUnmapAndFree_effect h (mem_singleton_self r) (pageVa (n + k) hn)
      fun f _ r' hr' _ => mem_singleton.mp hr'
    rw [pageVa_addr] at hrun
    have hkept : Unmapped r lo hi m m1 := by
      rcases hcases with ⟨-, rfl⟩ | ⟨-, hswept⟩
      · exact .refl r lo hi m1
      · exact ⟨hswept.fewer hn, fun ha => hswept.kept ha hn ⟨by omega, by omega⟩⟩
    have hnext : k ≠ 0 → pageAddr (n + k) - 4096#64 = pageAddr (n + k - 1) := by
      intro hk0
      rw [show n + k = n + k - 1 + 1 by omega, pageAddr_pred]
      rfl
    obtain ⟨m', hrest, h', hkept'⟩ := ih (by omega) hnext h1 (by omega)
    refine ⟨m', ?_, h', hkept.trans hkept'⟩
    rw [unmapFreeRange, if_pos hle, bind_run hrun]
    exact hrest

/-! ## The calls -/

variable {s : UserMemory}

namespace RangeAux

theorem mmapBase_eq (t : UserRegions) (addr : BitVec 64) : mmapBase t addr = pageAddr (pageNo (mmapBase t addr)) := by
  unfold mmapBase
  split
  · exact (masked_eq addr).1
  · exact (masked_eq _).1

/-- A range of an accepted length ends in the user half, below the stack that the kernel sets up. -/
theorem mmapBase_lt (t : UserRegions) (addr : BitVec 64) : pageNo (mmapBase t addr) < 2 ^ 20 := by
  unfold mmapBase
  split
  · exact (masked_eq addr).2.1
  · exact (masked_eq _).2.1

theorem pageCount_le {length : BitVec 64} (h : length.toNat ≤ elfMaxLoadSize.toNat) : (pageCount length).toNat ≤ 2 ^ 16 := by
  have hmax : elfMaxLoadSize.toNat = 0x10000000 := rfl
  rw [pageCount, toNat_udiv, toNat_add, show (4095#64).toNat = 4095 from rfl, show (4096#64).toNat = 4096 from rfl]
  omega

theorem range_stop (n : Nat) (c : BitVec 64) : pageAddr n + c * 4096#64 = pageAddr (n + c.toNat) := by
  have hc : c * 4096#64 = BitVec.ofNat 64 (c.toNat * 4096) := rfl
  rw [pageAddr, pageAddr, Nat.add_mul, ofNat_add, hc]

/-- The flags of `sys_brk` and of `sys_mmap` are flags that callers may pass. -/
def heapMapFlags : MapFlags := ⟨heapFlags, by decide, by decide, by decide⟩

def mmapMapFlags (prot : BitVec 64) : MapFlags where
  bits := mmapFlags prot
  noAddr := by
    unfold mmapFlags
    split <;> split <;> split <;> decide
  noCow := by
    unfold mmapFlags
    split <;> split <;> split <;> decide
  noDemand := by
    unfold mmapFlags
    split <;> split <;> split <;> decide

end RangeAux

/-- `sys_mmap` on a range of the user half. -/
theorem sysMmap_effect (h : Spaces p0 [r] s.vmm) (addr length prot : BitVec 64) :
    ∃ m', Spaces p0 [r] m' ∧
      InstalledIn r (pageNo (mmapBase s.regions addr)) (pageNo (mmapBase s.regions addr) + (pageCount length).toNat) (mmapFlags prot)
        s.vmm m' ∧
      (sysMmap r addr length prot s = (none, { s with vmm := m' }) ∨
        (length ≠ 0#64 ∧ length.toNat ≤ elfMaxLoadSize.toNat) ∧
        sysMmap r addr length prot s = (some (mmapBase s.regions addr), { s with vmm := m' }) ∧
        ∀ j, pageNo (mmapBase s.regions addr) ≤ j → j < pageNo (mmapBase s.regions addr) + (pageCount length).toNat →
          InUse m' r j) := by
  unfold sysMmap
  by_cases hlen : length = 0#64 ∨ elfMaxLoadSize.ult length = true
  · rw [if_pos hlen]
    exact ⟨s.vmm, h, fun _ _ => .inl rfl, .inl rfl⟩
  · rw [if_neg hlen]
    obtain ⟨hne, hle⟩ := not_or.mp hlen
    rw [BitVec.ult, decide_eq_true_eq, not_lt] at hle
    have hbase := mmapBase_lt s.regions addr
    have hcount := pageCount_le hle
    obtain ⟨ok, m', hrun, h', hin, hall⟩ := mapDemandRange_effect (n := pageNo (mmapBase s.regions addr))
      (k := (pageCount length).toNat) (mmapMapFlags prot) (fun _ => by unfold userPages; omega) h
    rw [← range_stop, ← mmapBase_eq] at hrun
    dsimp only
    rw [show mmapFlags prot = (mmapMapFlags prot).bits from rfl, hrun]
    refine ⟨m', h', hin, ?_⟩
    cases ok with
    | false => exact .inl rfl
    | true => exact .inr ⟨⟨hne, hle⟩, rfl, hall rfl⟩

/-- `sys_munmap` on a range of the user half. -/
theorem sysMunmap_effect (h : Spaces p0 [r] s.vmm) (addr length : BitVec 64)
    (hfit : (pageCount length).toNat ≠ 0 → pageNo addr + (pageCount length).toNat ≤ userPages) :
    ∃ m', Spaces p0 [r] m' ∧
      (m' = s.vmm ∧ sysMunmap r addr length s = (none, s) ∨
        Unmapped r (pageNo (pageDown addr)) (pageNo (pageDown addr) + (pageCount length).toNat) s.vmm m' ∧
        sysMunmap r addr length s = (some 0#64, { s with vmm := m' })) := by
  unfold sysMunmap
  by_cases hz : addr = 0#64 ∨ length = 0#64
  · rw [if_pos hz]
    exact ⟨s.vmm, h, .inl ⟨rfl, rfl⟩⟩
  · rw [if_neg hz]
    obtain ⟨heq, -, hle⟩ := masked_eq addr
    obtain ⟨m', hrun, h', hkept⟩ := unmapRange_effect (n := pageNo (pageDown addr)) (k := (pageCount length).toNat)
      (fun hk => (Nat.add_le_add_right hle _).trans (hfit hk)) h (le_refl _) (le_refl _)
    rw [← range_stop, ← show pageDown addr = pageAddr (pageNo (pageDown addr)) from heq] at hrun
    dsimp only
    rw [hrun]
    exact ⟨m', h', .inr ⟨hkept, rfl⟩⟩

/-- The ways `sys_brk` ends: nothing is done; a task without a heap gets one; pages are installed up to the new break, and the break
moves if all could be; or the pages above the new break are unmapped. -/
theorem sysBrk_effect (h : Spaces p0 [r] s.vmm) (newBrk : BitVec 64) :
    (sysBrk r newBrk s).2 = s ∧ ((sysBrk r newBrk s).1 = none ∨ newBrk = 0#64) ∨
    (newBrk ≠ 0#64 ∧ newBrk.toNat < 2 ^ 47) ∧
      (s.regions.heapStart = 0#64 ∧ sysBrk r newBrk s =
          (some newBrk, { s with regions := { s.regions with heapStart := pageDown newBrk, heapBrk := newBrk } }) ∨
        s.regions.heapStart ≠ 0#64 ∧ s.regions.heapStart.toNat ≤ newBrk.toNat ∧ ∃ m', Spaces p0 [r] m' ∧
          (pageNo (pageUp s.regions.heapBrk) < pageNo (pageUp newBrk) ∧
              InstalledIn r (pageNo (pageUp s.regions.heapBrk)) (pageNo (pageUp newBrk)) heapFlags s.vmm m' ∧
              (sysBrk r newBrk s = (none, { s with vmm := m' }) ∨
                sysBrk r newBrk s = (some newBrk, { vmm := m', regions := { s.regions with heapBrk := newBrk } }) ∧
                ∀ j, pageNo (pageUp s.regions.heapBrk) ≤ j → j < pageNo (pageUp newBrk) → InUse m' r j) ∨
            pageNo (pageUp newBrk) ≤ pageNo (pageUp s.regions.heapBrk) ∧
              Unmapped r (pageNo (pageUp newBrk)) (pageNo (pageUp s.regions.heapBrk)) s.vmm m' ∧
              sysBrk r newBrk s = (some newBrk, { vmm := m', regions := { s.regions with heapBrk := newBrk } }))) := by
  unfold sysBrk
  dsimp only
  by_cases hz : newBrk = 0#64
  · rw [if_pos hz]
    exact .inl ⟨rfl, .inr hz⟩
  rw [if_neg hz]
  by_cases hlt : newBrk.toNat < 2 ^ 47
  · have hult : newBrk.ult 0x800000000000#64 = true := by
      rw [BitVec.ult, decide_eq_true_eq]
      exact hlt
    rw [hult, if_neg (by simp)]
    by_cases hs : s.regions.heapStart = 0#64
    · rw [if_pos hs]
      exact .inr ⟨⟨hz, hlt⟩, .inl ⟨hs, rfl⟩⟩
    rw [if_neg hs]
    by_cases hbelow : newBrk.toNat < s.regions.heapStart.toNat
    · rw [if_pos (by rw [BitVec.ult, decide_eq_true_eq]; exact hbelow)]
      exact .inl ⟨rfl, .inl rfl⟩
    rw [if_neg (by rw [BitVec.ult, decide_eq_true_eq]; exact hbelow)]
    obtain ⟨hneweq, hnewlt, -⟩ := masked_eq (newBrk + 4095#64)
    obtain ⟨holdeq, holdlt, -⟩ := masked_eq (s.regions.heapBrk + 4095#64)
    rw [← pageUp] at hneweq hnewlt holdeq holdlt
    generalize pageNo (pageUp newBrk) = new at hneweq hnewlt ⊢
    generalize pageNo (pageUp s.regions.heapBrk) = old at holdeq holdlt ⊢
    have hnew : new ≤ userPages := hnewlt.le.trans (by decide)
    have hold : old ≤ userPages := holdlt.le.trans (by decide)
    rw [hneweq, holdeq, pageAddr_ult hold hnew, pageAddr_ult hnew hold]
    refine .inr ⟨⟨hz, hlt⟩, .inr ⟨hs, by omega, ?_⟩⟩
    by_cases hgrow : old < new
    · rw [if_pos (decide_eq_true hgrow), pageAddr_diff hgrow.le hnew]
      obtain ⟨k, rfl⟩ := Nat.exists_eq_add_of_le hgrow.le
      obtain ⟨ok, m', hrun, h', hin, hall⟩ := mapDemandRange_effect heapMapFlags (fun _ => hnew) h
      rw [Nat.add_sub_cancel_left, show heapFlags = heapMapFlags.bits from rfl, hrun]
      refine ⟨m', h', .inl ⟨hgrow, hin, ?_⟩⟩
      cases ok with
      | false => exact .inl rfl
      | true => exact .inr ⟨rfl, hall rfl⟩
    · rw [if_neg (by rw [decide_eq_true_eq]; exact hgrow)]
      have hle : new ≤ old := by omega
      by_cases hshrink : new < old
      · rw [if_pos (decide_eq_true hshrink), pageAddr_diff hle hold]
        have hfirst : old - new ≠ 0 → pageAddr old - 4096#64 = pageAddr (new + (old - new) - 1) := by
          intro _
          rw [show new + (old - new) - 1 = old - 1 by omega, show old = old - 1 + 1 by omega, pageAddr_pred, Nat.add_sub_cancel]
        obtain ⟨m', hrun, h', hkept⟩ := unmapFreeRange_effect (by omega) hfirst h (le_refl _) (Nat.add_sub_of_le hle).le
        rw [hrun]
        exact ⟨m', h', .inr ⟨hle, hkept, rfl⟩⟩
      · rw [if_neg (by rw [decide_eq_true_eq]; exact hshrink)]
        exact ⟨s.vmm, h, .inr ⟨hle, .refl _ _ _ _, rfl⟩⟩
  · have hult : newBrk.ult 0x800000000000#64 = false := by
      rw [BitVec.ult, decide_eq_false_iff_not]
      exact hlt
    rw [hult]
    exact .inl ⟨rfl, .inl rfl⟩

/-! ## Faults -/

theorem FaultEnd.inUse {v : UserVa} {step : FaultStep} (h : Spaces p0 [r] m) (hf : FaultEnd r v.addr m step m')
    (hstep : step = .resolved) : hasFlag (leafAt m.mem r v.addr) (ptePresent ||| pteDemand) = true := by
  cases hf with
  | same hne => exact absurd hstep hne
  | demand ht hd hg => rw [hasFlag_or, leafAt, entryAt_eq ht, hd, Bool.or_true]
  | cow ht hc hg =>
    have hok := h.leaf r (mem_singleton_self r) _ (ptIndex v.addr) v.leafPath
    rw [entryAt_eq ht] at hok
    rw [hasFlag_or, leafAt, entryAt_eq ht, (hok.cow hc).1, Bool.true_or]

/-- A fault that is resolved changes the leaf of its page, which was in use, to one that is present. -/
theorem handlerPf_effect (h : Spaces p0 [r] m) (v : UserVa) {errorCode : BitVec 64} {task : Option UserRegions}
    (hrun : (handlerPf errorCode v.addr r task).run m = (true, m')) :
    Spaces p0 [r] m' ∧ ∀ j, j < userPages → pageLeaf m' r j = pageLeaf m r j ∨
      j = pageNo v.addr ∧ InUse m r j ∧ hasFlag (pageLeaf m' r j) ptePresent = true := by
  have hr := mem_singleton_self r
  rcases handlerPf_run h hr v.addr v.page.index_lt errorCode task with hpf | ⟨m1, hpf, hend⟩
  · rw [hpf] at hrun
    cases (Prod.mk.inj hrun).1
  · rw [hpf] at hrun
    cases hrun
    have hpage : pageNo v.page.addr = pageNo v.addr := by
      unfold UserVa.page pageNo
      rw [page_toNat]
      omega
    have honly := (FaultEnd.only (v := v.page) h hr hend).1
    refine ⟨(FaultEnd.keeps (v := v.page) h hr hend).spaces, fun j hj => ?_⟩
    by_cases hjv : j = pageNo v.addr
    · refine .inr ⟨hjv, ?_, ?_⟩
      · rw [hjv, ← hpage, InUse, ← leafAt_eq]
        exact FaultEnd.inUse (v := v.page) h hend rfl
      · rw [hjv, ← hpage, ← leafAt_eq]
        exact FaultEnd.present (v := v.page) h hr hend rfl
    · exact .inl (pageLeaf_of_only honly hj (by rw [hpage]; exact hjv))

end TsOs
