import TsOs.Lemmas.LeafEffects
import TsOs.Theorems.UnmapPage

/-!
# A clone has the view of its source

After a successful `vmm_clone_address_space` the two address spaces translate alike and have the same demand entries; the pages that
could be written are copy-on-write in both, and the tables of the clone are its own.
-/

namespace TsOs

open Radix StateProg PteAux TableAux VmmRun XlateAux LifeAux FreeTablesAux CloneAux List

/-- The demand entry in a leaf slot, if there is one. -/
def demandEntry (e : BitVec 64) : Option (BitVec 64) :=
  if hasFlag e pteDemand && !hasFlag e ptePresent then some e else none

/-- A present page that can be written and is not copy-on-write. -/
def OwnWritable (e : BitVec 64) : Prop :=
  hasFlag e ptePresent = true ∧ hasFlag e pteWritable = true ∧ hasFlag e pteCow = false

namespace CloneAux

variable {m m₁ : Vmm} {r d : Nat} {D : Fin 512 → Prop} {e : BitVec 64}

theorem srcLeaf_of_ownWritable (h : OwnWritable e) :
    hasFlag (srcLeaf e) pteWritable = false ∧ hasFlag (srcLeaf e) pteCow = true := by
  rw [srcLeaf, if_pos h.1]
  rcases cowLeaf_cases e with ⟨-, heq⟩ | ⟨hnot, -⟩
  · rw [heq, hasFlag_writable, hasFlag_cow, getLsbD_cowFlags e (by omega), getLsbD_cowFlags e (by omega)]
    simp
  · exact absurd h.2 hnot

theorem srcLeaf_of_not_ownWritable (h : ¬ OwnWritable e) : srcLeaf e = e := by
  unfold srcLeaf
  split
  · next hp =>
    rcases cowLeaf_cases e with ⟨hw, -⟩ | ⟨-, heq⟩
    · exact absurd ⟨hp, hw⟩ h
    · exact heq
  · rfl

/-- A leaf that was present or filled on demand is the same in the source and in the copy. -/
theorem cloneLeaf_eq_srcLeaf (h : hasFlag e ptePresent = true ∨ hasFlag e pteDemand = true) :
    cloneLeaf e = srcLeaf e := by
  cases hp : hasFlag e ptePresent with
  | true => exact cloneLeaf_of_present hp
  | false =>
    have hd : hasFlag e pteDemand = true := h.resolve_left (by rw [hp]; exact Bool.false_ne_true)
    simp [cloneLeaf, srcLeaf, hp, hd]

theorem demandEntry_clone (e : BitVec 64) : demandEntry (cloneLeaf e) = demandEntry (srcLeaf e) := by
  by_cases h : hasFlag e ptePresent = true ∨ hasFlag e pteDemand = true
  · rw [cloneLeaf_eq_srcLeaf h]
  · rw [not_or] at h
    simp [cloneLeaf, srcLeaf, h.1, h.2, demandEntry, hasFlag_zero]

theorem srcLeaf_addr (e : BitVec 64) : pteAddr (srcLeaf e) = pteAddr e := by
  rw [(pteAddr_eq (srcLeaf e)).1, srcLeaf_frame, ← (pteAddr_eq e).1]

end CloneAux

/-! ## The entries of the source and of the copy -/

namespace CloneAux

variable {m m' : Vmm} {r d : Nat} {ts : List Nat} {va : BitVec 64}

/-- `vmm_translate` through a PML4 entry of the user half, where there are no huge pages. -/
theorem translate_small {as : AddressSpace} {t : Nat} (hi : m.initialized = true) (has : as.pml4 = some t)
    (hroot : hasFlag (m.mem t (pml4Index va)) ptePresent = true → hasFlag (m.mem t (pml4Index va)) ptePs = false)
    (hsmall : ∀ p j, p.length < 2 → hasFlag (entryAt m.mem t (pml4Index va :: p) j) ptePresent = true →
      hasFlag (entryAt m.mem t (pml4Index va :: p) j) ptePs = false) :
    vmmTranslate m as va = if hasFlag (leafAt m.mem t va) ptePresent then pteAddr (leafAt m.mem t va) + (va &&& 0xFFF#64)
      else 0#64 := by
  rw [vmmTranslate_eq hi has hroot]
  exact xlate_of_small (hsmall [] _ (by decide)) (hsmall [pdptIndex va] _ (by simp))

variable (hb : Copied userEntries ts r d m m') (hs : Source UserEntry 2 r d m)
  (hfresh : ∀ i, UserEntry i → hasFlag (m.mem d i) ptePresent = false)

include hb hs

/-- Above the PTs the tables of the source are as before. -/
theorem src_upper {p : List (Fin 512)} (hp : TablePath 256 p) (hlen : p.length < 3) (i : Fin 512) :
    entryAt m'.mem r p i = entryAt m.mem r p i := by
  refine (pass_entryAt hb.passed (fun _ _ => hs.side) hp i).resolve_right ?_
  rintro ⟨⟨f, hmem, hf⟩, -⟩
  obtain ⟨j, q, hj, hq, hqf⟩ := hb.pts f hmem
  cases p with
  | nil => exact (hs.kept j q f hj hq.le hqf).2.1 (Option.some.inj hf).symm
  | cons k p =>
    obtain ⟨hk, hp⟩ := tablePath_cons.mp hp
    have heq := (cons.inj (hs.distinct k p j q f hk hj hp hq.le hf hqf)).2
    rw [length_cons, heq] at hlen
    omega

theorem src_leafAt (hva : UserEntry (pml4Index va)) :
    leafAt m'.mem r va = srcLeaf (leafAt m.mem r va) := by
  have hpath : TablePath 256 (vaPath va) := TablePath.vaPath hva
  have htab := pass_tableAt hb.passed (fun _ _ => hs.side) hpath
  unfold leafAt
  cases hf : tableAt m.mem r (vaPath va) with
  | none => rw [entryAt_none hf, entryAt_none (htab.trans hf), srcLeaf_zero]
  | some f =>
    have htaken : Taken r m userEntries (pml4Index va) := ⟨(mem_userEntries _).mpr hva, (present_of_tableAt hf).1⟩
    rw [entryAt_eq hf, entryAt_eq (htab.trans hf), hb.passed.mem f (hs.side hpath hf), cowIf,
      if_pos (hb.all _ [pdptIndex va, pdIndex va] f htaken rfl hf)]

include hfresh in
theorem dst_leafAt (hva : UserEntry (pml4Index va)) :
    leafAt m'.mem d va = cloneLeaf (leafAt m.mem r va) := by
  by_cases hpres : hasFlag (m.mem r (pml4Index va)) ptePresent = true
  · exact hb.leaf hs ⟨(mem_userEntries _).mpr hva, hpres⟩ hva (p := [pdptIndex va, pdIndex va]) rfl (ptIndex va)
  · have hd : childOf (m'.mem d (pml4Index va)) = none := by
      rw [hb.parent hs fun h => hpres h.2]
      exact childOf_absent (hfresh _ hva)
    rw [Bool.not_eq_true] at hpres
    have hnone := tableAt_none (childOf_absent hpres) [pdptIndex va, pdIndex va]
    have hnone' := tableAt_none hd [pdptIndex va, pdIndex va]
    rw [leafAt, leafAt, vaPath, entryAt_none hnone, entryAt_none hnone', cloneLeaf_zero]

end CloneAux

/-- What a successful clone leaves: both address spaces have the view that the source had, the pages that could be written are
copy-on-write in both, all other leaves are the same, and no table belongs to both. -/
theorem clone_copies_view (m : Vmm) (src dst : AddressSpace) (r d : Nat) (hi : m.initialized = true) (hr : src.pml4 = some r)
    (hd : dst.pml4 = some d) (hs : Source UserEntry 2 r d m)
    (hfresh : ∀ i, UserEntry i → hasFlag (m.mem d i) ptePresent = false)
    (hok : ((vmmCloneAddressSpace src dst).run m).1 = .ok) :
    let m' := ((vmmCloneAddressSpace src dst).run m).2
    (∀ va, UserEntry (pml4Index va) →
      vmmTranslate m' dst va = vmmTranslate m' src va ∧ vmmTranslate m' src va = vmmTranslate m src va ∧
      demandEntry (leafAt m'.mem d va) = demandEntry (leafAt m'.mem r va) ∧
      (OwnWritable (leafAt m.mem r va) → leafAt m'.mem d va = leafAt m'.mem r va ∧
        hasFlag (leafAt m'.mem r va) pteWritable = false ∧ hasFlag (leafAt m'.mem r va) pteCow = true) ∧
      (¬ OwnWritable (leafAt m.mem r va) →
        hasFlag (leafAt m.mem r va) ptePresent = true ∨ hasFlag (leafAt m.mem r va) pteDemand = true →
        leafAt m'.mem r va = leafAt m.mem r va ∧ leafAt m'.mem d va = leafAt m.mem r va)) ∧
    ∀ p q f, TablePath 256 p → TablePath 256 q → tableAt m'.mem r p = some f → tableAt m'.mem d q ≠ some f := by
  intro m'
  obtain ⟨st, m₁, xs, ys, ts, m2, hrun, hend⟩ := hs.clone_run hi hr hd
  have hm' : m' = m₁ := congrArg Prod.snd hrun
  clear_value m'
  subst hm'
  rw [hrun] at hok
  rcases hend.result with ⟨-, rfl, rfl⟩ | ⟨hno, -⟩
  swap
  · rw [show st = _ from hok] at hno
    cases hno
  obtain rfl : userEntries = xs := hend.split.trans (append_nil xs)
  have hb := (hend.copied hs.order_side).1
  refine ⟨fun va hva => ?_, fun p q f hp hq hpf hqf => ?_⟩
  · have hsrc := src_leafAt hb hs hva
    have hdst := dst_leafAt hb hs hfresh hva
    have hinit : m'.initialized = true := hb.passed.upkeep.init.trans hi
    have hold := translate_small hi hr (hs.link _ hva) fun p j hp => hs.small _ p j hva hp
    have hroot : m'.mem r (pml4Index va) = m.mem r (pml4Index va) := src_upper hb hs (.nil 256) (by decide) _
    have hnew : vmmTranslate m' src va = _ := translate_small hinit hr (by rw [hroot]; exact hs.link _ hva)
      fun p j hp => by
        rw [src_upper hb hs (tablePath_cons.mpr ⟨hva, by omega⟩) (by simp; omega)]
        exact hs.small _ p j hva hp
    have hcopy : vmmTranslate m' dst va = if hasFlag (leafAt m'.mem d va) ptePresent
        then pteAddr (leafAt m'.mem d va) + (va &&& 0xFFF#64) else 0#64 := by
      by_cases hpres : hasFlag (m.mem r (pml4Index va)) ptePresent = true
      · have htaken : Taken r m userEntries (pml4Index va) := ⟨(mem_userEntries _).mpr hva, hpres⟩
        exact translate_small hinit hd (fun _ => hb.link _ htaken) fun p j hp => hb.small hs htaken hva hp
      · have hsame : m'.mem d (pml4Index va) = m.mem d (pml4Index va) := hb.parent hs fun h => hpres h.2
        have hno := hfresh _ hva
        refine translate_small hinit hd (by rw [hsame, hno]; exact nofun) fun p j _ => ?_
        rw [← hsame] at hno
        rw [entryAt_none (tableAt_none (childOf_absent hno) p)]
        exact nofun
    refine ⟨?_, ?_, ?_, fun hw => ?_, fun hw hleaf => ?_⟩
    · rw [hcopy, hnew, hsrc, hdst, cloneLeaf_present, srcLeaf_present]
      split
      · next hp => rw [cloneLeaf_of_present hp]
      · rfl
    · rw [hnew, hold, hsrc, srcLeaf_present, srcLeaf_addr]
    · rw [hsrc, hdst, demandEntry_clone]
    · rw [hsrc, hdst, cloneLeaf_of_present hw.1]
      exact ⟨rfl, srcLeaf_of_ownWritable hw⟩
    · rw [hsrc, hdst, cloneLeaf_eq_srcLeaf hleaf, srcLeaf_of_not_ownWritable hw]
      exact ⟨rfl, rfl⟩
  · rw [pass_tableAt hb.passed (fun _ _ => hs.side) hp] at hpf
    have hside := hs.side hp hpf
    cases q with
    | nil => exact hside.2 (Option.some.inj hqf).symm
    | cons j q =>
      obtain ⟨hj, hq⟩ := tablePath_cons.mp hq
      by_cases hpres : hasFlag (m.mem r j) ptePresent = true
      · exact hside.1 (hb.fresh ⟨(mem_userEntries j).mpr hj, hpres⟩ hq hqf)
      · have hno := hfresh j hj
        rw [← hb.parent hs fun h => hpres h.2] at hno
        rw [tableAt_none (childOf_absent hno)] at hqf
        cases hqf

/-! ## A clone of two pages -/

namespace CloneAux

theorem twoPages_upper (e : BitVec 64) {f : Nat} (hf : f < 4) (i : Fin 512) : hasFlag ((twoPages e).mem f i) ptePs = false := by
  simp only [twoPages]
  split_ifs
  · rfl
  · rfl
  · rfl
  · omega
  · omega
  · rfl

/-- The address space of two pages can be copied to a new one in frame 6. -/
theorem twoPages_source (e : BitVec 64) : Source UserEntry 2 1 6 (twoPages e) where
  ready := rfl
  root h := nomatch (show (twoPages 0#64).pmm.isUsed 1 = false from h.2.2)
  parent h := nomatch (show (twoPages 0#64).pmm.isUsed 6 = false from h.2.2)
  apart := by decide
  kept i p f _ hp hf := by
    obtain ⟨-, hlen⟩ := UnmapAux.twoPages_tables e (i :: p) f (Nat.succ_le_succ hp) hf
    have hkept := (UnmapAux.twoPages_tree e).kept 1 (mem_singleton_self 1) (i :: p) f
      ⟨Nat.succ_le_succ hp, fun j _ => j.isLt⟩ hf
    rw [length_cons] at hlen
    exact ⟨hkept, by omega, by omega⟩
  link i _ _ := twoPages_upper e (by decide) i
  small i p j _ hp _ := by
    cases hf : tableAt (twoPages e).mem 1 (i :: p) with
    | none => rw [entryAt_none hf, hasFlag_zero]
    | some f =>
      obtain ⟨-, hlen⟩ := UnmapAux.twoPages_tables e (i :: p) f (by simp; omega) hf
      rw [length_cons] at hlen
      rw [entryAt_eq hf]
      exact twoPages_upper e (by omega) j
  distinct i p j q f _ _ hp hq hf hf' := by
    have hpath : ∀ (k : Fin 512) (s : List (Fin 512)), s.length ≤ 2 → TablePath 512 (k :: s) :=
      fun k s hs => ⟨Nat.succ_le_succ hs, fun j _ => j.isLt⟩
    exact ((UnmapAux.twoPages_tree e).distinct.distinct 1 1 _ _ f ⟨mem_singleton_self 1, hpath i p hp⟩
      ⟨mem_singleton_self 1, hpath j q hq⟩ hf hf').2

end CloneAux

/-- With a frame for every table the clone succeeds. -/
theorem CloneAux.clone_ok {m : Vmm} {src dst : AddressSpace} {r d : Nat} (hi : m.initialized = true) (hr : src.pml4 = some r)
    (hd : dst.pml4 = some d) (hs : Source UserEntry 2 r d m) (henough : tableCount m.mem 2 r userEntries ≤ m.pmm.freeCount) :
    ((vmmCloneAddressSpace src dst).run m).1 = .ok := by
  obtain ⟨st, m', xs, ys, ts, m2, hrun, hend⟩ := hs.clone_run hi hr hd
  rw [hrun]
  obtain ⟨-, hreach, -⟩ := hend.copied hs.order_side
  by_contra hst
  have hshort := hreach.short (decide_eq_false hst)
  rw [tableCount_eq] at henough
  exact absurd hshort (Nat.not_lt.mpr henough)

/-- A mapped page and a demand page are copied. -/
theorem clone_copies_two_pages :
    ((vmmCloneAddressSpace ⟨some 1, false⟩ ⟨some 6, false⟩).run (twoPages 0x406#64)).1 = .ok ∧
    vmmTranslate ((vmmCloneAddressSpace ⟨some 1, false⟩ ⟨some 6, false⟩).run (twoPages 0x406#64)).2 ⟨some 1, false⟩ 0x1000#64 =
      vmmTranslate (twoPages 0x406#64) ⟨some 1, false⟩ 0x1000#64 := by
  have hok : ((vmmCloneAddressSpace ⟨some 1, false⟩ ⟨some 6, false⟩).run (twoPages 0x406#64)).1 = .ok :=
    CloneAux.clone_ok rfl rfl rfl (CloneAux.twoPages_source _) (by decide +kernel)
  refine ⟨hok, ?_⟩
  exact ((clone_copies_view (twoPages 0x406#64) ⟨some 1, false⟩ ⟨some 6, false⟩ 1 6 rfl rfl rfl (CloneAux.twoPages_source _)
    (fun _ _ => by simp [twoPages, hasFlag_zero]) hok).1 0x1000#64 (by unfold UserEntry; decide)).2.1

end TsOs
