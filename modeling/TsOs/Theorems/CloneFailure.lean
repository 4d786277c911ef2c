import TsOs.Theorems.CloneView

/-!
# A clone that runs out of frames

When `vmm_clone_address_space` fails, the frames and the destination are as before. The source is not: the pages of every PT that
was copied before the frames ran out have become copy-on-write and stay so.
-/

namespace TsOs

open Radix StateProg PteAux TableAux VmmRun VaAux XlateAux LifeAux FreeTablesAux CloneAux UnmapAux List BitVec

namespace CloneAux

variable {m m₁ : Vmm} {r d : Nat} {src dst : AddressSpace} {xs : List (Fin 512)} {ts : List Nat}

/-- The cleanup of a destination that was empty gives back all frames that were taken. -/
theorem cleanup_gives_back (hxs : ∀ i ∈ xs, UserEntry i) (hnodup : xs.Nodup) (hi : m.pmm.initialized = true)
    (hd : ¬ m.pmm.Free d) (hfresh : ∀ i, UserEntry i → hasFlag (m.mem d i) ptePresent = false) (hh : Half xs ts r d m m₁) :
    ∃ m', (cloneCleanup d xs).run m₁ = ((), m') ∧ Passed (SourceSide m d) ts m m' ∧
      (∀ f, m'.pmm.isUsed f = m.pmm.isUsed f) ∧ ∀ i, UserEntry i → hasFlag (m'.mem d i) ptePresent = false := by
  have hno : ∀ i, UserEntry i → ¬ Taken r m xs i → hasFlag (m₁.mem d i) ptePresent = false := by
    intro i hu ht
    rw [hh.rest i ht, cowIf_present]
    exact hfresh i hu
  have hthrough : ∀ i ∈ xs, ∀ p f, p.length ≤ 2 → tableAt m₁.mem d (i :: p) = some f → Through r m xs (i :: p) := by
    intro i hmem p f hp hf
    by_cases ht : Taken r m xs i
    · exact ⟨i, p, ht, hp, rfl⟩
    · rw [tableAt_none (childOf_absent (hno i (hxs i hmem) ht))] at hf
      cases hf
  have hdist : DistinctUnder xs m₁.mem 2 d := by
    constructor
    · intro i hi j hj p q f hp hq hf hf'
      exact hh.built.distinct _ _ f (hthrough i hi p f hp hf) (hthrough j hj q f hq hf') hf hf'
    · intro i hi p hp hf
      exact hd (hh.built.fresh _ d (hthrough i hi p d hp hf) hf)
  obtain ⟨mem', hrun, hself, hother, hoff⟩ := cloneCleanup_frees hdist (fun i hmem hp => by
    by_cases ht : Taken r m xs i
    · exact hh.link i ht
    · rw [hno i (hxs i hmem) ht] at hp
      cases hp) hnodup
  have hfs : ∀ f, f ∈ xs.flatMap (freedFor m₁.mem 2 d) ↔ ∃ p, Through r m xs p ∧ tableAt m₁.mem d p = some f := by
    intro f
    rw [mem_freed]
    constructor
    · rintro ⟨i, hi, p, hp, hf⟩
      exact ⟨i :: p, hthrough i hi p f hp hf, hf⟩
    · rintro ⟨_, ⟨i, p, ht, hp, rfl⟩, hf⟩
      exact ⟨i, ht.1, p, hp, hf⟩
  obtain ⟨hpass', hused⟩ := hh.built.give_back hh.passed hi hfs mem' fun f hf i => by
    rw [hoff f hf.2 fun i hi p hp hpf => hf.1 (hh.built.fresh _ f (hthrough i hi p f hp hpf) hpf)]
  refine ⟨_, hrun, hpass', hused, fun i hi => ?_⟩
  by_cases hmem : i ∈ xs
  · exact hself i hmem
  · dsimp only
    rw [hother i hmem]
    exact hno i hi fun ht => hmem ht.1

/-- What a clone does to a fresh destination: the frames in use have changed only in that PTs were made copy-on-write. -/
theorem clone_pass (hinit : m.initialized = true) (hr : src.pml4 = some r) (hd : dst.pml4 = some d)
    (hi : m.pmm.initialized = true) (hrf : ¬ m.pmm.Free r) (hdf : ¬ m.pmm.Free d) (hne : r ≠ d)
    (hsmall : ∀ i, UserEntry i → hasFlag (m.mem r i) ptePresent = true → hasFlag (m.mem r i) ptePs = false)
    (hfresh : ∀ i, UserEntry i → hasFlag (m.mem d i) ptePresent = false) :
    ∃ st m' ts, (vmmCloneAddressSpace src dst).run m = (st, m') ∧ Passed (SourceSide m d) ts m m' ∧
      (st = .ok ∨ st = .noMem ∧ (∀ f, m'.pmm.isUsed f = m.pmm.isUsed f) ∧
        ∀ i, UserEntry i → hasFlag (m'.mem d i) ptePresent = false) ∧
      ((∀ x ∈ userOrder m.mem r, SourceSide m d x.2) → Reached (userOrder m.mem r) ts (decide (st = .ok)) m m') := by
  obtain ⟨st, m', xs, ys, ts, m2, hrun, hend⟩ := cloneSpace_run hinit hr hd hi hrf hdf hne hsmall
  have hreach := fun hin => (hend.copied hin).2.1
  rcases hend.result with ⟨rfl, -, rfl⟩ | ⟨rfl, -, hclean⟩
  · exact ⟨.ok, m', ts, hrun, hend.half.passed, .inl rfl, hreach⟩
  · obtain ⟨m3, hclean', hpass, hused, hempty⟩ := cleanup_gives_back
      (fun i hmem => (mem_userEntries i).mp (hend.split ▸ mem_append_left _ hmem))
      (nodup_append.mp (hend.split ▸ nodup_userEntries)).1 hi hdf hfresh hend.half
    obtain rfl : m3 = m' := (Prod.mk.inj (hclean'.symm.trans hclean)).2
    exact ⟨.noMem, m3, ts, hrun, hpass, .inr ⟨rfl, hused, hempty⟩, hreach⟩

theorem initialized_of_noMem (h : ((vmmCloneAddressSpace src dst).run m).1 = .noMem) : m.initialized = true := by
  by_contra hno
  rw [Bool.not_eq_true] at hno
  rw [vmmCloneAddressSpace, bind_run (get_run m), hno] at h
  cases h

/-- The marks of the frames and how far the count is off determine the count. -/
theorem pmm_same {p q : Pmm} (hused : ∀ f, p.isUsed f = q.isUsed f) (htotal : p.totalFrames = q.totalFrames)
    (hdrift : p.drift = q.drift) : p.bitmap = q.bitmap ∧ p.freeFrames = q.freeFrames := by
  have hcount : p.clearCount = q.clearCount := by simp only [Pmm.clearCount, htotal, hused]
  refine ⟨PmmAux.bitmap_ext hused, ?_⟩
  simp only [Pmm.drift, hcount] at hdrift
  rw [← BitVec.sub_add_cancel p.freeFrames, hdrift, BitVec.sub_add_cancel]

end CloneAux

/-- A clone that runs out of frames leaves the physical memory manager and the destination as they were, whatever the user half of
the source holds. -/
theorem clone_failure_gives_back (m : Vmm) (src dst : AddressSpace) (r d : Nat) (hr : src.pml4 = some r) (hd : dst.pml4 = some d)
    (hi : m.pmm.initialized = true) (hrf : ¬ m.pmm.Free r) (hdf : ¬ m.pmm.Free d) (hne : r ≠ d)
    (hsmall : ∀ i, UserEntry i → hasFlag (m.mem r i) ptePresent = true → hasFlag (m.mem r i) ptePs = false)
    (hfresh : ∀ i, UserEntry i → hasFlag (m.mem d i) ptePresent = false)
    (hno : ((vmmCloneAddressSpace src dst).run m).1 = .noMem) :
    ((vmmCloneAddressSpace src dst).run m).2.pmm.bitmap = m.pmm.bitmap ∧
    ((vmmCloneAddressSpace src dst).run m).2.pmm.freeFrames = m.pmm.freeFrames ∧
    ∀ i, UserEntry i → hasFlag (((vmmCloneAddressSpace src dst).run m).2.mem d i) ptePresent = false := by
  obtain ⟨st, m', ts, hrun, hpass, hres, -⟩ := clone_pass (initialized_of_noMem hno) hr hd hi hrf hdf hne hsmall hfresh
  rw [hrun] at hno ⊢
  rcases hres with hok | ⟨-, hused, hempty⟩
  · rw [show st = _ from hno] at hok
    cases hok
  · obtain ⟨hbits, hfree⟩ := pmm_same hused hpass.upkeep.total hpass.upkeep.drift
    exact ⟨hbits, hfree, hempty⟩

/-! ## The source -/

/-- A well-formed user half: no frame is a table twice, no table is a free frame, and the PML4 has no huge pages. -/
structure UserTree (m : Vmm) (r : Nat) : Prop where
  distinct : Tables 256 m.mem [r]
  kept : Kept 256 [r] m
  small : ∀ i, UserEntry i → hasFlag (m.mem r i) ptePresent = true → hasFlag (m.mem r i) ptePs = false

variable {p : List (Fin 512)}

namespace CloneAux

variable {m m' : Vmm} {r d : Nat} {ts : List Nat}

/-- The user address with given indices. -/
theorem address_of_path (i j k l : Fin 512) : ∃ va, vaPath va = [i, j, k] ∧ ptIndex va = l := by
  obtain ⟨va, hva⟩ : ∃ va : BitVec 64, va.toNat = i.val * 2 ^ 39 + j.val * 2 ^ 30 + k.val * 2 ^ 21 + l.val * 2 ^ 12 :=
    ⟨_, (toNat_ofNat _ 64).trans (Nat.mod_eq_of_lt (by omega))⟩
  refine ⟨va, ?_, ?_⟩
  · simp only [vaPath, cons.injEq, and_true, Fin.ext_iff, pml4Index_val, pdptIndex_val, pdIndex_val, hva]
    omega
  · rw [Fin.ext_iff, ptIndex_val, hva]
    omega

variable (ht : UserTree m r) (hapart : ∀ p, TablePath 256 p → tableAt m.mem r p ≠ some d)

include ht hapart

theorem source_side {f : Nat} (hp : TablePath 256 p) (hf : tableAt m.mem r p = some f) : SourceSide m d f := by
  refine ⟨ht.kept r (mem_singleton_self r) p f hp hf, ?_⟩
  rintro rfl
  exact hapart p hp hf

theorem order_side : ∀ x ∈ userOrder m.mem r, SourceSide m d x.2 := by
  intro x hx
  obtain ⟨i, p, hi, hlen, hf⟩ := (mem_userOrder x).mp hx
  exact source_side ht hapart (tablePath_cons.mpr ⟨hi, by omega⟩) hf

variable (hpass : Passed (SourceSide m d) ts m m')

include hpass

variable (hpts : ∀ f ∈ ts, (0, f) ∈ userOrder m.mem r)

include hpts

/-- Above the PTs nothing changes. -/
theorem source_upper (hp : TablePath 256 p) (hlen : p.length < 3) (i : Fin 512) :
    entryAt m'.mem r p i = entryAt m.mem r p i := by
  refine (pass_entryAt hpass (fun _ _ => source_side ht hapart) hp i).resolve_right ?_
  rintro ⟨⟨f, hmem, hf⟩, -⟩
  obtain ⟨j, q, hj, hq, hqf⟩ := (mem_userOrder _).mp (hpts f hmem)
  have hr := mem_singleton_self r
  have hpq := (ht.distinct.distinct r r p (j :: q) f ⟨hr, hp⟩ ⟨hr, tablePath_cons.mpr ⟨hj, by omega⟩⟩ hf hqf).2
  rw [hpq, length_cons] at hlen
  omega

/-- The leaf entry that a walk finds afterwards. -/
theorem source_leaf {va : BitVec 64} (hva : UserEntry (pml4Index va)) :
    (∀ t, tableAt m.mem r (vaPath va) = some t →
      walkLeaf m r va = m.mem t (ptIndex va) ∧ walkLeaf m' r va = cowIf ts t (m.mem t (ptIndex va))) ∧
    (tableAt m.mem r (vaPath va) = none → walkLeaf m' r va = walkLeaf m r va) := by
  have hpath : TablePath 256 (vaPath va) := TablePath.vaPath hva
  have hroot : hugeEntry (m.mem r (pml4Index va)) = false := by
    rw [hugeEntry]
    cases hp : hasFlag (m.mem r (pml4Index va)) ptePresent with
    | false => rfl
    | true => rw [ht.small _ hva hp]; rfl
  have hroot' : hugeEntry (m'.mem r (pml4Index va)) = false := by
    have := hpass.mem r (source_side ht hapart (.nil 256) (tableAt_nil r)) (pml4Index va)
    rw [hugeEntry] at hroot ⊢
    rw [this, cowIf_present, cowIf_ps]
    exact hroot
  rw [walkLeaf_eq hroot, walkLeaf_eq hroot']
  constructor
  · intro t htab
    have htab' := (pass_tableAt hpass (fun _ _ => source_side ht hapart) hpath).trans htab
    rw [leafView_of_table htab, leafView_of_table htab']
    exact ⟨rfl, hpass.mem t (source_side ht hapart hpath htab) _⟩
  · intro hnone
    refine leafView_of_kept (fun p i q hpq _ => .inl ?_) ?_
    · have hp : TablePath 256 (p ++ [i] ++ q) := hpq ▸ hpath
      refine source_upper ht hapart hpass hpts hp.of_append.of_append ?_ i
      have := hp.of_append.1
      rw [length_append, length_singleton] at this
      omega
    · rw [entryAt_none hnone, entryAt_none ((pass_tableAt hpass (fun _ _ => source_side ht hapart) hpath).trans hnone)]

end CloneAux

/-- A clone that runs out of frames leaves the leaf entries of the source as they were exactly when none of the PTs that are reached
with the free frames has a page that can be written and is not copy-on-write. -/
theorem clone_failure_source_iff (m : Vmm) (src dst : AddressSpace) (r d : Nat) (hr : src.pml4 = some r) (hd : dst.pml4 = some d)
    (hi : m.pmm.initialized = true) (ht : UserTree m r) (hdf : ¬ m.pmm.Free d)
    (hapart : ∀ p, TablePath 256 p → tableAt m.mem r p ≠ some d)
    (hfresh : ∀ i, UserEntry i → hasFlag (m.mem d i) ptePresent = false)
    (hno : ((vmmCloneAddressSpace src dst).run m).1 = .noMem) :
    (∀ va, UserEntry (pml4Index va) → walkLeaf ((vmmCloneAddressSpace src dst).run m).2 r va = walkLeaf m r va) ↔
      ∀ f, (0, f) ∈ (userOrder m.mem r).take m.pmm.freeCount → ∀ j, ¬ OwnWritable (m.mem f j) := by
  have hrf : SourceSide m d r := source_side ht hapart (.nil 256) (tableAt_nil r)
  obtain ⟨st, m', ts, hrun, hpass, -, hreach⟩ := clone_pass (initialized_of_noMem hno) hr hd hi hrf.1 hdf hrf.2 ht.small hfresh
  have hpts := (hreach (order_side ht hapart)).pts
  have hsub : ∀ f ∈ ts, (0, f) ∈ userOrder m.mem r := fun f hf => mem_of_mem_take ((hpts f).mp hf)
  rw [hrun]
  constructor
  · intro hsame f hf j hw
    obtain ⟨i, p, hui, hlen, htab⟩ := (mem_userOrder (0, f)).mp (mem_of_mem_take hf)
    obtain ⟨k, l, rfl⟩ : ∃ k l, p = [k, l] := length_eq_two.mp (by simpa using hlen)
    obtain ⟨va, hva, hptj⟩ := address_of_path i k l j
    have huser : UserEntry (pml4Index va) := by
      have : pml4Index va = i := (cons.inj hva).1
      rw [this]
      exact hui
    obtain ⟨hold, hnew⟩ := (source_leaf ht hapart hpass hsub huser).1 f (hva ▸ htab)
    have := hsame va huser
    rw [hold, hnew, hptj, cowIf, if_pos ((hpts f).mpr hf)] at this
    have hro := (srcLeaf_of_ownWritable hw).1
    rw [this, hw.2.1] at hro
    cases hro
  · intro hcond va hva
    obtain ⟨hsome, hnone⟩ := source_leaf ht hapart hpass hsub hva
    cases htab : tableAt m.mem r (vaPath va) with
    | none => exact hnone htab
    | some t =>
      obtain ⟨hold, hnew⟩ := hsome t htab
      rw [hold, hnew, cowIf]
      split
      · next hmem => exact srcLeaf_of_not_ownWritable (hcond t ((hpts t).mp hmem) _)
      · rfl

/-! ## Four tables and three frames -/

/-- An address space with its PML4 in frame 1. Entry 0 leads through the frames 2, 3 and 4 to a PT whose page 1 is `leaf`; entry 1
leads to an empty PDPT in frame 6. The PML4 of the destination is frame 7, and three frames are free. -/
def fourTables (leaf : BitVec 64) : Vmm where
  pmm := { bitmap := fun _ => 0xFF#64, totalFrames := 11, freeFrames := 3#64, initialized := true, total_le := by decide }
  mem := fun f i =>
    if f = 1 ∧ i = 0 then 0x2007#64
    else if f = 1 ∧ i = 1 then 0x6007#64
    else if f = 2 ∧ i = 0 then 0x3007#64
    else if f = 3 ∧ i = 0 then 0x4007#64
    else if f = 4 ∧ i = 1 then leaf
    else 0#64
  kernelPml4 := 1
  initialized := true

namespace CloneAux

theorem fourTables_child (e : BitVec 64) {f c : Nat} {i : Fin 512} (hf : f ≠ 4) (h : childOf ((fourTables e).mem f i) = some c) :
    i = 0 ∧ c = f + 1 ∧ f < 4 ∨ i = 1 ∧ c = 6 ∧ f = 1 := by
  simp only [fourTables] at h
  split_ifs at h with h1 h2 h3 h4 h5
  · cases (show childOf 0x2007#64 = some 2 by decide).symm.trans h
    simp [h1]
  · cases (show childOf 0x6007#64 = some 6 by decide).symm.trans h
    simp [h2]
  · cases (show childOf 0x3007#64 = some 3 by decide).symm.trans h
    simp [h3]
  · cases (show childOf 0x4007#64 = some 4 by decide).symm.trans h
    simp [h4]
  · exact absurd h5.1 hf
  · cases h

theorem fourTables_tables (e : BitVec 64) (p : List (Fin 512)) (f : Nat) (hlen : p.length ≤ 3)
    (h : tableAt (fourTables e).mem 1 p = some f) :
    p = List.replicate p.length 0 ∧ f = p.length + 1 ∨ p = [1] ∧ f = 6 := by
  induction p using reverseRecOn generalizing f with
  | nil => exact .inl ⟨rfl, (Option.some.inj h).symm⟩
  | append_singleton p i ih =>
    rw [length_append, length_singleton] at hlen
    rw [tableAt_snoc] at h
    cases ht : tableAt (fourTables e).mem 1 p with
    | none =>
      rw [entryAt_none ht] at h
      cases h
    | some g =>
      rw [entryAt_eq ht] at h
      rcases ih g (by omega) ht with ⟨hp, rfl⟩ | ⟨-, rfl⟩
      · rcases fourTables_child e (by omega) h with ⟨rfl, rfl, -⟩ | ⟨rfl, rfl, hone⟩
        · refine .inl ⟨?_, by simp⟩
          rw [List.length_append, List.length_singleton, List.replicate_succ', ← hp]
        · obtain rfl : p = [] := eq_nil_of_length_eq_zero (by omega)
          exact .inr ⟨rfl, rfl⟩
      · rcases fourTables_child e (by decide) h with ⟨-, -, hlt⟩ | ⟨-, -, hone⟩
        · exact absurd hlt (by decide)
        · exact absurd hone (by decide)

theorem fourTables_used (e : BitVec 64) {f : Nat} (hf : f < 8) : ¬ (fourTables e).pmm.Free f := by
  intro hfree
  have hused : ∀ k < 8, (fourTables 0#64).pmm.isUsed k = true := by decide
  have hnot : (fourTables 0#64).pmm.isUsed f = false := hfree.2.2
  rw [hused f hf] at hnot
  cases hnot

theorem fourTables_frame (e : BitVec 64) {f : Nat} (hp : TablePath 256 p)
    (hf : tableAt (fourTables e).mem 1 p = some f) : f < 7 := by
  have hlen := hp.1
  rcases fourTables_tables e p f hlen hf with ⟨-, rfl⟩ | ⟨-, rfl⟩
  · omega
  · decide

theorem fourTables_tree (e : BitVec 64) : UserTree (fourTables e) 1 where
  distinct := by
    refine tables_of_distinct fun r hr r' hr' p p' f hp hp' hf hf' => ?_
    obtain rfl := mem_singleton.mp hr
    obtain rfl := mem_singleton.mp hr'
    have hlen := hp.1
    have hlen' := hp'.1
    refine ⟨rfl, ?_⟩
    rcases fourTables_tables e p f hp.1 hf with ⟨h1, h2⟩ | ⟨h1, h2⟩
    · rcases fourTables_tables e p' f hp'.1 hf' with ⟨h1', h2'⟩ | ⟨-, h2'⟩
      · rw [h1, h1', show p.length = p'.length by omega]
      · omega
    · rcases fourTables_tables e p' f hp'.1 hf' with ⟨-, h2'⟩ | ⟨h1', -⟩
      · omega
      · rw [h1, h1']
  kept := by
    intro r hr p f hp hf
    obtain rfl := mem_singleton.mp hr
    have := fourTables_frame e hp hf
    exact fourTables_used e (by omega)
  small := by
    intro i _ _
    by_cases h0 : i = 0
    · have hentry : (fourTables e).mem 1 i = 0x2007#64 := by simp [fourTables, h0]
      rw [hentry]
      decide
    · by_cases h1 : i = 1
      · have hentry : (fourTables e).mem 1 i = 0x6007#64 := by simp [fourTables, h1]
        rw [hentry]
        decide
      · simp [fourTables, h0, h1, hasFlag_zero]

theorem fourTables_apart (e : BitVec 64) (p : List (Fin 512)) (hp : TablePath 256 p) :
    tableAt (fourTables e).mem 1 p ≠ some 7 := fun hf => Nat.lt_irrefl 7 (fourTables_frame e hp hf)

theorem fourTables_fresh (e : BitVec 64) (i : Fin 512) (_ : UserEntry i) : hasFlag ((fourTables e).mem 7 i) ptePresent = false := by
  simp [fourTables, hasFlag_zero]

/-- The order in which the tables are copied, for a page that can be written. -/
theorem fourTables_order : userOrder (fourTables 0x5007#64).mem 1 = [(2, 2), (1, 3), (0, 4), (2, 6)] := by decide +kernel

/-- The clone of the four tables fails, after the pages of the PT were made copy-on-write. -/
theorem fourTables_clone {e : BitVec 64} (horder : userOrder (fourTables e).mem 1 = [(2, 2), (1, 3), (0, 4), (2, 6)]) :
    ((vmmCloneAddressSpace ⟨some 1, false⟩ ⟨some 7, false⟩).run (fourTables e)).1 = .noMem ∧
    walkLeaf (fourTables e) 1 0x1000#64 = e ∧
    walkLeaf ((vmmCloneAddressSpace ⟨some 1, false⟩ ⟨some 7, false⟩).run (fourTables e)).2 1 0x1000#64 = srcLeaf e := by
  have ht := fourTables_tree e
  have hapart := fourTables_apart e
  have hcount : (fourTables e).pmm.freeCount = 3 := by
    show (fourTables 0#64).pmm.freeCount = 3
    decide
  obtain ⟨st, m', ts, hrun, hpass, hres, hreach⟩ := clone_pass (m := fourTables e) rfl
    (show AddressSpace.pml4 ⟨some 1, false⟩ = some 1 from rfl) (show AddressSpace.pml4 ⟨some 7, false⟩ = some 7 from rfl)
    rfl (fourTables_used e (by decide)) (fourTables_used e (by decide)) (by decide) ht.small (fourTables_fresh e)
  have hreach := hreach (order_side ht hapart)
  rw [horder] at hreach
  have hpts : ∀ f, f ∈ ts ↔ f = 4 := by
    intro f
    rw [hreach.pts, hcount]
    simp
  have hfail : st = .noMem := by
    rcases hres with rfl | ⟨hst, -⟩
    · have := hreach.enough rfl
      rw [length_cons, length_cons, length_cons, length_singleton] at this
      omega
    · exact hst
  have htab : tableAt (fourTables e).mem 1 (vaPath 0x1000#64) = some 4 := by
    have hchild : childOf 0x2007#64 = some 2 ∧ childOf 0x3007#64 = some 3 ∧ childOf 0x4007#64 = some 4 := by decide
    simp [show vaPath 0x1000#64 = [0, 0, 0] by decide, tableAt, walk, subTable, fourTables, hchild]
  have hsub : ∀ f ∈ ts, (0, f) ∈ userOrder (fourTables e).mem 1 := by
    intro f hf
    rw [horder, (hpts f).mp hf]
    decide
  obtain ⟨hold, hnew⟩ := (source_leaf ht hapart hpass hsub (show (pml4Index 0x1000#64).val < 256 by decide)).1 4 htab
  rw [hrun, hold, hnew, cowIf, if_pos ((hpts 4).mpr rfl)]
  exact ⟨hfail, rfl, rfl⟩

end CloneAux

/-- A writable page: the failed clone gives everything back. -/
theorem clone_failure_four_tables :
    ((vmmCloneAddressSpace ⟨some 1, false⟩ ⟨some 7, false⟩).run (fourTables 0x5007#64)).1 = .noMem ∧
    ((vmmCloneAddressSpace ⟨some 1, false⟩ ⟨some 7, false⟩).run (fourTables 0x5007#64)).2.pmm.freeFrames = 3#64 := by
  have hno := (fourTables_clone fourTables_order).1
  have ht := fourTables_tree 0x5007#64
  exact ⟨hno, (clone_failure_gives_back _ _ _ 1 7 rfl rfl rfl (fourTables_used _ (by decide)) (fourTables_used _ (by decide))
    (by decide) ht.small (fourTables_fresh _) hno).2.1⟩

/-- A page that is read-only already stays as it is. -/
theorem clone_failure_read_only :
    ((vmmCloneAddressSpace ⟨some 1, false⟩ ⟨some 7, false⟩).run (fourTables 0x5005#64)).1 = .noMem ∧
    ∀ va, UserEntry (pml4Index va) →
      walkLeaf ((vmmCloneAddressSpace ⟨some 1, false⟩ ⟨some 7, false⟩).run (fourTables 0x5005#64)).2 1 va =
        walkLeaf (fourTables 0x5005#64) 1 va := by
  have horder : userOrder (fourTables 0x5005#64).mem 1 = [(2, 2), (1, 3), (0, 4), (2, 6)] := by decide +kernel
  have hno := (fourTables_clone horder).1
  refine ⟨hno, (clone_failure_source_iff _ _ _ 1 7 rfl rfl rfl (fourTables_tree _) (fourTables_used _ (by decide))
    (fourTables_apart _) (fourTables_fresh _) hno).mpr fun f hf j => ?_⟩
  -- the only page table is frame 4
  have hmem := mem_of_mem_take hf
  rw [horder] at hmem
  obtain rfl : f = 4 := by simpa using hmem
  by_cases hj : j = 1
  · rw [hj]
    unfold OwnWritable
    decide
  · simp [fourTables, hj, OwnWritable, hasFlag_zero]

/-- A page that its owner could write has become read-only and copy-on-write after a clone that failed. -/
theorem failed_clone_write_protects :
    ((vmmCloneAddressSpace ⟨some 1, false⟩ ⟨some 7, false⟩).run (fourTables 0x5007#64)).1 = .noMem ∧
    walkLeaf (fourTables 0x5007#64) 1 0x1000#64 = 0x5007#64 ∧
    walkLeaf ((vmmCloneAddressSpace ⟨some 1, false⟩ ⟨some 7, false⟩).run (fourTables 0x5007#64)).2 1 0x1000#64 = 0x5205#64 := by
  obtain ⟨hno, hold, hnew⟩ := fourTables_clone fourTables_order
  refine ⟨hno, hold, hnew.trans ?_⟩
  decide

end TsOs
