import TsOs.Lemmas.SpaceOps

/-!
# Creation and destruction of address spaces

`vmm_create_address_space` adds a tree with an empty user half; `vmm_destroy_address_space` frees the frames of one tree: its tables
and what its leaves map. The frames it frees are listed by `released`, from the content of memory alone.
-/

namespace TsOs

open Radix StateProg PteAux TableAux VmmRun WalkAux Function List BitVec Nat

variable {p0 : Pmm} {live : List Nat} {m m' : Vmm} {r : Nat}

/-! ## Creation -/

/-- The content of a new PML4: an empty user half and the kernel's half. -/
def newPml4 (m : Vmm) (i : Fin 512) : BitVec 64 := if 256 ≤ i.val then m.mem m.kernelPml4 i else 0#64

namespace LifeAux

theorem copyEntries_run (xs : List (Fin 512)) (m : Vmm) {n : Nat} (hn : m.kernelPml4 ≠ n) :
    (xs.forM fun i => do writeEntry n i (← readEntry (← get).kernelPml4 i) : VmmM Unit).run m =
      ((), { m with mem := update m.mem n fun i => if i ∈ xs then m.mem m.kernelPml4 i else m.mem n i }) := by
  induction xs generalizing m with
  | nil =>
    have : (fun i => if i ∈ ([] : List (Fin 512)) then m.mem m.kernelPml4 i else m.mem n i) = m.mem n := by
      funext i
      rw [if_neg not_mem_nil]
    rw [this, update_eq_self]
    rfl
  | cons x xs ih =>
    have hbody : ((do writeEntry n x (← readEntry (← get).kernelPml4 x) : VmmM Unit).run m).2 =
        m.store n x (m.mem m.kernelPml4 x) := rfl
    have hpage : (fun i => if i ∈ xs then (m.store n x (m.mem m.kernelPml4 x)).mem m.kernelPml4 i
        else (m.store n x (m.mem m.kernelPml4 x)).mem n i) =
        fun i => if i ∈ x :: xs then m.mem m.kernelPml4 i else m.mem n i := by
      funext i
      rw [store_mem, setEntry_of_ne (fun h => hn h.1)]
      by_cases hx : i = x
      · rw [hx, setEntry_self, ite_self, if_pos mem_cons_self]
      · rw [setEntry_of_ne (fun h => hx h.2)]
        simp only [mem_cons, hx, false_or]
    rw [run_forM_cons, hbody, ih _ (by exact hn), show (m.store n x (m.mem m.kernelPml4 x)).kernelPml4 = m.kernelPml4 from rfl,
      hpage]
    simp only [Vmm.store, setEntry, update_idem]

end LifeAux

open LifeAux

/-- `vmm_create_address_space` takes a free frame for a PML4 with an empty user half, unless there is none. -/
theorem createSpace_run (hi : m.initialized = true) (hk : ¬ m.pmm.Free m.kernelPml4) :
    ((m.pmm.initialized = true → ∀ f, ¬ m.pmm.Free f) ∧ vmmCreateAddressSpace.run m = ((.noMem, none), m)) ∨
    ∃ c, m.pmm.Free c ∧ vmmCreateAddressSpace.run m = ((.ok, some (.ofRoot c)), m.alloc c (newPml4 m)) := by
  rw [vmmCreateAddressSpace, bind_run (get_run m), hi]
  rw [if_neg (by simp)]
  rcases allocFrame_run m with ⟨hnone, hfull⟩ | ⟨c, hc, -, hne, hfr, hrun⟩
  · rw [bind_run hnone]
    exact .inl ⟨hfull, rfl⟩
  · refine .inr ⟨c, hc, ?_⟩
    have hkc : m.kernelPml4 ≠ c := fun h => hk (h ▸ hc)
    rw [bind_run hrun, if_neg hne, hfr, bind_run (zeroPage_run _ c), bind_run (copyEntries_run _ _ (by exact hkc))]
    simp only [Vmm.alloc, update_idem]
    have hpage : (fun i => if i ∈ allEntries.filter (fun i => 256 ≤ i.val)
        then update m.mem c (fun _ => 0#64) m.kernelPml4 i else update m.mem c (fun _ => 0#64) c i) =
        newPml4 m := by
      funext i
      rw [update_of_ne hkc, newPml4]
      simp [allEntries]
    rw [hpage]
    rfl

/-- When it returns an address space, that has the frame it took. -/
theorem createSpace_eq (hi : m.initialized = true) (hk : ¬ m.pmm.Free m.kernelPml4) {as : AddressSpace}
    (h : (vmmCreateAddressSpace.run m).1.2 = some as) :
    ∃ c, m.pmm.Free c ∧ as = .ofRoot c ∧ vmmCreateAddressSpace.run m = ((.ok, some as), m.alloc c (newPml4 m)) := by
  rcases createSpace_run hi hk with ⟨-, hrun⟩ | ⟨c, hc, hrun⟩
  · rw [hrun] at h
    cases h
  · rw [hrun] at h
    cases h
    exact ⟨c, hc, rfl, hrun⟩

variable {f : Nat} {i : Fin 512} {p : List (Fin 512)}

namespace LifeAux

theorem newPml4_user (m : Vmm) (hi : i.val < 256) : hasFlag (newPml4 m i) ptePresent = false := by
  rw [newPml4, if_neg (by omega), hasFlag_zero]

variable {c : Nat}

theorem created_tables (hp : TablePath 256 p) (hf : tableAt (m.alloc c (newPml4 m)).mem c p = some f) : p = [] ∧ f = c := by
  refine tableAt_of_empty (fun i hi => ?_) hp hf
  rw [show (m.alloc c (newPml4 m)).mem c = newPml4 m from update_self _ _ _]
  exact newPml4_user m hi

theorem created_leaf (hp : LeafPath p) (i : Fin 512) :
    entryAt (m.alloc c (newPml4 m)).mem c p i = 0#64 := by
  cases hf : tableAt (m.alloc c (newPml4 m)).mem c p with
  | none => exact entryAt_none hf i
  | some f =>
    have := hp.2
    rw [(created_tables hp.1 hf).1] at this
    cases this

/-- A new address space maps nothing. -/
theorem created_empty (p : List (Fin 512)) (i : Fin 512) (f : Nat) : ¬ Maps (m.alloc c (newPml4 m)).mem c p i f := by
  intro hm
  have := hm.2.1
  rw [created_leaf hm.1] at this
  cases this

/-- With the new address space the tables are the old ones and the new PML4, and the mappings the old ones. -/
theorem created_cases (h : Spaces p0 live m) (hc : m.pmm.Free c) {r' : Nat} (hr' : r' ∈ c :: live) :
    r' = c ∨ r' ∈ live ∧ ∀ p, TablePath 256 p → tableAt (m.alloc c (newPml4 m)).mem r' p = tableAt m.mem r' p ∧
      ∀ i, entryAt (m.alloc c (newPml4 m)).mem r' p i = entryAt m.mem r' p i := by
  rcases mem_cons.mp hr' with rfl | hr'
  · exact .inl rfl
  · exact .inr ⟨hr', fun p hp => Spaces.same_view (h.alloc_tables hc _) hr' hp⟩

theorem created_isTable (h : Spaces p0 live m) (hc : m.pmm.Free c) (f : Nat) :
    IsTable (c :: live) (m.alloc c (newPml4 m)).mem f ↔ f = c ∨ IsTable live m.mem f := by
  constructor
  · rintro ⟨r', hr', p, hp, ht⟩
    rcases created_cases h hc hr' with rfl | ⟨hold, hview⟩
    · exact .inl (created_tables hp ht).2
    · exact .inr ⟨r', hold, p, hp, (hview p hp).1.symm.trans ht⟩
  · rintro (rfl | ⟨r', hr', p, hp, ht⟩)
    · exact ⟨f, mem_cons_self, [], .nil 256, rfl⟩
    · exact ⟨r', mem_cons_of_mem c hr', p, hp, (Spaces.same_view (h.alloc_tables hc _) hr' hp).1.trans ht⟩

theorem created_maps (h : Spaces p0 live m) (hc : m.pmm.Free c) {r' : Nat} (hr' : r' ∈ c :: live)
    (hm : Maps (m.alloc c (newPml4 m)).mem r' p i f) :
    r' ∈ live ∧ Maps m.mem r' p i f ∧ entryAt (m.alloc c (newPml4 m)).mem r' p i = entryAt m.mem r' p i := by
  rcases created_cases h hc hr' with rfl | ⟨hold, hview⟩
  · exact absurd hm (created_empty p i f)
  · have heq := (hview p hm.1.1).2 i
    exact ⟨hold, ⟨hm.1, heq ▸ hm.2⟩, heq⟩

end LifeAux

theorem Spaces.create (h : Spaces p0 live m) {c : Nat} (hc : m.pmm.Free c) :
    Spaces p0 (c :: live) (m.alloc c (newPml4 m)) := by
  have hused := Spaces.alloc_isUsed (m := m) (g := c) (newPml4 m)
  refine h.of_maps (h.alloc hc _).toGround ?_ ?_ ?_ ?_ ?_ id ?_ ?_
  · apply tables_of_distinct
    intro r1 hr1 r2 hr2 p q f hp hq hf hf'
    rcases created_cases h hc hr1 with rfl | ⟨hold1, hview1⟩
    · obtain ⟨rfl, rfl⟩ := created_tables hp hf
      rcases created_cases h hc hr2 with rfl | ⟨hold2, hview2⟩
      · exact ⟨rfl, (created_tables hq hf').1.symm⟩
      · rw [(hview2 q hq).1] at hf'
        exact absurd ⟨r2, hold2, q, hq, hf'⟩ (h.not_table_of_free hc)
    · rw [(hview1 p hp).1] at hf
      rcases created_cases h hc hr2 with rfl | ⟨hold2, hview2⟩
      · obtain ⟨-, rfl⟩ := created_tables hq hf'
        exact absurd ⟨r1, hold1, p, hp, hf⟩ (h.not_table_of_free hc)
      · rw [(hview2 q hq).1] at hf'
        exact h.tables.distinct r1 r2 p q f ⟨hold1, hp⟩ ⟨hold2, hq⟩ hf hf'
  · intro f hf
    rcases (created_isTable h hc f).mp hf with rfl | hold
    · exact ⟨h.free_of_free hc, (hused f).mpr (.inl rfl)⟩
    · exact ⟨(h.owned f hold).1, (hused f).mpr (.inr (h.owned f hold).2)⟩
  · intro r' hr' p i hp hpres
    rcases created_cases h hc hr' with rfl | ⟨hold, hview⟩
    · cases hf : tableAt (m.alloc r' (newPml4 m)).mem r' p with
      | none =>
        rw [entryAt_none hf] at hpres
        cases hpres
      | some f =>
        obtain ⟨rfl, rfl⟩ := created_tables hp.of_append hf
        rw [entryAt_eq hf, show (m.alloc f (newPml4 m)).mem f = newPml4 m from update_self _ _ _,
          newPml4_user m (hp.2 i rfl)] at hpres
        cases hpres
    · rw [(hview p hp.of_append).2 i] at hpres ⊢
      exact h.small r' hold p i hp hpres
  · intro r' hr' p i hp
    rcases created_cases h hc hr' with rfl | ⟨hold, hview⟩
    · rw [created_leaf hp]
      exact LeafOk.zero
    · rw [(hview p hp.1).2 i]
      exact h.leaf r' hold p i hp
  · intro f hold _
    obtain ⟨-, hu, hnt⟩ := h.mapped f hold
    refine ⟨(hused f).mpr (.inr hu), fun ht => ?_⟩
    rcases (created_isTable h hc f).mp ht with rfl | ht'
    · exact h.not_mapped_of_free hc hold
    · exact hnt ht'
  · intro r' hr' p i f hm
    obtain ⟨hold, hm', -⟩ := created_maps h hc hr' hm
    exact ⟨hold, hm'⟩
  · intro r' hr' p i f hm hw
    obtain ⟨-, -, heq⟩ := created_maps h hc hr' hm
    rw [heq] at hw
    exact ⟨hw, fun _ _ _ h => h⟩

theorem Accounted.create {X : Nat → Prop} (h : Spaces p0 live m) (ha : Accounted p0 live X m) {c : Nat} (hc : m.pmm.Free c) :
    Accounted p0 (c :: live) X (m.alloc c (newPml4 m)) := by
  constructor
  · intro r' hr' p i hp
    rcases created_cases h hc hr' with rfl | ⟨hold, hview⟩
    · rw [created_leaf hp, hasFlag_zero]
    · rw [(hview p hp.1).2 i]
      exact ha.noCow r' hold p i hp
  · intro f hf
    rw [created_isTable h hc]
    rcases (Spaces.alloc_isUsed _ f).mp hf with hfc | hu
    · exact .inr (.inl (.inl hfc))
    · rcases ha.frames f hu with hbase | htab | ⟨r', hr', p, i, hm⟩ | hx
      · exact .inl hbase
      · exact .inr (.inl (.inr htab))
      · refine .inr (.inr (.inl ⟨r', mem_cons_of_mem c hr', p, i, ?_⟩))
        exact (Spaces.maps_iff_of_same_tables (h.alloc_tables hc _) hr' p i f).mpr hm
      · exact .inr (.inr (.inr hx))

/-! ## Destruction -/

/-- The frames that `destroyTable` frees, in order. -/
def released (mem : Nat → Fin 512 → BitVec 64) : Nat → Nat → List Nat
  | 0, t => allEntries.flatMap fun i => if hasFlag (mem t i) ptePresent then [pteFrame (mem t i)] else []
  | level + 1, t =>
    allEntries.flatMap fun i =>
      if hasFlag (mem t i) ptePresent then
        if hasFlag (mem t i) ptePs then [pteFrame (mem t i)] else released mem level (pteFrame (mem t i)) ++ [pteFrame (mem t i)]
      else []

namespace LifeAux

theorem forM_drops {body : Fin 512 → VmmM Unit} {g : Fin 512 → List Nat} {mem : Nat → Fin 512 → BitVec 64}
    (hbody : ∀ i m, m.mem = mem → (body i).run m = ((), { m with pmm := m.pmm.dropAll (g i) })) (xs : List (Fin 512)) (m : Vmm)
    (hm : m.mem = mem) : (xs.forM body).run m = ((), { m with pmm := m.pmm.dropAll (xs.flatMap g) }) := by
  induction xs generalizing m with
  | nil => rfl
  | cons x xs ih =>
    rw [run_forM_cons, hbody x m hm, ih _ (by exact hm), flatMap_cons, Pmm.dropAll_append]

/-- `destroyTable` frees the frames of `released` and writes nothing. -/
theorem destroyTable_run (level t : Nat) (m : Vmm) :
    (destroyTable level t).run m = ((), { m with pmm := m.pmm.dropAll (released m.mem level t) }) := by
  induction level generalizing t m with
  | zero =>
    refine forM_drops (fun i m' hm' => ?_) allEntries m rfl
    rw [bind_run (readEntry_run m' t i), ← hm']
    cases hasFlag (m'.mem t i) ptePresent with
    | false => rfl
    | true => exact freeFrame_pteAddr_run m' _
  | succ level ih =>
    refine forM_drops (fun i m' hm' => ?_) allEntries m rfl
    rw [bind_run (readEntry_run m' t i), ← hm']
    cases hasFlag (m'.mem t i) ptePresent with
    | false => rfl
    | true =>
      rw [if_neg (by simp), if_pos rfl]
      cases hasFlag (m'.mem t i) ptePs with
      | true => exact freeFrame_pteAddr_run m' _
      | false =>
        rw [if_neg (by simp), if_neg (by simp), bind_run (ih _ m'), freeFrame_pteAddr_run, Pmm.dropAll_append,
          Pmm.dropAll_singleton]
        rfl

variable {mem mem' : Nat → Fin 512 → BitVec 64}

variable {t : Nat}

theorem tableAt_cons (hp : hasFlag (mem t i) ptePresent = true) (hs : hasFlag (mem t i) ptePs = false)
    (p : List (Fin 512)) : tableAt mem t (i :: p) = tableAt mem (pteFrame (mem t i)) p := by
  rw [tableAt, walk_cons, subTable, childOf_present hp hs]
  rfl

theorem entryAt_cons (hp : hasFlag (mem t i) ptePresent = true) (hs : hasFlag (mem t i) ptePs = false)
    (p : List (Fin 512)) (j : Fin 512) : entryAt mem t (i :: p) j = entryAt mem (pteFrame (mem t i)) p j := by
  rw [entryAt, entryAt, tableAt_cons hp hs]

theorem present_of_tableAt (h : tableAt mem t (i :: p) = some f) :
    hasFlag (mem t i) ptePresent = true ∧ hasFlag (mem t i) ptePs = false := by
  rw [tableAt, walk_cons, subTable] at h
  cases hc : childOf (mem t i) with
  | none =>
    rw [hc] at h
    cases h
  | some c => exact ⟨(childOf_some hc).1, (childOf_some hc).2.1⟩

theorem present_of_entryAt {j : Fin 512} (h : hasFlag (entryAt mem t (i :: p) j) ptePresent = true) :
    hasFlag (mem t i) ptePresent = true ∧ hasFlag (mem t i) ptePs = false := by
  cases ht : tableAt mem t (i :: p) with
  | none =>
    rw [entryAt_none ht] at h
    cases h
  | some f => exact present_of_tableAt ht

/-- The list depends on the tables that are walked. -/
theorem released_congr {level : Nat} (h : ∀ p f, p.length ≤ level → tableAt mem t p = some f → mem' f = mem f) :
    released mem' level t = released mem level t := by
  induction level generalizing t with
  | zero =>
    have ht : mem' t = mem t := h [] t (le_refl 0) rfl
    rw [released, released, ht]
  | succ level ih =>
    have ht : mem' t = mem t := h [] t (zero_le _) rfl
    have hsub : ∀ i, hasFlag (mem t i) ptePresent = true → hasFlag (mem t i) ptePs = false →
        released mem' level (pteFrame (mem t i)) = released mem level (pteFrame (mem t i)) := by
      intro i hp hs
      refine ih fun p f hlen hf => h (i :: p) f (succ_le_succ hlen) ?_
      rw [tableAt_cons hp hs]
      exact hf
    rw [released, ht]
    refine congrArg allEntries.flatMap (funext fun i => ?_)
    cases hp : hasFlag (mem t i) ptePresent with
    | false => rw [if_neg Bool.false_ne_true, if_neg Bool.false_ne_true]
    | true =>
      cases hs : hasFlag (mem t i) ptePs with
      | true => rw [if_pos rfl, if_pos rfl, if_pos rfl, if_pos rfl]
      | false => rw [hsub i hp hs]

theorem mem_released_zero :
    f ∈ released mem 0 t ↔ ∃ i, hasFlag (mem t i) ptePresent = true ∧ pteFrame (mem t i) = f := by
  simp only [released, mem_flatMap]
  constructor
  · rintro ⟨i, -, hf⟩
    split at hf
    · next hp => exact ⟨i, hp, (mem_singleton.mp hf).symm⟩
    · exact absurd hf not_mem_nil
  · rintro ⟨i, hp, hf⟩
    refine ⟨i, mem_finRange i, ?_⟩
    rw [if_pos hp]
    exact mem_singleton.mpr hf.symm

theorem mem_released_succ {level : Nat}
    (hsmall : ∀ i, hasFlag (mem t i) ptePresent = true → hasFlag (mem t i) ptePs = false) :
    f ∈ released mem (level + 1) t ↔
      ∃ i, hasFlag (mem t i) ptePresent = true ∧ (f ∈ released mem level (pteFrame (mem t i)) ∨ f = pteFrame (mem t i)) := by
  have hentry : ∀ i, hasFlag (mem t i) ptePresent = true → ¬ hasFlag (mem t i) ptePs = true := by
    intro i hp
    rw [hsmall i hp]
    exact Bool.false_ne_true
  simp only [released, mem_flatMap]
  constructor
  · rintro ⟨i, -, hf⟩
    split at hf
    · next hp =>
      rw [if_neg (hentry i hp), mem_append, mem_singleton] at hf
      exact ⟨i, hp, hf⟩
    · exact absurd hf not_mem_nil
  · rintro ⟨i, hp, hf⟩
    refine ⟨i, mem_finRange i, ?_⟩
    rw [if_pos hp, if_neg (hentry i hp), mem_append, mem_singleton]
    exact hf

/-- In a tree without huge pages the list holds the tables below `t` and the frames that leaves map. -/
theorem mem_released {level : Nat}
    (hsmall : ∀ p i, p.length < level → hasFlag (entryAt mem t p i) ptePresent = true → hasFlag (entryAt mem t p i) ptePs = false)
    (f : Nat) :
    f ∈ released mem level t ↔
      (∃ p, p ≠ [] ∧ p.length ≤ level ∧ tableAt mem t p = some f) ∨
      ∃ p i, p.length = level ∧ hasFlag (entryAt mem t p i) ptePresent = true ∧ pteFrame (entryAt mem t p i) = f := by
  induction level generalizing t with
  | zero =>
    rw [mem_released_zero]
    constructor
    · rintro ⟨i, hp, hf⟩
      exact .inr ⟨[], i, rfl, hp, hf⟩
    · rintro (⟨p, hne, hlen, -⟩ | ⟨p, i, hlen, hp, hf⟩)
      · exact absurd (eq_nil_of_length_eq_zero (le_zero.mp hlen)) hne
      · obtain rfl := eq_nil_of_length_eq_zero hlen
        exact ⟨i, hp, hf⟩
  | succ level ih =>
    have hroot : ∀ i, hasFlag (mem t i) ptePresent = true → hasFlag (mem t i) ptePs = false :=
      fun i => hsmall [] i (succ_pos level)
    have hsub : ∀ i, hasFlag (mem t i) ptePresent = true → ∀ p j, p.length < level →
        hasFlag (entryAt mem (pteFrame (mem t i)) p j) ptePresent = true →
        hasFlag (entryAt mem (pteFrame (mem t i)) p j) ptePs = false := by
      intro i hp p j hlen
      rw [← entryAt_cons hp (hroot i hp)]
      exact hsmall (i :: p) j (succ_lt_succ hlen)
    rw [mem_released_succ hroot]
    constructor
    · rintro ⟨i, hp, hf | rfl⟩
      · rcases (ih (hsub i hp)).mp hf with ⟨p, -, hlen, ht⟩ | ⟨p, j, hlen, hp', hf'⟩
        · exact .inl ⟨i :: p, cons_ne_nil i p, succ_le_succ hlen, (tableAt_cons hp (hroot i hp) p).trans ht⟩
        · rw [← entryAt_cons hp (hroot i hp)] at hp' hf'
          exact .inr ⟨i :: p, j, congrArg succ hlen, hp', hf'⟩
      · exact .inl ⟨[i], cons_ne_nil i [], succ_le_succ (zero_le level), tableAt_cons hp (hroot i hp) []⟩
    · rintro (⟨p, hne, hlen, ht⟩ | ⟨p, j, hlen, hp', hf'⟩)
      · obtain ⟨i, p, rfl⟩ := exists_cons_of_ne_nil hne
        obtain ⟨hp, hs⟩ := present_of_tableAt ht
        rw [tableAt_cons hp hs] at ht
        refine ⟨i, hp, ?_⟩
        by_cases hnil : p = []
        · subst hnil
          exact .inr (Option.some.inj ht).symm
        · exact .inl ((ih (hsub i hp)).mpr (.inl ⟨p, hnil, le_of_succ_le_succ hlen, ht⟩))
      · obtain ⟨i, p, rfl⟩ := exists_cons_of_length_eq_add_one hlen
        obtain ⟨hp, hs⟩ := present_of_entryAt hp'
        rw [entryAt_cons hp hs] at hp' hf'
        exact ⟨i, hp, .inl ((ih (hsub i hp)).mpr (.inr ⟨p, j, succ.inj hlen, hp', hf'⟩))⟩

/-- The frames freed for entry `i` of the PML4 `r`. -/
def releasedBelow (mem : Nat → Fin 512 → BitVec 64) (r : Nat) (i : Fin 512) : List Nat :=
  if hasFlag (mem r i) ptePresent then released mem 2 (pteFrame (mem r i)) ++ [pteFrame (mem r i)] else []

theorem user_path (hi : i.val < 256) (hp : p.length ≤ 2) : TablePath 256 (i :: p) := by
  refine ⟨succ_le_succ hp, ?_⟩
  rintro j ⟨⟩
  exact hi

variable (h : Spaces p0 live m) (hr : r ∈ live)
include h hr

/-- An entry of the user half is never one of the kernel's PML4. -/
theorem entry_ne_kernel (hi : i.val < 256)
    (hp : hasFlag (m.mem r i) ptePresent = true) : m.mem r i ≠ m.mem m.kernelPml4 i := by
  intro heq
  have hpath : TablePath 256 ([] ++ [i]) := user_path hi (zero_le 2)
  obtain ⟨-, ht⟩ := PruneAux.next_table h hr hpath (tableAt_nil r) hp
  have hfree := (h.owned _ ⟨r, hr, _, hpath, ht⟩).1
  rw [heq] at hp hfree
  exact h.kernelUser i hi hp hfree

/-- The tables below an entry of the PML4 are not the PML4. -/
theorem released_below_congr (hi : i.val < 256)
    (hp : hasFlag (m.mem r i) ptePresent = true) (hmem : ∀ f, f ≠ r → mem' f = m.mem f) :
    released mem' 2 (pteFrame (m.mem r i)) = released m.mem 2 (pteFrame (m.mem r i)) := by
  have hpath : TablePath 256 ([] ++ [i]) := user_path hi (zero_le 2)
  obtain ⟨hs, -⟩ := PruneAux.next_table h hr hpath (tableAt_nil r) hp
  refine released_congr fun p f hlen hf => hmem f ?_
  rintro rfl
  rw [← tableAt_cons hp hs] at hf
  have := h.root_unique hr (user_path hi hlen) hr hf
  cases this.2

/-- The body of the loop of `vmm_destroy_address_space` over the PML4. -/
def destroyEntry (r : Nat) (i : Fin 512) : VmmM Unit := do
  let entry ← readEntry r i
  if !hasFlag entry ptePresent then return ()
  else if entry = (← readEntry (← get).kernelPml4 i) then return ()
  else
    destroyTable 2 (frameOf (pteAddr entry))
    freeFrame (pteAddr entry)
    writeEntry r i 0#64

/-- One turn of the loop, in a state that differs from `m` only in frames that were freed and in the PML4. -/
theorem destroyEntry_run (hi : i.val < 256) {m1 : Vmm}
    (hkernel : m1.kernelPml4 = m.kernelPml4) (hmem : ∀ f, f ≠ r → m1.mem f = m.mem f) (hentry : m1.mem r i = m.mem r i) :
    ∃ mem', (destroyEntry r i).run m1 =
        ((), { m1 with pmm := m1.pmm.dropAll (releasedBelow m.mem r i), mem := mem' }) ∧
      (∀ f, f ≠ r → mem' f = m1.mem f) ∧ ∀ j, j ≠ i → mem' r j = m1.mem r j := by
  have hread : (readEntry r i).run m1 = (m.mem r i, m1) := by rw [readEntry_run, hentry]
  rw [destroyEntry, bind_run hread, releasedBelow]
  cases hp : hasFlag (m.mem r i) ptePresent with
  | false => exact ⟨m1.mem, rfl, fun _ _ => rfl, fun _ _ => rfl⟩
  | true =>
    have hkread : (readEntry m1.kernelPml4 i).run m1 = (m.mem m.kernelPml4 i, m1) := by
      rw [readEntry_run, hkernel, hmem]
      intro hk
      exact h.kernel_not_table ⟨r, hr, [], .nil 256, congrArg some hk.symm⟩
    have hframe : frameOf (pteAddr (m.mem r i)) = pteFrame (m.mem r i) := rfl
    rw [if_neg (by simp), if_pos rfl, bind_run (get_run m1), bind_run hkread, if_neg (entry_ne_kernel h hr hi hp),
      hframe, bind_run (destroyTable_run 2 _ m1), bind_run (freeFrame_pteAddr_run _ _), writeEntry_run,
      ← released_below_congr h hr hi hp hmem, Pmm.dropAll_append, Pmm.dropAll_singleton]
    generalize released m1.mem 2 (pteFrame (m.mem r i)) = fs
    exact ⟨setEntry m1.mem r i 0#64, rfl, fun f hf => funext fun j => setEntry_of_ne (fun hfj => hf hfj.1),
      fun j hj => setEntry_of_ne (fun hrj => hj hrj.2)⟩

/-- The loop of `vmm_destroy_address_space` over the PML4. -/
theorem destroyLoop_run (xs : List (Fin 512)) (hnodup : xs.Nodup)
    (hxs : ∀ i ∈ xs, i.val < 256) (m1 : Vmm) (hkernel : m1.kernelPml4 = m.kernelPml4) (hmem : ∀ f, f ≠ r → m1.mem f = m.mem f)
    (hentries : ∀ i ∈ xs, m1.mem r i = m.mem r i) :
    ∃ mem', (xs.forM (destroyEntry r)).run m1 =
        ((), { m1 with pmm := m1.pmm.dropAll (xs.flatMap (releasedBelow m.mem r)), mem := mem' }) ∧
      ∀ f, f ≠ r → mem' f = m.mem f := by
  induction xs generalizing m1 with
  | nil => exact ⟨m1.mem, rfl, hmem⟩
  | cons i xs ih =>
    obtain ⟨hnot, hnodup'⟩ := nodup_cons.mp hnodup
    obtain ⟨mem2, hrun, hoff, hother⟩ :=
      destroyEntry_run h hr (hxs i mem_cons_self) hkernel hmem (hentries i mem_cons_self)
    rw [run_forM_cons, hrun, flatMap_cons, Pmm.dropAll_append]
    refine ih hnodup' (fun j hj => hxs j (mem_cons_of_mem i hj)) _ hkernel ?_ ?_
    · exact fun f hf => (hoff f hf).trans (hmem f hf)
    · intro j hj
      refine (hother j ?_).trans (hentries j (mem_cons_of_mem i hj))
      rintro rfl
      exact hnot hj

omit h hr in
theorem mem_userEntries (i : Fin 512) : i ∈ userEntries ↔ i.val < 256 := by
  rw [userEntries, mem_filter, decide_eq_true_eq]
  exact and_iff_right (mem_finRange i)

/-- What is freed for the user half: the tables but for the PML4, and the frames that leaves map. -/
theorem mem_releasedBelow (f : Nat) :
    f ∈ userEntries.flatMap (releasedBelow m.mem r) ↔
      (∃ p, p ≠ [] ∧ TablePath 256 p ∧ tableAt m.mem r p = some f) ∨ ∃ p i, Maps m.mem r p i f := by
  have hsmall : ∀ i : Fin 512, i.val < 256 → hasFlag (m.mem r i) ptePresent = true → hasFlag (m.mem r i) ptePs = false :=
    fun i hi => h.small r hr [] i (user_path hi (zero_le 2))
  have hsub : ∀ i : Fin 512, i.val < 256 → hasFlag (m.mem r i) ptePresent = true → ∀ p j, p.length < 2 →
      hasFlag (entryAt m.mem (pteFrame (m.mem r i)) p j) ptePresent = true →
      hasFlag (entryAt m.mem (pteFrame (m.mem r i)) p j) ptePs = false := by
    intro i hi hp p j hlen
    rw [← entryAt_cons hp (hsmall i hi hp)]
    have hlen' : (p ++ [j]).length ≤ 2 := by
      rw [length_append]
      exact succ_le_of_lt hlen
    exact h.small r hr (i :: p) j (user_path hi hlen')
  rw [mem_flatMap]
  constructor
  · rintro ⟨i, hi, hf⟩
    rw [mem_userEntries] at hi
    rw [releasedBelow] at hf
    split at hf
    · next hp =>
      rw [mem_append, mem_singleton, mem_released (hsub i hi hp)] at hf
      rcases hf with (⟨p, -, hlen, ht⟩ | ⟨p, j, hlen, hp', hf'⟩) | rfl
      · exact .inl ⟨i :: p, cons_ne_nil i p, user_path hi hlen, (tableAt_cons hp (hsmall i hi hp) p).trans ht⟩
      · rw [← entryAt_cons hp (hsmall i hi hp)] at hp' hf'
        exact .inr ⟨i :: p, j, ⟨user_path hi (le_of_eq hlen), congrArg succ hlen⟩, hp', hf'⟩
      · exact .inl ⟨[i], cons_ne_nil i [], user_path hi (zero_le 2), tableAt_cons hp (hsmall i hi hp) []⟩
    · exact absurd hf not_mem_nil
  · have hback : ∀ i : Fin 512, i.val < 256 → hasFlag (m.mem r i) ptePresent = true →
        f ∈ released m.mem 2 (pteFrame (m.mem r i)) ∨ f = pteFrame (m.mem r i) →
        ∃ j ∈ userEntries, f ∈ releasedBelow m.mem r j := by
      intro i hi hp hf
      refine ⟨i, (mem_userEntries i).mpr hi, ?_⟩
      rw [releasedBelow, if_pos hp, mem_append, mem_singleton]
      exact hf
    rintro (⟨p, hne, hpath, ht⟩ | ⟨p, j, hleaf, hp', hf'⟩)
    · obtain ⟨i, p, rfl⟩ := exists_cons_of_ne_nil hne
      obtain ⟨hp, hs⟩ := present_of_tableAt ht
      rw [tableAt_cons hp hs] at ht
      have hi := hpath.2 i rfl
      refine hback i hi hp ?_
      by_cases hnil : p = []
      · subst hnil
        exact .inr (Option.some.inj ht).symm
      · exact .inl ((mem_released (hsub i hi hp) f).mpr (.inl ⟨p, hnil, le_of_succ_le_succ hpath.1, ht⟩))
    · obtain ⟨i, p, rfl⟩ := exists_cons_of_length_eq_add_one hleaf.2
      obtain ⟨hp, hs⟩ := present_of_entryAt hp'
      rw [entryAt_cons hp hs] at hp' hf'
      have hi := hleaf.1.2 i rfl
      exact hback i hi hp (.inl ((mem_released (hsub i hi hp) f).mpr (.inr ⟨p, j, succ.inj hleaf.2, hp', hf'⟩)))

end LifeAux

variable (h : Spaces p0 live m) (hr : r ∈ live)
include h hr

/-- `vmm_destroy_address_space` frees the tables of the tree and the frames its leaves map, and writes to no other frame than the
PML4. -/
theorem destroySpace_run :
    ∃ fs mem', (vmmDestroyAddressSpace (.ofRoot r)).run m =
        ((.ok, { pml4 := none, isKernel := false }), { m with pmm := m.pmm.dropAll fs, mem := mem' }) ∧
      (∀ f, f ≠ r → mem' f = m.mem f) ∧
      ∀ f, f ∈ fs ↔ (∃ p, TablePath 256 p ∧ tableAt m.mem r p = some f) ∨ ∃ p i, Maps m.mem r p i f := by
  have hnodup : userEntries.Nodup := (nodup_finRange 512).filter _
  obtain ⟨mem', hrun, hmem⟩ := destroyLoop_run h hr userEntries hnodup (fun i hi => (mem_userEntries i).mp hi) m rfl
    (fun _ _ => rfl) (fun _ _ => rfl)
  obtain ⟨hfree, -⟩ := h.owned r ⟨r, hr, [], .nil 256, rfl⟩
  have hlt : r < 2 ^ 40 := by
    have := hfree.2.1
    have := p0.total_le
    simp only [pmmMaxFrames] at this
    omega
  refine ⟨userEntries.flatMap (releasedBelow m.mem r) ++ [r], mem', ?_, hmem, fun f => ?_⟩
  · have hbody : vmmDestroyAddressSpace (.ofRoot r) = (do
        if !(← get).initialized then return (.notInit, .ofRoot r)
        else
          userEntries.forM (destroyEntry r)
          freeFrame (frameAddr r)
          return (.ok, { pml4 := none, isKernel := false })) := rfl
    rw [hbody, bind_run (get_run m), if_neg (by rw [h.init]; simp), bind_run hrun,
      bind_run (freeFrame_run _ hlt), Pmm.dropAll_append, Pmm.dropAll_singleton]
    generalize userEntries.flatMap (releasedBelow m.mem r) = fs
    rfl
  · rw [mem_append, mem_singleton, mem_releasedBelow h hr]
    constructor
    · rintro ((⟨p, -, hp, ht⟩ | hm) | rfl)
      · exact .inl ⟨p, hp, ht⟩
      · exact .inr hm
      · exact .inl ⟨[], .nil 256, rfl⟩
    · rintro (⟨p, hp, ht⟩ | hm)
      · by_cases hnil : p = []
        · subst hnil
          exact .inr (Option.some.inj ht).symm
        · exact .inl (.inl ⟨p, hnil, hp, ht⟩)
      · exact .inl (.inr hm)

theorem vmmDestroyAddressSpace_used :
    ∃ m', (vmmDestroyAddressSpace (.ofRoot r)).run m = ((.ok, { pml4 := none, isKernel := false }), m') ∧
      ∀ f, m'.pmm.isUsed f = true ↔ m.pmm.isUsed f = true ∧
        ¬ ((∃ p, TablePath 256 p ∧ tableAt m.mem r p = some f) ∨ ∃ p i, Maps m.mem r p i f) := by
  obtain ⟨fs, mem', hrun, -, hfs⟩ := destroySpace_run h hr
  have hin : ∀ f ∈ fs, 0 < f ∧ f < m.pmm.totalFrames := by
    intro f hf
    have hfree : p0.Free f := by
      rcases (hfs f).mp hf with ⟨p, hp, ht⟩ | ⟨p, i, hm⟩
      · exact (h.owned f ⟨r, hr, p, hp, ht⟩).1
      · exact (h.mapped f ⟨r, hr, p, i, hm⟩).1
    exact ⟨hfree.1, h.total ▸ hfree.2.1⟩
  refine ⟨_, hrun, fun f => ?_⟩
  rw [← hfs f]
  exact (Pmm.dropAll_spec h.pmmInit fs hin).2.2 f

/-- The frames that `r` maps are mapped by no other address space. -/
def MapsAlone (live : List Nat) (r : Nat) (m : Vmm) : Prop :=
  ∀ f, (∃ p i, Maps m.mem r p i f) → ∀ r' ∈ live, (∃ p i, Maps m.mem r' p i f) → r' = r

omit hr in
/-- The invariant for some of the address spaces. -/
theorem Spaces.sub {live' : List Nat} (hsub : ∀ r ∈ live', r ∈ live) : Spaces p0 live' m := by
  have htab : ∀ f, IsTable live' m.mem f → IsTable live m.mem f := by
    rintro f ⟨r, hr, ht⟩
    exact ⟨r, hsub r hr, ht⟩
  refine h.of_maps h.toGround ?_ (fun f hf => h.owned f (htab f hf)) (fun r hr => h.small r (hsub r hr))
    (fun r hr => h.leaf r (hsub r hr)) ?_ id (fun r hr p i f hm => ⟨hsub r hr, hm⟩) (fun r hr p i f _ hw => ⟨hw, fun _ _ _ h => h⟩)
  · exact tables_of_sub h.tables fun r hr p f _ hf => ⟨hsub r hr, hf⟩
  · intro f hold _
    obtain ⟨-, hu, hnt⟩ := h.mapped f hold
    exact ⟨hu, fun ht => hnt (htab f ht)⟩

/-- Destruction frees exactly the frames of the tree, and keeps the invariant of the other address spaces if none of them maps a
frame of it. -/
theorem destroySpace_spaces (halone : MapsAlone live r m) :
    ∃ m', (vmmDestroyAddressSpace (.ofRoot r)).run m = ((.ok, { pml4 := none, isKernel := false }), m') ∧
      Spaces p0 (live.filter (· ≠ r)) m' ∧
      ∀ f, m'.pmm.isUsed f = true ↔ m.pmm.isUsed f = true ∧
        ¬ ((∃ p, TablePath 256 p ∧ tableAt m.mem r p = some f) ∨ ∃ p i, Maps m.mem r p i f) := by
  obtain ⟨fs, mem', hrun, hmem, hfs⟩ := destroySpace_run h hr
  have hin : ∀ f ∈ fs, p0.Free f := by
    intro f hf
    rcases (hfs f).mp hf with ⟨p, hp, ht⟩ | ⟨p, i, hm⟩
    · exact (h.owned f ⟨r, hr, p, hp, ht⟩).1
    · exact (h.mapped f ⟨r, hr, p, i, hm⟩).1
  obtain ⟨hinit, htotal, hused⟩ := Pmm.dropAll_spec h.pmmInit fs
    (fun f hf => ⟨(hin f hf).1, h.total ▸ (hin f hf).2.1⟩)
  have hlive : ∀ r' ∈ live.filter (· ≠ r), r' ∈ live ∧ r' ≠ r := by
    intro r' hr'
    rw [mem_filter, decide_eq_true_eq] at hr'
    exact hr'
  -- the frames of the other address spaces are not among the freed ones
  have hother : ∀ f, IsTable (live.filter (· ≠ r)) m.mem f ∨ IsMapped (live.filter (· ≠ r)) m.mem f → f ∉ fs := by
    intro f hf hmemfs
    rcases (hfs f).mp hmemfs with ⟨p, hp, ht⟩ | ⟨p, i, hm⟩
    · rcases hf with ⟨r', hr', q, hq, ht'⟩ | ⟨r', hr', q, j, hm'⟩
      · exact (hlive r' hr').2 (h.tables.distinct _ _ _ _ _ ⟨(hlive r' hr').1, hq⟩ ⟨hr, hp⟩ ht' ht).1
      · exact (h.mapped f ⟨r', (hlive r' hr').1, q, j, hm'⟩).2.2 ⟨r, hr, p, hp, ht⟩
    · rcases hf with ⟨r', hr', q, hq, ht'⟩ | ⟨r', hr', q, j, hm'⟩
      · exact (h.mapped f ⟨r, hr, p, i, hm⟩).2.2 ⟨r', (hlive r' hr').1, q, hq, ht'⟩
      · exact (hlive r' hr').2 (halone f ⟨p, i, hm⟩ r' (hlive r' hr').1 ⟨q, j, hm'⟩)
  refine ⟨_, hrun, ?_, fun f => ?_⟩
  · refine (h.sub fun r' hr' => (hlive r' hr').1).of_same_tables ?_
      ⟨rfl, hinit.trans h.pmmInit.symm, htotal, Pmm.drift_dropAll _ _, rfl, hmem _ ?_⟩ ?_
    · rintro f ⟨r', hr', q, hq, ht⟩
      refine hmem f ?_
      rintro rfl
      exact (hlive r' hr').2 (h.tables.distinct _ _ _ _ _ ⟨(hlive r' hr').1, hq⟩ ⟨hr, .nil 256⟩ ht (tableAt_nil f)).1
    · intro hk
      exact h.kernel_not_table ⟨r, hr, [], .nil 256, congrArg some hk.symm⟩
    · intro f hf hcases
      refine (hused f).mpr ⟨hf, ?_⟩
      rcases hcases with hbase | hown
      · intro hmemfs
        rw [(hin f hmemfs).2.2] at hbase
        cases hbase
      · exact hother f hown
  · rw [show _ = true ↔ _ from hused f, hfs f]

end TsOs
