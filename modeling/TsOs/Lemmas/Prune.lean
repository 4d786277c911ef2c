import TsOs.Lemmas.AddressSpace

/-!
# Removal of empty tables

`pt_cleanup_empty_tables` removes tables without present entries, from the PT of an address up; each removal keeps the invariant of
the address spaces and frees the table.
-/

namespace TsOs

open Radix StateProg PteAux TableAux VmmRun WalkAux List

/-- The state after table `c`, which entry `i` of table `n` leads to, was removed and freed. -/
def pruned (m : Vmm) (n : Nat) (i : Fin 512) (c : Nat) : Vmm :=
  { m with pmm := m.pmm.drop c, mem := setEntry m.mem n i 0#64 }

/-- Table `c`, which entry `i` of the table `n` at `p` leads to, has no present entries. -/
structure Prunable (live : List Nat) (r : Nat) (p : List (Fin 512)) (i : Fin 512) (n c : Nat) (m : Vmm) : Prop where
  root : r ∈ live
  path : TablePath 256 (p ++ [i])
  table : tableAt m.mem r p = some n
  child : tableAt m.mem r (p ++ [i]) = some c
  empty : ∀ j, hasFlag (m.mem c j) ptePresent = false

namespace Prunable

variable {p0 : Pmm} {live : List Nat} {m : Vmm} {r n c : Nat} {p : List (Fin 512)} {i : Fin 512}

variable (h : Spaces p0 live m) (hp : Prunable live r p i n c m)
include h hp

/-- What the removal does to the walks and the entries. -/
theorem view :
    tableAt (pruned m n i c).mem r (p ++ [i]) = none ∧
    (∀ r' ∈ live, ∀ q, TablePath 256 q → ¬ (r' = r ∧ q = p ++ [i]) → tableAt (pruned m n i c).mem r' q = tableAt m.mem r' q) ∧
    entryAt (pruned m n i c).mem r p i = 0#64 ∧
    ∀ r' ∈ live, ∀ q j, TablePath 256 q → ¬ (r' = r ∧ q = p ++ [i]) → ¬ (r' = r ∧ q = p ∧ j = i) →
      entryAt (pruned m n i c).mem r' q j = entryAt m.mem r' q j :=
  clear_table h.tables hp.root hp.path hp.table hp.child hp.empty

/-- Every entry is as before, or reads as 0 now and was not present or led to the removed table. -/
theorem entry_cases {r' : Nat} (hr' : r' ∈ live) {q : List (Fin 512)}
    (hq : TablePath 256 q) (j : Fin 512) :
    entryAt (pruned m n i c).mem r' q j = entryAt m.mem r' q j ∨
    entryAt (pruned m n i c).mem r' q j = 0#64 ∧ (hasFlag (entryAt m.mem r' q j) ptePresent = false ∨ q.length < 3) := by
  obtain ⟨hnew, -, hent, hents⟩ := hp.view h
  by_cases hchild : r' = r ∧ q = p ++ [i]
  · obtain ⟨rfl, rfl⟩ := hchild
    refine .inr ⟨entryAt_none hnew j, .inl ?_⟩
    rw [entryAt_eq hp.child]
    exact hp.empty j
  · by_cases hslot : r' = r ∧ q = p ∧ j = i
    · obtain ⟨rfl, rfl, rfl⟩ := hslot
      refine .inr ⟨hent, .inr ?_⟩
      have := hp.path.1
      rw [length_append, length_singleton] at this
      omega
    · exact .inl (hents r' hr' q j hq hchild hslot)

theorem maps_iff {r' : Nat} (hr' : r' ∈ live) (q : List (Fin 512))
    (j : Fin 512) (f : Nat) : Maps (pruned m n i c).mem r' q j f ↔ Maps m.mem r' q j f := by
  refine and_congr_right fun hq => ?_
  rcases hp.entry_cases h hr' hq.1 j with heq | ⟨hzero, habs | hlen⟩
  · rw [heq]
  · rw [hzero, habs, hasFlag_zero]
    simp
  · exact absurd hq.2 (by omega)

/-- The tables are the same but for the removed one. -/
theorem isTable_iff (f : Nat) :
    IsTable live (pruned m n i c).mem f ↔ IsTable live m.mem f ∧ f ≠ c := by
  obtain ⟨hnew, htab, -, -⟩ := hp.view h
  constructor
  · rintro ⟨r', hr', q, hq, ht⟩
    have hne : ¬ (r' = r ∧ q = p ++ [i]) := by
      rintro ⟨rfl, rfl⟩
      rw [hnew] at ht
      cases ht
    rw [htab r' hr' q hq hne] at ht
    refine ⟨⟨r', hr', q, hq, ht⟩, ?_⟩
    rintro rfl
    exact hne (h.tables.distinct _ _ _ _ _ ⟨hr', hq⟩ ⟨hp.root, hp.path⟩ ht hp.child)
  · rintro ⟨⟨r', hr', q, hq, ht⟩, hfc⟩
    refine ⟨r', hr', q, hq, (htab r' hr' q hq ?_).trans ht⟩
    rintro ⟨rfl, rfl⟩
    exact hfc (Option.some.inj (ht.symm.trans hp.child))

omit h in
theorem isTable_child : IsTable live m.mem c := ⟨r, hp.root, p ++ [i], hp.path, hp.child⟩

theorem steady : Steady m (pruned m n i c) where
  init := rfl
  pmmInit := Pmm.drop_initialized _ _
  total := Pmm.drop_totalFrames _ _
  drift := Pmm.drift_drop _ _
  kernel := rfl
  kernelMem := by
    funext j
    refine setEntry_of_ne ?_
    rintro ⟨hk, -⟩
    exact h.kernel_not_table ⟨r, hp.root, p, hp.path.of_append, hk ▸ hp.table⟩

theorem isUsed_iff (f : Nat) :
    (pruned m n i c).pmm.isUsed f = true ↔ m.pmm.isUsed f = true ∧ f ≠ c := by
  obtain ⟨hfree, -⟩ := h.owned c hp.isTable_child
  have hlt : c < m.pmm.totalFrames := h.total ▸ hfree.2.1
  rw [show (pruned m n i c).pmm = m.pmm.drop c from rfl, Pmm.isUsed_drop h.pmmInit hfree.1 hlt, Bool.and_eq_true,
    Bool.not_eq_true', decide_eq_false_iff_not, and_comm]

theorem spaces : Spaces p0 live (pruned m n i c) := by
  obtain ⟨hfree, -⟩ := h.owned c hp.isTable_child
  refine h.of_maps (h.toGround.steady (hp.steady h) fun f hf => (hp.isUsed_iff h f).mpr ⟨h.base f hf, ?_⟩) ?_ ?_ ?_ ?_ ?_ id ?_ ?_
  · rintro rfl
    rw [hfree.2.2] at hf
    cases hf
  · refine tables_of_sub h.tables fun r' hr' q f hq hf => ⟨hr', ?_⟩
    obtain ⟨hnew, htab, -, -⟩ := hp.view h
    rw [← htab r' hr' q hq ?_]
    · exact hf
    · rintro ⟨rfl, rfl⟩
      rw [hnew] at hf
      cases hf
  · intro f hf
    obtain ⟨hold, hne⟩ := (hp.isTable_iff h f).mp hf
    exact ⟨(h.owned f hold).1, (hp.isUsed_iff h f).mpr ⟨(h.owned f hold).2, hne⟩⟩
  · intro r' hr' q j hq hpres
    rcases hp.entry_cases h hr' hq.of_append j with heq | ⟨hzero, -⟩
    · rw [heq] at hpres ⊢
      exact h.small r' hr' q j hq hpres
    · rw [hzero, hasFlag_zero]
  · intro r' hr' q j hq
    rcases hp.entry_cases h hr' hq.1 j with heq | ⟨hzero, -⟩
    · rw [heq]
      exact h.leaf r' hr' q j hq
    · rw [hzero]
      exact LeafOk.zero
  · intro f hf _
    obtain ⟨-, hu, hnt⟩ := h.mapped f hf
    refine ⟨(hp.isUsed_iff h f).mpr ⟨hu, ?_⟩, fun ht => hnt ((hp.isTable_iff h f).mp ht).1⟩
    rintro rfl
    exact hnt hp.isTable_child
  · exact fun r' hr' q j f hm => ⟨hr', (hp.maps_iff h hr' q j f).mp hm⟩
  · intro r' hr' q j f hm hw
    rcases hp.entry_cases h hr' hm.1.1 j with heq | ⟨hzero, -⟩
    · rw [heq] at hw
      exact ⟨hw, fun _ _ _ h => h⟩
    · rw [hzero] at hw
      cases hw

theorem accounted {X : Nat → Prop} (ha : Accounted p0 live X m) :
    Accounted p0 live X (pruned m n i c) := by
  constructor
  · intro r' hr' q j hq
    rcases hp.entry_cases h hr' hq.1 j with heq | ⟨hzero, -⟩
    · rw [heq]
      exact ha.noCow r' hr' q j hq
    · rw [hzero, hasFlag_zero]
  intro f hf
  obtain ⟨hu, hne⟩ := (hp.isUsed_iff h f).mp hf
  rcases ha.frames f hu with hbase | htab | ⟨r', hr', q, j, hm⟩ | hx
  · exact .inl hbase
  · exact .inr (.inl ((hp.isTable_iff h f).mpr ⟨htab, hne⟩))
  · exact .inr (.inr (.inl ⟨r', hr', q, j, (hp.maps_iff h hr' q j f).mpr hm⟩))
  · exact .inr (.inr (.inr hx))

end Prunable

/-! ## `pt_cleanup_empty_tables` -/

/-- From `m` to `m'` empty tables of the tree at `r` were removed, one after the other. -/
def Pruning (live : List Nat) (r : Nat) : Vmm → Vmm → Prop :=
  Relation.ReflTransGen fun m m' => ∃ p i n c, Prunable live r p i n c m ∧ m' = pruned m n i c

/-- The same where the tables removed are on the path of one address. -/
def PruningOf (live : List Nat) (r : Nat) (va : BitVec 64) : Vmm → Vmm → Prop :=
  Relation.ReflTransGen fun m m' => ∃ p i n c, p ++ [i] <+: vaPath va ∧ Prunable live r p i n c m ∧ m' = pruned m n i c

theorem PruningOf.pruning {live : List Nat} {r : Nat} {va : BitVec 64} {m m' : Vmm} (h : PruningOf live r va m m') :
    Pruning live r m m' := by
  induction h with
  | refl => exact .refl
  | tail _ hstep ih =>
    obtain ⟨p, i, n, c, -, hprune, heq⟩ := hstep
    exact ih.tail ⟨p, i, n, c, hprune, heq⟩

namespace Pruning

variable {p0 : Pmm} {live : List Nat} {m m' : Vmm} {r : Nat}

theorem spaces (h : Spaces p0 live m) (hp : Pruning live r m m') : Spaces p0 live m' := by
  induction hp with
  | refl => exact h
  | tail _ hstep ih =>
    obtain ⟨p, i, n, c, hprune, rfl⟩ := hstep
    exact hprune.spaces ih

theorem accounted {X : Nat → Prop} (h : Spaces p0 live m) (hp : Pruning live r m m') (ha : Accounted p0 live X m) :
    Accounted p0 live X m' := by
  induction hp with
  | refl => exact ha
  | tail hp' hstep ih =>
    obtain ⟨p, i, n, c, hprune, rfl⟩ := hstep
    exact hprune.accounted (Pruning.spaces h hp') ih

end Pruning

namespace PruneAux

variable {p0 : Pmm} {live : List Nat} {m : Vmm} {r : Nat}

theorem ptTableEmpty_iff (t : Fin 512 → BitVec 64) : ptTableEmpty t = true ↔ ∀ i, hasFlag (t i) ptePresent = false := by
  rw [ptTableEmpty, all_eq_true]
  constructor
  · intro h i
    exact (Bool.not_eq_true' _).mp (h i (mem_finRange i))
  · intro h i _
    exact (Bool.not_eq_true' _).mpr (h i)

/-- The walk that the cleanup repeats: an entry that is present leads to the table it names. -/
theorem next_table (h : Spaces p0 live m) (hr : r ∈ live) {p : List (Fin 512)} {i : Fin 512} {n : Nat}
    (hp : TablePath 256 (p ++ [i])) (hn : tableAt m.mem r p = some n) (hpres : hasFlag (m.mem n i) ptePresent = true) :
    hasFlag (m.mem n i) ptePs = false ∧ tableAt m.mem r (p ++ [i]) = some (frameOf (pteAddr (m.mem n i))) := by
  have hent := entryAt_eq hn i
  have hps := h.small r hr p i hp
  rw [hent] at hps
  refine ⟨hps hpres, ?_⟩
  rw [tableAt_snoc, hent, childOf_present hpres (hps hpres)]
  rfl

theorem off_path {p q : List (Fin 512)} (h : p.length ≠ q.length) : ¬ (r = r ∧ p = q) := fun hpq => h (congrArg List.length hpq.2)

theorem prune_run (m : Vmm) (n : Nat) (i : Fin 512) (e : BitVec 64) (k : VmmM Unit) :
    (do
      freeFrame (pteAddr e)
      writeEntry n i 0#64
      k : VmmM Unit).run m = k.run (pruned m n i (frameOf (pteAddr e))) := by
  rw [bind_run (freeFrame_pteAddr_run m e)]
  rfl

end PruneAux

open PruneAux

/-- `pt_cleanup_empty_tables` of an address of the user half does nothing but remove empty tables. -/
theorem ptCleanupEmptyTables_run {p0 : Pmm} {live : List Nat} {m : Vmm} {r : Nat} {va : BitVec 64} (h : Spaces p0 live m)
    (hr : r ∈ live) (hB : (pml4Index va).val < 256) :
    ∃ m', (ptCleanupEmptyTables r va).run m = ((), m') ∧ PruningOf live r va m m' := by
  have hp3 : TablePath 256 ([pml4Index va, pdptIndex va] ++ [pdIndex va]) := TablePath.vaPath hB
  have hp2 : TablePath 256 ([pml4Index va] ++ [pdptIndex va]) := hp3.of_append
  have hp1 : TablePath 256 ([] ++ [pml4Index va]) := hp2.of_append
  have hdone : ∃ m', (pure () : VmmM Unit).run m = ((), m') ∧ PruningOf live r va m m' := ⟨m, rfl, .refl⟩
  have hgo : ∀ b : Bool, b = true → ¬ (!b) = true := by decide
  rw [ptCleanupEmptyTables, bind_run (readEntry_run _ _ _)]
  cases hpres1 : hasFlag (m.mem r (pml4Index va)) ptePresent with
  | false => exact hdone
  | true =>
  obtain ⟨hps1, ht1⟩ := next_table h hr hp1 (tableAt_nil r) hpres1
  rw [if_neg (hgo _ rfl), hps1, if_neg Bool.false_ne_true, bind_run (readEntry_run _ _ _)]
  cases hpres2 : hasFlag (m.mem _ (pdptIndex va)) ptePresent with
  | false => exact hdone
  | true =>
  obtain ⟨hps2, ht2⟩ := next_table h hr hp2 ht1 hpres2
  rw [if_neg (hgo _ rfl), hps2, if_neg Bool.false_ne_true, bind_run (readEntry_run _ _ _)]
  cases hpres3 : hasFlag (m.mem _ (pdIndex va)) ptePresent with
  | false => exact hdone
  | true =>
  obtain ⟨hps3, ht3⟩ := next_table h hr hp3 ht2 hpres3
  rw [if_neg (hgo _ rfl), hps3, if_neg Bool.false_ne_true, bind_run (get_run _)]
  split
  · exact hdone
  next hempty3 =>
  rw [Bool.not_eq_true, Bool.not_eq_false', ptTableEmpty_iff] at hempty3
  rw [prune_run]
  have hprune3 : Prunable live r _ _ _ _ m := ⟨hr, hp3, ht2, ht3, hempty3⟩
  have hrun3 : PruningOf live r va m _ := .single ⟨_, _, _, _, prefix_refl _, hprune3, rfl⟩
  have h3 := hprune3.spaces h
  have htab3 := (hprune3.view h).2.1
  rw [bind_run (get_run _)]
  split
  · exact ⟨_, rfl, hrun3⟩
  next hempty2 =>
  rw [Bool.not_eq_true, Bool.not_eq_false', ptTableEmpty_iff] at hempty2
  rw [prune_run]
  have hprune2 : Prunable live r _ _ _ _ _ := ⟨hr, hp2, (htab3 r hr _ hp2.of_append (off_path nofun)).trans ht1,
    (htab3 r hr _ hp2 (off_path nofun)).trans ht2, hempty2⟩
  have hrun2 : PruningOf live r va m _ := hrun3.tail ⟨_, _, _, _, ⟨[pdIndex va], rfl⟩, hprune2, rfl⟩
  have htab2 := (hprune2.view h3).2.1
  rw [bind_run (get_run _)]
  split
  · exact ⟨_, rfl, hrun2⟩
  next hempty1 =>
  rw [Bool.not_eq_true, Bool.not_eq_false', ptTableEmpty_iff] at hempty1
  rw [if_neg (by omega)]
  have hprune1 : Prunable live r [] _ r _ _ := ⟨hr, hp1, tableAt_nil r,
    (htab2 r hr _ hp1 (off_path nofun)).trans ((htab3 r hr _ hp1 (off_path nofun)).trans ht1), hempty1⟩
  rw [bind_run (freeFrame_pteAddr_run _ _)]
  exact ⟨_, rfl, hrun2.tail ⟨_, _, _, _, ⟨[pdptIndex va, pdIndex va], rfl⟩, hprune1, rfl⟩⟩

end TsOs
