import TsOs.Theorems.VmmMap

/-!
# The leaf of an address

`pt_walk_to_leaf` without creation as a lookup, the entry it finds as a function of the entries of the tree, and what clearing a
leaf and removing an empty table do to the entries found for all addresses.
-/

namespace TsOs

open Radix StateProg PteAux TableAux VmmRun VaAux XlateAux PruneAux List BitVec Option Bool Nat

/-- The leaf entry that `pt_walk_to_leaf` finds for an address without adding tables; 0 when it finds none. -/
def walkLeaf (m : Vmm) (r : Nat) (va : BitVec 64) : BitVec 64 :=
  match ((ptWalkToLeaf r va false 0#64).run m).1 with
  | some (t, i) => m.mem t i
  | none => 0#64

/-- A present entry that is a huge page. -/
def hugeEntry (e : BitVec 64) : Bool := hasFlag e ptePresent && hasFlag e ptePs

/-- The slot at which a walk without creation ends. -/
def leafSlot (mem : Nat → Fin 512 → BitVec 64) (r : Nat) (va : BitVec 64) : Option (Nat × Fin 512) :=
  match tableAt mem r [pml4Index va] with
  | none => none
  | some pdpt =>
    if hugeEntry (mem pdpt (pdptIndex va)) then some (pdpt, pdptIndex va)
    else
      match tableAt mem r [pml4Index va, pdptIndex va] with
      | none => none
      | some pd =>
        if hugeEntry (mem pd (pdIndex va)) then some (pd, pdIndex va)
        else (tableAt mem r (vaPath va)).map fun pt => (pt, ptIndex va)

/-- The leaf entry of an address among the entries of a tree. -/
def leafView (entry : List (Fin 512) → Fin 512 → BitVec 64) (va : BitVec 64) : BitVec 64 :=
  if hugeEntry (entry [pml4Index va] (pdptIndex va)) then entry [pml4Index va] (pdptIndex va)
  else if hugeEntry (entry [pml4Index va, pdptIndex va] (pdIndex va)) then entry [pml4Index va, pdptIndex va] (pdIndex va)
  else entry (vaPath va) (ptIndex va)

namespace UnmapAux

variable {mem : Nat → Fin 512 → BitVec 64} {r : Nat} {m : Vmm}

@[simp] theorem hugeEntry_zero : hugeEntry 0#64 = false := by
  rw [hugeEntry, hasFlag_zero, Bool.false_and]

variable {e : BitVec 64}

theorem hugeEntry_of_child {c : Nat} (h : childOf e = some c) : hugeEntry e = false := by
  rw [hugeEntry, (childOf_some h).2.1, Bool.and_false]

theorem childOf_of_huge (h : hugeEntry e = true) : childOf e = none := by
  rw [hugeEntry, and_eq_true] at h
  rw [childOf, h.1, h.2]
  rfl

theorem hugeEntry_of_not_present (h : hasFlag e ptePresent = false) : hugeEntry e = false := by
  rw [hugeEntry, h, Bool.false_and]

/-! ## The walk -/

theorem lookup_run (m : Vmm) (t : Nat) (i : Fin 512) (flags : BitVec 64) :
    (ptGetOrCreateEntry t i false flags).run m = (if hasFlag (m.mem t i) ptePresent then m.mem t i else 0#64, m) := by
  rw [ptGetOrCreateEntry, bind_run (readEntry_run m t i)]
  cases hasFlag (m.mem t i) ptePresent <;> rfl

/-- One level of a walk without creation: there is no table, a huge page, or a table below. -/
theorem level_run (m : Vmm) (t : Nat) (i : Fin 512) (flags : BitVec 64) (huge : Option (Nat × Fin 512))
    (next : BitVec 64 → VmmM (Option (Nat × Fin 512))) :
    (do
      let e ← ptGetOrCreateEntry t i false flags
      if !hasFlag e ptePresent then pure none
      else if hasFlag e ptePs then pure huge
      else next e : VmmM (Option (Nat × Fin 512))).run m =
    if hugeEntry (m.mem t i) then (huge, m)
    else
      match childOf (m.mem t i) with
      | none => (none, m)
      | some _ => (next (m.mem t i)).run m := by
  rw [bind_run (lookup_run m t i flags), hugeEntry, childOf]
  cases hp : hasFlag (m.mem t i) ptePresent with
  | false =>
    rw [if_neg Bool.false_ne_true]
    rfl
  | true =>
    rw [if_pos rfl, hp]
    cases hasFlag (m.mem t i) ptePs <;> rfl

theorem frameOf_child {c : Nat} (h : childOf e = some c) : frameOf (pteAddr e) = c := (childOf_some h).2.2

theorem ptWalkToLeaf_lookup (m : Vmm) (r : Nat) (va flags : BitVec 64)
    (hroot : hugeEntry (m.mem r (pml4Index va)) = false) :
    (ptWalkToLeaf r va false flags).run m = (leafSlot m.mem r va, m) := by
  have h1 : tableAt m.mem r [pml4Index va] = childOf (m.mem r (pml4Index va)) := by
    rw [← nil_append [pml4Index va], tableAt_snoc, entryAt_eq (tableAt_nil r)]
  rw [leafSlot, h1]
  refine (level_run m r (pml4Index va) flags none _).trans ?_
  rw [hroot]
  cases hpdpt : childOf (m.mem r (pml4Index va)) with
  | none => rfl
  | some pdpt =>
    have h2 : tableAt m.mem r [pml4Index va, pdptIndex va] = childOf (m.mem pdpt (pdptIndex va)) := by
      rw [← entryAt_eq (h1.trans hpdpt), ← tableAt_snoc]
      rfl
    dsimp only
    rw [h2, frameOf_child hpdpt]
    refine (level_run m pdpt (pdptIndex va) flags _ _).trans ?_
    split
    · rfl
    · cases hpd : childOf (m.mem pdpt (pdptIndex va)) with
      | none => rfl
      | some pd =>
        have h3 : tableAt m.mem r (vaPath va) = childOf (m.mem pd (pdIndex va)) := by
          rw [← entryAt_eq (h2.trans hpd), ← tableAt_snoc]
          rfl
        dsimp only
        rw [h3, frameOf_child hpd]
        refine (level_run m pd (pdIndex va) flags _ _).trans ?_
        split
        · rfl
        · cases hpt : childOf (m.mem pd (pdIndex va)) with
          | none => rfl
          | some pt => rw [frameOf_child hpt]; rfl

/-- What a walk finds: nothing, a huge page on the way to the PT of the address, or the slot in its PT. -/
theorem leafSlot_cases (mem : Nat → Fin 512 → BitVec 64) (r : Nat) (va : BitVec 64) :
    (leafSlot mem r va = none ∧ leafView (entryAt mem r) va = 0#64) ∨
    (∃ p i q t, vaPath va = p ++ [i] ++ q ∧ p ≠ [] ∧ tableAt mem r p = some t ∧ hugeEntry (mem t i) = true ∧
      leafSlot mem r va = some (t, i) ∧ leafView (entryAt mem r) va = mem t i) ∨
    ∃ t, tableAt mem r (vaPath va) = some t ∧ leafSlot mem r va = some (t, ptIndex va) ∧
      leafView (entryAt mem r) va = mem t (ptIndex va) := by
  rw [leafSlot, leafView]
  cases h1 : tableAt mem r [pml4Index va] with
  | none =>
    have hpde : entryAt mem r [pml4Index va, pdptIndex va] (pdIndex va) = 0#64 :=
      entryAt_none (walk_append_none h1 [pdptIndex va]) _
    have hpte : entryAt mem r (vaPath va) (ptIndex va) = 0#64 :=
      entryAt_none (walk_append_none h1 [pdptIndex va, pdIndex va]) _
    exact .inl ⟨rfl, by simp [entryAt_none h1, hpde, hpte]⟩
  | some pdpt =>
    rw [entryAt_eq h1]
    dsimp only
    cases hh1 : hugeEntry (mem pdpt (pdptIndex va)) with
    | true => exact .inr (.inl ⟨[pml4Index va], pdptIndex va, [pdIndex va], pdpt, rfl, by simp, h1, hh1, rfl, rfl⟩)
    | false =>
      cases h2 : tableAt mem r [pml4Index va, pdptIndex va] with
      | none =>
        have hpte : entryAt mem r (vaPath va) (ptIndex va) = 0#64 := entryAt_none (walk_append_none h2 [pdIndex va]) _
        exact .inl ⟨rfl, by simp [entryAt_none h2, hpte]⟩
      | some pd =>
        rw [entryAt_eq h2]
        dsimp only
        cases hh2 : hugeEntry (mem pd (pdIndex va)) with
        | true => exact .inr (.inl ⟨[pml4Index va, pdptIndex va], pdIndex va, [], pd, rfl, by simp, h2, hh2, rfl, rfl⟩)
        | false =>
          cases h3 : tableAt mem r (vaPath va) with
          | none => exact .inl ⟨rfl, entryAt_none h3 _⟩
          | some pt => exact .inr (.inr ⟨pt, rfl, rfl, entryAt_eq h3 _⟩)

variable {va : BitVec 64}

theorem walkLeaf_eq (hroot : hugeEntry (m.mem r (pml4Index va)) = false) :
    walkLeaf m r va = leafView (entryAt m.mem r) va := by
  rw [walkLeaf, ptWalkToLeaf_lookup m r va 0#64 hroot]
  rcases leafSlot_cases m.mem r va with ⟨hs, hv⟩ | ⟨_, _, _, _, -, -, -, -, hs, hv⟩ | ⟨_, -, hs, hv⟩ <;> rw [hs, hv]

/-! ## Stores -/

variable {t : Nat}

/-- With a PT for the address the leaf is an entry of it. -/
theorem leafView_of_table (h : tableAt mem r (vaPath va) = some t) :
    leafView (entryAt mem r) va = mem t (ptIndex va) := by
  have hpdpe := upper_of_table (p := [pml4Index va]) (i := pdptIndex va) (q := [pdIndex va]) h
  have hpde := upper_of_table (p := [pml4Index va, pdptIndex va]) (i := pdIndex va) (q := []) h
  simp [leafView, hugeEntry, hpdpe.2, hpde.2, entryAt_eq h]

/-- Where the walk to the PT is cut short by an entry that leads to no table, that entry is found if it is a huge page. -/
theorem leafView_of_cut {p q : List (Fin 512)} {i : Fin 512} (hpath : vaPath va = p ++ [i] ++ q)
    (hne : p ≠ []) (ht : tableAt mem r p = some t) (hcut : childOf (mem t i) = none) :
    leafView (entryAt mem r) va = if hugeEntry (mem t i) then mem t i else 0#64 := by
  have hbelow : ∀ s j, entryAt mem r (p ++ [i] ++ s) j = 0#64 := by
    refine entryAt_below ?_
    rw [entryAt_eq ht, hcut]
  have hpte := hbelow q (ptIndex va)
  rw [← hpath] at hpte
  rcases p with _ | ⟨a, _ | ⟨b, _ | ⟨c, p⟩⟩⟩
  · exact absurd rfl hne
  · obtain ⟨rfl, rfl, rfl⟩ : pml4Index va = a ∧ pdptIndex va = i ∧ [pdIndex va] = q := by simpa [vaPath] using hpath
    have hpde := hbelow [] (pdIndex va)
    simp only [List.append_nil, List.cons_append, List.nil_append] at hpde
    simp [leafView, entryAt_eq ht, hpde, hpte]
  · obtain ⟨rfl, rfl, rfl, rfl⟩ : pml4Index va = a ∧ pdptIndex va = b ∧ pdIndex va = i ∧ q = [] := by
      simpa [vaPath, eq_comm] using hpath
    have hpdpe := (upper_of_table (p := [pml4Index va]) (i := pdptIndex va) (q := []) ht).2
    have hsmall : hugeEntry (entryAt mem r [pml4Index va] (pdptIndex va)) = false := by rw [hugeEntry, hpdpe, Bool.and_false]
    simp [leafView, hsmall, entryAt_eq ht, hpte]
  · have := congrArg length hpath
    simp [vaPath] at this

/-- A change of entries that touches no huge page changes only the leaves it stores to. -/
theorem leafView_of_kept {e e' : List (Fin 512) → Fin 512 → BitVec 64}
    (hupper : ∀ p i q, vaPath va = p ++ [i] ++ q → p ≠ [] →
      e' p i = e p i ∨ hugeEntry (e' p i) = false ∧ hugeEntry (e p i) = false)
    (hleaf : e' (vaPath va) (ptIndex va) = e (vaPath va) (ptIndex va)) : leafView e' va = leafView e va := by
  have hpdpe := hupper [pml4Index va] (pdptIndex va) [pdIndex va] rfl (by simp)
  have hpde := hupper [pml4Index va, pdptIndex va] (pdIndex va) [] rfl (by simp)
  rcases hpdpe with h1 | ⟨h1', h1⟩ <;> rcases hpde with h2 | ⟨h2', h2⟩ <;> simp [leafView, *]

variable (ht : Tables 512 mem [r])

include ht

/-- Clearing a leaf of a PT changes what is found for one page. -/
theorem leafView_clear_leaf {v : BitVec 64} (htab : tableAt mem r (vaPath v) = some t) :
    Tables 512 (setEntry mem t (ptIndex v) 0#64) [r] ∧
    tableAt (setEntry mem t (ptIndex v) 0#64) r (vaPath v) = some t ∧
    (∀ i, setEntry mem t (ptIndex v) 0#64 r i = mem r i) ∧
    ∀ w, pageNumber w ≠ pageNumber v →
      leafView (entryAt (setEntry mem t (ptIndex v) 0#64) r) w = leafView (entryAt mem r) w := by
  have hr := mem_singleton_self r
  have hpath {a : BitVec 64} : TablePath 512 (vaPath a) := TablePath.vaPath (pml4Index a).isLt
  obtain ⟨htabs, -, hents⟩ := set_leaf (setEntry mem t (ptIndex v) 0#64) (ptIndex v) ht hr htab
    (fun _ _ _ _ _ _ _ hne => setEntry_of_ne hne) hpath rfl
  refine ⟨tables_of_sub ht fun r' hr' p f hp hf => ⟨hr', (htabs r' hr' p hp).symm.trans hf⟩, (htabs r hr _ hpath).trans htab,
    fun i => ?_, fun w hw => leafView_of_kept (fun p i q hpq _ => .inl ?_) ?_⟩
  · have := hents r hr [] i (.nil 512) (by simp [vaPath])
    rwa [entryAt_eq (tableAt_nil r), entryAt_eq (tableAt_nil r)] at this
  · refine hents r hr p i (TablePath.of_append (hpq ▸ hpath : TablePath 512 (p ++ [i] ++ q))).of_append ?_
    rintro ⟨-, rfl, -⟩
    have := congrArg length hpq
    simp [vaPath] at this
  · refine hents r hr _ _ hpath ?_
    rintro ⟨-, hp, hi⟩
    exact hw ((pageNumber_eq_iff w v).mpr ⟨hp, hi⟩)

/-- Removing a table without present entries changes what is found for the pages of a PT that is removed, and for no others. -/
theorem leafView_prune {p : List (Fin 512)} {i : Fin 512} {n c : Nat} (hp : TablePath 512 (p ++ [i]))
    (hn : tableAt mem r p = some n) (hc : tableAt mem r (p ++ [i]) = some c) (hempty : ∀ j, hasFlag (mem c j) ptePresent = false) :
    Tables 512 (setEntry mem n i 0#64) [r] ∧
    (∀ q, TablePath 512 q → q ≠ p ++ [i] → tableAt (setEntry mem n i 0#64) r q = tableAt mem r q) ∧
    ∀ w, leafView (entryAt (setEntry mem n i 0#64) r) w = if vaPath w = p ++ [i] then 0#64 else leafView (entryAt mem r) w := by
  have hr := mem_singleton_self r
  obtain ⟨hnone, htabs, hslot, hents⟩ := clear_table ht hr hp hn hc hempty
  have hentry : ∀ q j, TablePath 512 q → entryAt (setEntry mem n i 0#64) r q j = entryAt mem r q j ∨
      hugeEntry (entryAt (setEntry mem n i 0#64) r q j) = false ∧ hugeEntry (entryAt mem r q j) = false := by
    intro q j hq
    by_cases hchild : q = p ++ [i]
    · subst hchild
      rw [entryAt_none hnone, entryAt_eq hc]
      exact .inr ⟨hugeEntry_zero, hugeEntry_of_not_present (hempty j)⟩
    · by_cases hpi : q = p ∧ j = i
      · obtain ⟨rfl, rfl⟩ := hpi
        rw [tableAt_snoc] at hc
        rw [hslot]
        exact .inr ⟨hugeEntry_zero, hugeEntry_of_child hc⟩
      · exact .inl (hents r hr q j hq (fun h => hchild h.2) fun h => hpi h.2)
  refine ⟨tables_of_sub ht fun r' hr' q f hq hf => ⟨hr', ?_⟩, fun q hq hne => htabs r hr q hq fun h => hne h.2, fun w => ?_⟩
  · obtain rfl := mem_singleton.mp hr'
    rw [← htabs r' hr q hq ?_]
    · exact hf
    · rintro ⟨-, rfl⟩
      rw [hnone] at hf
      cases hf
  have hpath : TablePath 512 (vaPath w) := TablePath.vaPath (pml4Index w).isLt
  have hupper : ∀ q j s, vaPath w = q ++ [j] ++ s → q ≠ [] →
      entryAt (setEntry mem n i 0#64) r q j = entryAt mem r q j ∨
      hugeEntry (entryAt (setEntry mem n i 0#64) r q j) = false ∧ hugeEntry (entryAt mem r q j) = false :=
    fun q j s hq _ => hentry q j (TablePath.of_append (hq ▸ hpath : TablePath 512 (q ++ [j] ++ s))).of_append
  split
  · next hw =>
    rw [← hw] at hnone hc
    have hpdpe := hupper [pml4Index w] (pdptIndex w) [pdIndex w] rfl (by simp)
    have hpde := hupper [pml4Index w, pdptIndex w] (pdIndex w) [] rfl (by simp)
    have hps1 := (upper_of_table (p := [pml4Index w]) (i := pdptIndex w) (q := [pdIndex w]) hc).2
    have hps2 := (upper_of_table (p := [pml4Index w, pdptIndex w]) (i := pdIndex w) (q := []) hc).2
    have hh1 : hugeEntry (entryAt (setEntry mem n i 0#64) r [pml4Index w] (pdptIndex w)) = false := by
      rcases hpdpe with heq | ⟨h, -⟩
      · rw [heq, hugeEntry, hps1, Bool.and_false]
      · exact h
    have hh2 : hugeEntry (entryAt (setEntry mem n i 0#64) r [pml4Index w, pdptIndex w] (pdIndex w)) = false := by
      rcases hpde with heq | ⟨h, -⟩
      · rw [heq, hugeEntry, hps2, Bool.and_false]
      · exact h
    simp [leafView, hh1, hh2, entryAt_none hnone]
  · next hw =>
    refine leafView_of_kept hupper (hents r hr _ _ hpath (fun h => hw h.2) ?_)
    rintro ⟨-, hwp, -⟩
    have hlen := hp.1
    rw [← hwp] at hlen
    simp [vaPath] at hlen

omit ht

/-! ## `pt_cleanup_empty_tables` -/

/-- A level of the cleanup goes on only when the entry leads to a table. -/
theorem descend_run (m : Vmm) (t : Nat) (i : Fin 512) (next : BitVec 64 → VmmM Unit) :
    (do
      let e ← readEntry t i
      if !hasFlag e ptePresent then pure ()
      else if hasFlag e ptePs then pure ()
      else next e : VmmM Unit).run m =
    match childOf (m.mem t i) with
    | none => ((), m)
    | some _ => (next (m.mem t i)).run m := by
  rw [bind_run (readEntry_run m t i), childOf]
  cases hasFlag (m.mem t i) ptePresent with
  | false => rfl
  | true => cases hasFlag (m.mem t i) ptePs <;> rfl

/-- Without a PT for the address the cleanup does nothing. -/
theorem cleanup_without_table (h : tableAt m.mem r (vaPath va) = none) :
    (ptCleanupEmptyTables r va).run m = ((), m) := by
  refine (descend_run m r (pml4Index va) _).trans ?_
  cases hpdpt : childOf (m.mem r (pml4Index va)) with
  | none => rfl
  | some pdpt =>
    rw [frameOf_child hpdpt]
    refine (descend_run m pdpt (pdptIndex va) _).trans ?_
    cases hpd : childOf (m.mem pdpt (pdptIndex va)) with
    | none => rfl
    | some pd =>
      rw [frameOf_child hpd]
      refine (descend_run m pd (pdIndex va) _).trans ?_
      have hnone : childOf (m.mem pd (pdIndex va)) = none := by
        simpa [vaPath, tableAt, walk, subTable, hpdpt, hpd] using h
      rw [hnone]

/-- The tables on the way to the PT of an address. -/
theorem tables_on_path (h : tableAt mem r (vaPath va) = some t) :
    ∃ pdpt pd, childOf (mem r (pml4Index va)) = some pdpt ∧ childOf (mem pdpt (pdptIndex va)) = some pd ∧
      childOf (mem pd (pdIndex va)) = some t := by
  simp only [vaPath, tableAt, walk_cons, subTable, Option.bind_eq_some_iff] at h
  obtain ⟨pdpt, hpdpt, pd, hpd, pt, hpt, hlast⟩ := h
  cases hlast
  exact ⟨pdpt, pd, hpdpt, hpd, hpt⟩

/-- The cleanup does nothing when the PT of the address has a present entry; otherwise the PT goes, and only what was found for
its pages changes. -/
theorem cleanup_view (ht : Tables 512 m.mem [r]) (htab : tableAt m.mem r (vaPath va) = some t) :
    ∃ m', (ptCleanupEmptyTables r va).run m = ((), m') ∧
      ((∃ j, hasFlag (m.mem t j) ptePresent = true) ∧ m' = m ∨
        (∀ j, hasFlag (m.mem t j) ptePresent = false) ∧
        (∀ i, m'.mem r i = m.mem r i ∨ m'.mem r i = 0#64) ∧
        ∀ w, leafView (entryAt m'.mem r) w = if vaPath w = vaPath va then 0#64 else leafView (entryAt m.mem r) w) := by
  obtain ⟨pdpt, pd, hpdpt, hpd, hpt⟩ := tables_on_path htab
  have hp3 : TablePath 512 ([pml4Index va, pdptIndex va] ++ [pdIndex va]) := TablePath.vaPath (pml4Index va).isLt
  have hp2 : TablePath 512 ([pml4Index va] ++ [pdptIndex va]) := hp3.of_append
  have hp1 : TablePath 512 ([] ++ [pml4Index va]) := hp2.of_append
  have ht1 : tableAt m.mem r [pml4Index va] = some pdpt := by simp [tableAt, walk, subTable, hpdpt]
  have ht2 : tableAt m.mem r [pml4Index va, pdptIndex va] = some pd := by simp [tableAt, walk, subTable, hpdpt, hpd]
  rw [ptCleanupEmptyTables, descend_run, hpdpt]
  dsimp only
  rw [frameOf_child hpdpt, descend_run, hpd]
  dsimp only
  rw [frameOf_child hpd, descend_run, hpt]
  dsimp only
  rw [frameOf_child hpt, bind_run (get_run m)]
  split
  · next hfull =>
    rw [not_eq_true', ← not_eq_true, ptTableEmpty_iff, not_forall] at hfull
    obtain ⟨j, hj⟩ := hfull
    exact ⟨m, rfl, .inl ⟨⟨j, by rwa [not_eq_false] at hj⟩, rfl⟩⟩
  next hempty3 =>
  rw [not_eq_true, not_eq_false', ptTableEmpty_iff] at hempty3
  rw [prune_run]
  obtain ⟨htabs3, hwalk3, hview3⟩ := leafView_prune ht hp3 ht2 htab hempty3
  -- the row of the root changes only in the last step
  have hroot3 : ∀ i, setEntry m.mem pd (pdIndex va) 0#64 r i = m.mem r i := by
    intro i
    refine setEntry_of_ne ?_
    rintro ⟨rfl, -⟩
    have := ht.distinct r r _ _ r ⟨mem_singleton_self r, hp3.of_append⟩ ⟨mem_singleton_self r, .nil 512⟩ ht2
      (tableAt_nil r)
    cases this.2
  rw [bind_run (get_run _)]
  split
  · exact ⟨_, rfl, .inr ⟨hempty3, fun i => .inl (hroot3 i), hview3⟩⟩
  next hempty2 =>
  rw [not_eq_true, not_eq_false', ptTableEmpty_iff] at hempty2
  rw [prune_run]
  have ht1' := (hwalk3 _ hp2.of_append (by simp)).trans ht1
  obtain ⟨htabs2, hwalk2, hview2⟩ := leafView_prune htabs3 hp2 ht1' ((hwalk3 _ hp2 (by simp)).trans ht2) hempty2
  have hlen : ∀ w, vaPath w ≠ [pml4Index va] ++ [pdptIndex va] := fun w h => by simp [vaPath] at h
  have hroot2 : ∀ i, setEntry (setEntry m.mem pd (pdIndex va) 0#64) pdpt (pdptIndex va) 0#64 r i = m.mem r i := by
    intro i
    rw [setEntry_of_ne, hroot3]
    rintro ⟨rfl, -⟩
    have := ht.distinct r r _ _ r ⟨mem_singleton_self r, hp1⟩ ⟨mem_singleton_self r, .nil 512⟩ ht1 (tableAt_nil r)
    cases this.2
  rw [bind_run (get_run _)]
  have hview2' : ∀ w, leafView (entryAt (setEntry (setEntry m.mem pd (pdIndex va) 0#64) pdpt (pdptIndex va) 0#64) r) w =
      if vaPath w = vaPath va then 0#64 else leafView (entryAt m.mem r) w := by
    intro w
    rw [hview2, if_neg (hlen w)]
    exact hview3 w
  split
  · exact ⟨_, rfl, .inr ⟨hempty3, fun i => .inl (hroot2 i), hview2'⟩⟩
  next hempty1 =>
  rw [not_eq_true, not_eq_false', ptTableEmpty_iff] at hempty1
  split
  · exact ⟨_, rfl, .inr ⟨hempty3, fun i => .inl (hroot2 i), hview2'⟩⟩
  obtain ⟨-, -, hview1⟩ := leafView_prune htabs2 hp1 (tableAt_nil r)
    ((hwalk2 _ hp1 (by simp)).trans ((hwalk3 _ hp1 (by simp)).trans ht1)) hempty1
  refine ⟨_, rfl, .inr ⟨hempty3, fun i => ?_, fun w => ?_⟩⟩
  · by_cases hi : i = pml4Index va
    · subst hi
      exact .inr (setEntry_self _ _ _ _)
    · exact .inl ((setEntry_of_ne fun h => hi h.2).trans (hroot2 i))
  · have hne : vaPath w ≠ [] ++ [pml4Index va] := fun h => by simp [vaPath] at h
    refine (hview1 w).trans ?_
    rw [if_neg hne]
    exact hview2' w

end UnmapAux

end TsOs
