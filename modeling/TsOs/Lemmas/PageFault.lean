import TsOs.Lemmas.Vmm

/-!
# What the page-fault handler does

A fault that is resolved allocates one frame, sets its content and stores one leaf: the zeroed frame of a demand page, or the copy of
a copy-on-write page.
-/

namespace TsOs

open StateProg PteAux TableAux VmmRun WalkAux

namespace FaultAux

variable {p0 : Pmm} {live : List Nat} {m : Vmm} {r : Nat}

/-- In a tree without huge pages the walk of the handler finds the leaf of the address. -/
theorem findLeaf_slot (h : Spaces p0 live m) (hr : r ∈ live) {va : BitVec 64} (hB : (pml4Index va).val < 256) {t : Nat}
    {i : Fin 512} (hf : findLeaf m.mem r va = .slot t i) : tableAt m.mem r (vaPath va) = some t ∧ i = ptIndex va := by
  have hp3 : TablePath 256 ([pml4Index va, pdptIndex va] ++ [pdIndex va]) := TablePath.vaPath hB
  have hp2 : TablePath 256 ([pml4Index va] ++ [pdptIndex va]) := hp3.of_append
  have hp1 : TablePath 256 ([] ++ [pml4Index va]) := hp2.of_append
  rw [findLeaf] at hf
  dsimp only at hf
  split at hf
  · cases hf
  next hpres1 =>
  rw [Bool.not_eq_true, Bool.not_eq_false'] at hpres1
  obtain ⟨-, ht1⟩ := PruneAux.next_table h hr hp1 (tableAt_nil r) hpres1
  split at hf
  · cases hf
  next hpres2 =>
  rw [Bool.not_eq_true, Bool.not_eq_false'] at hpres2
  obtain ⟨hps2, ht2⟩ := PruneAux.next_table h hr hp2 ht1 hpres2
  rw [hps2, if_neg (by simp)] at hf
  split at hf
  · cases hf
  next hpres3 =>
  rw [Bool.not_eq_true, Bool.not_eq_false'] at hpres3
  obtain ⟨hps3, ht3⟩ := PruneAux.next_table h hr hp3 ht2 hpres3
  rw [hps3] at hf
  cases hf
  exact ⟨ht3, rfl⟩

end FaultAux

open FaultAux

/-- The leaf that the handler stores for a demand page. -/
def demandLeaf (old : BitVec 64) (g : Nat) : BitVec 64 :=
  pteMake (frameAddr g) ((old &&& ~~~(pteDemand ||| pteAddrMask)) ||| ptePresent)

/-- The leaf that the handler stores for a copy-on-write page. -/
def copyLeaf (old : BitVec 64) (g : Nat) : BitVec 64 :=
  pteMake (frameAddr g) ((pteFlags old ||| pteWritable) &&& ~~~pteCow)

/-- What is known when a part of the handler has run: it changed nothing, or resolved the fault of `page`. -/
inductive FaultEnd (r : Nat) (page : BitVec 64) (m : Vmm) : FaultStep → Vmm → Prop
  | same {step : FaultStep} (hne : step ≠ .resolved) : FaultEnd r page m step m
  | demand {t g : Nat} (ht : tableAt m.mem r (vaPath page) = some t) (hd : hasFlag (m.mem t (ptIndex page)) pteDemand = true)
      (hg : m.pmm.Free g) :
      FaultEnd r page m .resolved
        ((m.alloc g (fun _ => 0#64)).store t (ptIndex page) (demandLeaf (m.mem t (ptIndex page)) g))
  | cow {t g : Nat} (ht : tableAt m.mem r (vaPath page) = some t) (hc : hasFlag (m.mem t (ptIndex page)) pteCow = true)
      (hg : m.pmm.Free g) :
      FaultEnd r page m .resolved
        ((m.alloc g (m.mem (pteFrame (m.mem t (ptIndex page))))).store t (ptIndex page) (copyLeaf (m.mem t (ptIndex page)) g))

variable {p0 : Pmm} {live : List Nat} {m : Vmm} {r : Nat}

theorem FaultEnd.unchanged {page : BitVec 64} {step : FaultStep} {m' : Vmm} (h : FaultEnd r page m step m')
    (hne : step ≠ .resolved) : m' = m := by
  cases h with
  | same => rfl
  | demand | cow => exact absurd rfl hne

theorem resolveDemand_run (h : Spaces p0 live m) (hr : r ∈ live) {page : BitVec 64} (hB : (pml4Index page).val < 256)
    (errorCode : BitVec 64) (task : Option UserRegions) :
    ∃ step m', (resolveDemand errorCode page r task).run m = (step, m') ∧ FaultEnd r page m step m' := by
  rw [resolveDemand]
  split
  · exact ⟨.pass, m, rfl, .same nofun⟩
  rw [bind_run (get_run m)]
  cases hleaf : findLeaf m.mem r page with
  | absent => exact ⟨.pass, m, rfl, .same nofun⟩
  | huge => exact ⟨.halt, m, rfl, .same nofun⟩
  | slot t i =>
    obtain ⟨ht, rfl⟩ := findLeaf_slot h hr hB hleaf
    rw [bind_run (readEntry_run _ _ _)]
    cases hd : hasFlag (m.mem t (ptIndex page)) pteDemand with
    | false => exact ⟨.pass, m, rfl, .same nofun⟩
    | true =>
      rw [if_neg (by simp)]
      rcases allocFrame_run m with ⟨hnone, -⟩ | ⟨g, hg, -, hne, hfr, hrun⟩
      · rw [bind_run hnone]
        exact ⟨.halt, m, rfl, .same nofun⟩
      · rw [bind_run hrun, if_neg hne, hfr]
        exact ⟨.resolved, _, rfl, .demand ht hd hg⟩

theorem resolveCow_run (h : Spaces p0 live m) (hr : r ∈ live) {page : BitVec 64} (hB : (pml4Index page).val < 256)
    (errorCode : BitVec 64) :
    ∃ step m', (resolveCow errorCode page r).run m = (step, m') ∧ FaultEnd r page m step m' := by
  rw [resolveCow]
  split
  · exact ⟨.halt, m, rfl, .same nofun⟩
  rw [bind_run (get_run m)]
  cases hleaf : findLeaf m.mem r page with
  | absent | huge => exact ⟨.halt, m, rfl, .same nofun⟩
  | slot t i =>
    obtain ⟨ht, rfl⟩ := findLeaf_slot h hr hB hleaf
    rw [bind_run (readEntry_run _ _ _)]
    cases hc : hasFlag (m.mem t (ptIndex page)) pteCow with
    | false => exact ⟨.halt, m, rfl, .same nofun⟩
    | true =>
      rw [if_neg (by simp)]
      rcases allocFrame_run m with ⟨hnone, -⟩ | ⟨g, hg, -, hne, hfr, hrun⟩
      · rw [bind_run hnone]
        exact ⟨.halt, m, rfl, .same nofun⟩
      · rw [bind_run hrun, if_neg hne, hfr]
        exact ⟨.resolved, _, rfl, .cow ht hc hg⟩

/-- `handler_pf` on an address of the user half: a fault that is not resolved changes nothing. -/
theorem handlerPf_run (h : Spaces p0 live m) (hr : r ∈ live) (cr2 : BitVec 64)
    (hB : (pml4Index (cr2 &&& ~~~0xFFF#64)).val < 256) (errorCode : BitVec 64) (task : Option UserRegions) :
    (handlerPf errorCode cr2 r task).run m = (false, m) ∨
    ∃ m', (handlerPf errorCode cr2 r task).run m = (true, m') ∧ FaultEnd r (cr2 &&& ~~~0xFFF#64) m .resolved m' := by
  obtain ⟨step, m1, hrun, hend⟩ := resolveDemand_run h hr hB errorCode task
  rw [handlerPf, bind_run hrun]
  cases step with
  | resolved => exact .inr ⟨m1, rfl, hend⟩
  | halt =>
    obtain rfl := hend.unchanged nofun
    exact .inl rfl
  | pass =>
    obtain rfl := hend.unchanged nofun
    obtain ⟨step', m2, hrun', hend'⟩ := resolveCow_run h hr hB errorCode
    rw [bind_run hrun']
    cases step' with
    | resolved => exact .inr ⟨m2, rfl, hend'⟩
    | halt | pass =>
      obtain rfl := hend'.unchanged nofun
      exact .inl rfl

end TsOs
