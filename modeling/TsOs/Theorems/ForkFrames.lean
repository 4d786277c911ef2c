import TsOs.Lemmas.StackFrames
import TsOs.Theorems.TaskSpaces

/-!
# The frames of a fork

Which frames are in use after a task has forked and the child was destroyed, or after a fork that failed: what the tables for the
stack of the child cost when the copy of the parent's tables takes their place, and what the child frees of its parent.
-/

namespace TsOs

open StateProg PteAux TableAux VmmRun LifeAux FreeTablesAux CloneAux TaskSpacesAux SpaceSetAux Function List Kernel

/-- From `k` to `k'` memory was not written and the task `t` has kept its address space. -/
structure Kernel.Untouched (t : TaskPtr) (k k' : Kernel) : Prop where
  vmm : k'.vmm = k.vmm
  isKernel : k'.isKernel t = k.isKernel t
  addressSpace : k'.addressSpace t = k.addressSpace t
  space : k'.spaceOf t = k.spaceOf t

/-- The state after `sys_fork` and, if there is a child, after its destruction in the state `later`. -/
def Kernel.forkAndDestroy (k : Kernel) (b : TaskBlocks) (later : Kernel) : Kernel :=
  if (k.sysFork b).2 = -1 then (k.sysFork b).1
  else
    match b.pcb with
    | none => later
    | some child => later.taskDestroy child

/-- When a fork of a task with the PML4 `r` gives back what it takes: it fails before there is a child; or the parent has tables
below entry 0 of the PML4, where the stack of the child is, and there are not enough frames for a copy of them; or it has none
there, and it maps no page or there are not enough frames for a copy of its tables. The child takes four frames before the copy. -/
def Kernel.ForkFits (k : Kernel) (b : TaskBlocks) (r : Nat) : Prop :=
  b.pcb = none ∨ b.rest = false ∨ b.space = none ∨
    if hasFlag (k.vmm.mem r 0) ptePresent then k.vmm.pmm.freeCount < 4 + tableCount k.vmm.mem 2 r [0]
    else (∀ p i f, ¬ Maps k.vmm.mem r p i f) ∨ k.vmm.pmm.freeCount < 4 + tableCount k.vmm.mem 2 r userEntries

namespace ForkFramesAux

variable {p₀ : Pmm} {live : List Nat} {m : Vmm} {r c : Nat}

section

variable {m' : Vmm} (h : Spaces p₀ live m) (hr : r ∈ live) (hmem : ∀ f, m.pmm.isUsed f = true → m'.mem f = m.mem f)
include h hr hmem

/-- The tables of an address space are the same once frames that were not in use have changed. -/
theorem tableCount_congr {xs : List (Fin 512)} (hxs : ∀ i ∈ xs, UserEntry i) :
    tableCount m'.mem 2 r xs = tableCount m.mem 2 r xs := by
  have hrow : m'.mem r = m.mem r := hmem r (h.owned r ⟨r, hr, [], .nil 256, rfl⟩).2
  unfold tableCount
  refine congrArg length (flatMap_congr fun i hi => ?_)
  unfold freedFor
  rw [hrow]
  cases hb : childOf (m.mem r i) with
  | none => rfl
  | some b =>
    have hsame : tablesBelow m'.mem 2 b = tablesBelow m.mem 2 b := tablesBelow_congr fun q f hq hf =>
      hmem f (h.owned f ⟨r, hr, i :: q, tablePath_cons.mpr ⟨hxs i hi, hq.le⟩, (tableAt_child hb q).trans hf⟩).2
    dsimp only
    rw [hsame]

theorem maps_congr
    (p : List (Fin 512)) (i : Fin 512) (f : Nat) : Maps m'.mem r p i f ↔ Maps m.mem r p i f :=
  Spaces.maps_iff_of_same_tables (fun g hg => hmem g (h.owned g hg).2) hr p i f

end

/-- An address space without tables maps no page. -/
theorem empty_of_tableCount_zero (h : tableCount m.mem 2 r userEntries = 0) (p : List (Fin 512)) (i : Fin 512) (f : Nat) :
    ¬ Maps m.mem r p i f := by
  rintro ⟨hp, hpres, -⟩
  obtain ⟨j, q, rfl⟩ := exists_cons_of_length_eq_add_one hp.2
  obtain ⟨hj, hq⟩ := leafPath_cons.mp hp
  cases ht : tableAt m.mem r (j :: q) with
  | none =>
    rw [entryAt_none ht, hasFlag_zero] at hpres
    cases hpres
  | some t =>
    have hmem : t ∈ userEntries.flatMap (freedFor m.mem 2 r) := (mem_freed t).mpr ⟨j, (mem_userEntries j).mpr hj, q, hq.le, ht⟩
    rw [eq_nil_of_length_eq_zero h] at hmem
    cases hmem

theorem userEntries_head : ∃ ys, userEntries = 0 :: ys := ⟨userEntries.tail, by decide +kernel⟩

theorem tableCount_pos (hp : hasFlag (m.mem r 0) ptePresent = true) (hs : hasFlag (m.mem r 0) ptePs = false) :
    0 < tableCount m.mem 2 r [0] := by
  rw [tableCount_cons, freedFor, childOf_present hp hs, length_append, length_singleton]
  omega

theorem tableCount_pos_of_spaces (h : Spaces p₀ live m) (hr : r ∈ live) (hp : hasFlag (m.mem r 0) ptePresent = true) :
    0 < tableCount m.mem 2 r [0] :=
  tableCount_pos hp (h.small r hr [] 0 (tablePath_cons.mpr ⟨(by decide : (0 : Fin 512).val < 256), Nat.zero_le 2⟩) hp)

theorem tableCount_first (mem : Nat → Fin 512 → BitVec 64) (xs : List (Fin 512)) :
    tableCount mem 2 r [0] ≤ tableCount mem 2 r (0 :: xs) := by
  rw [tableCount_cons, tableCount_cons]
  exact Nat.add_le_add_left (Nat.zero_le _) _

/-- What a fork does to memory up to the copy, and the copy. -/
structure ForkMemory (p₀ : Pmm) (live : List Nat) (r c : Nat) (m : Vmm) (st : VmmStatus) (m₂ : Vmm) : Prop where
  spaces : Spaces p₀ (c :: live) m₂
  short : st ≠ .ok ↔ m.pmm.freeCount - 4 < tableCount m.mem 2 r userEntries
  kept : ∀ f, m.pmm.isUsed f = true → Outside c m₂ f
  lost : (∃ f, Outside c m₂ f ∧ m.pmm.isUsed f = false) ↔
    hasFlag (m.mem r 0) ptePresent = true ∧ 4 + tableCount m.mem 2 r [0] ≤ m.pmm.freeCount
  maps : ∀ p i f, Maps m₂.mem c p i f ↔ st = .ok ∧ Maps m.mem r p i f

theorem forkMemory (h : Spaces p₀ live m) (hr : r ∈ live) (hc : m.pmm.Free c) :
    ∃ m1 st m₂, (mapUserStack (.ofRoot c) 16 taskUserStackBase).run (m.alloc c (newPml4 m)) = ((), m1) ∧
      (vmmCloneAddressSpace (.ofRoot r) (.ofRoot c)).run m1 = (st, m₂) ∧ ForkMemory p₀ live r c m st m₂ := by
  obtain ⟨m1, hstack, h1, hempty⟩ := mapUserStack_effect (h.create hc) mem_cons_self (fun p i f => created_empty p i f) 16
    taskUserStackBase
  obtain ⟨m1', hstack', hcount, hready, hzero, hout, hmem⟩ := mapUserStack_frames h hc
  obtain rfl : m1' = m1 := (Prod.mk.inj (hstack'.symm.trans hstack)).2
  have hrc : r ≠ c := fun hrc => h.not_table_of_free hc ⟨r, hr, [], .nil 256, congrArg some hrc⟩
  have hrow : m1'.mem r = m.mem r := hmem r (h.owned r ⟨r, hr, [], .nil 256, rfl⟩).2
  obtain ⟨st, m₂, hclone, hcloned⟩ := cloneSpace_spaces h1 (mem_cons_of_mem c hr) mem_cons_self hrc hempty
  have hall := tableCount_congr h hr hmem fun i hi => (mem_userEntries i).mp hi
  have hfirst : tableCount m1'.mem 2 r [0] = tableCount m.mem 2 r [0] := by
    refine tableCount_congr h hr hmem fun i hi => ?_
    rw [mem_singleton.mp hi]
    exact (by decide : (0 : Fin 512).val < 256)
  have hpos := tableCount_pos_of_spaces h hr
  obtain ⟨tail, hhead⟩ := userEntries_head
  refine ⟨m1', st, m₂, hstack, hclone, hcloned.spaces, ?_, ?_, ?_, ?_⟩
  · rw [hcloned.short, hcount, hall]
  · intro f hf
    obtain ⟨xs, ys, -, -, -, -, hleft⟩ := hcloned.left
    exact (hleft f).mpr (.inl ((hout f).mpr hf))
  · obtain ⟨xs, ys, hsplit, -, henough, hshort, hleft⟩ := hcloned.left
    rw [hrow] at hleft
    constructor
    · rintro ⟨f, hf, hfree⟩
      obtain ⟨i, p, ⟨hi, hpres⟩, hp, htab⟩ := ((hleft f).mp hf).resolve_left fun hold => by
        rw [(hout f).mp hold] at hfree
        cases hfree
      have hUi : UserEntry i := (mem_userEntries i).mp (hsplit ▸ mem_append_left _ hi)
      obtain rfl : i = 0 := by
        by_contra hne
        rw [tableAt_none (by rw [hzero i hUi hne]; exact childOf_zero)] at htab
        cases htab
      refine ⟨hpres, ?_⟩
      cases xs with
      | nil => cases hi
      | cons j xs =>
        obtain rfl : j = 0 := (cons.inj (hsplit.symm.trans hhead)).1
        have hle := tableCount_first (r := r) m1'.mem xs
        have := hpos hpres
        omega
    · rintro ⟨hpres, hle⟩
      have := hpos hpres
      have hin : (0 : Fin 512) ∈ xs := by
        cases xs with
        | nil =>
          have hlt := hshort 0 tail (hsplit.symm.trans hhead)
          rw [nil_append] at hlt
          omega
        | cons j xs =>
          rw [(cons.inj (hsplit.symm.trans hhead)).1]
          exact mem_cons_self
      obtain ⟨f, hf⟩ := Option.ne_none_iff_exists'.mp (hready.resolve_left (by omega))
      have hpath : TablePath 256 (vaPath taskUserStackBase) := TablePath.vaPath (by decide)
      refine ⟨f, (hleft f).mpr (.inr ⟨0, [256, 0], ⟨hin, hpres⟩, Nat.le_refl 2, hf⟩), ?_⟩
      rw [← Bool.not_eq_true]
      intro hu
      exact ((hout f).mpr hu).2 _ hpath hf
  · intro p i f
    by_cases hst : st = .ok
    · rw [hcloned.copy hst, maps_congr h hr hmem]
      simp [hst]
    · simp [hst, hcloned.empty hst]

variable {st : VmmStatus} {m₂ : Vmm}

/-- What is in use after the child of a fork is destroyed. -/
theorem ForkMemory.destroy (hm : ForkMemory p₀ live r c m st m₂) (f : Nat) :
    (((vmmDestroyAddressSpace (.ofRoot c)).run m₂).2.pmm.isUsed f = true ↔
      Outside c m₂ f ∧ ¬ (st = .ok ∧ ∃ p i, Maps m.mem r p i f)) := by
  obtain ⟨m3, hrun, hused⟩ := vmmDestroyAddressSpace_used hm.spaces mem_cons_self
  rw [hrun]
  dsimp only
  simp only [hused f, hm.maps, not_or, not_exists, not_and, Outside, and_assoc, exists_and_left]

theorem ForkMemory.balanced_iff (h : Spaces p₀ live m) (hr : r ∈ live)
    (hm : ForkMemory p₀ live r c m st m₂) :
    (∀ f, ((vmmDestroyAddressSpace (.ofRoot c)).run m₂).2.pmm.isUsed f = m.pmm.isUsed f) ↔
      ¬ (hasFlag (m.mem r 0) ptePresent = true ∧ 4 + tableCount m.mem 2 r [0] ≤ m.pmm.freeCount) ∧
        (st = .ok → ∀ p i f, ¬ Maps m.mem r p i f) := by
  rw [← hm.lost]
  constructor
  · intro hsame
    refine ⟨?_, fun hst p i f hmap => ?_⟩
    · rintro ⟨f, hout, hfree⟩
      have hnot : ¬ m.pmm.isUsed f = true := Bool.not_eq_true _ |>.mpr hfree
      rw [← hsame f, hm.destroy f] at hnot
      refine hnot ⟨hout, ?_⟩
      rintro ⟨-, p, i, hmap⟩
      rw [(h.mapped f ⟨r, hr, p, i, hmap⟩).2.1] at hfree
      cases hfree
    · have hu := (h.mapped f ⟨r, hr, p, i, hmap⟩).2.1
      rw [← hsame f, hm.destroy f] at hu
      exact hu.2 ⟨hst, p, i, hmap⟩
  · rintro ⟨hlost, hnone⟩ f
    rw [Bool.eq_iff_iff, hm.destroy f]
    constructor
    · rintro ⟨hout, -⟩
      by_contra hu
      exact hlost ⟨f, hout, Bool.not_eq_true _ |>.mp hu⟩
    · intro hu
      refine ⟨hm.kept f hu, ?_⟩
      rintro ⟨hst, p, i, hmap⟩
      exact hnone hst p i f hmap

/-- When there are not enough frames the copy fails. -/
theorem ForkMemory.fits_iff (h : Spaces p₀ live m) (hr : r ∈ live)
    (hm : ForkMemory p₀ live r c m st m₂) :
    (¬ (hasFlag (m.mem r 0) ptePresent = true ∧ 4 + tableCount m.mem 2 r [0] ≤ m.pmm.freeCount) ∧
        (st = .ok → ∀ p i f, ¬ Maps m.mem r p i f)) ↔
      if hasFlag (m.mem r 0) ptePresent then m.pmm.freeCount < 4 + tableCount m.mem 2 r [0]
      else (∀ p i f, ¬ Maps m.mem r p i f) ∨ m.pmm.freeCount < 4 + tableCount m.mem 2 r userEntries := by
  have hshort := hm.short
  cases hpres : hasFlag (m.mem r 0) ptePresent with
  | true =>
    rw [if_pos rfl]
    have hpos := tableCount_pos_of_spaces h hr hpres
    obtain ⟨tail, hhead⟩ := userEntries_head
    have hle : tableCount m.mem 2 r [0] ≤ tableCount m.mem 2 r userEntries := hhead ▸ tableCount_first m.mem tail
    constructor
    · rintro ⟨hnot, -⟩
      simp only [true_and] at hnot
      omega
    · intro hlt
      exact ⟨fun hc => by omega, fun hst => absurd hst (hshort.mpr (by omega))⟩
  | false =>
    rw [if_neg (by simp)]
    constructor
    · rintro ⟨-, hnone⟩
      by_cases hst : st = .ok
      · exact .inl (hnone hst)
      · have := hshort.mp hst
        exact .inr (by omega)
    · intro hcases
      refine ⟨fun hc => Bool.false_ne_true hc.1, fun hst => ?_⟩
      rcases hcases with hnone | hlt
      · exact hnone
      · have henough : ¬ m.pmm.freeCount - 4 < tableCount m.mem 2 r userEntries := fun hlt => hshort.mpr hlt hst
        exact empty_of_tableCount_zero (by omega)

/-! ## The system call -/

variable {k : Kernel}

theorem taskDestroy_vmm {t : TaskPtr} {p : SpacePtr} (hk : k.isKernel t = false) (ha : k.addressSpace t = some p)
    (hs : k.spaceOf t = .ofRoot c) : (k.taskDestroy t).vmm = ((vmmDestroyAddressSpace (.ofRoot c)).run k.vmm).2 := by
  have hp : k.spaces p = .ofRoot c := (spaceOf_of_eq ha).symm.trans hs
  unfold Kernel.taskDestroy
  rw [hk, ha]
  unfold destroySpace
  dsimp only
  rw [hp]
  rfl

/-- The state after `task_create` has made task `t` with the address space `c` in block `p`, when memory is `m`. -/
def withChild (k : Kernel) (t : TaskPtr) (p : SpacePtr) (c : Nat) (m : Vmm) : Kernel :=
  Kernel.setSpace
    { k.fillTask t with vmm := m, spaces := Function.update k.spaces p (.ofRoot c), taskList := t :: k.taskList }
    t (some p) (stackRegions 0#64)

theorem withChild_spaceOf (k : Kernel) (t : TaskPtr) (p : SpacePtr) (c : Nat) (m : Vmm) :
    (withChild k t p c m).addressSpace t = some p ∧ (withChild k t p c m).spaceOf t = .ofRoot c := by
  have ha : (withChild k t p c m).addressSpace t = some p := update_self _ _ _
  exact ⟨ha, (spaceOf_of_eq ha).trans (update_self _ _ _)⟩

theorem withChild_other {t u : TaskPtr} {p q : SpacePtr} (hut : u ≠ t) (hqp : q ≠ p) (hu : k.addressSpace u = some q)
    (c : Nat) (m : Vmm) : (withChild k t p c m).spaceOf u = k.spaceOf u := by
  have hfill : (k.fillTask t).addressSpace u = some q := (update_of_ne hut _ _).trans hu
  have ha : (withChild k t p c m).addressSpace u = some q := (update_of_ne hut _ _).trans hfill
  rw [spaceOf_of_eq ha, spaceOf_of_eq hu]
  exact update_of_ne hqp _ _

/-- How a fork ends: it made no child, its child is destroyed again, or it returns with a child. -/
inductive ForkEnds (p₀ : Pmm) (k : Kernel) (b : TaskBlocks) (r : Nat) : Prop where
  | none (hb : b.pcb = none ∨ b.rest = false ∨ b.space = none ∨ k.vmm.pmm.freeCount = 0) (hres : (k.sysFork b).2 = -1)
      (hvmm : (k.sysFork b).1.vmm = k.vmm)
  | failed (c : Nat) (st : VmmStatus) (m : Vmm) (hm : ForkMemory p₀ k.roots r c k.vmm st m) (hst : st ≠ .ok)
      (hb : ∃ t p, b = ⟨some t, true, some p⟩) (hres : (k.sysFork b).2 = -1)
      (hvmm : (k.sysFork b).1.vmm = ((vmmDestroyAddressSpace (.ofRoot c)).run m).2)
  | child (c : Nat) (m : Vmm) (hm : ForkMemory p₀ k.roots r c k.vmm .ok m) (t : TaskPtr) (p : SpacePtr)
      (hb : b = ⟨some t, true, some p⟩) (hres : (k.sysFork b).2 ≠ -1) (hvmm : (k.sysFork b).1.vmm = m)
      (hk : (k.sysFork b).1.isKernel t = false) (ha : (k.sysFork b).1.addressSpace t = some p)
      (hs : (k.sysFork b).1.spaceOf t = .ofRoot c)

theorem sysFork_ends (h : Hosted p₀ k) {cur : TaskPtr} (hc : k.procs.sched.current = some cur)
    (hu : k.isKernel cur = false) {b : TaskBlocks} (hpcb : b.pcb.all k.pcbFree = true) (hspace : b.space.all k.spaceFree = true)
    (hr : (k.spaceOf cur).pml4 = some r) : ForkEnds p₀ k b r := by
  obtain ⟨p1, r1, ha1, hne1, hs1, hroot, hin⟩ := h.root (h.current cur hc) hu
  obtain rfl : r1 = r := by
    rw [hroot] at hr
    exact Option.some.inj hr
  obtain ⟨pcb, rest, space⟩ := b
  cases pcb with
  | none => exact .none (.inl rfl) (by unfold Kernel.sysFork; rw [hc]; rfl) (by unfold Kernel.sysFork; rw [hc]; rfl)
  | some t =>
    cases rest with
    | false =>
      exact .none (.inr (.inl rfl)) (by unfold Kernel.sysFork; rw [hc]; rfl) (by unfold Kernel.sysFork; rw [hc]; rfl)
    | true =>
      cases space with
      | none =>
        exact .none (.inr (.inr (.inl rfl))) (by unfold Kernel.sysFork; rw [hc]; rfl) (by unfold Kernel.sysFork; rw [hc]; rfl)
      | some p =>
        have hnew : t ≠ cur := by
          rintro rfl
          exact absurd (h.current t hc) (by simpa [pcbFree] using hpcb)
        have hpfree : p1 ≠ p := by
          rintro rfl
          exact (Hosted.spaceFree_iff.mp hspace).2 cur (h.current cur hc) ha1
        rcases createSpace_run h.spaces.init h.spaces.kernel_not_free with ⟨hfull, hcreate⟩ | ⟨c, hfree, hcreate⟩
        · have hfork : k.sysFork ⟨some t, true, some p⟩ = (k.fillTask t, -1) := by
            unfold Kernel.sysFork Kernel.taskCreate
            rw [hc]
            dsimp only [fillTask, setSpace]
            rw [hcreate]
            rfl
          refine .none (.inr (.inr (.inr ?_))) ?_ ?_
          · exact Pmm.freeCount_eq_zero.mpr (hfull h.spaces.pmmInit)
          · rw [hfork]
          · rw [hfork]
            rfl
        · obtain ⟨m1, st, m₂, hstack, hclone, hm⟩ := forkMemory h.spaces hin hfree
          have hmade : k.taskCreate ⟨some t, true, some p⟩ = (withChild k t p c m1, some t) := by
            unfold Kernel.taskCreate
            dsimp only [fillTask, setSpace]
            rw [hcreate]
            dsimp only
            rw [hstack]
            rfl
          obtain ⟨hspaceT, hrootT⟩ := withChild_spaceOf k t p c m1
          have hrootC : (withChild k t p c m1).spaceOf cur = .ofRoot r1 := (withChild_other hnew.symm hpfree ha1 c m1).trans hroot
          have huserT : (withChild k t p c m1).isKernel t = false := update_self _ _ _
          have hm1 : (withChild k t p c m1).vmm = m1 := rfl
          generalize withChild k t p c m1 = k1 at hmade hspaceT hrootT hrootC huserT hm1
          obtain ⟨procs, pid, hfork⟩ : ∃ (procs : Processes) (pid : Nat), k.sysFork ⟨some t, true, some p⟩ =
              if st ≠ .ok then (Kernel.taskDestroy { k1 with procs := k1.procs.linkChild cur t, vmm := m₂ } t, -1)
              else ({ k1 with procs := procs, vmm := m₂ }, (pid : Int)) := by
            unfold Kernel.sysFork
            rw [hc]
            dsimp only
            rw [hmade]
            dsimp only
            have hspaces : spaceOf { k1 with procs := k1.procs.linkChild cur t } cur = .ofRoot r1 ∧
                spaceOf { k1 with procs := k1.procs.linkChild cur t } t = .ofRoot c := ⟨hrootC, hrootT⟩
            rw [hspaces.1, hspaces.2, hm1, hclone]
            exact ⟨_, _, rfl⟩
          by_cases hst : st = .ok
          · subst hst
            rw [if_neg (not_not.mpr rfl)] at hfork
            refine .child c m₂ hm t p rfl ?_ ?_ ?_ ?_ ?_
            · rw [hfork]
              show (pid : Int) ≠ -1
              omega
            · rw [hfork]
            · rw [hfork]
              exact huserT
            · rw [hfork]
              exact hspaceT
            · rw [hfork]
              exact hrootT
          · rw [if_pos hst] at hfork
            refine .failed c st m₂ hm hst ⟨t, p, rfl⟩ ?_ ?_
            · rw [hfork]
            · rw [hfork]
              exact taskDestroy_vmm huserT hspaceT hrootT

end ForkFramesAux

open ForkFramesAux

/-- A fork, with the destruction of the child, leaves in use what was in use before exactly when the parent's tables do not take the
place of those for the stack of the child and the child frees no page of the parent. -/
theorem fork_returns_frames {p₀ : Pmm} {k : Kernel} (h : Hosted p₀ k) {cur : TaskPtr} (hc : k.procs.sched.current = some cur)
    (hu : k.isKernel cur = false) {b : TaskBlocks} (hpcb : b.pcb.all k.pcbFree = true) (hspace : b.space.all k.spaceFree = true)
    {later : Kernel} (hlater : ∀ t, b.pcb = some t → Kernel.Untouched t (k.sysFork b).1 later) {r : Nat}
    (hr : (k.spaceOf cur).pml4 = some r) :
    (∀ f, (k.forkAndDestroy b later).vmm.pmm.isUsed f = k.vmm.pmm.isUsed f) ↔ k.ForkFits b r := by
  obtain ⟨p1, r1, -, -, -, hroot, hin⟩ := h.root (h.current cur hc) hu
  obtain rfl : r1 = r := by
    rw [hroot] at hr
    exact Option.some.inj hr
  unfold forkAndDestroy Kernel.ForkFits
  cases sysFork_ends h hc hu hpcb hspace hr with
  | none hb hres hvmm =>
    rw [if_pos hres, hvmm]
    refine iff_of_true (fun _ => rfl) (hb.imp id (Or.imp id (Or.imp id fun hzero => ?_)))
    split
    · omega
    · exact .inr (by omega)
  | failed c st m hm hst hb hres hvmm =>
    obtain ⟨t, p, rfl⟩ := hb
    rw [if_pos hres, hvmm, hm.balanced_iff h.spaces hin, hm.fits_iff h.spaces hin]
    simp
  | child c m hm t p hb hres hvmm hk ha hs =>
    subst hb
    have hun := hlater t rfl
    have hend : (later.taskDestroy t).vmm = ((vmmDestroyAddressSpace (.ofRoot c)).run m).2 := by
      rw [taskDestroy_vmm (hun.isKernel.trans hk) (hun.addressSpace.trans ha) (hun.space.trans hs), hun.vmm, hvmm]
    rw [if_neg hres]
    dsimp only
    rw [hend, hm.balanced_iff h.spaces hin, hm.fits_iff h.spaces hin]
    simp

namespace ForkFramesAux

/-- The blocks of a child of task 5. -/
def childBlocks : TaskBlocks := ⟨some 6, true, some 0x30#64⟩

theorem childBlocks_free : childBlocks.pcb.all sampleKernel.pcbFree = true ∧ childBlocks.space.all sampleKernel.spaceFree = true := by
  decide

end ForkFramesAux

/-- Without a kernel stack for the child the frames are as before, and with one they are not. -/
theorem fork_returns_frames_sample : Hosted emptyVmm.pmm sampleKernel ∧
    (∀ f, (sampleKernel.forkAndDestroy { childBlocks with rest := false }
      (sampleKernel.sysFork { childBlocks with rest := false }).1).vmm.pmm.isUsed f = sampleKernel.vmm.pmm.isUsed f) ∧
    ¬ ∀ f, (sampleKernel.forkAndDestroy childBlocks (sampleKernel.sysFork childBlocks).1).vmm.pmm.isUsed f =
      sampleKernel.vmm.pmm.isUsed f := by
  have h := sampleKernel_hosted
  have hfree := childBlocks_free
  have hcur : sampleKernel.procs.sched.current = some 5 := rfl
  have huser : sampleKernel.isKernel 5 = false := rfl
  have hroot : (sampleKernel.spaceOf 5).pml4 = some 2 := rfl
  have hpres : hasFlag (sampleKernel.vmm.mem 2 0) ptePresent = true := by decide +kernel
  have hcount : 4 + tableCount sampleKernel.vmm.mem 2 2 [0] ≤ sampleKernel.vmm.pmm.freeCount := by decide +kernel
  generalize sampleKernel = k at h hfree hcur huser hroot hpres hcount
  refine ⟨h, (fork_returns_frames h hcur huser (b := { childBlocks with rest := false }) hfree.1 hfree.2
    (fun _ _ => ⟨rfl, rfl, rfl, rfl⟩) hroot).mpr (.inr (.inl rfl)), fun hall => ?_⟩
  rcases (fork_returns_frames h hcur huser hfree.1 hfree.2 (fun _ _ => ⟨rfl, rfl, rfl, rfl⟩) hroot).mp hall with hb | hb | hb | hb
  · cases hb
  · cases hb
  · cases hb
  · rw [if_pos hpres] at hb
    omega

/-- Task 5, which has a page, forks task 6, which is destroyed at once: frame 3, where the page is, is free while task 5 maps it, and
a frame that was free stays in use. -/
theorem fork_frees_and_leaks : (sampleKernel.sysFork childBlocks).2 ≠ -1 ∧
    sampleKernel.vmm.pmm.isUsed 3 = true ∧
    (sampleKernel.forkAndDestroy childBlocks (sampleKernel.sysFork childBlocks).1).vmm.pmm.isUsed 3 = false ∧
    ∃ f, sampleKernel.vmm.pmm.isUsed f = false ∧
      (sampleKernel.forkAndDestroy childBlocks (sampleKernel.sysFork childBlocks).1).vmm.pmm.isUsed f = true := by
  have h := sampleKernel_hosted
  have hfree := childBlocks_free
  have hcur : sampleKernel.procs.sched.current = some 5 := rfl
  have huser : sampleKernel.isKernel 5 = false := rfl
  have hroot : (sampleKernel.spaceOf 5).pml4 = some 2 := rfl
  have hmaps : Maps sampleKernel.vmm.mem 2 (vaPath samplePage.addr) (ptIndex samplePage.addr) 3 :=
    ⟨samplePage.leafPath, by decide +kernel, by decide +kernel⟩
  have hpres : hasFlag (sampleKernel.vmm.mem 2 0) ptePresent = true := by decide +kernel
  have hcount : 4 + tableCount sampleKernel.vmm.mem 2 2 userEntries ≤ sampleKernel.vmm.pmm.freeCount := by decide +kernel
  have hin : (2 : Nat) ∈ sampleKernel.roots := by
    rw [sampleKernel_roots]
    exact mem_singleton_self 2
  generalize sampleKernel = k at h hfree hcur huser hroot hmaps hpres hcount hin
  obtain ⟨tail, hhead⟩ := userEntries_head
  have hfirst : tableCount k.vmm.mem 2 2 [0] ≤ tableCount k.vmm.mem 2 2 userEntries := hhead ▸ tableCount_first k.vmm.mem tail
  have hpos := tableCount_pos_of_spaces h.spaces hin hpres
  cases sysFork_ends h hcur huser hfree.1 hfree.2 hroot with
  | none hb hres hvmm =>
    rcases hb with hb | hb | hb | hb
    · cases hb
    · cases hb
    · cases hb
    · omega
  | failed c st m hm hst hb hres hvmm =>
    have := hm.short.mp hst
    omega
  | child c m hm t p hb hres hvmm hk ha hs =>
    have hend : (k.forkAndDestroy childBlocks (k.sysFork childBlocks).1).vmm = ((vmmDestroyAddressSpace (.ofRoot c)).run m).2 := by
      unfold forkAndDestroy
      rw [if_neg hres, show childBlocks.pcb = some t from congrArg TaskBlocks.pcb hb]
      dsimp only
      rw [taskDestroy_vmm hk ha hs, hvmm]
    have hused := (h.spaces.mapped 3 ⟨2, hin, _, _, hmaps⟩).2.1
    obtain ⟨f, hout, hnew⟩ := hm.lost.mpr ⟨hpres, by omega⟩
    refine ⟨hres, hused, ?_, f, hnew, ?_⟩
    · rw [hend, ← Bool.not_eq_true, hm.destroy 3]
      rintro ⟨-, hnot⟩
      exact hnot ⟨rfl, _, _, hmaps⟩
    · rw [hend, hm.destroy f]
      refine ⟨hout, ?_⟩
      rintro ⟨-, q, i, hmap⟩
      rw [(h.spaces.mapped f ⟨2, hin, q, i, hmap⟩).2.1] at hnew
      cases hnew

end TsOs
