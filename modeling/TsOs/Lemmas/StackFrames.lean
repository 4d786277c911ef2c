import TsOs.TaskSpaces
import TsOs.Lemmas.UserMemory

/-!
# The frames of a new address space

How many frames the tables for the stack of a new task take, and that the tree of the new address space is all that they are used
for: what is in use outside of it is what was in use before.
-/

namespace TsOs

open Radix StateProg PteAux TableAux VmmRun WalkAux LifeAux FreeTablesAux CloneAux VmmAux RangeAux List BitVec

variable {p0 : Pmm} {live : List Nat} {m m' : Vmm} {r n : Nat} {i : Fin 512} {p q : List (Fin 512)} {va flags : BitVec 64}

/-- The number of tables that are missing on the way from table `n` along `q`. -/
def missingTables (mem : Nat → Fin 512 → BitVec 64) : Nat → List (Fin 512) → Nat
  | _, [] => 0
  | n, i :: q =>
    match childOf (mem n i) with
    | none => q.length + 1
    | some b => missingTables mem b q

theorem missingTables_of_empty {mem : Nat → Fin 512 → BitVec 64} (h : ∀ i, mem n i = 0#64) (q : List (Fin 512)) :
    missingTables mem n q = q.length := by
  cases q with
  | nil => rfl
  | cons i q => simp [missingTables, h, childOf_zero]

theorem missingTables_eq_zero {mem : Nat → Fin 512 → BitVec 64} {f : Nat} (h : tableAt mem n q = some f) :
    missingTables mem n q = 0 := by
  induction q generalizing n with
  | nil => rfl
  | cons i q ih =>
    cases hb : childOf (mem n i) with
    | none =>
      rw [tableAt_none hb] at h
      cases h
    | some b =>
      rw [tableAt_child hb] at h
      simp only [missingTables, hb]
      exact ih h

/-! ## The frames that a walk takes -/

/-- A walk along `q` from table `n` takes a frame for each table that is missing, and finds no entry only if there are not enough.
No other entry of the PML4 than the one of the address changes. -/
structure WalkFrames (r n : Nat) (va : BitVec 64) (q : List (Fin 512)) (m m' : Vmm) (res : Option (Nat × Fin 512)) : Prop where
  count : m'.pmm.freeCount = m.pmm.freeCount - missingTables m.mem n q
  full : res = none → m'.pmm.freeCount = 0
  root : ∀ j, j ≠ pml4Index va → m'.mem r j = m.mem r j

/-- An entry is there, or a new table is linked, or there is no frame for one. -/
theorem getOrCreate_cases (hi : m.pmm.initialized = true) (n : Nat) (i : Fin 512) (flags : BitVec 64) :
    (hasFlag (m.mem n i) ptePresent = true ∧ (ptGetOrCreateEntry n i true flags).run m = (m.mem n i, m)) ∨
    hasFlag (m.mem n i) ptePresent = false ∧
      (m.pmm.freeCount = 0 ∧ (ptGetOrCreateEntry n i true flags).run m = (0#64, m) ∨
       ∃ c, m.pmm.Free c ∧
        (ptGetOrCreateEntry n i true flags).run m = (pteMake (frameAddr c) flags, linked m n i c flags)) := by
  rw [ptGetOrCreateEntry, bind_run (readEntry_run m n i)]
  cases hpres : hasFlag (m.mem n i) ptePresent with
  | true => exact .inl ⟨rfl, by rw [if_pos rfl]; rfl⟩
  | false =>
    refine .inr ⟨rfl, ?_⟩
    rw [if_neg (by simp), if_neg (by simp)]
    rcases allocFrame_run m with ⟨hnone, hfull⟩ | ⟨c, hc, -, hne, hfr, hrun⟩
    · rw [bind_run hnone]
      exact .inl ⟨Pmm.freeCount_eq_zero.mpr (hfull hi), rfl⟩
    · rw [bind_run hrun, if_neg hne, hfr]
      exact .inr ⟨c, hc, rfl⟩

/-- A level of a walk that goes on as the steps `next`. -/
theorem level_frames (h : Spaces p0 live m) (hr : r ∈ live) (hva : vaPath va = p ++ [i] ++ q) (hp : TablePath 256 (vaPath va))
    (hn : tableAt m.mem r p = some n) (hflags : LinkFlags flags) {huge : Option (Nat × Fin 512)}
    {next : BitVec 64 → VmmM (Option (Nat × Fin 512))}
    (hnext : ∀ m' e, Spaces p0 live m' → tableAt m'.mem r (p ++ [i]) = some (frameOf (pteAddr e)) →
      ∃ res m'', (next e).run m' = (res, m'') ∧ WalkFrames r (frameOf (pteAddr e)) va q m' m'' res) :
    ∃ res m', (do
      let e ← ptGetOrCreateEntry n i true flags
      if !hasFlag e ptePresent then pure none
      else if hasFlag e ptePs then pure huge
      else next e : VmmM (Option (Nat × Fin 512))).run m = (res, m') ∧ WalkFrames r n va (i :: q) m m' res := by
  have hp1 : TablePath 256 (p ++ [i]) := (hva ▸ hp).of_append
  rcases getOrCreate_cases h.pmmInit n i flags with ⟨hpres, hrun⟩ | ⟨hpres, hrest⟩
  · have hentry : entryAt m.mem r p i = m.mem n i := entryAt_eq hn i
    have hps : hasFlag (m.mem n i) ptePs = false := by
      have := h.small r hr p i hp1
      rw [hentry] at this
      exact this hpres
    have hchild := childOf_present hpres hps
    obtain ⟨res, m1, hrun1, hend⟩ := hnext m (m.mem n i) h (by rw [tableAt_snoc, hentry, hchild]; rfl)
    rw [bind_run hrun, hpres, hps, if_neg (by simp)]
    refine ⟨res, m1, hrun1, ⟨?_, hend.full, hend.root⟩⟩
    rw [hend.count, missingTables, hchild]
    rfl
  · have hmissing : missingTables m.mem n (i :: q) = q.length + 1 := by
      rw [missingTables, childOf_absent hpres]
    rcases hrest with ⟨hzero, hrun⟩ | ⟨c, hc, hrun⟩
    · rw [bind_run hrun, hasFlag_zero]
      exact ⟨none, m, rfl, ⟨by omega, fun _ => hzero, fun _ _ => rfl⟩⟩
    · obtain ⟨hgrown, hnew⟩ := grown_linked h.tables h.kept hr hp1 hn hpres hc hflags
      obtain ⟨hpres', hps', hframe⟩ := linkEntry hc hflags
      have hnc : n ≠ c := fun hnc => h.kept r hr p n hp1.of_append hn (hnc ▸ hc)
      have hrc : r ≠ c := fun hrc => h.kept r hr [] r (.nil 256) rfl (hrc ▸ hc)
      change frameOf (pteAddr (pteMake (frameAddr c) flags)) = c at hframe
      obtain ⟨res, m1, hrun1, hend⟩ := hnext (linked m n i c flags) (pteMake (frameAddr c) flags) (hgrown.spaces h hr)
        (by rw [hframe]; exact hnew)
      rw [bind_run hrun, hpres', hps']
      refine ⟨res, m1, hrun1, ⟨?_, hend.full, fun j hj => ?_⟩⟩
      · have htake : (linked m n i c flags).pmm.freeCount + 1 = m.pmm.freeCount := Pmm.freeCount_take hc
        rw [hend.count, hframe, missingTables_of_empty fun j => linked_mem_new hnc, hmissing]
        omega
      · rw [hend.root j hj, linked_mem_of_ne hrc]
        rintro ⟨rfl, rfl⟩
        have hnil := (h.root_unique hr hp1.of_append hr hn).2
        rw [hnil] at hva
        exact hj (cons.inj hva).1.symm

theorem ptWalkToLeaf_frames (h : Spaces p0 live m) (hr : r ∈ live) (hB : (pml4Index va).val < 256) (hflags : LinkFlags flags) :
    ∃ res m', (ptWalkToLeaf r va true flags).run m = (res, m') ∧ WalkFrames r r va (vaPath va) m m' res := by
  have hpath := TablePath.vaPath hB
  refine level_frames (q := [pdptIndex va, pdIndex va]) h hr rfl hpath (tableAt_nil r) hflags ?_
  intro m1 e1 h1 hn1
  refine level_frames (q := [pdIndex va]) h1 hr rfl hpath hn1 hflags ?_
  intro m2 e2 h2 hn2
  refine level_frames (q := []) h2 hr rfl hpath hn2 hflags ?_
  intro m3 e3 _ _
  exact ⟨_, m3, rfl, ⟨rfl, nofun, fun _ _ => rfl⟩⟩

/-! ## Demand pages -/

theorem Grown.outside_iff (hg : Grown 256 live r m m') (f : Nat) :
    Outside r m' f ↔ Outside r m f := by
  constructor
  · intro hout
    have hused : m.pmm.isUsed f = true := by
      rcases (hg.used f).mp hout.1 with hu | ⟨-, p, hp, hf⟩
      · exact hu
      · exact absurd hf (hout.2 p hp)
    exact ⟨hused, fun p hp hf => hout.2 p hp (hg.tables p f hp hf)⟩
  · intro hout
    refine ⟨(hg.used f).mpr (.inl hout.1), fun p hp hf => ?_⟩
    rcases hg.fresh p f hp hf with hold | hfree
    · exact hout.2 p hp hold
    · exact Spaces.not_free_of_used hout.1 hfree

/-- What a demand page does to the frames: the tree takes those that are missing, and what was in use is not written but for
tables of the tree. -/
structure PageFrames (r : Nat) (va : BitVec 64) (m m' : Vmm) : Prop where
  count : m'.pmm.freeCount = m.pmm.freeCount - missingTables m.mem r (vaPath va)
  full : m'.pmm.freeCount = 0 ∨ tableAt m'.mem r (vaPath va) ≠ none
  root : ∀ j, j ≠ pml4Index va → m'.mem r j = m.mem r j
  outside : ∀ f, Outside r m' f ↔ Outside r m f
  rest : ∀ f, Outside r m f → m'.mem f = m.mem f
  tables : ∀ p f, TablePath 256 p → tableAt m.mem r p = some f → tableAt m'.mem r p = some f

theorem vmmMapDemandPage_frames (h : Spaces p0 live m) (hr : r ∈ live) (v : UserVa) (hv : validateVaddr v.addr = true)
    (flags : MapFlags) : PageFrames r v.addr m ((vmmMapDemandPage (.ofRoot r) v.addr flags.bits).run m).2 := by
  obtain ⟨res, m1, hrun, hend⟩ := ptWalkToLeaf_spec true _ h.tables h.kept hr v.index_lt (fun _ => interFlags_link flags.bits)
  obtain ⟨res', m1', hrun', hframes⟩ := ptWalkToLeaf_frames h hr v.index_lt (interFlags_link flags.bits)
  obtain ⟨rfl, rfl⟩ := Prod.mk.inj (hrun.symm.trans hrun')
  have h1 := hend.grown.spaces h hr
  have hout := hend.grown.outside_iff
  have hrest : ∀ f, Outside r m f → m1.mem f = m.mem f :=
    fun f hf => hend.grown.frames f (Spaces.not_free_of_used hf.1) hf.2
  rw [vmmMapDemandPage, bind_run (get_run m), h.init, AddressSpace.ofRoot_pml4]
  dsimp only [Bool.not_true]
  rw [if_neg (by simp), hv, if_neg (by simp), bind_run hrun]
  cases res with
  | none => exact ⟨hframes.count, .inl (hframes.full rfl), hframes.root, hout, hrest, hend.grown.tables⟩
  | some fi =>
    obtain ⟨f, i⟩ := fi
    obtain ⟨htab, rfl⟩ := hend.slot h1 hr
    rw [bind_run (readEntry_run m1 f _)]
    have hfull : tableAt m1.mem r (vaPath v.addr) ≠ none := by
      rw [htab]
      exact Option.some_ne_none f
    split
    · exact ⟨hframes.count, .inr hfull, hframes.root, hout, hrest, hend.grown.tables⟩
    · change PageFrames r v.addr m (m1.store f (ptIndex v.addr) (lazyEntry flags.bits))
      have hl := LeafSet.store h1 hr v.leafPath htab (ptIndex v.addr) (lazyEntry flags.bits)
      have hsame := fun q hq => (hl.view h1).1 r hr q hq
      have hfr : f ≠ r := by
        rintro rfl
        exact absurd (h1.root_unique hr v.leafPath.1 hr htab).2 (cons_ne_nil _ _)
      refine ⟨hframes.count, .inr ?_, fun j hj => ?_, fun g => ?_, fun g hg => ?_, fun p g hp hg => ?_⟩
      · rw [hsame _ v.leafPath.1]
        exact hfull
      · rw [← hframes.root j hj]
        exact setEntry_of_ne fun hc => hfr hc.1.symm
      · rw [← hout g]
        refine and_congr Iff.rfl (forall_congr' fun p => imp_congr_right fun hp => ?_)
        rw [hsame p hp]
      · rw [← hrest g hg]
        funext j
        refine setEntry_of_ne ?_
        rintro ⟨rfl, -⟩
        exact ((hout g).mpr hg).2 _ v.leafPath.1 htab
      · exact (hsame p hp).trans (hend.grown.tables p g hp hg)

/-! ## The stack -/

/-- The address of page `k` of a user stack. -/
def stackPage (k : Nat) : BitVec 64 := taskUserStackBase + BitVec.ofNat 64 (4096 * k)

theorem stackPage_succ (k : Nat) : stackPage k + 4096#64 = stackPage (k + 1) := by
  rw [stackPage, stackPage, Nat.mul_add, BitVec.ofNat_add, BitVec.add_assoc]

/-- The pages of a stack are pages of one PT. -/
theorem stackPage_facts (k : Fin 16) : (stackPage k).toNat < 2 ^ 47 ∧ validateVaddr (stackPage k) = true ∧
    vaPath (stackPage k) = vaPath taskUserStackBase ∧ (stackPage k).ult (taskUserStackBase + taskUserStackSize) = true := by
  revert k
  decide

/-- From `m` to `m'` the tree at `c` has grown below entry 0 of the PML4. -/
structure StackGrowth (c : Nat) (m m' : Vmm) : Prop where
  root : ∀ j, j ≠ 0 → m'.mem c j = m.mem c j
  outside : ∀ f, Outside c m' f ↔ Outside c m f
  rest : ∀ f, Outside c m f → m'.mem f = m.mem f

variable {c : Nat}

theorem StackGrowth.trans {m1 m2 : Vmm} (h : StackGrowth c m m1) (h' : StackGrowth c m1 m2) : StackGrowth c m m2 where
  root j hj := (h'.root j hj).trans (h.root j hj)
  outside f := (h'.outside f).trans (h.outside f)
  rest f hf := (h'.rest f ((h.outside f).mpr hf)).trans (h.rest f hf)

/-- There is a PT for the stack, or there are no frames for one. -/
def StackReady (c : Nat) (m : Vmm) : Prop := m.pmm.freeCount = 0 ∨ tableAt m.mem c (vaPath taskUserStackBase) ≠ none

/-- The demand page for page `k` of the stack. -/
theorem stackPage_frames (h : Spaces p0 live m) (hc : c ∈ live) {k : Nat} (hk : k < 16) :
    ∃ st m', (vmmMapDemandPage (.ofRoot c) (stackPage k) heapFlags).run m = (st, m') ∧ Spaces p0 live m' ∧
      m'.pmm.freeCount = m.pmm.freeCount - missingTables m.mem c (vaPath taskUserStackBase) ∧ StackReady c m' ∧ StackGrowth c m m' := by
  obtain ⟨hlt, hvalid, hpath, -⟩ := stackPage_facts ⟨k, hk⟩
  have hframes := vmmMapDemandPage_frames h hc ⟨stackPage k, hlt⟩ hvalid heapMapFlags
  have hspaces := (vmmMapDemandPage_keeps h hc ⟨stackPage k, hlt⟩ heapMapFlags).spaces
  have hindex : pml4Index (stackPage k) = 0 := (cons.inj hpath).1
  refine ⟨_, _, rfl, hspaces, ?_, ?_, fun j hj => hframes.root j (hindex ▸ hj), hframes.outside, hframes.rest⟩
  · rw [← hpath]
    exact hframes.count
  · unfold StackReady
    rw [← hpath]
    exact hframes.full

theorem mapUserStack_rest (n k : Nat) (hk : k + n = 16) (h : Spaces p0 live m) (hc : c ∈ live) (hready : StackReady c m) :
    ∃ m', (mapUserStack (.ofRoot c) n (stackPage k)).run m = ((), m') ∧ Spaces p0 live m' ∧
      m'.pmm.freeCount = m.pmm.freeCount ∧ StackReady c m' ∧ StackGrowth c m m' := by
  induction n generalizing k m with
  | zero => exact ⟨m, rfl, h, rfl, hready, fun _ _ => rfl, fun _ => Iff.rfl, fun _ _ => rfl⟩
  | succ n ih =>
    have hlt : k < 16 := by omega
    obtain ⟨st, m1, hrun, h1, hcount, hready1, hgrowth⟩ := stackPage_frames h hc hlt
    have hsame : m1.pmm.freeCount = m.pmm.freeCount := by
      rw [hcount]
      rcases hready with hzero | htab
      · omega
      · obtain ⟨f, hf⟩ := Option.ne_none_iff_exists'.mp htab
        rw [missingTables_eq_zero hf]
        rfl
    obtain ⟨m2, hrun2, h2, hcount2, hready2, hgrowth2⟩ := ih (k + 1) (by omega) h1 hready1
    rw [mapUserStack, if_pos (stackPage_facts ⟨k, hlt⟩).2.2.2, bind_run hrun, stackPage_succ]
    exact ⟨m2, hrun2, h2, hcount2.trans hsame, hready2, hgrowth.trans hgrowth2⟩

/-- The stack of a new address space takes three frames, or all that there are. -/
theorem mapUserStack_frames (h : Spaces p0 live m) (hc : m.pmm.Free c) :
    ∃ m', (mapUserStack (.ofRoot c) 16 taskUserStackBase).run (m.alloc c (newPml4 m)) = ((), m') ∧
      m'.pmm.freeCount = m.pmm.freeCount - 4 ∧ StackReady c m' ∧ (∀ i, UserEntry i → i ≠ 0 → m'.mem c i = 0#64) ∧
      (∀ f, Outside c m' f ↔ m.pmm.isUsed f = true) ∧ ∀ f, m.pmm.isUsed f = true → m'.mem f = m.mem f := by
  have hnew := h.create hc
  have hzero : ∀ i, UserEntry i → (m.alloc c (newPml4 m)).mem c i = 0#64 := by
    intro i hi
    have hi' : ¬ 256 ≤ i.val := Nat.not_le.mpr hi
    have hpage : (m.alloc c (newPml4 m)).mem c = newPml4 m := Function.update_self _ _ _
    rw [hpage, newPml4, if_neg hi']
  have hout : ∀ f, Outside c (m.alloc c (newPml4 m)) f ↔ m.pmm.isUsed f = true := by
    intro f
    constructor
    · intro hf
      refine ((Spaces.alloc_isUsed _ f).mp hf.1).resolve_left ?_
      rintro rfl
      exact hf.2 [] (.nil 256) rfl
    · intro hu
      refine ⟨(Spaces.alloc_isUsed _ f).mpr (.inr hu), fun p hp hf => ?_⟩
      rw [(created_tables hp hf).2] at hu
      exact Spaces.not_free_of_used hu hc
  have hmissing : missingTables (m.alloc c (newPml4 m)).mem c (vaPath taskUserStackBase) = 3 := by
    rw [vaPath, missingTables, hzero _ (by unfold UserEntry; decide)]
    rfl
  have htake : (m.alloc c (newPml4 m)).pmm.freeCount + 1 = m.pmm.freeCount := Pmm.freeCount_take hc
  obtain ⟨st, m1, hrun, h1, hcount, hready, hgrowth⟩ := stackPage_frames (k := 0) hnew mem_cons_self (by decide)
  obtain ⟨m2, hrun2, -, hcount2, hready2, hgrowth2⟩ := mapUserStack_rest 15 1 rfl h1 mem_cons_self hready
  have hall := hgrowth.trans hgrowth2
  have hbase : stackPage 0 = taskUserStackBase := rfl
  refine ⟨m2, ?_, by omega, hready2, fun i hi hne => (hall.root i hne).trans (hzero i hi), fun f => (hall.outside f).trans (hout f),
    fun f hu => ?_⟩
  · rw [← hbase, mapUserStack, if_pos (stackPage_facts ⟨0, by decide⟩).2.2.2, bind_run hrun]
    exact hrun2
  · rw [hall.rest f ((hout f).mpr hu)]
    refine Spaces.alloc_mem_of_ne _ ?_
    rintro rfl
    exact Spaces.not_free_of_used hu hc

end TsOs
