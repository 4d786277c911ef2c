import TsOs.Lemmas.FreeTables

/-!
# Copying a tree of tables

What `cloneTable` does on any source. The tables it makes are distinct frames that were free, everything else changes only in that
pages become copy-on-write, and when frames run out all of them are given back. The tables of the source are visited in a fixed
order, each at the cost of one frame. When no table of the source is a free frame, the new tree is a copy of it.
-/

namespace TsOs

open Radix StateProg PteAux TableAux VmmRun WalkAux LifeAux FreeTablesAux Function List Nat

/-- What becomes of a leaf of the source. -/
def srcLeaf (e : BitVec 64) : BitVec 64 := if hasFlag e ptePresent then cowLeaf e else e

/-- The leaf that the copy gets for the leaf `e` of the source. -/
def cloneLeaf (e : BitVec 64) : BitVec 64 :=
  if hasFlag e ptePresent then cowLeaf e else if hasFlag e pteDemand then e else 0#64

/-- An entry of frame `f` after the PTs `ts` were made copy-on-write. -/
def cowIf (ts : List Nat) (f : Nat) (e : BitVec 64) : BitVec 64 := if f ∈ ts then srcLeaf e else e

variable {f : Nat} {p : List (Fin 512)} {e : BitVec 64}

namespace CloneAux

variable {ts ts' : List Nat}

theorem srcLeaf_zero : srcLeaf 0#64 = 0#64 := by
  rfl

theorem cloneLeaf_zero : cloneLeaf 0#64 = 0#64 := by
  rfl

/-- The flags with which a writable page becomes copy-on-write. -/
theorem getLsbD_cowFlags (e : BitVec 64) {i : Nat} (hi : i < 12) :
    (pteMake (pteAddr e) ((pteFlags e &&& ~~~pteWritable) ||| pteCow)).getLsbD i =
      (e.getLsbD i && !decide (i = 1) || decide (i = 9)) := by
  have hw : (~~~pteWritable).getLsbD i = !decide (i = 1) := by
    have : ∀ k : Fin 12, (~~~pteWritable).getLsbD k = !decide (k.val = 1) := by decide
    exact this ⟨i, hi⟩
  have hc : pteCow.getLsbD i = decide (i = 9) := by
    have : ∀ k : Fin 12, pteCow.getLsbD k = decide (k.val = 9) := by decide
    exact this ⟨i, hi⟩
  rw [getLsbD_pteMake hi, BitVec.getLsbD_or, BitVec.getLsbD_and, getLsbD_pteFlags hi, hw, hc]

/-- A page is made copy-on-write when it is writable and not copy-on-write. -/
theorem cowLeaf_cases (e : BitVec 64) :
    (hasFlag e pteWritable = true ∧ hasFlag e pteCow = false) ∧
      cowLeaf e = pteMake (pteAddr e) ((pteFlags e &&& ~~~pteWritable) ||| pteCow) ∨
    ¬ (hasFlag e pteWritable = true ∧ hasFlag e pteCow = false) ∧ cowLeaf e = e := by
  have hw : hasFlag (pteFlags e) pteWritable = hasFlag e pteWritable := by
    rw [hasFlag_writable, hasFlag_writable, getLsbD_pteFlags (by omega)]
  have hc : hasFlag (pteFlags e) pteCow = hasFlag e pteCow := by
    rw [hasFlag_cow, hasFlag_cow, getLsbD_pteFlags (by omega)]
  rw [cowLeaf, hw, hc]
  by_cases h : hasFlag e pteWritable = true ∧ hasFlag e pteCow = false
  · rw [if_pos (by rw [h.1, h.2]; rfl)]
    exact .inl ⟨h, rfl⟩
  · rw [if_neg (by rw [Bool.and_eq_true, Bool.not_eq_true']; exact h)]
    exact .inr ⟨h, rfl⟩

theorem cowLeaf_present (e : BitVec 64) : hasFlag (cowLeaf e) ptePresent = hasFlag e ptePresent := by
  rcases cowLeaf_cases e with ⟨-, heq⟩ | ⟨-, heq⟩
  · rw [heq, hasFlag_present, getLsbD_cowFlags e (by omega), ← hasFlag_present]
    simp
  · rw [heq]

theorem cowLeaf_demand (e : BitVec 64) : hasFlag (cowLeaf e) pteDemand = hasFlag e pteDemand := by
  rcases cowLeaf_cases e with ⟨-, heq⟩ | ⟨-, heq⟩
  · rw [heq, hasFlag_demand, getLsbD_cowFlags e (by omega), ← hasFlag_demand]
    simp
  · rw [heq]

theorem cowLeaf_frame (e : BitVec 64) : pteFrame (cowLeaf e) = pteFrame e := by
  rcases cowLeaf_cases e with ⟨-, heq⟩ | ⟨-, heq⟩
  · rw [heq, (pteAddr_eq e).1]
    refine pteFrame_make (pteAddr_eq e).2 ?_
    rw [BitVec.and_or_distrib_right, BitVec.and_assoc, BitVec.and_comm (~~~pteWritable), ← BitVec.and_assoc, pteFlags_and_mask]
    decide
  · rw [heq]

/-- A leaf that is well formed is not writable afterwards. -/
theorem cowLeaf_readOnly (h : LeafOk e) : hasFlag (cowLeaf e) pteWritable = false := by
  rcases cowLeaf_cases e with ⟨-, heq⟩ | ⟨hnot, heq⟩
  · rw [heq, hasFlag_writable, getLsbD_cowFlags e (by omega)]
    simp
  · rw [heq, ← Bool.not_eq_true]
    intro hw
    refine hnot ⟨hw, ?_⟩
    rw [← Bool.not_eq_true]
    intro hc
    rw [(h.cow hc).2] at hw
    cases hw

theorem cowLeaf_idem (e : BitVec 64) : cowLeaf (cowLeaf e) = cowLeaf e := by
  rcases cowLeaf_cases e with ⟨-, heq⟩ | ⟨-, heq⟩
  · rcases cowLeaf_cases (cowLeaf e) with ⟨⟨hw, -⟩, -⟩ | ⟨-, h⟩
    · rw [heq, hasFlag_writable, getLsbD_cowFlags e (by omega)] at hw
      simp at hw
    · exact h
  · rw [heq, heq]

theorem cowLeaf_cow (h : hasFlag e ptePresent = true) (hok : LeafOk e) : LeafOk (cowLeaf e) where
  demand hd := by
    rw [cowLeaf_demand] at hd
    rw [cowLeaf_present]
    exact hok.demand hd
  cow _ := ⟨(cowLeaf_present e).trans h, cowLeaf_readOnly hok⟩

theorem srcLeaf_present (e : BitVec 64) : hasFlag (srcLeaf e) ptePresent = hasFlag e ptePresent := by
  unfold srcLeaf
  split
  · exact cowLeaf_present e
  · rfl

theorem srcLeaf_frame (e : BitVec 64) : pteFrame (srcLeaf e) = pteFrame e := by
  unfold srcLeaf
  split
  · exact cowLeaf_frame e
  · rfl

theorem srcLeaf_ok (h : LeafOk e) : LeafOk (srcLeaf e) := by
  unfold srcLeaf
  split
  · next hp => exact cowLeaf_cow hp h
  · exact h

theorem srcLeaf_readOnly (h : LeafOk e) (hp : hasFlag e ptePresent = true) :
    hasFlag (srcLeaf e) pteWritable = false := by
  rw [srcLeaf, if_pos hp]
  exact cowLeaf_readOnly h

theorem cloneLeaf_present (e : BitVec 64) : hasFlag (cloneLeaf e) ptePresent = hasFlag e ptePresent := by
  unfold cloneLeaf
  by_cases hp : hasFlag e ptePresent = true
  · rw [if_pos hp, cowLeaf_present]
  · rw [if_neg hp]
    split
    · rfl
    · rw [hasFlag_zero, Bool.not_eq_true _ |>.mp hp]

theorem cloneLeaf_of_present (hp : hasFlag e ptePresent = true) : cloneLeaf e = srcLeaf e := by
  rw [cloneLeaf, srcLeaf, if_pos hp, if_pos hp]

theorem cloneLeaf_ok (h : LeafOk e) : LeafOk (cloneLeaf e) := by
  unfold cloneLeaf
  split
  · next hp => exact cowLeaf_cow hp h
  · split
    · exact h
    · exact LeafOk.zero

theorem srcLeaf_idem (e : BitVec 64) : srcLeaf (srcLeaf e) = srcLeaf e := by
  unfold srcLeaf
  by_cases hp : hasFlag e ptePresent = true
  · rw [if_pos hp, cowLeaf_present, if_pos hp, cowLeaf_idem]
  · rw [if_neg hp, if_neg hp]

/-! ## Entries that become copy-on-write -/

theorem srcLeaf_ps (e : BitVec 64) : hasFlag (srcLeaf e) ptePs = hasFlag e ptePs := by
  unfold srcLeaf
  split
  · rcases cowLeaf_cases e with ⟨-, heq⟩ | ⟨-, heq⟩
    · rw [heq, hasFlag_ps, getLsbD_cowFlags e (by omega), ← hasFlag_ps]
      simp
    · rw [heq]
  · rfl

section

variable (f : Nat) (e : BitVec 64)

@[simp] theorem cowIf_present : hasFlag (cowIf ts f e) ptePresent = hasFlag e ptePresent := by
  unfold cowIf
  split
  · exact srcLeaf_present e
  · rfl

@[simp] theorem cowIf_ps : hasFlag (cowIf ts f e) ptePs = hasFlag e ptePs := by
  unfold cowIf
  split
  · exact srcLeaf_ps e
  · rfl

@[simp] theorem cowIf_childOf : childOf (cowIf ts f e) = childOf e := by
  have hframe : pteFrame (cowIf ts f e) = pteFrame e := by
    unfold cowIf
    split
    · exact srcLeaf_frame e
    · rfl
  rw [childOf, childOf, cowIf_present, cowIf_ps, hframe]

theorem cowIf_cowIf : cowIf ts' f (cowIf ts f e) = cowIf (ts ++ ts') f e := by
  simp only [cowIf, mem_append]
  by_cases h : f ∈ ts <;> by_cases h' : f ∈ ts' <;> simp [h, h', srcLeaf_idem]

theorem cowIf_nil : cowIf [] f e = e := by simp [cowIf]

theorem cloneLeaf_cowIf : cloneLeaf (cowIf ts f e) = cloneLeaf e := by
  unfold cowIf
  split
  · cases hp : hasFlag e ptePresent with
    | true => rw [cloneLeaf_of_present ((srcLeaf_present e).trans hp), srcLeaf_idem, cloneLeaf_of_present hp]
    | false => rw [srcLeaf, hp, if_neg Bool.false_ne_true]
  · rfl

end

/-! ## The leaves of a PT -/

theorem setEntry_same (mem : Nat → Fin 512 → BitVec 64) (t : Nat) (i : Fin 512) : setEntry mem t i (mem t i) = mem := by
  rw [setEntry, update_eq_self, update_eq_self]

/-- One turn of the loop over the leaves. -/
theorem cloneLeaves_body (src dst : Nat) : ∃ body, cloneLeaves src dst = allEntries.forM body ∧ ∀ i m, (body i).run m =
    ((), { m with mem := setEntry (setEntry m.mem src i (srcLeaf (m.mem src i))) dst i (cloneLeaf (m.mem src i)) }) := by
  refine ⟨_, cloneLeaves.eq_1 src dst, fun i m => ?_⟩
  rw [bind_run (readEntry_run m src i)]
  cases hp : hasFlag (m.mem src i) ptePresent with
  | false =>
    have hs : srcLeaf (m.mem src i) = m.mem src i := by
      rw [srcLeaf, hp]
      rfl
    rw [hs, setEntry_same, cloneLeaf, hp]
    cases hd : hasFlag (m.mem src i) pteDemand with
    | true => rfl
    | false => rfl
  | true =>
    rw [srcLeaf, cloneLeaf, hp, Bool.not_true, Bool.and_false, if_pos rfl]
    by_cases hw : (hasFlag (pteFlags (m.mem src i)) pteWritable && !hasFlag (pteFlags (m.mem src i)) pteCow) = true
    · rw [if_pos hw]
      rfl
    · rw [if_neg hw, cowLeaf, if_neg hw, setEntry_same]
      rfl

theorem cloneLeaves_run (src dst : Nat) (m : Vmm) :
    ∃ mem', (cloneLeaves src dst).run m = ((), { m with mem := mem' }) ∧
      (src ≠ dst → ∀ i, mem' dst i = cloneLeaf (m.mem src i)) ∧ ∀ f, f ≠ dst → ∀ i, mem' f i = cowIf [src] f (m.mem f i) := by
  obtain ⟨body, hloop, hbody⟩ := cloneLeaves_body src dst
  rw [hloop]
  have key : ∀ (xs : List (Fin 512)), xs.Nodup → ∀ m : Vmm, ∃ mem', (xs.forM body).run m = ((), { m with mem := mem' }) ∧
      (src ≠ dst → ∀ i, mem' dst i = if i ∈ xs then cloneLeaf (m.mem src i) else m.mem dst i) ∧
      ∀ f, f ≠ dst → ∀ i, mem' f i = if i ∈ xs then cowIf [src] f (m.mem f i) else m.mem f i := by
    intro xs
    induction xs with
    | nil => exact fun _ m => ⟨m.mem, rfl, fun _ _ => rfl, fun _ _ _ => rfl⟩
    | cons x xs ih =>
      intro hnodup m
      obtain ⟨hnot, hnodup'⟩ := nodup_cons.mp hnodup
      obtain ⟨mem', hrun, hdst, hoff⟩ := ih hnodup'
        { m with mem := setEntry (setEntry m.mem src x (srcLeaf (m.mem src x))) dst x (cloneLeaf (m.mem src x)) }
      have hother : ∀ f i, i ≠ x →
          setEntry (setEntry m.mem src x (srcLeaf (m.mem src x))) dst x (cloneLeaf (m.mem src x)) f i = m.mem f i := by
        intro f i hi
        rw [setEntry_of_ne fun h => hi h.2, setEntry_of_ne fun h => hi h.2]
      refine ⟨mem', ?_, fun hne i => ?_, fun f hf i => ?_⟩
      · rw [run_forM_cons, hbody]
        exact hrun
      · rw [hdst hne]
        by_cases hi : i = x
        · subst hi
          simp [hnot, mem_cons, setEntry_self]
        · simp [hother _ i hi, hi]
      · rw [hoff f hf]
        by_cases hi : i = x
        · subst hi
          simp only [hnot, if_false, mem_cons, true_or, if_true]
          rw [setEntry_of_ne fun h => hf h.1]
          by_cases hfs : f = src
          · subst hfs
            rw [setEntry_self, cowIf, if_pos (mem_singleton_self f)]
          · rw [setEntry_of_ne fun h => hfs h.1, cowIf, if_neg (by simpa using hfs)]
        · simp [hother f i hi, hi]
  obtain ⟨mem', hrun, hdst, hoff⟩ := key allEntries (nodup_finRange 512) m
  refine ⟨mem', hrun, fun hne i => ?_, fun f hf i => ?_⟩
  · exact (hdst hne i).trans (if_pos (mem_finRange i))
  · exact (hoff f hf i).trans (if_pos (mem_finRange i))

/-- The entry that leads to a copy. -/
theorem copyEntry (hp : hasFlag e ptePresent = true) (hs : hasFlag e ptePs = false) {b : Nat} (hb : b < 2 ^ 40) :
    hasFlag (pteMake (frameAddr b) (pteFlags e)) ptePresent = true ∧ hasFlag (pteMake (frameAddr b) (pteFlags e)) ptePs = false ∧
    childOf (pteMake (frameAddr b) (pteFlags e)) = some b := by
  have hpres : hasFlag (pteMake (frameAddr b) (pteFlags e)) ptePresent = true := by
    rw [hasFlag_present, getLsbD_pteMake (by omega), getLsbD_pteFlags (by omega), ← hasFlag_present]
    exact hp
  have hsmall : hasFlag (pteMake (frameAddr b) (pteFlags e)) ptePs = false := by
    rw [hasFlag_ps, getLsbD_pteMake (by omega), getLsbD_pteFlags (by omega), ← hasFlag_ps]
    exact hs
  refine ⟨hpres, hsmall, ?_⟩
  rw [childOf_present hpres hsmall, pteFrame_make hb]
  rw [pteFlags, BitVec.and_assoc]
  exact BitVec.and_zero

/-- A walk is the same where the entries it goes through lead to the same tables. -/
theorem tableAt_shape {mem mem' : Nat → Fin 512 → BitVec 64} {t : Nat}
    (h : ∀ q i f, q ++ [i] <+: p → tableAt mem t q = some f → childOf (mem' f i) = childOf (mem f i)) :
    tableAt mem' t p = tableAt mem t p :=
  walk_congr fun q i f hq hf => h q i f hq hf

theorem length_prefix {n : Nat} (p q : List (Fin 512)) (h : (p ++ q).length ≤ n) : p.length ≤ n := by
  rw [length_append] at h
  omega

end CloneAux

open CloneAux

/-! ## What a copy does to the frames -/

/-- What neither a copy nor its undoing changes. -/
structure Upkeep (m m' : Vmm) : Prop where
  init : m'.initialized = m.initialized
  pmmInit : m'.pmm.initialized = m.pmm.initialized
  total : m'.pmm.totalFrames = m.pmm.totalFrames
  drift : m'.pmm.drift = m.pmm.drift
  kernel : m'.kernelPml4 = m.kernelPml4

/-- The tables of a tree with `L` levels below the root and their levels, in the order in which they are copied. -/
def tableOrder (mem : Nat → Fin 512 → BitVec 64) : Nat → Nat → List (Nat × Nat)
  | 0, t => [(0, t)]
  | L + 1, t =>
    (L + 1, t) :: allEntries.flatMap fun i =>
      match childOf (mem t i) with
      | none => []
      | some b => tableOrder mem L b

/-- The tables that are copied for entry `i` of `t`. -/
def orderFor (mem : Nat → Fin 512 → BitVec 64) (L t : Nat) (i : Fin 512) : List (Nat × Nat) :=
  match childOf (mem t i) with
  | none => []
  | some b => tableOrder mem L b

/-- No table of the tree is a free frame. -/
def TreeInUse (m : Vmm) (L t : Nat) : Prop := ∀ x ∈ tableOrder m.mem L t, ¬ m.pmm.Free x.2

/-- From `m` to `m'` the frames `K` have changed only in that the PTs `ts` were made copy-on-write, and no frame was freed. -/
structure Passed (K : Nat → Prop) (ts : List Nat) (m m' : Vmm) : Prop where
  upkeep : Upkeep m m'
  grows : ∀ f, m.pmm.isUsed f = true → m'.pmm.isUsed f = true
  mem : ∀ f, K f → ∀ i, m'.mem f i = cowIf ts f (m.mem f i)

/-- The tables that the walks `dom` reach from `c` in `m'` are distinct, were free in `m`, and are all that was allocated. -/
structure Built (dom : List (Fin 512) → Prop) (c : Nat) (m m' : Vmm) : Prop where
  fresh : ∀ p f, dom p → tableAt m'.mem c p = some f → m.pmm.Free f
  distinct : ∀ p q f, dom p → dom q → tableAt m'.mem c p = some f → tableAt m'.mem c q = some f → p = q
  used : ∀ f, m'.pmm.isUsed f = true ↔ m.pmm.isUsed f = true ∨ ∃ p, dom p ∧ tableAt m'.mem c p = some f

/-- With the free frames of `m` the traversal of the tables `os` has made the PTs `ts` copy-on-write; `whole` says that it came to
the end, with the frames of `m'` left. -/
structure Reached (os : List (Nat × Nat)) (ts : List Nat) (whole : Bool) (m m' : Vmm) : Prop where
  pts : ∀ f, f ∈ ts ↔ (0, f) ∈ os.take m.pmm.freeCount
  enough : whole = true → m'.pmm.freeCount + os.length = m.pmm.freeCount
  short : whole = false → m.pmm.freeCount < os.length

section Upkeep

variable {m m1 m2 : Vmm}

theorem Upkeep.refl (m : Vmm) : Upkeep m m := ⟨rfl, rfl, rfl, rfl, rfl⟩

theorem Upkeep.trans {m3 : Vmm} (h : Upkeep m1 m2) (h' : Upkeep m2 m3) : Upkeep m1 m3 :=
  ⟨h'.init.trans h.init, h'.pmmInit.trans h.pmmInit, h'.total.trans h.total, h'.drift.trans h.drift, h'.kernel.trans h.kernel⟩

theorem Upkeep.store (m : Vmm) (t : Nat) (i : Fin 512) (e : BitVec 64) : Upkeep m (m.store t i e) := ⟨rfl, rfl, rfl, rfl, rfl⟩

/-- A frame that is free afterwards was free before, when no mark was cleared. -/
theorem Upkeep.free_of_free (h : Upkeep m m1) (hu : ∀ f, m.pmm.isUsed f = true → m1.pmm.isUsed f = true)
    (hf : m1.pmm.Free f) : m.pmm.Free f := by
  refine ⟨hf.1, h.total ▸ hf.2.1, ?_⟩
  rw [← Bool.not_eq_true]
  intro h'
  have hnot := hf.2.2
  rw [hu f h'] at hnot
  cases hnot

end Upkeep

namespace Passed

variable {m m' m1 m2 : Vmm} {K K' : Nat → Prop} {ts ts' : List Nat}

theorem refl (K : Nat → Prop) (m : Vmm) : Passed K [] m m :=
  ⟨Upkeep.refl m, fun _ h => h, fun f _ _ => (cowIf_nil f _).symm⟩

theorem trans (h : Passed K ts m m1) (h' : Passed K' ts' m1 m2) (hK : ∀ f, K f → K' f) : Passed K (ts ++ ts') m m2 where
  upkeep := h.upkeep.trans h'.upkeep
  grows f hf := h'.grows f (h.grows f hf)
  mem f hf i := by rw [h'.mem f (hK f hf), h.mem f hf, cowIf_cowIf]

theorem free_of_free (h : Passed K ts m m1) (hf : m1.pmm.Free f) : m.pmm.Free f := h.upkeep.free_of_free h.grows hf

theorem childOf_eq (h : Passed K ts m m1) (hf : K f) (i : Fin 512) :
    childOf (m1.mem f i) = childOf (m.mem f i) := by rw [h.mem f hf, cowIf_childOf]

/-- A store outside the frames that are looked at. -/
theorem store (h : Passed K ts m m1) {c : Nat} (hc : ¬ K c) (j : Fin 512) (e : BitVec 64) : Passed K ts m (m1.store c j e) where
  upkeep := h.upkeep.trans (Upkeep.store m1 c j e)
  grows := h.grows
  mem f hf i := by
    have hne : ¬ (f = c ∧ i = j) := fun hfc => hc (hfc.1 ▸ hf)
    exact (setEntry_of_ne hne).trans (h.mem f hf i)

end Passed

variable {j : Fin 512}

namespace Built

variable {m m1 m2 : Vmm} {K : Nat → Prop} {ts : List Nat} {L c : Nat} {dom : List (Fin 512) → Prop}

variable (h : Built dom c m m1)
include h

/-- A table that was made is in use. -/
theorem in_use (hp : dom p) (hf : tableAt m1.mem c p = some f) :
    ¬ m1.pmm.Free f := Spaces.not_free_of_used ((h.used f).mpr (.inr ⟨p, hp, hf⟩))

section

variable (hpre : ∀ p q, dom (p ++ q) → p ≠ [] → dom p) (hc : ¬ m1.pmm.Free c)
  (hm2 : Passed (fun f => ¬ m1.pmm.Free f) ts m1 m2)
include hpre hc hm2

/-- The walks are the same after a step that changes the frames in use only in their leaves. -/
theorem walk_eq (hp : dom p) :
    tableAt m2.mem c p = tableAt m1.mem c p := by
  refine tableAt_shape fun q i f hq hf => hm2.childOf_eq ?_ i
  by_cases hnil : q = []
  · subst hnil
    exact Option.some.inj hf ▸ hc
  · obtain ⟨s, rfl⟩ := hq
    rw [append_assoc] at hp
    exact h.in_use (hpre q _ hp hnil) hf

/-- A step that leaves the marks of all frames alone. -/
theorem passed (hused : ∀ f, m2.pmm.isUsed f = m1.pmm.isUsed f) : Built dom c m m2 where
  fresh p f hp hf := h.fresh p f hp ((h.walk_eq hpre hc hm2 hp).symm.trans hf)
  distinct p q f hp hq hf hf' := h.distinct p q f hp hq ((h.walk_eq hpre hc hm2 hp).symm.trans hf)
    ((h.walk_eq hpre hc hm2 hq).symm.trans hf')
  used f := by
    rw [hused, h.used]
    refine or_congr Iff.rfl (exists_congr fun p => and_congr_right fun hp => ?_)
    rw [h.walk_eq hpre hc hm2 hp]

end

/-- A store to an entry that leads to no table, before and after. -/
theorem store_none {t : Nat} (hold : childOf (m1.mem t j) = none)
    (hnew : childOf e = none) : Built dom c m (m1.store t j e) := by
  have hwalk : ∀ p, tableAt (m1.store t j e).mem c p = tableAt m1.mem c p := by
    refine fun p => tableAt_shape fun q i f _ _ => ?_
    rw [store_mem]
    by_cases hfi : f = t ∧ i = j
    · rw [hfi.1, hfi.2, setEntry_self, hnew, hold]
    · rw [setEntry_of_ne hfi]
  refine ⟨fun p f hp hf => h.fresh p f hp ((hwalk p).symm.trans hf), fun p q f hp hq hf hf' => h.distinct p q f hp hq
    ((hwalk p).symm.trans hf) ((hwalk q).symm.trans hf'), fun f => ?_⟩
  simp only [hwalk]
  exact h.used f

/-- A tree that was made from `m1` to `m2` is linked at an entry of `c` that led to none of the tables. -/
theorem link {dom' : List (Fin 512) → Prop} (hpre : ∀ p q, dom (p ++ q) → p ≠ [] → dom p)
    (hfree : ∀ f, m1.pmm.Free f → m.pmm.Free f) (hc : ¬ m1.pmm.Free c)
    (hroot : ∀ p, dom p → p ≠ [] → tableAt m1.mem c p ≠ some c) (hm2 : Passed (fun f => ¬ m1.pmm.Free f) ts m1 m2) {b : Nat}
    (hb : Built (fun p => p.length ≤ L) b m1 m2) (hdom : ∀ p, dom' p ↔ dom p ∨ ∃ q, q.length ≤ L ∧ p = j :: q)
    (hold : ∀ q, dom (j :: q) → q.length ≤ L ∧ tableAt m1.mem c (j :: q) = none) (hnew : childOf e = some b) :
    Built dom' c m (m2.store c j e) := by
  -- the walks off the new entry are as before
  have hoff : ∀ p, dom p → p.head? ≠ some j → tableAt (m2.store c j e).mem c p = tableAt m1.mem c p := by
    intro p hp hj
    rw [← h.walk_eq hpre hc hm2 hp]
    refine tableAt_shape fun q i f hq hf => congrArg childOf (setEntry_of_ne ?_)
    rintro ⟨rfl, rfl⟩
    obtain ⟨s, rfl⟩ := hq
    rw [append_assoc] at hp
    by_cases hnil : q = []
    · subst hnil
      exact hj rfl
    · have hq := hpre q _ hp hnil
      rw [h.walk_eq hpre hc hm2 hq] at hf
      exact hroot q hq hnil hf
  -- those through it lead into the new tree
  have hthrough : ∀ p, p.length ≤ L → tableAt (m2.store c j e).mem c (j :: p) = tableAt m2.mem b p := by
    intro p hp
    have hchild : childOf ((m2.store c j e).mem c j) = some b := by rw [store_mem, setEntry_self, hnew]
    rw [tableAt_child hchild]
    refine tableAt_shape fun q i f hq hf => congrArg childOf (setEntry_of_ne ?_)
    rintro ⟨rfl, -⟩
    have hlen := hq.length_le
    rw [length_append] at hlen
    exact hc (hb.fresh q f (by omega) hf)
  have hcases : ∀ p f, dom' p → tableAt (m2.store c j e).mem c p = some f →
      (dom p ∧ tableAt m1.mem c p = some f) ∨ ∃ q, q.length ≤ L ∧ p = j :: q ∧ tableAt m2.mem b q = some f := by
    intro p f hp hf
    by_cases hj : ∃ q, p = j :: q
    · obtain ⟨q, rfl⟩ := hj
      have hq : q.length ≤ L := by
        rcases (hdom _).mp hp with hp | ⟨q', hq', heq⟩
        · exact (hold q hp).1
        · exact (cons.inj heq).2 ▸ hq'
      exact .inr ⟨q, hq, rfl, (hthrough q hq).symm.trans hf⟩
    · have hp := ((hdom p).mp hp).resolve_right fun ⟨q, _, heq⟩ => hj ⟨q, heq⟩
      refine .inl ⟨hp, (hoff p hp fun hhead => hj ?_).symm.trans hf⟩
      exact ⟨p.tail, (cons_head?_tail hhead).symm⟩
  constructor
  · intro p f hp hf
    rcases hcases p f hp hf with ⟨hp, hf⟩ | ⟨q, hq, -, hqf⟩
    · exact h.fresh p f hp hf
    · exact hfree f (hb.fresh q f hq hqf)
  · intro p q f hp hq hpf hqf
    rcases hcases p f hp hpf with ⟨hp, hpo⟩ | ⟨p', hp', rfl, hpn⟩
    · rcases hcases q f hq hqf with ⟨hq, hqo⟩ | ⟨q', hq', -, hqn⟩
      · exact h.distinct p q f hp hq hpo hqo
      · exact absurd (hb.fresh q' f hq' hqn) (h.in_use hp hpo)
    · rcases hcases q f hq hqf with ⟨hq, hqo⟩ | ⟨q', hq', rfl, hqn⟩
      · exact absurd (hb.fresh p' f hp' hpn) (h.in_use hq hqo)
      · rw [hb.distinct p' q' f hp' hq' hpn hqn]
  · intro f
    rw [show (m2.store c j e).pmm = m2.pmm from rfl, hb.used, h.used, or_assoc]
    refine or_congr Iff.rfl ⟨?_, ?_⟩
    · rintro (⟨p, hp, hf⟩ | ⟨q, hq, hf⟩)
      · refine ⟨p, (hdom p).mpr (.inl hp), (hoff p hp fun hhead => ?_).trans hf⟩
        rw [← cons_head?_tail hhead] at hp hf
        rw [(hold _ hp).2] at hf
        cases hf
      · exact ⟨j :: q, (hdom _).mpr (.inr ⟨q, hq, rfl⟩), (hthrough q hq).trans hf⟩
    · rintro ⟨p, hp, hf⟩
      rcases hcases p f hp hf with ⟨hp, hf⟩ | ⟨q, hq, -, hf⟩
      · exact .inl ⟨p, hp, hf⟩
      · exact .inr ⟨q, hq, hf⟩

end Built

variable {m m' m1 m2 : Vmm} {K : Nat → Prop} {ts ts' : List Nat} {L c t : Nat} {dom : List (Fin 512) → Prop}

/-! ## The order of the traversal -/

variable {L t : Nat}

/-- The order depends on where the entries of the upper tables lead to. -/
theorem CloneAux.tableOrder_congr {mem mem' : Nat → Fin 512 → BitVec 64}
    (h : ∀ x ∈ tableOrder mem L t, ∀ i, childOf (mem' x.2 i) = childOf (mem x.2 i)) :
    tableOrder mem' L t = tableOrder mem L t := by
  induction L generalizing t with
  | zero => rfl
  | succ L ih =>
    have hroot := h (L + 1, t) (by rw [tableOrder]; exact mem_cons_self)
    rw [tableOrder]
    refine congrArg _ (congrArg allEntries.flatMap (funext fun i => ?_))
    rw [hroot i]
    cases hb : childOf (mem t i) with
    | none => rfl
    | some b =>
      refine ih fun x hx => h x ?_
      rw [tableOrder, mem_cons, mem_flatMap]
      exact .inr ⟨i, mem_finRange i, by rw [hb]; exact hx⟩

theorem CloneAux.tableOrder_succ (mem : Nat → Fin 512 → BitVec 64) (L t : Nat) :
    tableOrder mem (L + 1) t = (L + 1, t) :: allEntries.flatMap (orderFor mem L t) := rfl

variable {i : Fin 512}

section

variable {mem : Nat → Fin 512 → BitVec 64}

theorem CloneAux.orderFor_of_child {L t b : Nat} (h : childOf (mem t i) = some b) :
    orderFor mem L t i = tableOrder mem L b := by rw [orderFor, h]

theorem CloneAux.orderFor_of_none (h : childOf (mem t i) = none) :
    orderFor mem L t i = [] := by rw [orderFor, h]

/-- The PTs in the order are those that walks of `L` steps lead to. -/
theorem CloneAux.mem_tableOrder (x : Nat × Nat) :
    x ∈ tableOrder mem L t ↔ ∃ p, p.length + x.1 = L ∧ tableAt mem t p = some x.2 := by
  obtain ⟨l, f⟩ := x
  induction L generalizing t with
  | zero =>
    rw [tableOrder, mem_singleton, Prod.mk.injEq]
    constructor
    · rintro ⟨rfl, rfl⟩
      exact ⟨[], rfl, rfl⟩
    · rintro ⟨p, hlen, hf⟩
      obtain rfl : p = [] := eq_nil_of_length_eq_zero (by omega)
      exact ⟨by simpa using hlen, (Option.some.inj hf).symm⟩
  | succ L ih =>
    rw [tableOrder_succ, mem_cons, mem_flatMap, Prod.mk.injEq]
    constructor
    · rintro (⟨rfl, rfl⟩ | ⟨i, -, hf⟩)
      · exact ⟨[], by simp, rfl⟩
      · cases hb : childOf (mem t i) with
        | none =>
          rw [orderFor_of_none hb] at hf
          exact absurd hf not_mem_nil
        | some b =>
          rw [orderFor_of_child hb] at hf
          obtain ⟨p, hlen, hp⟩ := ih.mp hf
          exact ⟨i :: p, by rw [length_cons]; omega, (tableAt_child hb p).trans hp⟩
    · rintro ⟨p, hlen, hf⟩
      cases p with
      | nil => exact .inl ⟨by simpa using hlen, (Option.some.inj hf).symm⟩
      | cons i p =>
        refine .inr ⟨i, mem_finRange i, ?_⟩
        cases hb : childOf (mem t i) with
        | none =>
          rw [tableAt_none hb] at hf
          cases hf
        | some b =>
          rw [orderFor_of_child hb]
          rw [tableAt_child hb] at hf
          rw [length_cons] at hlen
          exact ih.mpr ⟨p, by omega, hf⟩

end

theorem TreeInUse.root {m : Vmm} (h : TreeInUse m (L + 1) t) : ¬ m.pmm.Free t := h _ List.mem_cons_self

theorem TreeInUse.child {m : Vmm} {L t b : Nat} (h : TreeInUse m (L + 1) t) (hb : childOf (m.mem t i) = some b) :
    TreeInUse m L b := by
  intro x hx
  refine h x (mem_cons_of_mem _ (mem_flatMap.mpr ⟨i, mem_finRange i, ?_⟩))
  rw [hb]
  exact hx

/-! ## What a copy looks like -/

/-- The tree of `L` levels below `c` in `mem'` is a copy of that below `t` in `mem`: the same entries lead to tables, and the leaves
are copies of leaves. -/
def Mirror (mem mem' : Nat → Fin 512 → BitVec 64) : Nat → Nat → Nat → Prop
  | 0, t, c => ∀ i, mem' c i = cloneLeaf (mem t i)
  | L + 1, t, c => ∀ i, match childOf (mem t i) with
    | none => childOf (mem' c i) = none ∧ (hasFlag (mem' c i) ptePresent = true → hasFlag (mem t i) ptePresent = true)
    | some b => ∃ b', childOf (mem' c i) = some b' ∧ Mirror mem mem' L b b'

/-- What a copy has in the place of the entry `e`. -/
def MirrorEntry (mem mem' : Nat → Fin 512 → BitVec 64) (L : Nat) (e e' : BitVec 64) : Prop :=
  match childOf e with
  | none => childOf e' = none ∧ (hasFlag e' ptePresent = true → hasFlag e ptePresent = true)
  | some b => ∃ b', childOf e' = some b' ∧ Mirror mem mem' L b b'

section Mirror

variable {mem mem' mem1 mem2 : Nat → Fin 512 → BitVec 64} {L t c b b' : Nat} {e e' : BitVec 64} {ts : List Nat}

theorem MirrorEntry.of_none (he : childOf e = none) (he' : childOf e' = none)
    (hp : hasFlag e' ptePresent = true → hasFlag e ptePresent = true) : MirrorEntry mem mem' L e e' := by
  rw [MirrorEntry, he]
  exact ⟨he', hp⟩

theorem MirrorEntry.of_child (he : childOf e = some b) (he' : childOf e' = some b') (h : Mirror mem mem' L b b') :
    MirrorEntry mem mem' L e e' := by
  rw [MirrorEntry, he]
  exact ⟨b', he', h⟩

theorem MirrorEntry.child (h : MirrorEntry mem mem' L e e') (he : childOf e = some b) :
    ∃ b', childOf e' = some b' ∧ Mirror mem mem' L b b' := by
  rw [MirrorEntry, he] at h
  exact h

theorem MirrorEntry.none (h : MirrorEntry mem mem' L e e') (he : childOf e = none) :
    childOf e' = none ∧ (hasFlag e' ptePresent = true → hasFlag e ptePresent = true) := by
  rw [MirrorEntry, he] at h
  exact h

/-- The source may have become copy-on-write in the meantime. -/
theorem Mirror.source (h : Mirror mem1 mem' L t c)
    (hsame : ∀ x ∈ tableOrder mem L t, ∀ i, mem1 x.2 i = cowIf ts x.2 (mem x.2 i)) : Mirror mem mem' L t c := by
  induction L generalizing t c with
  | zero =>
    intro i
    rw [h i, hsame (0, t) (mem_singleton_self _) i, cloneLeaf_cowIf]
  | succ L ih =>
    intro i
    have hroot : mem1 t i = cowIf ts t (mem t i) := hsame (L + 1, t) mem_cons_self i
    have hi : MirrorEntry mem1 mem' L (mem1 t i) (mem' c i) := h i
    change MirrorEntry mem mem' L (mem t i) (mem' c i)
    cases hb : childOf (mem t i) with
    | none =>
      obtain ⟨hnone, hpres⟩ := hi.none (by rw [hroot, cowIf_childOf, hb])
      rw [hroot, cowIf_present] at hpres
      exact .of_none hb hnone hpres
    | some b =>
      obtain ⟨b', hb', hm⟩ := hi.child (by rw [hroot, cowIf_childOf, hb])
      refine .of_child hb hb' (ih hm fun x hx => hsame x ?_)
      refine mem_cons_of_mem _ (mem_flatMap.mpr ⟨i, mem_finRange i, ?_⟩)
      rw [hb]
      exact hx

/-- The copy is looked at in a memory that agrees on its tables. -/
theorem Mirror.target (h : Mirror mem mem1 L t c)
    (hsame : ∀ p f, p.length ≤ L → tableAt mem1 c p = some f → mem2 f = mem1 f) : Mirror mem mem2 L t c := by
  induction L generalizing t c with
  | zero =>
    intro i
    rw [hsame [] c (le_refl 0) rfl]
    exact h i
  | succ L ih =>
    intro i
    have hi : MirrorEntry mem mem1 L (mem t i) (mem1 c i) := h i
    change MirrorEntry mem mem2 L (mem t i) (mem2 c i)
    rw [hsame [] c (zero_le _) rfl]
    cases hb : childOf (mem t i) with
    | none => exact .of_none hb (hi.none hb).1 (hi.none hb).2
    | some b =>
      obtain ⟨b', hb', hm⟩ := hi.child hb
      exact .of_child hb hb' (ih hm fun p f hp hf => hsame (i :: p) f (succ_le_succ hp) ((tableAt_child hb' p).trans hf))

theorem MirrorEntry.target (h : MirrorEntry mem mem1 L e e')
    (hsame : ∀ b, childOf e' = some b → ∀ p f, p.length ≤ L → tableAt mem1 b p = some f → mem2 f = mem1 f) :
    MirrorEntry mem mem2 L e e' := by
  cases hb : childOf e with
  | none => exact .of_none hb (h.none hb).1 (h.none hb).2
  | some b =>
    obtain ⟨b', hb', hm⟩ := h.child hb
    exact .of_child hb hb' (hm.target (hsame b' hb'))

/-- The leaves of a copy. -/
theorem Mirror.leaf (h : Mirror mem mem' L t c) (hp : p.length = L) (i : Fin 512) :
    entryAt mem' c p i = cloneLeaf (entryAt mem t p i) := by
  induction L generalizing t c p with
  | zero =>
    obtain rfl := eq_nil_of_length_eq_zero hp
    exact h i
  | succ L ih =>
    obtain ⟨j, p, rfl⟩ := exists_cons_of_length_eq_add_one hp
    have hj : MirrorEntry mem mem' L (mem t j) (mem' c j) := h j
    cases hb : childOf (mem t j) with
    | none =>
      rw [entryAt_none (tableAt_none (hj.none hb).1 p), entryAt_none (tableAt_none hb p), cloneLeaf_zero]
    | some b =>
      obtain ⟨b', hb', hm⟩ := hj.child hb
      rw [entryAt_child hb', entryAt_child hb]
      exact ih hm (succ.inj hp)

/-- There are no huge pages in the copy of a tree without huge pages. -/
theorem Mirror.small (h : Mirror mem mem' L t c)
    (hsmall : ∀ p i, p.length < L → hasFlag (entryAt mem t p i) ptePresent = true → hasFlag (entryAt mem t p i) ptePs = false)
    (hp : p.length < L) (hpres : hasFlag (entryAt mem' c p i) ptePresent = true) :
    hasFlag (entryAt mem' c p i) ptePs = false := by
  induction L generalizing t c p with
  | zero => exact absurd hp (not_lt_zero _)
  | succ L ih =>
    cases p with
    | nil =>
      have hi : MirrorEntry mem mem' L (mem t i) (mem' c i) := h i
      cases hb : childOf (mem t i) with
      | none =>
        have hold := (hi.none hb).2 hpres
        rw [childOf_present hold (hsmall [] i hp hold)] at hb
        cases hb
      | some b =>
        obtain ⟨b', hb', -⟩ := hi.child hb
        exact (childOf_some hb').2.1
    | cons j p =>
      have hj : MirrorEntry mem mem' L (mem t j) (mem' c j) := h j
      cases hb : childOf (mem t j) with
      | none =>
        rw [entryAt_none (tableAt_none (hj.none hb).1 p)] at hpres
        cases hpres
      | some b =>
        obtain ⟨b', hb', hm⟩ := hj.child hb
        rw [entryAt_child hb'] at hpres ⊢
        refine ih hm (fun q k hq => ?_) (lt_of_succ_lt_succ hp) hpres
        rw [← entryAt_child hb]
        exact hsmall (j :: q) k (succ_lt_succ hq)

end Mirror

variable {m m' m1 m2 : Vmm} {K : Nat → Prop} {ts ts' : List Nat} {L c t : Nat} {dom : List (Fin 512) → Prop}

section

variable {mem : Nat → Fin 512 → BitVec 64} {e0 : BitVec 64} (h : MirrorEntry mem m1.mem L e0 (m1.mem c i))
  (hb : Built dom c m m1) (hc : ¬ m1.pmm.Free c) (hpass : Passed (fun f => ¬ m1.pmm.Free f) ts m1 m2)
  (hts : ∀ f ∈ ts, ¬ m.pmm.Free f ∧ f ≠ c) (hdom : ∀ p, p.length ≤ L → dom (i :: p))
include h hb hc hpass hts hdom

/-- The entries of a table that is being made keep their copies while others are made. -/
theorem MirrorEntry.keep : m2.mem c i = m1.mem c i ∧ MirrorEntry mem m2.mem L e0 (m2.mem c i) := by
  have hsame : m2.mem c i = m1.mem c i := by
    rw [hpass.mem c hc, cowIf, if_neg fun hmem => (hts c hmem).2 rfl]
  refine ⟨hsame, ?_⟩
  rw [hsame]
  refine h.target fun b hchild p f hp hf => funext fun j => ?_
  rw [← tableAt_child hchild] at hf
  rw [hpass.mem f (hb.in_use (hdom p hp) hf), cowIf, if_neg fun hmem => (hts f hmem).1 (hb.fresh _ f (hdom p hp) hf)]

theorem MirrorEntry.keep_store (hpre : ∀ p q, dom (p ++ q) → p ≠ [] → dom p)
    (hroot : ∀ p, dom p → p ≠ [] → tableAt m1.mem c p ≠ some c) (hij : i ≠ j) (e : BitVec 64) :
    MirrorEntry mem (m2.store c j e).mem L e0 ((m2.store c j e).mem c i) := by
  have hold := h.keep hb hc hpass hts hdom
  rw [show (m2.store c j e).mem c i = m2.mem c i from setEntry_of_ne fun h => hij h.2]
  refine hold.2.target fun b hchild p f hp hf => funext fun k => setEntry_of_ne ?_
  rintro ⟨rfl, -⟩
  have hwalk := hb.walk_eq hpre hc hpass (hdom p hp)
  rw [tableAt_child hchild, hf] at hwalk
  exact hroot (i :: p) (hdom p hp) (cons_ne_nil i p) hwalk.symm

end

/-! ## One frame at a time -/

/-- A frame is taken and its content set. -/
theorem Passed.alloc {c : Nat} (hc : m.pmm.Free c) {mem' : Nat → Fin 512 → BitVec 64}
    (hmem : ∀ f, f ≠ c → ∀ i, mem' f i = cowIf ts f (m.mem f i)) :
    Passed (fun f => ¬ m.pmm.Free f) ts m { m with pmm := m.pmm.take c, mem := mem' } where
  upkeep := ⟨rfl, rfl, rfl, Pmm.drift_take hc.2.1 hc.2.2, rfl⟩
  grows f hf := by
    rw [Pmm.isUsed_take, hf, Bool.or_true]
  mem f hf i := by
    refine hmem f ?_ i
    rintro rfl
    exact hf hc

/-- A table without children that was just allocated. -/
theorem Built.alloc {c : Nat} (hc : m.pmm.Free c) {mem' : Nat → Fin 512 → BitVec 64}
    (hnone : ∀ p f, p.length ≤ L → tableAt mem' c p = some f → p = []) :
    Built (fun p => p.length ≤ L) c m { m with pmm := m.pmm.take c, mem := mem' } where
  fresh p f hp hf := by
    rw [hnone p f hp hf] at hf
    exact Option.some.inj hf ▸ hc
  distinct p q f hp hq hf hf' := (hnone p f hp hf).trans (hnone q f hq hf').symm
  used f := by
    rw [Pmm.isUsed_take, Bool.or_eq_true, decide_eq_true_eq, or_comm]
    refine or_congr Iff.rfl ⟨?_, ?_⟩
    · rintro rfl
      exact ⟨[], zero_le L, rfl⟩
    · rintro ⟨p, hp, hf⟩
      rw [hnone p f hp hf] at hf
      exact (Option.some.inj hf).symm

/-- The table itself is in use, and no table below it. -/
theorem Built.root (h : Built (fun p => p.length ≤ L) c m m1) :
    ¬ m1.pmm.Free c ∧ ∀ p, p.length ≤ L → p ≠ [] → tableAt m1.mem c p ≠ some c :=
  ⟨h.in_use (p := []) (zero_le L) rfl, fun p hp hne hf => hne (h.distinct p [] c hp (zero_le L) hf rfl)⟩

/-! ## Giving the frames back -/

/-- The frames of the tables that were made are all marked free again, and nothing else has changed. -/
theorem Built.give_back (h : Built dom c m m1) (hpass : Passed K ts m m1) (hi : m.pmm.initialized = true) {fs : List Nat}
    (hfs : ∀ f, f ∈ fs ↔ ∃ p, dom p ∧ tableAt m1.mem c p = some f) (mem' : Nat → Fin 512 → BitVec 64)
    (hmem : ∀ f, K f → ∀ i, mem' f i = m1.mem f i) :
    Passed K ts m { m1 with pmm := m1.pmm.dropAll fs, mem := mem' } ∧
      ∀ f, (m1.pmm.dropAll fs).isUsed f = m.pmm.isUsed f := by
  obtain ⟨hinit, htotal, hused⟩ := Pmm.dropAll_spec (hpass.upkeep.pmmInit.trans hi) fs fun f hf => by
    obtain ⟨p, hp, hpf⟩ := (hfs f).mp hf
    have hfree := h.fresh p f hp hpf
    exact ⟨hfree.1, hpass.upkeep.total ▸ hfree.2.1⟩
  have hsame : ∀ f, (m1.pmm.dropAll fs).isUsed f = m.pmm.isUsed f := by
    intro f
    rw [Bool.eq_iff_iff, hused, hfs, h.used]
    constructor
    · rintro ⟨hu | hf, hnot⟩
      · exact hu
      · exact absurd hf hnot
    · intro hu
      refine ⟨.inl hu, ?_⟩
      rintro ⟨p, hp, hf⟩
      exact Spaces.not_free_of_used hu (h.fresh p f hp hf)
  refine ⟨⟨?_, fun f hf => (hsame f).trans hf, fun f hf i => (hmem f hf i).trans (hpass.mem f hf i)⟩, hsame⟩
  exact ⟨hpass.upkeep.init, hinit.trans hi.symm, htotal.trans hpass.upkeep.total,
    (Pmm.drift_dropAll m1.pmm fs).trans hpass.upkeep.drift, hpass.upkeep.kernel⟩

/-- The unwinding of one table: the tables below it and then the table are freed. -/
theorem CloneAux.unwind_run (h : Built (fun p => p.length ≤ L) c m m1) (hpass : Passed (fun f => ¬ m.pmm.Free f) ts m m1)
    (hi : m.pmm.initialized = true) :
    ∃ m', (do
        ptFreeRecursive L c
        freeFrame (frameAddr c)
        return none : VmmM (Option (BitVec 64))).run m1 = (none, m') ∧
      Passed (fun f => ¬ m.pmm.Free f) ts m m' ∧ ∀ f, m'.pmm.isUsed f = m.pmm.isUsed f := by
  have hfree := h.fresh [] c (zero_le L) rfl
  obtain ⟨mem', hrun, hoff⟩ := ptFreeRecursive_run L c m1 h.distinct
  have hfs : ∀ f, f ∈ tablesBelow m1.mem L c ++ [c] ↔ ∃ p, p.length ≤ L ∧ tableAt m1.mem c p = some f := by
    intro f
    rw [mem_append, mem_singleton, mem_tablesBelow]
    constructor
    · rintro (⟨p, -, hp⟩ | rfl)
      · exact ⟨p, hp⟩
      · exact ⟨[], zero_le L, rfl⟩
    · rintro ⟨p, hp, hf⟩
      by_cases hnil : p = []
      · subst hnil
        exact .inr (Option.some.inj hf).symm
      · exact .inl ⟨p, hnil, hp, hf⟩
  have hback := h.give_back hpass hi hfs mem' fun f hf i => by
    rw [hoff f fun p hp hpf => hf (h.fresh p f hp hpf)]
  refine ⟨_, ?_, hback⟩
  rw [bind_run hrun, bind_run (freeFrame_run _ (lt_of_free hfree)), Pmm.dropAll_append]
  rfl

/-! ## Copying a table -/

/-- What is known of `cloneTable` for the trees of `L` levels. -/
def CloneSpec (L : Nat) : Prop :=
  ∀ (t : Nat) (m : Vmm), m.pmm.initialized = true → ∃ (o : Option Nat) (m' : Vmm) (ts : List Nat),
    (cloneTable L t).run m = (o.map frameAddr, m') ∧ Passed (fun f => ¬ m.pmm.Free f) ts m m' ∧
    (o = none ∧ (∀ f, m'.pmm.isUsed f = m.pmm.isUsed f) ∨
      ∃ c, o = some c ∧ m.pmm.Free c ∧ Built (fun p => p.length ≤ L) c m m') ∧
    (TreeInUse m L t → Reached (tableOrder m.mem L t) ts o.isSome m m' ∧ ∀ c, o = some c → Mirror m.mem m'.mem L t c)

variable {os : List (Nat × Nat)}

/-- The traversal of a list of tables after that of another. -/
theorem Reached.append {os' : List (Nat × Nat)} {whole : Bool} {m3 : Vmm} (h : Reached os ts true m m1)
    (h' : Reached os' ts' whole m2 m3) (hcount : m2.pmm.freeCount = m1.pmm.freeCount) :
    Reached (os ++ os') (ts ++ ts') whole m m3 where
  pts f := by
    have henough := h.enough rfl
    rw [mem_append, h.pts, h'.pts, take_append, mem_append, hcount,
      show m1.pmm.freeCount = m.pmm.freeCount - os.length by omega]
  enough hw := by
    have := h.enough rfl
    have := h'.enough hw
    rw [length_append]
    omega
  short hw := by
    have := h.enough rfl
    have := h'.short hw
    rw [length_append]
    omega

/-- A traversal that ends early does not see what comes after. -/
theorem Reached.stop (h : Reached os ts false m m1) (os' : List (Nat × Nat)) (m2 : Vmm) :
    Reached (os ++ os') ts false m m2 where
  pts f := by
    have hshort := h.short rfl
    rw [h.pts, take_append_of_le_length (by omega)]
  enough := nofun
  short _ := by
    have := h.short rfl
    rw [length_append]
    omega

/-- Without a free frame nothing is reached. -/
theorem Reached.none (hzero : m.pmm.freeCount = 0) (hos : 0 < os.length) : Reached os [] false m m1 :=
  ⟨fun f => by simp [hzero], nofun, fun _ => hzero ▸ hos⟩

theorem Reached.nil (hcount : m1.pmm.freeCount = m.pmm.freeCount) : Reached [] [] true m m1 :=
  ⟨fun f => by simp, fun _ => by simpa using hcount, nofun⟩

theorem Reached.mem {whole : Bool} (h : Reached os ts whole m m1) (hf : f ∈ ts) : (0, f) ∈ os :=
  mem_of_mem_take ((h.pts f).mp hf)

/-- A tree that was in use at the start and was not touched but for its leaves. -/
theorem TreeInUse.passed (h : TreeInUse m L t) (hpass : Passed K ts m m1) (hK : ∀ x ∈ tableOrder m.mem L t, K x.2) :
    tableOrder m1.mem L t = tableOrder m.mem L t ∧ TreeInUse m1 L t := by
  have heq : tableOrder m1.mem L t = tableOrder m.mem L t := tableOrder_congr fun x hx => hpass.childOf_eq (hK x hx)
  refine ⟨heq, fun x hx hfree => ?_⟩
  rw [heq] at hx
  exact h x hx (hpass.free_of_free hfree)

/-- What the loop over the entries of `src` has done when those of `js` are left: the entries of the new table `c` that come
before them are copies. -/
def EntriesDone (L src c : Nat) (m m1 : Vmm) (js : List (Fin 512)) : Prop :=
  ∀ i, i ∉ js → MirrorEntry m.mem m1.mem L (m.mem src i) (m1.mem c i)

/-- One more entry is stored. -/
theorem EntriesDone.store {src : Nat} {js : List (Fin 512)} (h : EntriesDone L src c m m1 (j :: js))
    (hb : Built (fun p => p.length ≤ L + 1) c m m1) (hpass : Passed (fun f => ¬ m1.pmm.Free f) ts m1 m2)
    (hts : ∀ f ∈ ts, ¬ m.pmm.Free f) (he : MirrorEntry m.mem (m2.store c j e).mem L (m.mem src j) e) :
    EntriesDone L src c m (m2.store c j e) js := by
  obtain ⟨hc, hroot⟩ := hb.root
  have hcm : m.pmm.Free c := hb.fresh [] c (zero_le _) rfl
  intro i hi
  by_cases hij : i = j
  · subst hij
    rw [show (m2.store c i e).mem c i = e from setEntry_self _ _ _ _]
    exact he
  · exact (h i (by simp [hij, hi])).keep_store hb hc hpass
      (fun f hf => ⟨hts f hf, fun hfc => hts f hf (hfc ▸ hcm)⟩) (fun p hp => succ_le_succ hp)
      (fun p q h _ => length_prefix p q h) hroot hij e

/-- The loop over the entries of a table: what is made for them is linked below the new table `c`. -/
theorem CloneAux.cloneEntries_pass (hspec : CloneSpec L) (hi : m.pmm.initialized = true) (src : Nat) (js : List (Fin 512))
    (hnodup : js.Nodup) :
    ∀ m1 ts1, Passed (fun f => ¬ m.pmm.Free f) ts1 m m1 → Built (fun p => p.length ≤ L + 1) c m m1 →
      (∀ j ∈ js, childOf (m1.mem c j) = none) →
      ∃ b m2 ts2, (cloneEntries (cloneTable L) src c js).run m1 = (b, m2) ∧
        Passed (fun f => ¬ m.pmm.Free f) (ts1 ++ ts2) m m2 ∧ Built (fun p => p.length ≤ L + 1) c m m2 ∧
        (TreeInUse m (L + 1) src → Reached (js.flatMap (orderFor m.mem L src)) ts2 b m1 m2 ∧
          (EntriesDone L src c m m1 js → b = true → Mirror m.mem m2.mem (L + 1) src c)) := by
  induction js with
  | nil =>
    intro m1 ts1 hpass hb _
    refine ⟨true, m1, [], rfl, ?_, hb, fun _ => ⟨Reached.nil rfl, fun hdone _ i => hdone i not_mem_nil⟩⟩
    rw [append_nil]
    exact hpass
  | cons j js ih =>
    intro m1 ts1 hpass hb hnone
    obtain ⟨hnot, hnodup'⟩ := nodup_cons.mp hnodup
    have hcm : m.pmm.Free c := hb.fresh [] c (zero_le _) rfl
    obtain ⟨hc, hroot⟩ := hb.root
    have hj := hnone j mem_cons_self
    have hother : ∀ i ∈ js, ∀ (mem : Nat → Fin 512 → BitVec 64) (e : BitVec 64), setEntry mem c j e c i = mem c i := by
      intro i hi mem e
      refine setEntry_of_ne ?_
      rintro ⟨-, rfl⟩
      exact hnot hi
    -- an entry that leads to no table
    by_cases hsrc : childOf (m1.mem src j) = none
    · obtain ⟨e, hstep, he, hpres⟩ : ∃ e, (cloneEntries (cloneTable L) src c (j :: js)).run m1 =
          (cloneEntries (cloneTable L) src c js).run (m1.store c j e) ∧ childOf e = none ∧
          (hasFlag e ptePresent = true → hasFlag (m1.mem src j) ptePresent = true) := by
        rw [cloneEntries, bind_run (readEntry_run m1 src j)]
        cases hp : hasFlag (m1.mem src j) ptePresent with
        | false => exact ⟨0#64, rfl, childOf_zero, nofun⟩
        | true =>
          cases hs : hasFlag (m1.mem src j) ptePs with
          | true => exact ⟨m1.mem src j, rfl, hsrc, fun _ => rfl⟩
          | false =>
            rw [childOf_present hp hs] at hsrc
            cases hsrc
      obtain ⟨b, m2, ts2, hrun, hpass2, hb2, hreach⟩ := ih hnodup' (m1.store c j e) ts1
        (hpass.store (fun h => h hcm) j e) (hb.store_none hj he) fun i hi => by
          rw [store_mem, hother i hi]
          exact hnone i (mem_cons_of_mem j hi)
      refine ⟨b, m2, ts2, hstep.trans hrun, hpass2, hb2, fun hin => ?_⟩
      have hsf := hin.root
      rw [hpass.childOf_eq hsf] at hsrc
      rw [hpass.mem src hsf, cowIf_present] at hpres
      obtain ⟨hrest, hmirror⟩ := hreach hin
      rw [flatMap_cons, orderFor_of_none hsrc]
      have hstart : Reached [] [] true m1 (m1.store c j e) := Reached.nil rfl
      exact ⟨hstart.append hrest rfl, fun hdone => hmirror (hdone.store hb (Passed.refl _ m1) (by simp) (.of_none hsrc he hpres))⟩
    · obtain ⟨f, hf⟩ := Option.ne_none_iff_exists'.mp hsrc
      obtain ⟨hp, hs, -⟩ := childOf_some hf
      have hchild := childOf_present hp hs
      rw [cloneEntries, bind_run (readEntry_run m1 src j), hp, if_neg (by simp), hs, if_neg Bool.false_ne_true]
      obtain ⟨o, m2, ts', hrun, hpass', hres, hreach⟩ := hspec (pteFrame (m1.mem src j)) m1 (hpass.upkeep.pmmInit.trans hi)
      have hpass2 : Passed (fun f => ¬ m.pmm.Free f) (ts1 ++ ts') m m2 :=
        hpass.trans hpass' fun f hf hfree => hf (hpass.free_of_free hfree)
      -- the tables to come are those that are found at the start
      have horder : TreeInUse m (L + 1) src → childOf (m.mem src j) = some (pteFrame (m1.mem src j)) ∧
          Reached (orderFor m.mem L src j) ts' o.isSome m1 m2 ∧ (∀ f ∈ ts', ¬ m.pmm.Free f) ∧
          ∀ b, o = some b → Mirror m.mem m2.mem L (pteFrame (m1.mem src j)) b := by
        intro hin
        have hchild' := hchild
        rw [hpass.childOf_eq hin.root] at hchild'
        have hsub := hin.child hchild'
        obtain ⟨heq, hsub1⟩ := hsub.passed hpass hsub
        obtain ⟨hr, hmirror⟩ := hreach hsub1
        rw [heq] at hr
        rw [orderFor_of_child hchild']
        exact ⟨hchild', hr, fun f hf => hsub _ (hr.mem hf),
          fun b hb => (hmirror b hb).source fun x hx i => hpass.mem x.2 (hsub x hx) i⟩
      rw [bind_run (show (cloneTable L (frameOf (pteAddr (m1.mem src j)))).run m1 = (o.map frameAddr, m2) from hrun)]
      rcases hres with ⟨rfl, hused⟩ | ⟨b, rfl, hbm, hbuilt⟩
      · have hb2 := hb.passed (fun p q h _ => length_prefix p q h) hc hpass' hused
        have hj2 : childOf (m2.mem c j) = none := by rw [hpass'.childOf_eq hc, hj]
        refine ⟨false, m2.store c j 0#64, ts', rfl, hpass2.store (fun h => h hcm) j 0#64, hb2.store_none hj2 childOf_zero,
          fun hin => ⟨?_, by simp⟩⟩
        exact (horder hin).2.1.stop _ _
      · obtain ⟨-, -, hentry⟩ := copyEntry hp hs (lt_of_free hbm)
        dsimp only [Option.map_some]
        generalize pteMake (frameAddr b) (pteFlags (m1.mem src j)) = e at hentry
        obtain ⟨w, m3, ts3, hrun3, hpass3, hb3, hreach3⟩ := ih hnodup' (m2.store c j e) (ts1 ++ ts')
          (hpass2.store (fun h => h hcm) j e)
          (hb.link (fun p q h _ => length_prefix p q h) (fun f => hpass.free_of_free) hc hroot hpass' hbuilt
            (fun p => ⟨.inl, by rintro (h | ⟨q, hq, rfl⟩); exacts [h, succ_le_succ hq]⟩)
            (fun q hq => ⟨le_of_succ_le_succ hq, tableAt_none hj q⟩) hentry) fun i hi => by
            rw [store_mem, hother i hi, hpass'.childOf_eq hc]
            exact hnone i (mem_cons_of_mem j hi)
        refine ⟨w, m3, ts' ++ ts3, hrun3, ?_, hb3, fun hin => ?_⟩
        · rw [← append_assoc]
          exact hpass3
        · obtain ⟨hchild', hr, hts, hmirror⟩ := horder hin
          obtain ⟨hr3, hmirror3⟩ := hreach3 hin
          refine ⟨hr.append hr3 rfl, fun hdone => hmirror3 (hdone.store hb hpass' hts (.of_child hchild' hentry ?_))⟩
          refine (hmirror b rfl).target fun p f hp hf => funext fun k => setEntry_of_ne ?_
          rintro ⟨rfl, -⟩
          exact hc (hbuilt.fresh p f hp hf)

/-- `cloneTable` on any table: it makes a tree of new frames, or gives all of them back. -/
theorem cloneTable_pass (L : Nat) : CloneSpec L := by
  induction L with
  | zero =>
    intro t m hi
    rw [cloneTable]
    rcases allocFrame_run m with ⟨hnone, hout⟩ | ⟨c, hc, -, hne, hfr, hrun⟩
    · rw [bind_run hnone]
      exact ⟨none, m, [], rfl, Passed.refl _ m, .inl ⟨rfl, fun _ => rfl⟩,
        fun _ => ⟨Reached.none (Pmm.freeCount_eq_zero.mpr (hout hi)) zero_lt_one, nofun⟩⟩
    · rw [bind_run hrun, if_neg hne, hfr]
      obtain ⟨mem', hleaves, hcopy, hmem⟩ := cloneLeaves_run t c { m with pmm := m.pmm.take c }
      rw [bind_run hleaves]
      refine ⟨some c, _, [t], rfl, Passed.alloc hc hmem, .inr ⟨c, rfl, hc, Built.alloc hc fun p f hp _ => ?_⟩,
        fun hin => ⟨?_, ?_⟩⟩
      · exact eq_nil_of_length_eq_zero (le_zero.mp hp)
      · have hcount := Pmm.freeCount_take hc
        rw [tableOrder]
        refine ⟨fun f => ?_, fun _ => hcount, nofun⟩
        rw [take_of_length_le (by simp; omega)]
        simp
      · rintro _ ⟨⟩
        refine hcopy ?_
        rintro rfl
        exact hin (0, t) (mem_singleton_self _) hc
  | succ L ih =>
    intro t m hi
    rw [cloneTable]
    rcases allocFrame_run m with ⟨hnone, hout⟩ | ⟨c, hc, -, hne, hfr, hrun⟩
    · rw [bind_run hnone]
      refine ⟨none, m, [], rfl, Passed.refl _ m, .inl ⟨rfl, fun _ => rfl⟩,
        fun _ => ⟨Reached.none (Pmm.freeCount_eq_zero.mpr (hout hi)) ?_, nofun⟩⟩
      rw [tableOrder_succ, length_cons]
      omega
    · rw [bind_run hrun, if_neg hne, hfr, bind_run (zeroPage_run _ _)]
      have hzero : ∀ i, childOf (update m.mem c (fun _ => 0#64) c i) = none := fun i => by
        rw [update_self, childOf_zero]
      have hpass : Passed (fun f => ¬ m.pmm.Free f) [] m
          { m with pmm := m.pmm.take c, mem := update m.mem c (fun _ => 0#64) } :=
        Passed.alloc hc fun f hf i => by rw [update_of_ne hf, cowIf_nil]
      have hbuilt : Built (fun p => p.length ≤ L + 1) c m
          { m with pmm := m.pmm.take c, mem := update m.mem c (fun _ => 0#64) } := by
        refine Built.alloc hc fun p f _ hf => ?_
        cases p with
        | nil => rfl
        | cons i p =>
          rw [tableAt_none (hzero i)] at hf
          cases hf
      obtain ⟨b, m2, ts, hloop, hpass2, hbuilt2, hreach⟩ := cloneEntries_pass ih hi t allEntries (nodup_finRange 512) _ _ hpass
        hbuilt fun i _ => hzero i
      -- one frame is spent on the table itself
      have hfirst : TreeInUse m (L + 1) t → ∀ m', (b = true → m' = m2) → Reached (tableOrder m.mem (L + 1) t) ts b m m' := by
        intro hin m' hm'
        obtain ⟨hrest, -⟩ := hreach hin
        rw [tableOrder_succ]
        have hcount := Pmm.freeCount_take hc
        refine ⟨fun f => ?_, fun hb => ?_, fun hb => ?_⟩
        · rw [hrest.pts, ← hcount, take_succ_cons, mem_cons]
          refine ⟨.inr, ?_⟩
          rintro (h | h)
          · exact absurd (Prod.mk.inj h).1 (by omega)
          · exact h
        · have hend := hrest.enough hb
          dsimp only at hend
          rw [hm' hb, length_cons]
          omega
        · have hend := hrest.short hb
          dsimp only at hend
          rw [length_cons]
          omega
      rw [bind_run hloop]
      cases b with
      | true =>
        refine ⟨some c, m2, ts, rfl, hpass2, .inr ⟨c, rfl, hc, hbuilt2⟩, fun hin => ⟨hfirst hin m2 fun _ => rfl, ?_⟩⟩
        rintro _ ⟨⟩
        exact (hreach hin).2 (fun i hi => absurd (mem_finRange i) hi) rfl
      | false =>
        obtain ⟨m', hundo, hpass', hused⟩ := unwind_run hbuilt2 hpass2 hi
        exact ⟨none, m', ts, hundo, hpass', .inl ⟨rfl, hused⟩, fun hin => ⟨hfirst hin m' nofun, nofun⟩⟩

end TsOs
