import TsOs.Lemmas.PageTable

/-!
# Walks that create tables

`pt_walk_to_leaf` with its allocations only adds empty tables: `Grown` says what such an addition may change, and is kept from
step to step of the walk.
-/

namespace TsOs

open Bits Radix StateProg PteAux TableAux Function

/-! ## The steps of the programs -/

/-- The state after a store of one entry. -/
def Vmm.store (m : Vmm) (t : Nat) (i : Fin 512) (e : BitVec 64) : Vmm := { m with mem := setEntry m.mem t i e }

variable {f : Nat}

namespace VmmRun

theorem store_mem (m : Vmm) (t : Nat) (i : Fin 512) (e : BitVec 64) : (m.store t i e).mem = setEntry m.mem t i e := rfl

theorem readEntry_run (m : Vmm) (t : Nat) (i : Fin 512) : (readEntry t i).run m = (m.mem t i, m) := rfl

theorem writeEntry_run (m : Vmm) (t : Nat) (i : Fin 512) (e : BitVec 64) :
    (writeEntry t i e).run m = ((), m.store t i e) := rfl

theorem zeroPage_run (m : Vmm) (f : Nat) :
    (zeroPage f).run m = ((), { m with mem := update m.mem f (fun _ => 0#64) }) := rfl

theorem get_run (m : Vmm) : (get : VmmM Vmm).run m = (m, m) := rfl

theorem lt_of_free {p : Pmm} (h : p.Free f) : f < 2 ^ 40 := by
  have h1 := h.2.1
  have h2 := p.total_le
  simp only [pmmMaxFrames] at h2
  omega

theorem allocFrame_run (m : Vmm) :
    (allocFrame.run m = (0#64, m) ∧ (m.pmm.initialized = true → ∀ f, ¬ m.pmm.Free f)) ∨
    ∃ f, m.pmm.Free f ∧ m.pmm.initialized = true ∧ frameAddr f ≠ 0#64 ∧ frameOf (frameAddr f) = f ∧
      allocFrame.run m = (frameAddr f, { m with pmm := m.pmm.take f }) := by
  have hrun : allocFrame.run m = (BitVec.ofNat 64 (pmmAllocFrame m.pmm).2, { m with pmm := (pmmAllocFrame m.pmm).1 }) := rfl
  rw [hrun]
  rcases pmmAllocFrame_spec m.pmm with ⟨h, hnone⟩ | ⟨f, hf, -, hi, h⟩
  · exact .inl ⟨by rw [h], hnone⟩
  · exact .inr ⟨f, hf, hi, frameAddr_ne_zero hf.1 (lt_of_free hf), frameOf_frameAddr (lt_of_free hf), by rw [h]; rfl⟩

theorem freeFrame_run (m : Vmm) (hf : f < 2 ^ 40) :
    (freeFrame (frameAddr f)).run m = ((), { m with pmm := m.pmm.drop f }) := by
  have hrun : (freeFrame (frameAddr f)).run m = ((), { m with pmm := (pmmFreeFrame m.pmm (frameAddr f).toNat).1 }) := rfl
  rw [hrun, toNat_frameAddr hf, pmmFreeFrame_eq]

theorem freeFrame_pteAddr_run (m : Vmm) (e : BitVec 64) :
    (freeFrame (pteAddr e)).run m = ((), { m with pmm := m.pmm.drop (pteFrame e) }) := by
  rw [(pteAddr_eq e).1]
  exact freeFrame_run m (pteAddr_eq e).2

theorem setEntry_self (mem : Nat → Fin 512 → BitVec 64) (t : Nat) (i : Fin 512) (e : BitVec 64) :
    setEntry mem t i e t i = e := by
  rw [setEntry, update_self, update_self]

theorem setEntry_of_ne {mem : Nat → Fin 512 → BitVec 64} {t : Nat} {i j : Fin 512} {e : BitVec 64} (h : ¬ (f = t ∧ j = i)) :
    setEntry mem t i e f j = mem f j := by
  rw [setEntry]
  by_cases hf : f = t
  · subst hf
    rw [update_self, update_of_ne (fun hj => h ⟨rfl, hj⟩)]
  · rw [update_of_ne hf]

end VmmRun

open VmmRun

/-! ## Growth -/

/-- No table of the trees is a free frame. -/
def Kept (B : Nat) (live : List Nat) (m : Vmm) : Prop :=
  ∀ r ∈ live, ∀ p f, TablePath B p → tableAt m.mem r p = some f → ¬ m.pmm.Free f

/-- From `m` to `m'` empty tables, taken from the free frames, were added to the tree at `r`. -/
structure Grown (B : Nat) (live : List Nat) (r : Nat) (m m' : Vmm) : Prop where
  distinct : Tables B m'.mem live
  tables : ∀ p f, TablePath B p → tableAt m.mem r p = some f → tableAt m'.mem r p = some f
  fresh : ∀ p f, TablePath B p → tableAt m'.mem r p = some f → tableAt m.mem r p = some f ∨ m.pmm.Free f
  other : ∀ r' ∈ live, r' ≠ r → ∀ p, TablePath B p →
    tableAt m'.mem r' p = tableAt m.mem r' p ∧ ∀ i, entryAt m'.mem r' p i = entryAt m.mem r' p i
  leaf : ∀ p i, TablePath B p → p.length = 3 → entryAt m'.mem r p i = entryAt m.mem r p i
  upper : ∀ p i, TablePath B (p ++ [i]) → entryAt m'.mem r p i = entryAt m.mem r p i ∨
    hasFlag (entryAt m.mem r p i) ptePresent = false ∧ hasFlag (entryAt m'.mem r p i) ptePresent = true ∧
      hasFlag (entryAt m'.mem r p i) ptePs = false
  used : ∀ f, m'.pmm.isUsed f = true ↔
    m.pmm.isUsed f = true ∨ m.pmm.Free f ∧ ∃ p, TablePath B p ∧ tableAt m'.mem r p = some f
  frames : ∀ f, ¬ m.pmm.Free f → (∀ p, TablePath B p → tableAt m.mem r p ≠ some f) → m'.mem f = m.mem f
  total : m'.pmm.totalFrames = m.pmm.totalFrames
  pmmInit : m'.pmm.initialized = m.pmm.initialized
  drift : m'.pmm.drift = m.pmm.drift
  kernel : m'.kernelPml4 = m.kernelPml4
  init : m'.initialized = m.initialized

namespace Grown

variable {B : Nat} {live : List Nat} {r : Nat} {m m' m'' : Vmm}

theorem refl (h : Tables B m.mem live) (hk : Kept B live m) (hr : r ∈ live) : Grown B live r m m where
  distinct := h
  tables _ _ _ h := h
  fresh _ _ _ h := .inl h
  other _ _ _ _ _ := ⟨rfl, fun _ => rfl⟩
  leaf _ _ _ _ := rfl
  upper _ _ _ := .inl rfl
  used f := by
    refine ⟨.inl, ?_⟩
    rintro (h | ⟨hfree, p, hp, ht⟩)
    · exact h
    · exact absurd hfree (hk r hr p f hp ht)
  frames _ _ _ := rfl
  total := rfl
  pmmInit := rfl
  drift := rfl
  kernel := rfl
  init := rfl

theorem free_of_free (h : Grown B live r m m') (hf : m'.pmm.Free f) : m.pmm.Free f := by
  refine ⟨hf.1, h.total ▸ hf.2.1, ?_⟩
  rw [← Bool.not_eq_true]
  intro hu
  have := (h.used f).mpr (.inl hu)
  rw [hf.2.2] at this
  cases this

theorem kept (h : Grown B live r m m') (hk : Kept B live m) : Kept B live m' := by
  intro r' hr' p f hp ht hf
  have hf' := h.free_of_free hf
  by_cases hrr : r' = r
  · subst hrr
    rcases h.fresh p f hp ht with hold | hfree
    · exact hk r' hr' p f hp hold hf'
    · have hu := (h.used f).mpr (.inr ⟨hfree, p, hp, ht⟩)
      rw [hf.2.2] at hu
      cases hu
  · rw [(h.other r' hr' hrr p hp).1] at ht
    exact hk r' hr' p f hp ht hf'

theorem trans (h : Grown B live r m m') (h' : Grown B live r m' m'') : Grown B live r m m'' where
  distinct := h'.distinct
  tables p f hp ht := h'.tables p f hp (h.tables p f hp ht)
  fresh p f hp ht := by
    rcases h'.fresh p f hp ht with hold | hfree
    · exact h.fresh p f hp hold
    · exact .inr (h.free_of_free hfree)
  other r' hr' hne p hp := by
    have h1 := h.other r' hr' hne p hp
    have h2 := h'.other r' hr' hne p hp
    exact ⟨h2.1.trans h1.1, fun i => (h2.2 i).trans (h1.2 i)⟩
  leaf p i hp hlen := (h'.leaf p i hp hlen).trans (h.leaf p i hp hlen)
  upper p i hp := by
    rcases h'.upper p i hp with heq | ⟨habs, hpres, hps⟩
    · rw [heq]
      exact h.upper p i hp
    · rcases h.upper p i hp with heq | ⟨-, hpres', -⟩
      · exact .inr ⟨heq ▸ habs, hpres, hps⟩
      · rw [hpres'] at habs
        cases habs
  used f := by
    rw [h'.used f, h.used f]
    constructor
    · rintro ((hu | ⟨hfree, p, hp, ht⟩) | ⟨hfree, p, hp, ht⟩)
      · exact .inl hu
      · exact .inr ⟨hfree, p, hp, h'.tables p f hp ht⟩
      · exact .inr ⟨h.free_of_free hfree, p, hp, ht⟩
    · rintro (hu | ⟨hfree, p, hp, ht⟩)
      · exact .inl (.inl hu)
      · rcases h'.fresh p f hp ht with hold | hfree'
        · exact .inl (.inr ⟨hfree, p, hp, hold⟩)
        · exact .inr ⟨hfree', p, hp, ht⟩
  frames f hf ht := by
    have hf' : ¬ m'.pmm.Free f := fun hfree => hf (h.free_of_free hfree)
    refine (h'.frames f hf' ?_).trans (h.frames f hf ht)
    intro p hp hp'
    rcases h.fresh p f hp hp' with hold | hfree
    · exact ht p hp hold
    · exact hf hfree
  total := h'.total.trans h.total
  pmmInit := h'.pmmInit.trans h.pmmInit
  drift := h'.drift.trans h.drift
  kernel := h'.kernel.trans h.kernel
  init := h'.init.trans h.init

end Grown

/-- The flags with which a walk links a new table. -/
structure LinkFlags (flags : BitVec 64) : Prop where
  present : hasFlag flags ptePresent = true
  small : hasFlag flags ptePs = false
  noAddr : flags &&& pteAddrMask = 0#64

/-- The state after the free frame `c` was linked as an empty table at entry `i` of table `n`. -/
def linked (m : Vmm) (n : Nat) (i : Fin 512) (c : Nat) (flags : BitVec 64) : Vmm :=
  { m with
    pmm := m.pmm.take c
    mem := setEntry (Function.update m.mem c (fun _ => 0#64)) n i (pteMake (frameAddr c) flags) }

variable {create : Bool}

namespace WalkAux

variable {B : Nat} {live : List Nat} {r : Nat} {m : Vmm} {p : List (Fin 512)} {i : Fin 512} {n c : Nat} {flags : BitVec 64}

theorem linkEntry (hc : m.pmm.Free c) (hflags : LinkFlags flags) :
    hasFlag (pteMake (frameAddr c) flags) ptePresent = true ∧ hasFlag (pteMake (frameAddr c) flags) ptePs = false ∧
    pteFrame (pteMake (frameAddr c) flags) = c := by
  refine ⟨?_, ?_, pteFrame_make (lt_of_free hc) hflags.noAddr⟩
  · rw [hasFlag_present, getLsbD_pteMake (by omega), ← hasFlag_present, hflags.present]
  · rw [hasFlag_ps, getLsbD_pteMake (by omega), ← hasFlag_ps, hflags.small]

theorem linked_mem_of_ne {j : Fin 512} (hf : f ≠ c) (hne : ¬ (f = n ∧ j = i)) :
    (linked m n i c flags).mem f j = m.mem f j := by
  simp only [linked]
  rw [setEntry_of_ne hne, update_of_ne hf]

theorem linked_mem_new {j : Fin 512} (hne : n ≠ c) : (linked m n i c flags).mem c j = 0#64 := by
  simp only [linked]
  rw [setEntry_of_ne (fun h => hne h.1.symm), update_self]

theorem linked_mem_self : (linked m n i c flags).mem n i = pteMake (frameAddr c) flags := setEntry_self _ _ _ _

variable (ht : Tables B m.mem live) (hk : Kept B live m) (hr : r ∈ live) (hp : TablePath B (p ++ [i]))
  (hn : tableAt m.mem r p = some n)
include ht hk hr hp hn

theorem grown_linked (habs : hasFlag (m.mem n i) ptePresent = false) (hc : m.pmm.Free c)
    (hflags : LinkFlags flags) :
    Grown B live r m (linked m n i c flags) ∧ tableAt (linked m n i c flags).mem r (p ++ [i]) = some c := by
  have hlink := linkEntry hc hflags
  have hne : ∀ r' ∈ live, ∀ q f, TablePath B q → tableAt m.mem r' q = some f → f ≠ c := by
    rintro r' hr' q f hq hf rfl
    exact hk r' hr' q f hq hf hc
  have hnc : n ≠ c := hne r hr p n hp.of_append hn
  have hchild : childOf ((linked m n i c flags).mem n i) = some c := by
    rw [linked_mem_self, childOf_present hlink.1 hlink.2.1, hlink.2.2]
  obtain ⟨hnew, htab, hent, hents⟩ := set_table _ _ ht hr hn
    (fun r' hr' q f j hq hf hfj => linked_mem_of_ne (hne r' hr' q f hq hf) hfj) hp
    (fun d j hd => by rw [childOf_absent habs] at hd; cases hd)
    (fun d j hd => by
      rw [hchild, Option.some.injEq] at hd
      rw [← hd, linked_mem_new hnc, hasFlag_zero])
  rw [hchild] at hnew
  have hold : tableAt m.mem r (p ++ [i]) = none := by
    rw [tableAt_snoc, entryAt_eq hn, childOf_absent habs]
  have hfresh : ∀ q f, TablePath B q → tableAt (linked m n i c flags).mem r q = some f →
      tableAt m.mem r q = some f ∨ m.pmm.Free f := by
    intro q f hq hf
    by_cases hqp : q = p ++ [i]
    · rw [hqp, hnew, Option.some.injEq] at hf
      exact .inr (hf ▸ hc)
    · rw [htab r hr q hq (fun h => hqp h.2)] at hf
      exact .inl hf
  refine ⟨?_, hnew⟩
  constructor
  case distinct =>
    exact tables_of_added ht hnew (fun r' hr' q hq hf => hne r' hr' q c hq hf rfl) htab
  case tables =>
    intro q f hq hf
    rw [htab r hr q hq (fun h => ?_)]
    · exact hf
    · rw [h.2, hold] at hf
      cases hf
  case fresh => exact hfresh
  case other =>
    intro r' hr' hrr q hq
    exact ⟨htab r' hr' q hq (fun h => hrr h.1), fun j => hents r' hr' q j hq (fun h => hrr h.1) (fun h => hrr h.1)⟩
  case leaf =>
    intro q j hq hlen
    by_cases hqp : q = p ++ [i]
    · rw [hqp, entryAt_eq hnew, linked_mem_new hnc, entryAt_none hold]
    · refine hents r hr q j hq (fun h => hqp h.2) ?_
      rintro ⟨-, rfl, rfl⟩
      have := hp.1
      rw [List.length_append, List.length_singleton] at this
      omega
  case upper =>
    intro q j hq
    by_cases hqp : q = p ++ [i]
    · exact .inl (by rw [hqp, entryAt_eq hnew, linked_mem_new hnc, entryAt_none hold])
    · by_cases hqi : q = p ∧ j = i
      · obtain ⟨rfl, rfl⟩ := hqi
        rw [hent, linked_mem_self, entryAt_eq hn]
        exact .inr ⟨habs, hlink.1, hlink.2.1⟩
      · exact .inl (hents r hr q j hq.of_append (fun h => hqp h.2) (fun h => hqi ⟨h.2.1, h.2.2⟩))
  case used =>
    intro f
    rw [show (linked m n i c flags).pmm = m.pmm.take c from rfl, Pmm.isUsed_take, Bool.or_eq_true, decide_eq_true_eq]
    constructor
    · rintro (rfl | hu)
      · exact .inr ⟨hc, p ++ [i], hp, hnew⟩
      · exact .inl hu
    · rintro (hu | ⟨hfree, q, hq, hf⟩)
      · exact .inr hu
      · by_cases hqp : q = p ++ [i]
        · rw [hqp, hnew, Option.some.injEq] at hf
          exact .inl hf.symm
        · rw [htab r hr q hq (fun h => hqp h.2)] at hf
          exact absurd hfree (hk r hr q f hq hf)
  case frames =>
    intro f hf hf'
    funext j
    refine linked_mem_of_ne (fun h => hf (h ▸ hc)) ?_
    rintro ⟨rfl, rfl⟩
    exact hf' p hp.of_append hn
  case total => rfl
  case pmmInit => rfl
  case drift => exact Pmm.drift_take hc.2.1 hc.2.2
  case kernel => rfl
  case init => rfl

/-- One level of a walk: the entry found or created, and nothing but growth. -/
theorem getOrCreate_spec (hflags : create = true → LinkFlags flags) :
    ∃ e m', (ptGetOrCreateEntry n i create flags).run m = (e, m') ∧ Grown B live r m m' ∧ (create = false → m' = m) ∧
      (hasFlag e ptePresent = true → m'.mem n i = e) ∧ tableAt m'.mem r (p ++ [i]) = childOf e := by
  have hrefl := Grown.refl ht hk hr
  have hold : tableAt m.mem r (p ++ [i]) = childOf (m.mem n i) := by rw [tableAt_snoc, entryAt_eq hn]
  rw [ptGetOrCreateEntry, bind_run (readEntry_run m n i)]
  cases hpres : hasFlag (m.mem n i) ptePresent with
  | true =>
    exact ⟨m.mem n i, m, rfl, hrefl, fun _ => rfl, fun _ => rfl, hold⟩
  | false =>
    rw [if_neg (by simp)]
    -- without a new table the result is 0, which is not present
    have hzero : hasFlag 0#64 ptePresent = true → m.mem n i = 0#64 := by
      intro h
      cases h
    rw [childOf_absent hpres] at hold
    cases create with
    | false => exact ⟨0#64, m, rfl, hrefl, fun _ => rfl, hzero, hold⟩
    | true =>
      rw [if_neg (by simp)]
      rcases allocFrame_run m with ⟨hnone, -⟩ | ⟨c, hc, -, hne, hfr, hrun⟩
      · rw [bind_run hnone]
        exact ⟨0#64, m, rfl, hrefl, fun _ => rfl, hzero, hold⟩
      · rw [bind_run hrun, if_neg hne, hfr]
        have hlink := linkEntry hc (hflags rfl)
        obtain ⟨hgrown, hnew⟩ := grown_linked ht hk hr hp hn hpres hc (hflags rfl)
        refine ⟨pteMake (frameAddr c) flags, linked m n i c flags, rfl, hgrown, nofun, fun _ => linked_mem_self, ?_⟩
        rw [hnew, childOf_present hlink.1 hlink.2.1, hlink.2.2]

end WalkAux

/-- The indices that lead from the PML4 to the PT of an address. -/
def vaPath (va : BitVec 64) : List (Fin 512) := [pml4Index va, pdptIndex va, pdIndex va]

variable {va : BitVec 64}

theorem TablePath.vaPath {B : Nat} (h : (pml4Index va).val < B) : TablePath B (vaPath va) := by
  refine ⟨Nat.le_refl 3, ?_⟩
  rintro i ⟨⟩
  exact h

open WalkAux

/-- A slot that holds a huge page. -/
def HugeSlot (B : Nat) (mem : Nat → Fin 512 → BitVec 64) (r f : Nat) (i : Fin 512) : Prop :=
  ∃ p, TablePath B (p ++ [i]) ∧ p ≠ [] ∧ tableAt mem r p = some f ∧ hasFlag (mem f i) ptePresent = true ∧
    hasFlag (mem f i) ptePs = true

namespace WalkAux

variable {B : Nat} {live : List Nat} {r : Nat} {m : Vmm} {p : List (Fin 512)} {i : Fin 512} {n : Nat} {flags : BitVec 64}

/-- What is known after a walk from `m` that ends in `m'` with the result `res`. -/
structure WalkEnd (B : Nat) (live : List Nat) (r : Nat) (va : BitVec 64) (create : Bool) (m m' : Vmm)
    (res : Option (Nat × Fin 512)) : Prop where
  grown : Grown B live r m m'
  same : create = false → m' = m
  found : ∀ f i, res = some (f, i) → tableAt m'.mem r (vaPath va) = some f ∧ i = ptIndex va ∨ HugeSlot B m'.mem r f i
  missing : res = none → tableAt m'.mem r (vaPath va) = none

theorem WalkEnd.of_later {m1 m2 : Vmm} {res : Option (Nat × Fin 512)}
    (hg : Grown B live r m m1) (hs : create = false → m1 = m) (h : WalkEnd B live r va create m1 m2 res) :
    WalkEnd B live r va create m m2 res where
  grown := hg.trans h.grown
  same hc := (h.same hc).trans (hs hc)
  found := h.found
  missing := h.missing

/-- A level at which the walk goes on, as the steps `next`, only when the entry leads to a table. -/
theorem level_spec {q : List (Fin 512)} (ht : Tables B m.mem live) (hk : Kept B live m)
    (hr : r ∈ live) (hva : vaPath va = p ++ [i] ++ q) (hp : TablePath B (vaPath va)) (hn : tableAt m.mem r p = some n)
    (hflags : create = true → LinkFlags flags) {huge : Option (Nat × Fin 512)} {next : BitVec 64 → VmmM (Option (Nat × Fin 512))}
    (hhuge : huge = none ∨ p ≠ [] ∧ huge = some (n, i))
    (hnext : ∀ m' e, Tables B m'.mem live → Kept B live m' → tableAt m'.mem r (p ++ [i]) = some (frameOf (pteAddr e)) →
      ∃ res m'', (next e).run m' = (res, m'') ∧ WalkEnd B live r va create m' m'' res) :
    ∃ res m', (do
      let e ← ptGetOrCreateEntry n i create flags
      if !hasFlag e ptePresent then pure none
      else if hasFlag e ptePs then pure huge
      else next e : VmmM (Option (Nat × Fin 512))).run m = (res, m') ∧ WalkEnd B live r va create m m' res := by
  have hp1 : TablePath B (p ++ [i]) := (hva ▸ hp).of_append
  obtain ⟨e, m1, hrun, hg, hsame, hmem, htab⟩ := getOrCreate_spec ht hk hr hp1 hn hflags
  have hcut : childOf e = none → tableAt m1.mem r (vaPath va) = none := by
    intro hc
    rw [hc] at htab
    rw [hva]
    exact walk_append_none htab q
  rw [bind_run hrun]
  cases hpres : hasFlag e ptePresent with
  | false =>
    exact ⟨none, m1, rfl, hg, hsame, nofun, fun _ => hcut (childOf_absent hpres)⟩
  | true =>
    cases hps : hasFlag e ptePs with
    | true =>
      have hnone : childOf e = none := by
        rw [childOf, hpres, hps]
        rfl
      refine ⟨huge, m1, rfl, hg, hsame, fun f j hres => ?_, fun _ => hcut hnone⟩
      rcases hhuge with rfl | ⟨hpne, rfl⟩
      · cases hres
      · cases hres
        have heq := hmem hpres
        exact .inr ⟨p, hp1, hpne, hg.tables p n hp1.of_append hn, heq ▸ hpres, heq ▸ hps⟩
    | false =>
      rw [childOf_present hpres hps] at htab
      obtain ⟨res, m2, hrun2, hend⟩ := hnext m1 e hg.distinct (hg.kept hk) htab
      exact ⟨res, m2, hrun2, hend.of_later hg hsame⟩

end WalkAux

/-- `pt_walk_to_leaf` only adds tables, and returns the leaf slot of the address or a huge page on the way to it. -/
theorem ptWalkToLeaf_spec {B : Nat} {live : List Nat} {r : Nat} {m : Vmm} (create : Bool)
    (flags : BitVec 64) (ht : Tables B m.mem live) (hk : Kept B live m) (hr : r ∈ live) (hB : (pml4Index va).val < B)
    (hflags : create = true → LinkFlags flags) :
    ∃ res m', (ptWalkToLeaf r va create flags).run m = (res, m') ∧ WalkEnd B live r va create m m' res := by
  have hpath := TablePath.vaPath hB
  refine level_spec (q := [pdptIndex va, pdIndex va]) ht hk hr rfl hpath (tableAt_nil r) hflags (.inl rfl) ?_
  intro m1 e1 ht1 hk1 hn1
  refine level_spec (q := [pdIndex va]) ht1 hk1 hr rfl hpath hn1 hflags (.inr ⟨by simp, rfl⟩) ?_
  intro m2 e2 ht2 hk2 hn2
  refine level_spec (q := []) ht2 hk2 hr rfl hpath hn2 hflags (.inr ⟨by simp, rfl⟩) ?_
  intro m3 e3 ht3 hk3 hn3
  refine ⟨_, m3, rfl, Grown.refl ht3 hk3 hr, fun _ => rfl, ?_, nofun⟩
  rintro f i ⟨⟩
  exact .inl ⟨hn3, rfl⟩

end TsOs
