import TsOs.Lemmas.PageWalk

/-!
# The invariant of the address spaces

`Spaces p0 live m` says how the trees at the PML4s `live` use the frames that were free in `p0`: no table is shared, no mapped
frame is a table or free, and no frame mapped writable is mapped anywhere else. The moves of which the operations are made keep
it: growth of a tree, a store to one leaf, and the removal of an empty table.
-/

namespace TsOs

open Radix StateProg PteAux TableAux VmmRun WalkAux

/-- A walk of the user half to a PT. -/
def LeafPath (p : List (Fin 512)) : Prop := TablePath 256 p ∧ p.length = 3

/-- The leaf `i` of the PT at `p` maps frame `f`. -/
def Maps (mem : Nat → Fin 512 → BitVec 64) (r : Nat) (p : List (Fin 512)) (i : Fin 512) (f : Nat) : Prop :=
  LeafPath p ∧ hasFlag (entryAt mem r p i) ptePresent = true ∧ pteFrame (entryAt mem r p i) = f

/-- Frame `f` is a table of one of the address spaces. -/
def IsTable (live : List Nat) (mem : Nat → Fin 512 → BitVec 64) (f : Nat) : Prop :=
  ∃ r ∈ live, ∃ p, TablePath 256 p ∧ tableAt mem r p = some f

/-- Frame `f` is mapped by one of the address spaces. -/
def IsMapped (live : List Nat) (mem : Nat → Fin 512 → BitVec 64) (f : Nat) : Prop :=
  ∃ r ∈ live, ∃ p i, Maps mem r p i f

/-- The flags of a leaf: a demand page is not present; a copy-on-write page is present and not writable. -/
structure LeafOk (e : BitVec 64) : Prop where
  demand : hasFlag e pteDemand = true → hasFlag e ptePresent = false
  cow : hasFlag e pteCow = true → hasFlag e ptePresent = true ∧ hasFlag e pteWritable = false

theorem LeafOk.zero : LeafOk 0#64 := by
  constructor
  · intro h
    cases h
  · intro h
    cases h

/-- The state of the memory manager around the address spaces: it is initialised, no frame in use in `p0` was freed, and neither
the kernel's PML4 nor what its user half points to is made of frames that were free in `p0`. -/
structure Ground (p0 : Pmm) (m : Vmm) : Prop where
  init : m.initialized = true
  pmmInit : m.pmm.initialized = true
  total : m.pmm.totalFrames = p0.totalFrames
  drift : m.pmm.drift = p0.drift
  base : ∀ f, p0.isUsed f = true → m.pmm.isUsed f = true
  kernelFrame : ¬ p0.Free m.kernelPml4
  kernelUser : ∀ i : Fin 512, i.val < 256 → hasFlag (m.mem m.kernelPml4 i) ptePresent = true →
    ¬ p0.Free (pteFrame (m.mem m.kernelPml4 i))

/-- The address spaces at the PML4s `live`, which own only frames that were free in `p0`. -/
structure Spaces (p0 : Pmm) (live : List Nat) (m : Vmm) : Prop extends Ground p0 m where
  tables : Tables 256 m.mem live
  owned : ∀ f, IsTable live m.mem f → p0.Free f ∧ m.pmm.isUsed f = true
  small : ∀ r ∈ live, ∀ p i, TablePath 256 (p ++ [i]) → hasFlag (entryAt m.mem r p i) ptePresent = true →
    hasFlag (entryAt m.mem r p i) ptePs = false
  leaf : ∀ r ∈ live, ∀ p i, LeafPath p → LeafOk (entryAt m.mem r p i)
  mapped : ∀ f, IsMapped live m.mem f → p0.Free f ∧ m.pmm.isUsed f = true ∧ ¬ IsTable live m.mem f
  inj : ∀ r ∈ live, ∀ p i p' i' f, Maps m.mem r p i f → Maps m.mem r p' i' f → p = p' ∧ i = i'
  unshared : ∀ r ∈ live, ∀ r' ∈ live, ∀ p i p' i' f, Maps m.mem r p i f → Maps m.mem r' p' i' f →
    hasFlag (entryAt m.mem r p i) pteWritable = true → r = r'

/-- No page is copy-on-write, and every frame in use was in use in `p0`, is a table, is mapped, or is one of `X`. -/
structure Accounted (p0 : Pmm) (live : List Nat) (X : Nat → Prop) (m : Vmm) : Prop where
  noCow : ∀ r ∈ live, ∀ p i, LeafPath p → hasFlag (entryAt m.mem r p i) pteCow = false
  frames : ∀ f, m.pmm.isUsed f = true → p0.isUsed f = true ∨ IsTable live m.mem f ∨ IsMapped live m.mem f ∨ X f

/-- What no operation changes. -/
structure Steady (m m' : Vmm) : Prop where
  init : m'.initialized = m.initialized
  pmmInit : m'.pmm.initialized = m.pmm.initialized
  total : m'.pmm.totalFrames = m.pmm.totalFrames
  drift : m'.pmm.drift = m.pmm.drift
  kernel : m'.kernelPml4 = m.kernelPml4
  kernelMem : m'.mem m.kernelPml4 = m.mem m.kernelPml4

theorem Ground.steady {p0 : Pmm} {m m' : Vmm} (h : Ground p0 m) (hs : Steady m m')
    (hbase : ∀ f, p0.isUsed f = true → m'.pmm.isUsed f = true) : Ground p0 m' where
  init := hs.init.trans h.init
  pmmInit := hs.pmmInit.trans h.pmmInit
  total := hs.total.trans h.total
  drift := hs.drift.trans h.drift
  base := hbase
  kernelFrame := by
    rw [hs.kernel]
    exact h.kernelFrame
  kernelUser := by
    rw [hs.kernel, hs.kernelMem]
    exact h.kernelUser

variable {f : Nat}

namespace Spaces

variable {p0 : Pmm} {live : List Nat} {m m' : Vmm} {r : Nat}

/-- The invariant is kept when every mapping of the address space `r` was one of `origin r`, and none of them became writable or,
if it is writable, shared. -/
theorem of_maps {live' : List Nat} (h : Spaces p0 live m) (hground : Ground p0 m') (htables : Tables 256 m'.mem live')
    (howned : ∀ f, IsTable live' m'.mem f → p0.Free f ∧ m'.pmm.isUsed f = true)
    (hsmall : ∀ r ∈ live', ∀ p i, TablePath 256 (p ++ [i]) → hasFlag (entryAt m'.mem r p i) ptePresent = true →
      hasFlag (entryAt m'.mem r p i) ptePs = false)
    (hleaf : ∀ r ∈ live', ∀ p i, LeafPath p → LeafOk (entryAt m'.mem r p i))
    (hmapped : ∀ f, IsMapped live m.mem f → IsMapped live' m'.mem f → m'.pmm.isUsed f = true ∧ ¬ IsTable live' m'.mem f)
    (origin : Nat → Nat)
    (horigin : ∀ r ∈ live', ∀ p i f, Maps m'.mem r p i f → origin r ∈ live ∧ Maps m.mem (origin r) p i f)
    (hwritable : ∀ r ∈ live', ∀ p i f, Maps m'.mem r p i f → hasFlag (entryAt m'.mem r p i) pteWritable = true →
      hasFlag (entryAt m.mem (origin r) p i) pteWritable = true ∧
      ∀ r' ∈ live', (∃ p' i', Maps m'.mem r' p' i' f) → origin r' = origin r → r' = r) :
    Spaces p0 live' m' where
  toGround := hground
  tables := htables
  owned := howned
  small := hsmall
  leaf := hleaf
  mapped := by
    rintro f ⟨r, hr, p, i, hm⟩
    obtain ⟨hr0, hm0⟩ := horigin r hr p i f hm
    have hold : IsMapped live m.mem f := ⟨origin r, hr0, p, i, hm0⟩
    exact ⟨(h.mapped f hold).1, hmapped f hold ⟨r, hr, p, i, hm⟩⟩
  inj := by
    intro r hr p i p' i' f hm hm'
    obtain ⟨hr0, hm0⟩ := horigin r hr p i f hm
    exact h.inj _ hr0 p i p' i' f hm0 (horigin r hr p' i' f hm').2
  unshared := by
    intro r hr r' hr' p i p' i' f hm hm' hw
    obtain ⟨hr0, hm0⟩ := horigin r hr p i f hm
    obtain ⟨hr0', hm0'⟩ := horigin r' hr' p' i' f hm'
    obtain ⟨hw0, honly⟩ := hwritable r hr p i f hm hw
    exact (honly r' hr' ⟨p', i', hm'⟩ (h.unshared _ hr0 _ hr0' p i p' i' f hm0 hm0' hw0).symm).symm

theorem free_of_free (h : Spaces p0 live m) (hf : m.pmm.Free f) : p0.Free f := by
  refine ⟨hf.1, h.total ▸ hf.2.1, ?_⟩
  rw [← Bool.not_eq_true]
  intro hu
  have := h.base f hu
  rw [hf.2.2] at this
  cases this

theorem not_free_of_used {p : Pmm} (hu : p.isUsed f = true) : ¬ p.Free f := by
  intro hf
  rw [hf.2.2] at hu
  cases hu

variable (h : Spaces p0 live m)
include h

theorem root_unique {r d : Nat} {p : List (Fin 512)} (hr : r ∈ live) (hp : TablePath 256 p) (hd : d ∈ live)
    (hf : tableAt m.mem r p = some d) : r = d ∧ p = [] :=
  h.tables.distinct _ _ _ _ _ ⟨hr, hp⟩ ⟨hd, .nil 256⟩ hf (tableAt_nil d)

theorem kept : Kept 256 live m := by
  intro r hr p f hp hf
  exact not_free_of_used (h.owned f ⟨r, hr, p, hp, hf⟩).2

theorem not_table_of_free (hf : m.pmm.Free f) : ¬ IsTable live m.mem f :=
  fun ht => not_free_of_used (h.owned f ht).2 hf

theorem not_mapped_of_free (hf : m.pmm.Free f) : ¬ IsMapped live m.mem f :=
  fun ht => not_free_of_used (h.mapped f ht).2.1 hf

theorem kernel_not_free : ¬ m.pmm.Free m.kernelPml4 := fun hf => h.kernelFrame (h.free_of_free hf)

theorem kernel_not_table : ¬ IsTable live m.mem m.kernelPml4 :=
  fun ht => h.kernelFrame (h.owned _ ht).1

end Spaces

/-- A growth of one tree is steady. -/
theorem Grown.steady {p0 : Pmm} {live : List Nat} {m m' : Vmm} {r : Nat} (h : Spaces p0 live m) (hr : r ∈ live)
    (hg : Grown 256 live r m m') : Steady m m' where
  init := hg.init
  pmmInit := hg.pmmInit
  total := hg.total
  drift := hg.drift
  kernel := hg.kernel
  kernelMem := hg.frames _ h.kernel_not_free (fun p hp ht => h.kernel_not_table ⟨r, hr, p, hp, ht⟩)

variable {X : Nat → Prop} {r' : Nat}

namespace Grown

variable {p0 : Pmm} {live : List Nat} {m m' : Vmm} {r : Nat}

section

variable (hg : Grown 256 live r m m')
include hg

theorem leaf_eq (hr' : r' ∈ live) {p : List (Fin 512)} (hp : LeafPath p) (i : Fin 512) :
    entryAt m'.mem r' p i = entryAt m.mem r' p i := by
  by_cases hrr : r' = r
  · rw [hrr]
    exact hg.leaf p i hp.1 hp.2
  · exact (hg.other r' hr' hrr p hp.1).2 i

theorem maps_iff (hr' : r' ∈ live) (p : List (Fin 512)) (i : Fin 512) (f : Nat) :
    Maps m'.mem r' p i f ↔ Maps m.mem r' p i f := by
  refine and_congr_right fun hp => ?_
  rw [hg.leaf_eq hr' hp]

theorem isMapped_iff (f : Nat) : IsMapped live m'.mem f ↔ IsMapped live m.mem f := by
  constructor
  · rintro ⟨r', hr', p, i, hm⟩
    exact ⟨r', hr', p, i, (hg.maps_iff hr' p i f).mp hm⟩
  · rintro ⟨r', hr', p, i, hm⟩
    exact ⟨r', hr', p, i, (hg.maps_iff hr' p i f).mpr hm⟩

theorem isTable_mono (hf : IsTable live m.mem f) : IsTable live m'.mem f := by
  obtain ⟨r', hr', p, hp, ht⟩ := hf
  by_cases hrr : r' = r
  · subst hrr
    exact ⟨r', hr', p, hp, hg.tables p f hp ht⟩
  · exact ⟨r', hr', p, hp, (hg.other r' hr' hrr p hp).1.trans ht⟩

/-- A table after growth is an old one or was a free frame, which is in use now. -/
theorem isTable_cases (hf : IsTable live m'.mem f) :
    IsTable live m.mem f ∨ m.pmm.Free f ∧ m'.pmm.isUsed f = true := by
  obtain ⟨r', hr', p, hp, ht⟩ := hf
  by_cases hrr : r' = r
  · subst hrr
    rcases hg.fresh p f hp ht with hold | hfree
    · exact .inl ⟨r', hr', p, hp, hold⟩
    · exact .inr ⟨hfree, (hg.used f).mpr (.inr ⟨hfree, p, hp, ht⟩)⟩
  · rw [(hg.other r' hr' hrr p hp).1] at ht
    exact .inl ⟨r', hr', p, hp, ht⟩

theorem used_mono (hf : m.pmm.isUsed f = true) : m'.pmm.isUsed f = true :=
  (hg.used f).mpr (.inl hf)

end

/-- Growth keeps the invariant. -/
theorem spaces (h : Spaces p0 live m) (hr : r ∈ live) (hg : Grown 256 live r m m') : Spaces p0 live m' := by
  refine h.of_maps (h.toGround.steady (hg.steady h hr) fun f hf => hg.used_mono (h.base f hf)) hg.distinct ?_ ?_ ?_ ?_ id ?_ ?_
  · intro f hf
    rcases hg.isTable_cases hf with hold | ⟨hfree, hu⟩
    · exact ⟨(h.owned f hold).1, hg.used_mono (h.owned f hold).2⟩
    · exact ⟨h.free_of_free hfree, hu⟩
  · intro r' hr' p i hp hpres
    by_cases hrr : r' = r
    · subst hrr
      rcases hg.upper p i hp with heq | ⟨-, -, hps⟩
      · rw [heq] at hpres ⊢
        exact h.small r' hr' p i hp hpres
      · exact hps
    · rw [(hg.other r' hr' hrr p hp.of_append).2 i] at hpres ⊢
      exact h.small r' hr' p i hp hpres
  · intro r' hr' p i hp
    rw [hg.leaf_eq hr' hp]
    exact h.leaf r' hr' p i hp
  · intro f hf _
    obtain ⟨-, hu, hnt⟩ := h.mapped f hf
    refine ⟨hg.used_mono hu, fun ht => ?_⟩
    rcases hg.isTable_cases ht with hold | ⟨hfree', -⟩
    · exact hnt hold
    · exact Spaces.not_free_of_used hu hfree'
  · exact fun r' hr' p i f hm => ⟨hr', (hg.maps_iff hr' p i f).mp hm⟩
  · intro r' hr' p i f hm hw
    rw [hg.leaf_eq hr' hm.1] at hw
    exact ⟨hw, fun _ _ _ h => h⟩

theorem accounted (ha : Accounted p0 live X m) (hr : r ∈ live) (hg : Grown 256 live r m m') :
    Accounted p0 live X m' := by
  refine ⟨fun r' hr' p i hp => by rw [hg.leaf_eq hr' hp]; exact ha.noCow r' hr' p i hp, fun f hf => ?_⟩
  rcases (hg.used f).mp hf with hu | ⟨-, p, hp, ht⟩
  · rcases ha.frames f hu with hbase | htab | hmap | hx
    · exact .inl hbase
    · exact .inr (.inl (hg.isTable_mono htab))
    · exact .inr (.inr (.inl ((hg.isMapped_iff f).mpr hmap)))
    · exact .inr (.inr (.inr hx))
  · exact .inr (.inl ⟨r, hr, p, hp, ht⟩)

end Grown

/-! ## A store to one leaf -/

/-- From `m` to `m'` the leaf `i` of the PT `n` at `p` in the tree of `r` is stored to; other memory may change outside tables. -/
structure LeafSet (live : List Nat) (r : Nat) (p : List (Fin 512)) (i : Fin 512) (n : Nat) (m m' : Vmm) : Prop where
  steady : Steady m m'
  root : r ∈ live
  path : LeafPath p
  table : tableAt m.mem r p = some n
  mem : ∀ f j, IsTable live m.mem f → ¬ (f = n ∧ j = i) → m'.mem f j = m.mem f j

namespace LeafSet

variable {p0 : Pmm} {live : List Nat} {m m' : Vmm} {r n : Nat} {p : List (Fin 512)} {i : Fin 512}

variable (h : Spaces p0 live m) (hl : LeafSet live r p i n m m')
include h hl

theorem view :
    (∀ r' ∈ live, ∀ q, TablePath 256 q → tableAt m'.mem r' q = tableAt m.mem r' q) ∧
    entryAt m'.mem r p i = m'.mem n i ∧
    ∀ r' ∈ live, ∀ q j, TablePath 256 q → ¬ (r' = r ∧ q = p ∧ j = i) → entryAt m'.mem r' q j = entryAt m.mem r' q j :=
  set_leaf _ _ h.tables hl.root hl.table (fun r' hr' q f j hq hf hne => hl.mem f j ⟨r', hr', q, hq, hf⟩ hne)
    hl.path.1 hl.path.2

theorem isTable_iff (f : Nat) :
    IsTable live m'.mem f ↔ IsTable live m.mem f := by
  have htab := (hl.view h).1
  constructor
  · rintro ⟨r', hr', q, hq, ht⟩
    exact ⟨r', hr', q, hq, (htab r' hr' q hq).symm.trans ht⟩
  · rintro ⟨r', hr', q, hq, ht⟩
    exact ⟨r', hr', q, hq, (htab r' hr' q hq).trans ht⟩

/-- A mapping after the store is the stored one or an old one at another leaf. -/
theorem maps_cases (hr' : r' ∈ live) {q : List (Fin 512)}
    {j : Fin 512} (hm : Maps m'.mem r' q j f) :
    (r' = r ∧ q = p ∧ j = i) ∧ hasFlag (m'.mem n i) ptePresent = true ∧ pteFrame (m'.mem n i) = f ∨
    ¬ (r' = r ∧ q = p ∧ j = i) ∧ Maps m.mem r' q j f := by
  obtain ⟨-, hself, hother⟩ := hl.view h
  by_cases hslot : r' = r ∧ q = p ∧ j = i
  · obtain ⟨rfl, rfl, rfl⟩ := hslot
    rw [← hself]
    exact .inl ⟨⟨rfl, rfl, rfl⟩, hm.2⟩
  · refine .inr ⟨hslot, hm.1, ?_⟩
    rw [← hother r' hr' q j hm.1.1 hslot]
    exact hm.2

/-- The invariant after a store to a leaf: what is stored maps nothing, or a frame that no other leaf maps. -/
theorem spaces
    (hused : ∀ f, m.pmm.isUsed f = true → (p0.isUsed f = true ∨ IsTable live m.mem f ∨
      ∃ r' ∈ live, ∃ q j, ¬ (r' = r ∧ q = p ∧ j = i) ∧ Maps m.mem r' q j f) → m'.pmm.isUsed f = true)
    (hleaf : LeafOk (m'.mem n i))
    (hnew : ∀ g, hasFlag (m'.mem n i) ptePresent = true → pteFrame (m'.mem n i) = g →
      p0.Free g ∧ m'.pmm.isUsed g = true ∧ ¬ IsTable live m.mem g ∧
      ∀ r' ∈ live, ∀ q j, Maps m.mem r' q j g → r' = r ∧ q = p ∧ j = i) :
    Spaces p0 live m' := by
  have hs := hl.steady
  have hview := hl.view h
  constructor
  case toGround => exact h.toGround.steady hs (fun f hf => hused f (h.base f hf) (.inl hf))
  case tables =>
    refine tables_of_sub h.tables fun r' hr' q f hq hf => ⟨hr', ?_⟩
    rw [← hview.1 r' hr' q hq]
    exact hf
  case owned =>
    intro f hf
    rw [hl.isTable_iff h] at hf
    exact ⟨(h.owned f hf).1, hused f (h.owned f hf).2 (.inr (.inl hf))⟩
  case small =>
    intro r' hr' q j hq
    rw [hview.2.2 r' hr' q j hq.of_append ?_]
    · exact h.small r' hr' q j hq
    · rintro ⟨-, rfl, -⟩
      have := hq.1
      rw [List.length_append, List.length_singleton, hl.path.2] at this
      omega
  case leaf =>
    intro r' hr' q j hq
    by_cases hslot : r' = r ∧ q = p ∧ j = i
    · obtain ⟨rfl, rfl, rfl⟩ := hslot
      rw [hview.2.1]
      exact hleaf
    · rw [hview.2.2 r' hr' q j hq.1 hslot]
      exact h.leaf r' hr' q j hq
  case mapped =>
    rintro f ⟨r', hr', q, j, hm⟩
    rw [hl.isTable_iff h]
    rcases hl.maps_cases h hr' hm with ⟨-, hpres, hf⟩ | ⟨hslot, hold⟩
    · obtain ⟨hfree, hu, hnt, -⟩ := hnew f hpres hf
      exact ⟨hfree, hu, hnt⟩
    · obtain ⟨hfree, hu, hnt⟩ := h.mapped f ⟨r', hr', q, j, hold⟩
      exact ⟨hfree, hused f hu (.inr (.inr ⟨r', hr', q, j, hslot, hold⟩)), hnt⟩
  case inj =>
    intro r' hr' q j q' j' f hm hm'
    rcases hl.maps_cases h hr' hm with ⟨⟨rfl, rfl, rfl⟩, hpres, hf⟩ | ⟨hslot, hold⟩
    · rcases hl.maps_cases h hr' hm' with ⟨⟨-, rfl, rfl⟩, -⟩ | ⟨hslot', hold'⟩
      · exact ⟨rfl, rfl⟩
      · exact absurd ((hnew f hpres hf).2.2.2 _ hr' q' j' hold') hslot'
    · rcases hl.maps_cases h hr' hm' with ⟨-, hpres, hf⟩ | ⟨-, hold'⟩
      · exact absurd ((hnew f hpres hf).2.2.2 r' hr' q j hold) hslot
      · exact h.inj r' hr' q j q' j' f hold hold'
  case unshared =>
    intro r1 hr1 r2 hr2 q j q' j' f hm hm' hw
    rcases hl.maps_cases h hr1 hm with ⟨⟨rfl, rfl, rfl⟩, hpres, hf⟩ | ⟨hslot, hold⟩
    · rcases hl.maps_cases h hr2 hm' with ⟨⟨rfl, -⟩, -⟩ | ⟨hslot', hold'⟩
      · rfl
      · exact absurd ((hnew f hpres hf).2.2.2 r2 hr2 q' j' hold') hslot'
    · rcases hl.maps_cases h hr2 hm' with ⟨-, hpres, hf⟩ | ⟨-, hold'⟩
      · exact absurd ((hnew f hpres hf).2.2.2 r1 hr1 q j hold) hslot
      · rw [hview.2.2 r1 hr1 q j hm.1.1 hslot] at hw
        exact h.unshared r1 hr1 r2 hr2 q j q' j' f hold hold' hw

theorem accounted {X' : Nat → Prop} (ha : Accounted p0 live X m)
    (hcow : hasFlag (m'.mem n i) pteCow = false)
    (hx : ∀ f, m'.pmm.isUsed f = true → m.pmm.isUsed f = true ∧
      (X f → X' f ∨ hasFlag (m'.mem n i) ptePresent = true ∧ pteFrame (m'.mem n i) = f) ∧
      (hasFlag (m.mem n i) ptePresent = true → pteFrame (m.mem n i) ≠ f)) :
    Accounted p0 live X' m' := by
  obtain ⟨-, hself, hother⟩ := hl.view h
  constructor
  · intro r' hr' q j hq
    by_cases hslot : r' = r ∧ q = p ∧ j = i
    · obtain ⟨rfl, rfl, rfl⟩ := hslot
      rw [hself]
      exact hcow
    · rw [hother r' hr' q j hq.1 hslot]
      exact ha.noCow r' hr' q j hq
  intro f hf
  obtain ⟨hu, hX, hold⟩ := hx f hf
  rw [hl.isTable_iff h]
  rcases ha.frames f hu with hbase | htab | ⟨r', hr', q, j, hm⟩ | hx
  · exact .inl hbase
  · exact .inr (.inl htab)
  · have hslot : ¬ (r' = r ∧ q = p ∧ j = i) := by
      rintro ⟨rfl, rfl, rfl⟩
      have hent := hm.2
      rw [entryAt_eq hl.table] at hent
      exact hold hent.1 hent.2
    refine .inr (.inr (.inl ⟨r', hr', q, j, hm.1, ?_⟩))
    rw [hother r' hr' q j hm.1.1 hslot]
    exact hm.2
  · rcases hX hx with hx' | hnew
    · exact .inr (.inr (.inr hx'))
    · refine .inr (.inr (.inl ⟨r, hl.root, p, i, hl.path, ?_⟩))
      rw [hself]
      exact hnew

end LeafSet

/-! ## Changes outside the tables -/

namespace Spaces

variable {p0 : Pmm} {live : List Nat} {m m' : Vmm}

variable (hmem : ∀ f, IsTable live m.mem f → m'.mem f = m.mem f)
include hmem

theorem same_view {r : Nat} (hr : r ∈ live) {p : List (Fin 512)} (hp : TablePath 256 p) :
    tableAt m'.mem r p = tableAt m.mem r p ∧ ∀ i, entryAt m'.mem r p i = entryAt m.mem r p i := by
  have htab : tableAt m'.mem r p = tableAt m.mem r p := by
    refine walk_congr fun q i f hpre hf => ?_
    obtain ⟨q', rfl⟩ := hpre
    rw [subTable, subTable, hmem f ⟨r, hr, q, hp.of_append.of_append, hf⟩]
  refine ⟨htab, fun i => ?_⟩
  cases hf : tableAt m.mem r p with
  | none => rw [entryAt_none hf, entryAt_none (htab.trans hf)]
  | some f => rw [entryAt_eq hf, entryAt_eq (htab.trans hf), hmem f ⟨r, hr, p, hp, hf⟩]

/-- The invariant depends on the tables, and on the marks of the frames that the address spaces own. -/
theorem of_same_tables (h : Spaces p0 live m) (hs : Steady m m')
    (hused : ∀ f, m.pmm.isUsed f = true → p0.isUsed f = true ∨ IsTable live m.mem f ∨ IsMapped live m.mem f →
      m'.pmm.isUsed f = true) :
    Spaces p0 live m' := by
  have hview := fun {r : Nat} (hr : r ∈ live) {p : List (Fin 512)} (hp : TablePath 256 p) => same_view hmem hr hp
  have htab : ∀ f, IsTable live m'.mem f → IsTable live m.mem f := by
    rintro f ⟨r, hr, p, hp, ht⟩
    exact ⟨r, hr, p, hp, (hview hr hp).1.symm.trans ht⟩
  have hmaps : ∀ r ∈ live, ∀ p i f, Maps m'.mem r p i f → Maps m.mem r p i f := by
    intro r hr p i f hm
    refine ⟨hm.1, ?_⟩
    rw [← (hview hr hm.1.1).2 i]
    exact hm.2
  refine h.of_maps (h.toGround.steady hs fun f hf => hused f (h.base f hf) (.inl hf)) ?_ ?_ ?_ ?_ ?_ id ?_ ?_
  · refine tables_of_sub h.tables fun r hr q f hq hf => ⟨hr, ?_⟩
    rw [← (hview hr hq).1]
    exact hf
  · intro f hf
    obtain ⟨hfree, hu⟩ := h.owned f (htab f hf)
    exact ⟨hfree, hused f hu (.inr (.inl (htab f hf)))⟩
  · intro r hr q j hq
    rw [(hview hr hq.of_append).2 j]
    exact h.small r hr q j hq
  · intro r hr q j hq
    rw [(hview hr hq.1).2 j]
    exact h.leaf r hr q j hq
  · intro f hold _
    obtain ⟨-, hu, hnt⟩ := h.mapped f hold
    exact ⟨hused f hu (.inr (.inr hold)), fun ht => hnt (htab f ht)⟩
  · exact fun r hr q j f hm => ⟨hr, hmaps r hr q j f hm⟩
  · intro r hr q j f hm hw
    rw [(hview hr hm.1.1).2 j] at hw
    exact ⟨hw, fun _ _ _ h => h⟩

theorem isTable_iff_of_same_tables (f : Nat) : IsTable live m'.mem f ↔ IsTable live m.mem f := by
  constructor
  · rintro ⟨r, hr, p, hp, ht⟩
    exact ⟨r, hr, p, hp, (same_view hmem hr hp).1.symm.trans ht⟩
  · rintro ⟨r, hr, p, hp, ht⟩
    exact ⟨r, hr, p, hp, (same_view hmem hr hp).1.trans ht⟩

theorem maps_iff_of_same_tables {r : Nat} (hr : r ∈ live) (p : List (Fin 512)) (i : Fin 512) (f : Nat) :
    Maps m'.mem r p i f ↔ Maps m.mem r p i f := by
  refine and_congr_right fun hp => ?_
  rw [(same_view hmem hr hp.1).2 i]

theorem accounted_of_same_tables {X' : Nat → Prop} (ha : Accounted p0 live X m)
    (hx : ∀ f, m'.pmm.isUsed f = true → X' f ∨ m.pmm.isUsed f = true ∧ (X f → X' f)) : Accounted p0 live X' m' := by
  refine ⟨fun r hr p i hp => by rw [(same_view hmem hr hp.1).2 i]; exact ha.noCow r hr p i hp, fun f hf => ?_⟩
  rw [isTable_iff_of_same_tables hmem]
  rcases hx f hf with hx | ⟨hu, hx⟩
  · exact .inr (.inr (.inr hx))
  · rcases ha.frames f hu with hbase | htab | ⟨r, hr, p, i, hm⟩ | hX
    · exact .inl hbase
    · exact .inr (.inl htab)
    · exact .inr (.inr (.inl ⟨r, hr, p, i, (maps_iff_of_same_tables hmem hr p i f).mpr hm⟩))
    · exact .inr (.inr (.inr (hx hX)))

end Spaces

/-! ## Frames in flight -/

/-- The state after frame `g` was allocated and its content set. -/
def Vmm.alloc (m : Vmm) (g : Nat) (page : Fin 512 → BitVec 64) : Vmm :=
  { m with pmm := m.pmm.take g, mem := Function.update m.mem g page }

namespace Spaces

variable {p0 : Pmm} {live : List Nat} {m : Vmm} {g : Nat}

theorem alloc_mem_of_ne (page : Fin 512 → BitVec 64) (hne : f ≠ g) : (m.alloc g page).mem f = m.mem f :=
  Function.update_of_ne hne _ _

theorem alloc_isUsed (page : Fin 512 → BitVec 64) (f : Nat) :
    (m.alloc g page).pmm.isUsed f = true ↔ f = g ∨ m.pmm.isUsed f = true := by
  rw [Vmm.alloc, Pmm.isUsed_take, Bool.or_eq_true, decide_eq_true_eq]

variable (h : Spaces p0 live m)
include h

section

variable (hg : m.pmm.Free g) (page : Fin 512 → BitVec 64)
include hg

theorem alloc_tables (f : Nat)
    (hf : IsTable live m.mem f) : (m.alloc g page).mem f = m.mem f :=
  alloc_mem_of_ne page (fun hfg => h.not_table_of_free hg (hfg ▸ hf))

theorem alloc_steady : Steady m (m.alloc g page) where
  init := rfl
  pmmInit := rfl
  total := rfl
  drift := Pmm.drift_take hg.2.1 hg.2.2
  kernel := rfl
  kernelMem := alloc_mem_of_ne page (fun hk => h.kernel_not_free (hk ▸ hg))

theorem alloc : Spaces p0 live (m.alloc g page) :=
  h.of_same_tables (h.alloc_tables hg page) (h.alloc_steady hg page) (fun f hf _ => (alloc_isUsed page f).mpr (.inr hf))

end

theorem alloc_accounted (ha : Accounted p0 live X m) (hg : m.pmm.Free g)
    (page : Fin 512 → BitVec 64) : Accounted p0 live (fun f => f = g ∨ X f) (m.alloc g page) := by
  refine accounted_of_same_tables (h.alloc_tables hg page) ha fun f hf => ?_
  rcases (alloc_isUsed page f).mp hf with hfg | hu
  · exact .inl (.inl hfg)
  · exact .inr ⟨hu, .inr⟩

/-- A frame that is neither a table nor mapped can be freed. -/
theorem drop (hfree : p0.Free g) (hnt : ¬ IsTable live m.mem g) (hnm : ¬ IsMapped live m.mem g) :
    Spaces p0 live { m with pmm := m.pmm.drop g } := by
  refine h.of_same_tables (m := m) (fun _ _ => rfl)
    ⟨rfl, Pmm.drop_initialized _ _, Pmm.drop_totalFrames _ _, Pmm.drift_drop _ _, rfl, rfl⟩ fun f hf hcases => ?_
  have hne : f ≠ g := by
    rintro rfl
    rcases hcases with hbase | htab | hmap
    · rw [hfree.2.2] at hbase
      cases hbase
    · exact hnt htab
    · exact hnm hmap
  exact (Pmm.isUsed_drop_of_ne _ hne).trans hf

theorem drop_accounted (hfree : p0.Free g)
    (ha : Accounted p0 live (fun f => f = g ∨ X f) m) : Accounted p0 live X { m with pmm := m.pmm.drop g } := by
  refine accounted_of_same_tables (m := m) ?_ ha fun f hf => ?_
  · exact fun _ _ => rfl
  have hlt : g < m.pmm.totalFrames := h.total ▸ hfree.2.1
  have hdrop := Pmm.isUsed_drop h.pmmInit hfree.1 hlt f
  rw [show m.pmm.drop g = ({ m with pmm := m.pmm.drop g } : Vmm).pmm from rfl, hf, eq_comm, Bool.and_eq_true, Bool.not_eq_true',
    decide_eq_false_iff_not] at hdrop
  exact .inr ⟨hdrop.2, fun hx => hx.resolve_left hdrop.1⟩

end Spaces

end TsOs
