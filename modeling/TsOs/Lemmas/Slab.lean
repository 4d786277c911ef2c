import TsOs.Lemmas.SlabPage
import TsOs.Theorems.Kheap

/-!
# The state of the slab allocator

`SlabCore` ties the memory, the lists of pages and the heap to the objects the clients hold. Four steps keep it: a page is taken
from the heap, a slot is taken from a page, a slot is freed, and a page without objects goes back to the heap.
-/

namespace TsOs

open Bytes LinkedList Buddy SlabAux List

/-- An object that `slab_alloc` has returned: its address and the size that was asked for. -/
structure SlabObj where
  addr : Nat
  size : Nat
  deriving DecidableEq, Repr

/-- The class of an object; `none` for one that comes from `kmalloc`. -/
def SlabObj.slabClass (o : SlabObj) : Option (Fin 7) := sizeToClass o.size

/-- The bytes an object has: those of its slot or of its block of the heap. -/
def SlabObj.extent (o : SlabObj) : Nat :=
  match o.slabClass with
  | some i => slabSizes i
  | none => pageSize * 2 ^ needLevel (BitVec.ofNat 64 o.size)

/-- The bytes of an object that the allocator counts. -/
def SlabObj.slabBytes (o : SlabObj) : Nat :=
  match o.slabClass with
  | some i => slabSizes i
  | none => 0

/-- The block of the heap that a slab page is. -/
def pageBlock (p : Nat) : Buddy.Block := ⟨vaddrToPage p, 0⟩

/-- The block of the heap that a large object is. -/
def SlabObj.block (o : SlabObj) : Buddy.Block := ⟨vaddrToPage o.addr, needLevel (BitVec.ofNat 64 o.size)⟩

/-- The blocks of the heap in use: slab pages, large objects and those of other clients of the heap. -/
def Held (pages : Fin 7 → List Nat) (live : List SlabObj) (others : List Buddy.Block) (b : Buddy.Block) : Prop :=
  (∃ i, ∃ p ∈ pages i, b = pageBlock p) ∨ (∃ o ∈ live, o.slabClass = none ∧ b = o.block) ∨ b ∈ others

/-- The lists hold `pages`, page `p` has the free list `free p`, and the slots that are not free are the objects of `live` that
have a class. -/
structure SlabCore (s : Slab) (live : List SlabObj) (pages : Fin 7 → List Nat) (free : Nat → List Nat)
    (others : List Buddy.Block) : Prop where
  initialized : s.initialized = true
  heap : ∃ fl blocks, KheapInv s.heap fl blocks ∧ ∀ b, b ∈ blocks ↔ Held pages live others b
  apart : ∀ b ∈ others, (∀ i, ∀ p ∈ pages i, b ≠ pageBlock p) ∧ ∀ o ∈ live, o.slabClass = none → b ≠ o.block
  lists : Family (slabNext s.mem) (fun i => toPtr (s.lists i)) pages
  heapPage : ∀ i, ∀ p ∈ pages i, HeapPage p
  page : ∀ i, ∀ p ∈ pages i, PageOk s.mem i p (free p)
  small : ∀ o ∈ live, ∀ i, o.slabClass = some i → ∃ p ∈ pages i, ∃ j < slotsOf i, j ∉ free p ∧ o.addr = slotAt p i j
  slot : ∀ i, ∀ p ∈ pages i, ∀ j < slotsOf i, j ∉ free p → ∃ o ∈ live, o.slabClass = some i ∧ o.addr = slotAt p i j
  large : ∀ o ∈ live, o.slabClass = none → HeapPage o.addr ∧ ∀ i, o.addr ∉ pages i
  sizes : ∀ o ∈ live, o.size ≤ 2 ^ 23
  nodup : (live.map SlabObj.addr).Nodup
  bytes : s.allocatedBytes = (live.map SlabObj.slabBytes).sum

variable {i : Fin 7} {o : SlabObj} {p : Nat}

namespace SlabAux

/-! ## Pages and blocks of the heap -/

theorem heapPage_eq (h : HeapPage p) : p = heapBase + vaddrToPage p * 4096 ∧ vaddrToPage p < heapPageCount := by
  obtain ⟨h1, h2, h3⟩ := h
  have hend : heapEnd = heapBase + 4096 * 4096 := rfl
  have halign : heapBase % 4096 = 0 := by decide
  simp only [pageSize] at h2 h3
  rw [vaddrToPage, heapPageCount]
  omega

theorem heapPage_pageToVaddr {n : Nat} (h : n < heapPageCount) : HeapPage (pageToVaddr n).toNat := by
  have hend : heapEnd = heapBase + 4096 * 4096 := rfl
  have halign : heapBase % 4096 = 0 := by decide
  simp only [HeapPage, pageToVaddr_toNat h, pageSize]
  simp only [heapPageCount] at h
  omega

theorem heapPage_ne_zero (h : HeapPage p) : p ≠ 0 := by
  have hpos : 0 < heapBase := by decide
  have := h.1
  omega

theorem ofNat_heapPage (h : HeapPage p) : BitVec.ofNat 64 p = pageToVaddr (vaddrToPage p) := by
  obtain ⟨he, hlt⟩ := heapPage_eq h
  apply BitVec.eq_of_toNat_eq
  rw [pageToVaddr_toNat hlt, ← he]
  exact Nat.mod_eq_of_lt (by have := heapPage_lt h; omega)

section

variable {q : Nat} (hp : HeapPage p) (hq : HeapPage q)
include hp hq

/-- Pages with an address in common are the same. -/
theorem heapPage_unique {a : Nat} (h1 : p ≤ a) (h2 : a < p + 4096) (h3 : q ≤ a)
    (h4 : a < q + 4096) : p = q := by
  have := hp.2.2
  have := hq.2.2
  simp only [pageSize] at *
  omega

theorem heapPage_apart (hne : p ≠ q) : p + 4096 ≤ q ∨ q + 4096 ≤ p := by
  by_contra hover
  exact hne (heapPage_unique (a := max p q) hp hq (by omega) (by omega) (by omega) (by omega))

theorem heapPage_inj (h : vaddrToPage p = vaddrToPage q) : p = q := by
  rw [(heapPage_eq hp).1, (heapPage_eq hq).1, h]

theorem pageBlock_inj (h : pageBlock p = pageBlock q) : p = q :=
  heapPage_inj hp hq (congrArg Buddy.Block.start h)

end

theorem blocks_disjoint {h : Kheap} {fl : Nat → List Nat} {blocks : List Buddy.Block} (hi : KheapInv h fl blocks) {b c : Buddy.Block}
    (hb : b ∈ blocks) (hc : c ∈ blocks) (hne : b ≠ c) : b.start + b.size ≤ c.start ∨ c.start + c.size ≤ b.start := by
  by_contra hover
  refine hne (hi.blocks.tiles.unique (x := max b.start c.start) (by simp [hb]) (by simp [hc]) ?_ ?_) <;> rw [mem_pages] <;>
    have := b.size_pos <;> have := c.size_pos <;> omega

/-! ## Classes -/

theorem le_slabSizes {size : Nat} (h : sizeToClass size = some i) : size ≤ slabSizes i := by
  have := find?_some h
  simpa using this

theorem sizeToClass_eq_none {size : Nat} : sizeToClass size = none ↔ 1024 < size := by
  rw [sizeToClass, find?_eq_none]
  constructor
  · intro h
    have := h 6 (mem_finRange _)
    rw [decide_eq_true_eq] at this
    exact Nat.lt_of_not_le this
  · intro h i _
    have := (slabSizes_bounds i).2
    rw [decide_eq_true_eq]
    omega

theorem extent_small (h : o.slabClass = some i) : o.extent = slabSizes i := by
  rw [SlabObj.extent, h]

theorem extent_large (h : o.slabClass = none) : o.extent = 4096 * o.block.size := by
  rw [SlabObj.extent, h]
  rfl

theorem slabBytes_le (o : SlabObj) : o.slabBytes ≤ 1024 := by
  rw [SlabObj.slabBytes]
  split
  · exact (slabSizes_bounds _).2
  · exact Nat.zero_le _

theorem sum_slabBytes_le (live : List SlabObj) : (live.map SlabObj.slabBytes).sum ≤ live.length * 1024 := by
  induction live with
  | nil => exact Nat.zero_le _
  | cons o live ih =>
    have := slabBytes_le o
    rw [map_cons, sum_cons, length_cons]
    omega

/-! ## Blocks held -/

theorem held_cons_small {pages : Fin 7 → List Nat} {live : List SlabObj} {others : List Buddy.Block}
    (ho : o.slabClass = some i) (b : Buddy.Block) : Held pages (o :: live) others b ↔ Held pages live others b := by
  simp [Held, ho]

theorem held_cons_large {pages : Fin 7 → List Nat} {live : List SlabObj} {others : List Buddy.Block}
    (ho : o.slabClass = none) (b : Buddy.Block) : Held pages (o :: live) others b ↔ b = o.block ∨ Held pages live others b := by
  simp only [Held, mem_cons, exists_eq_or_imp, ho, true_and]
  rw [or_assoc, or_left_comm]

end SlabAux

/-! ## Facts about a state -/

section Core

variable {s : Slab} {live : List SlabObj} {pages : Fin 7 → List Nat} {free : Nat → List Nat} {others : List Buddy.Block}

section

variable (h : SlabCore s live pages free others)
include h

theorem SlabCore.live_nodup : live.Nodup := List.Nodup.of_map _ h.nodup

theorem SlabCore.addr_inj {o' : SlabObj} (ho : o ∈ live) (ho' : o' ∈ live)
    (he : o.addr = o'.addr) : o = o' := List.inj_on_of_nodup_map h.nodup ho ho' he

theorem SlabCore.slot_unique {i' : Fin 7} {p' j j' : Nat} (hp : p ∈ pages i)
    (hp' : p' ∈ pages i') (hj : j < slotsOf i) (hj' : j' < slotsOf i') (he : slotAt p i j = slotAt p' i' j') :
    p = p' ∧ i = i' ∧ j = j' := by
  have hle := slot_le hj
  have hle' := slot_le hj'
  have hs := slabSizes_bounds i
  have hs' := slabSizes_bounds i'
  rw [slotAt_eq, slotAt_eq] at he
  obtain rfl : p = p' := heapPage_unique (a := p + 48 + j * slabSizes i) (h.heapPage i p hp) (h.heapPage i' p' hp')
    (by omega) (by omega) (by omega) (by omega)
  obtain rfl := h.lists.disjoint i i' p hp hp'
  refine ⟨rfl, rfl, ?_⟩
  by_contra hne
  have := slot_disjoint (i := i) hne
  omega

theorem SlabCore.large_ne_slot (ho : o ∈ live) (hc : o.slabClass = none)
    {j : Nat} (hp : p ∈ pages i) (hj : j < slotsOf i) : o.addr ≠ slotAt p i j := by
  intro he
  have hat := slotAt_bounds p hj
  have h1 := (h.large o ho hc).1.2.2
  have h2 := (h.heapPage i p hp).2.2
  simp only [pageSize] at h1 h2
  omega

theorem SlabCore.addr_ne_free {j : Nat} (hp : p ∈ pages i)
    (hj : j ∈ free p) (ho : o ∈ live) : o.addr ≠ slotAt p i j := by
  intro he
  have hlt := (h.page i p hp).lt hj
  cases hc : o.slabClass with
  | none => exact h.large_ne_slot ho hc hp hlt he
  | some i' =>
    obtain ⟨p', hp', j', hj', hfree, he'⟩ := h.small o ho i' hc
    obtain ⟨rfl, rfl, rfl⟩ := h.slot_unique hp hp' hlt hj' (he.symm.trans he')
    exact hfree hj

/-- An object lies in a block of the heap: in its page past the header, or in the block that it is. -/
theorem SlabCore.home (ho : o ∈ live) :
    ∃ b, Held pages live others b ∧ heapBase + b.start * 4096 ≤ o.addr ∧
      o.addr + o.extent ≤ heapBase + (b.start + b.size) * 4096 ∧ 0 < o.extent ∧
      ((∃ i, ∃ p ∈ pages i, o.slabClass = some i ∧ b = pageBlock p ∧ ∃ j < slotsOf i, o.addr = slotAt p i j) ∨
        (o.slabClass = none ∧ b = o.block ∧ o.addr = heapBase + b.start * 4096)) := by
  cases hc : o.slabClass with
  | none =>
    have he : o.addr = heapBase + o.block.start * 4096 := (heapPage_eq (h.large o ho hc).1).1
    have hext := extent_large hc
    have hpos := o.block.size_pos
    refine ⟨o.block, .inr (.inl ⟨o, ho, hc, rfl⟩), he.ge, ?_, ?_, .inr ⟨rfl, rfl, he⟩⟩
    · omega
    · omega
  | some i =>
    obtain ⟨p, hp, j, hj, hfree, hat⟩ := h.small o ho i hc
    have he := (heapPage_eq (h.heapPage i p hp)).1
    have hstart : (pageBlock p).start = vaddrToPage p := rfl
    have hsize : (pageBlock p).size = 1 := rfl
    have hext := extent_small hc
    have hbounds := slotAt_bounds p hj
    refine ⟨pageBlock p, .inl ⟨i, p, hp, rfl⟩, ?_, ?_, ?_, .inl ⟨i, p, hp, rfl, rfl, j, hj, hat⟩⟩ <;> omega

theorem SlabCore.addr_bounds (ho : o ∈ live) :
    heapBase ≤ o.addr ∧ o.addr < heapBase + 2 ^ 24 := by
  obtain ⟨b, hb, h1, h2, h3, -⟩ := h.home ho
  obtain ⟨fl, blocks, hi, hheld⟩ := h.heap
  have hle := hi.blocks.tiles.le (b := b) (by simp [(hheld b).2 hb])
  simp only [heapPageCount] at hle
  omega

theorem SlabCore.bytes_le : s.allocatedBytes ≤ 2 ^ 34 := by
  have hsub : live.map SlabObj.addr ⊆ range' heapBase (2 ^ 24) := by
    intro a ha
    obtain ⟨o, ho, rfl⟩ := mem_map.1 ha
    exact mem_range'_1.2 (h.addr_bounds ho)
  have hlen := h.nodup.length_le_of_subset hsub
  rw [length_range', length_map] at hlen
  have hsum := sum_slabBytes_le live
  rw [h.bytes]
  omega

/-- The lists are shorter than the walks over them may be. -/
theorem SlabCore.length_lt (i : Fin 7) : (pages i).length < slabFuel := by
  obtain ⟨fl, blocks, hi, hheld⟩ := h.heap
  have hnd : ((pages i).map pageBlock).Nodup :=
    (h.lists.linked i).nodup.map_on (fun p hp q hq => pageBlock_inj (h.heapPage i p hp) (h.heapPage i q hq))
  have hsub : (pages i).map pageBlock ⊆ blocks := by
    intro b hb
    obtain ⟨p, hp, rfl⟩ := mem_map.1 hb
    exact (hheld _).2 (.inl ⟨i, p, hp, rfl⟩)
  have hlen := hnd.length_le_of_subset hsub
  have hall := hi.blocks.tiles.length_le
  simp only [length_map, nil_append, length_append, heapPageCount, slabFuel] at *
  omega

theorem SlabCore.head_lt (i : Fin 7) : s.lists i < 2 ^ 64 := by
  have hhead := (h.lists.linked i).head_eq
  simp only [toPtr] at hhead
  split at hhead
  · omega
  · have hmem : s.lists i ∈ pages i := mem_of_head? hhead.symm
    have := heapPage_lt (h.heapPage i _ hmem)
    omega

end

/-! ## Writes of the clients -/

/-- The bytes of the allocator: the headers of the pages and the links in the free slots. -/
def Owned (pages : Fin 7 → List Nat) (free : Nat → List Nat) (a : Nat) : Prop :=
  ∃ i, ∃ p ∈ pages i, (p ≤ a ∧ a < p + 48) ∨ ∃ j ∈ free p, slotAt p i j ≤ a ∧ a < slotAt p i j + 8

/-- Bytes that the allocator does not own may change. -/
theorem SlabCore.frame (h : SlabCore s live pages free others) {mem' : Memory}
    (hsame : ∀ a, Owned pages free a → mem' a = s.mem a) : SlabCore { s with mem := mem' } live pages free others := by
  refine { h with lists := h.lists.congr (fun i p hp => ?_), page := fun i p hp => ?_ }
  · exact congrArg toPtr (le_agree (fun a _ _ => hsame a ⟨i, p, hp, .inl (by omega)⟩))
  · refine (h.page i p hp).congr (h.heapPage i p hp) (fun a _ _ => hsame a ⟨i, p, hp, .inl (by omega)⟩) (fun j hj a h1 h2 => ?_)
    exact hsame a ⟨i, p, hp, .inr ⟨j, hj, h1, h2⟩⟩

/-- The bytes of an object are not the allocator's. -/
theorem SlabCore.not_owned (h : SlabCore s live pages free others) (ho : o ∈ live) {a : Nat} (h1 : o.addr ≤ a)
    (h2 : a < o.addr + o.extent) : ¬ Owned pages free a := by
  rintro ⟨i, p, hp, hown⟩
  have hpage : p ≤ a ∧ a < p + 4096 := by
    rcases hown with hown | ⟨j, hj, hown⟩
    · omega
    · have hbounds := slotAt_bounds p ((h.page i p hp).lt hj)
      omega
  cases hc : o.slabClass with
  | some i' =>
    obtain ⟨p', hp', j', hj', hfree, hat⟩ := h.small o ho i' hc
    have hbounds := slotAt_bounds p' hj'
    rw [extent_small hc] at h2
    obtain rfl : p = p' := heapPage_unique (h.heapPage i p hp) (h.heapPage i' p' hp') hpage.1 hpage.2 (by omega) (by omega)
    obtain rfl := h.lists.disjoint i i' p hp hp'
    rcases hown with hown | ⟨j, hj, hown⟩
    · omega
    · have hne : j ≠ j' := by
        rintro rfl
        exact hfree hj
      have := slot_disjoint (i := i) hne
      rw [slotAt_eq] at hown hat
      omega
  | none =>
    obtain ⟨fl, blocks, hi, hheld⟩ := h.heap
    obtain ⟨hpo, hout⟩ := h.large o ho hc
    have hb : pageBlock p ∈ blocks := (hheld _).2 (.inl ⟨i, p, hp, rfl⟩)
    have hb' : o.block ∈ blocks := (hheld _).2 (.inr (.inl ⟨o, ho, hc, rfl⟩))
    have hpe := (heapPage_eq (h.heapPage i p hp)).1
    have hoe := (heapPage_eq hpo).1
    have hext := extent_large hc
    have hne : pageBlock p ≠ o.block := by
      intro he
      have heq := heapPage_inj (h.heapPage i p hp) hpo (congrArg Buddy.Block.start he)
      exact hout i (heq ▸ hp)
    have hd := blocks_disjoint hi hb hb' hne
    have e1 : (pageBlock p).start = vaddrToPage p := rfl
    have e2 : (pageBlock p).size = 1 := rfl
    have e3 : o.block.start = vaddrToPage o.addr := rfl
    omega

theorem SlabCore.disjoint (h : SlabCore s live pages free others) {o' : SlabObj} (ho : o ∈ live) (ho' : o' ∈ live)
    (hne : o.addr ≠ o'.addr) : o.addr + o.extent ≤ o'.addr ∨ o'.addr + o'.extent ≤ o.addr := by
  obtain ⟨b, hb, h1, h2, hpos, hcase⟩ := h.home ho
  obtain ⟨b', hb', h1', h2', hpos', hcase'⟩ := h.home ho'
  obtain ⟨fl, blocks, hi, hheld⟩ := h.heap
  by_cases e : b = b'
  · subst e
    rcases hcase with ⟨i, p, hp, hc, he, hslot⟩ | ⟨hc, he, ha⟩
    · rcases hcase' with ⟨i', p', hp', hc', he', hslot'⟩ | ⟨hc', he', ha'⟩
      · -- both in one page: two of its slots
        obtain rfl := pageBlock_inj (h.heapPage i p hp) (h.heapPage i' p' hp') (he.symm.trans he')
        obtain rfl := h.lists.disjoint i i' p hp hp'
        obtain ⟨j, hj, hat⟩ := hslot
        obtain ⟨j', hj', hat'⟩ := hslot'
        have hjj : j ≠ j' := by
          rintro rfl
          exact hne (hat.trans hat'.symm)
        have := slot_disjoint (i := i) hjj
        rw [slotAt_eq] at hat hat'
        rw [extent_small hc, extent_small hc']
        omega
      · exfalso
        refine (h.large o' ho' hc').2 i ?_
        have hs : vaddrToPage p = b.start := (congrArg Buddy.Block.start he).symm
        rwa [ha', ← hs, ← (heapPage_eq (h.heapPage i p hp)).1]
    · rcases hcase' with ⟨i', p', hp', hc', he', hslot'⟩ | ⟨hc', he', ha'⟩
      · exfalso
        refine (h.large o ho hc).2 i' ?_
        have hs : vaddrToPage p' = b.start := (congrArg Buddy.Block.start he').symm
        rwa [ha, ← hs, ← (heapPage_eq (h.heapPage i' p' hp')).1]
      · exact absurd (ha.trans ha'.symm) hne
  · have hd := blocks_disjoint hi ((hheld b).2 hb) ((hheld b').2 hb') e
    omega

end Core

end TsOs
