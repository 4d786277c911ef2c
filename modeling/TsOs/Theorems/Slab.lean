import TsOs.Lemmas.SlabStep

/-!
# The slab allocator over whole runs

The invariant of the allocator after `slab_init` and any sequence of allocations, frees and writes of the clients to their
objects.
-/

namespace TsOs

open Bytes LinkedList Buddy SlabAux Function List Option Bool Nat

/-- The invariant of the allocator between calls: no page on a list is without objects. -/
def SlabInv (s : Slab) (live : List SlabObj) (others : List Buddy.Block) : Prop :=
  ∃ pages free, SlabCore s live pages free others ∧ ∀ i, ∀ p ∈ pages i, (free p).length < slotsOf i

/-- The objects after `slab_alloc(size)` has returned `ptr`. -/
def liveAfterAlloc (live : List SlabObj) (size : BitVec 64) (ptr : Nat) : List SlabObj :=
  if ptr = 0 then live else ⟨ptr, size.toNat⟩ :: live

variable {i : Fin 7} {p : Nat}

namespace SlabAux

variable {s : Slab} {live : List SlabObj} {pages : Fin 7 → List Nat} {free : Nat → List Nat} {others : List Buddy.Block}

/-! ## `slab_alloc` -/

/-- The head of the free list of a page says whether it has a free slot. -/
theorem freeHead_lt_iff {mem : Memory} {fl : List Nat} (h : PageOk mem i p fl) :
    freeHead mem p < slotCount mem p ↔ fl ≠ [] := by
  have hhead := h.free.head_eq
  rw [toSlot] at hhead
  split at hhead
  · rename_i hlt
    refine ⟨fun _ he => ?_, fun _ => hlt⟩
    rw [he] at hhead
    cases hhead
  · rename_i hge
    refine ⟨fun hlt => absurd hlt hge, fun hne => ?_⟩
    rw [eq_comm, head?_eq_none_iff] at hhead
    exact absurd hhead hne

/-- A slot of page `p` is taken; the other pages on the lists have objects. -/
theorem alloc_take (h : SlabCore s live pages free others) (hp : p ∈ pages i) (hne : free p ≠ [])
    (hused : ∀ i', ∀ q ∈ pages i', q ≠ p → (free q).length < slotsOf i') {size : BitVec 64}
    (hc : sizeToClass size.toNat = some i) (hsize : size.toNat ≤ 2 ^ 23) :
    ∃ s' ptr, takeSlot s p = (s', ptr) ∧ SlabInv s' (liveAfterAlloc live size ptr) others := by
  obtain ⟨j, fl, hfl⟩ := exists_cons_of_ne_nil hne
  obtain ⟨s', htake, hcore⟩ := h.takeSlot hp hfl hc hsize
  have hat : slotAt p i j ≠ 0 := by
    rw [slotAt_eq]
    omega
  refine ⟨s', slotAt p i j, htake, pages, update free p fl, ?_, fun i' q hq => ?_⟩
  · rwa [liveAfterAlloc, if_neg hat]
  · by_cases e : q = p
    · subst e
      obtain rfl := h.lists.disjoint i i' q hp hq
      have := (h.page i q hp).used
      rw [hfl, length_cons] at this
      rw [update_self]
      omega
    · rw [update_of_ne e]
      exact hused i' q hq e

end SlabAux

variable {s : Slab} {live : List SlabObj} {others : List Buddy.Block}

/-- `slab_alloc` returns and keeps the invariant, with one object more when it returns one. -/
theorem SlabInv.alloc (h : SlabInv s live others) {size : BitVec 64} (hsize : size.toNat ≤ 2 ^ 23) :
    ∃ s' ptr, slabAlloc s size = some (s', ptr) ∧ SlabInv s' (liveAfterAlloc live size ptr) others := by
  obtain ⟨pages, free, hcore, hused⟩ := h
  unfold slabAlloc
  by_cases hzero : size = 0#64
  · rw [if_pos (.inr hzero)]
    exact ⟨s, 0, rfl, pages, free, hcore, hused⟩
  rw [if_neg (by simp [hcore.initialized, hzero])]
  cases hc : sizeToClass size.toNat with
  | none =>
    -- a large request goes to the heap
    refine ⟨{ s with heap := (kmalloc s.heap size).1 }, (kmalloc s.heap size).2.toNat, rfl, pages, free, ?_, hused⟩
    by_cases hk : (kmalloc s.heap size).2 = 0#64
    · rw [liveAfterAlloc, if_pos (by rw [hk]; rfl)]
      exact hcore.kmalloc_fail hk
    · have hne : (kmalloc s.heap size).2.toNat ≠ 0 := fun he => hk (BitVec.eq_of_toNat_eq he)
      rw [liveAfterAlloc, if_neg hne]
      exact hcore.addLarge hc hsize hk
  | some i =>
    dsimp only
    rw [findNode_eq (hcore.lists.linked i) (hcore.length_lt i)]
    cases hfind : (pages i).find? (fun sp => !decide (freeHead s.mem sp ≥ slotCount s.mem sp)) with
    | some p =>
      -- a page of the list has a free slot
      have hp := mem_of_find?_eq_some hfind
      have hlt := find?_some hfind
      rw [not_eq_true', decide_eq_false_iff_not, not_le] at hlt
      obtain ⟨s', ptr, htake, hinv⟩ := alloc_take hcore hp ((freeHead_lt_iff (hcore.page i p hp)).1 hlt)
        (fun i' q hq _ => hused i' q hq) hc hsize
      exact ⟨s', ptr, congrArg some htake, hinv⟩
    | none =>
      by_cases hk : (kmalloc s.heap (BitVec.ofNat 64 pageSize)).2 = 0#64
      · rw [if_pos hk]
        exact ⟨{ s with heap := (kmalloc s.heap (BitVec.ofNat 64 pageSize)).1 }, 0, rfl, pages, free, hcore.kmalloc_fail hk, hused⟩
      · rw [if_neg hk]
        obtain ⟨hnew, hcore'⟩ := hcore.addPage i rfl hk
        have hslots := slotsOf_bounds i
        obtain ⟨s', ptr, htake, hinv⟩ := alloc_take (p := (kmalloc s.heap (BitVec.ofNat 64 pageSize)).2.toNat) hcore'
          (by rw [update_self]; exact mem_cons_self)
          (by rw [update_self]; exact ne_nil_of_length_pos (by rw [length_range]; omega))
          (fun i' q hq hne => by
            rw [update_of_ne hne]
            by_cases e : i' = i
            · subst e
              rw [update_self] at hq
              exact hused i' q ((mem_cons.1 hq).resolve_left hne)
            · rw [update_of_ne e] at hq
              exact hused i' q hq) hc hsize
        exact ⟨s', ptr, congrArg some htake, hinv⟩

/-! ## `slab_free` -/

namespace SlabAux

variable {ptr : Nat}

/-- `slab_free` goes past the page: the pointer is not in it, or `slab_page_free` refuses it. -/
def Passes (mem : Memory) (ptr p : Nat) : Prop := p ≤ ptr ∧ ptr < p + pageSize → slabPageFree mem p ptr = some (mem, false)

/-- The inner loop of `slab_free` goes past such pages. -/
theorem freeInList_pass {s : Slab} {xs ys : List Nat} (hpass : ∀ q ∈ xs, Passes s.mem ptr q) {h : Option Nat} {n : Nat}
    (hs : Linked (slabNext s.mem) h (xs ++ ys)) : freeInList s ptr i (xs.length + n) h = freeInList s ptr i n ys.head? := by
  induction xs generalizing h with
  | nil => rw [hs.head_eq, nil_append, length_nil, zero_add]
  | cons x xs ih =>
    obtain ⟨rfl, hs⟩ := hs
    have ih := ih (fun q hq => hpass q (mem_cons_of_mem _ hq)) hs
    rw [length_cons, add_right_comm, freeInList]
    by_cases hin : x ≤ ptr ∧ ptr < x + pageSize
    · rw [if_pos hin, hpass x mem_cons_self hin]
      exact ih
    · rw [if_neg hin]
      exact ih

variable {s : Slab} {live : List SlabObj} {pages : Fin 7 → List Nat} {free : Nat → List Nat} {others : List Buddy.Block}

variable (h : SlabCore s live pages free others)
include h

theorem freeInList_skip (hpass : ∀ p ∈ pages i, Passes s.mem ptr p) :
    freeInList s ptr i slabFuel (toPtr (s.lists i)) = some none := by
  obtain ⟨n, hn⟩ := Nat.exists_eq_add_of_lt (h.length_lt i)
  rw [hn, add_assoc, freeInList_pass hpass (by rw [append_nil]; exact h.lists.linked i)]
  rfl

/-- A pointer that no page of the lists takes goes to `kfree`. -/
theorem freeInLists_skip (hpass : ∀ i, ∀ p ∈ pages i, Passes s.mem ptr p)
    (is : List (Fin 7)) :
    freeInLists s ptr is = (kfree s.heap (BitVec.ofNat 64 ptr)).map (fun heap => { s with heap := heap }) := by
  induction is with
  | nil => rfl
  | cons i is ih => rw [freeInLists, freeInList_skip h (hpass i), bind_some, ih]

theorem passes_of_ne (hp : p ∈ pages i) (hin : p ≤ ptr ∧ ptr < p + pageSize) {i' : Fin 7}
    {q : Nat} (hq : q ∈ pages i') (hne : q ≠ p) : Passes s.mem ptr q :=
  fun hq' => absurd (heapPage_unique (h.heapPage i' q hq) (h.heapPage i p hp) hq'.1 hq'.2 hin.1 hin.2) hne

/-- A pointer that a page of the lists takes is freed there. -/
theorem freeInLists_hit {mem' : Memory}
    (hp : p ∈ pages i) (hin : p ≤ ptr ∧ ptr < p + pageSize) (hfree : slabPageFree s.mem p ptr = some (mem', true))
    {is : List (Fin 7)} (hi : i ∈ is) : freeInLists s ptr is = releasePage { s with mem := mem' } i p := by
  induction is with
  | nil => cases hi
  | cons i' is ih =>
    by_cases e : i' = i
    · subst e
      obtain ⟨xs, ys, hq⟩ := append_of_mem hp
      have hlinked := h.lists.linked i'
      have hlen := h.length_lt i'
      rw [hq] at hlinked hlen
      have hxs : ∀ q ∈ xs, Passes s.mem ptr q := by
        intro q hm
        refine passes_of_ne h hp hin (by rw [hq]; simp [hm]) ?_
        rintro rfl
        exact (nodup_append.1 hlinked.nodup).2.2 q hm q mem_cons_self rfl
      obtain ⟨n, hn⟩ := Nat.exists_eq_add_of_lt (show xs.length < slabFuel by rw [length_append] at hlen; omega)
      rw [freeInLists, hn, add_assoc, freeInList_pass hxs hlinked, head?_cons, freeInList, if_pos hin, hfree]
      rw [bind_map]
      exact bind_fun_some _
    · have hskip : ∀ q ∈ pages i', Passes s.mem ptr q := by
        intro q hm
        refine passes_of_ne h hp hin hm ?_
        rintro rfl
        exact e (h.lists.disjoint i' i q hm hp)
      rw [freeInLists, freeInList_skip h hskip]
      exact ih ((mem_cons.1 hi).resolve_left (fun he => e he.symm))

end SlabAux

/-- `slab_free` of an object returns and keeps the invariant, without the object. -/
theorem SlabInv.free (h : SlabInv s live others) {o : SlabObj} (ho : o ∈ live) :
    ∃ s', slabFree s o.addr = some s' ∧ SlabInv s' (live.erase o) others := by
  obtain ⟨pages, free, hcore, hused⟩ := h
  have hne : o.addr ≠ 0 := by
    have hpos : 0 < heapBase := by decide
    have := (hcore.addr_bounds ho).1
    omega
  unfold slabFree
  rw [if_neg (by simp [hcore.initialized, hne])]
  cases hc : o.slabClass with
  | none =>
    obtain ⟨hpage, hout⟩ := hcore.large o ho hc
    obtain ⟨heap', hk, hcore'⟩ := hcore.dropLarge ho hc
    refine ⟨{ s with heap := heap' }, ?_, pages, free, hcore', hused⟩
    rw [freeInLists_skip hcore, hk, map_some]
    rintro i p hp ⟨h1, h2⟩
    refine absurd ?_ (hout i)
    rwa [← heapPage_unique (hcore.heapPage i p hp) hpage h1 h2 (le_refl _) (by omega)]
  | some i =>
    obtain ⟨p, hp, j, hj, hfree, hat⟩ := hcore.small o ho i hc
    obtain ⟨mem', hcall, hempty, hcore'⟩ := hcore.freeSlot ho hc hp hj hfree hat
    have hin : p ≤ o.addr ∧ o.addr < p + pageSize := by
      have hbounds := slotAt_bounds p hj
      simp only [pageSize]
      omega
    by_cases hz : usedCount mem' p = 0
    · -- the page has lost its last object
      have hall : (update free p (j :: free p) p).length = slotsOf i := by
        rw [update_self]
        exact hempty.1 hz
      obtain ⟨pp, heap', pages', hlink, hk, hpages, hcore''⟩ := hcore'.dropPage hp hall
      refine ⟨_, (freeInLists_hit hcore hp hin hcall (mem_finRange i)).trans ?_, pages', _, hcore'', fun i' q hq => ?_⟩
      · unfold releasePage
        rw [if_pos hz, hlink, bind_some]
        dsimp only
        rw [(setLink_fields _ _ _ _).1, hk, map_some]
      · obtain ⟨hq, hqp⟩ := (hpages i' q).1 hq
        rw [update_of_ne hqp]
        exact hused i' q hq
    · refine ⟨_, (freeInLists_hit hcore hp hin hcall (mem_finRange i)).trans ?_, pages, _, hcore', fun i' q hq => ?_⟩
      · unfold releasePage
        rw [if_neg hz]
      · by_cases e : q = p
        · subst e
          obtain rfl := hcore.lists.disjoint i i' q hp hq
          have h1 := (hcore'.page i q hp).used
          dsimp only at h1
          omega
        · rw [update_of_ne e]
          exact hused i' q hq

/-! ## Runs -/

/-- The steps of a run: the two calls, and a write of a client to one byte. -/
inductive SlabOp where
  | alloc (size : BitVec 64)
  | free (o : SlabObj)
  | write (a : Nat) (v : BitVec 8)
  deriving DecidableEq, Repr

/-- One step, with the objects before and after it. -/
def SlabOp.run (s : Slab) (live : List SlabObj) : SlabOp → Option (Slab × List SlabObj)
  | .alloc size => (slabAlloc s size).map (fun r => (r.1, liveAfterAlloc live size r.2))
  | .free o => (slabFree s o.addr).map (fun s' => (s', live.erase o))
  | .write a v => some ({ s with mem := Function.update s.mem a v }, live)

/-- Requests are of at most 8 MiB, only live objects are freed, and only their bytes are written. -/
def SlabOp.Ok (live : List SlabObj) : SlabOp → Prop
  | .alloc size => size.toNat ≤ 8 * 1024 * 1024
  | .free o => o ∈ live
  | .write a _ => ∃ o ∈ live, o.addr ≤ a ∧ a < o.addr + o.extent

/-- A sequence of steps, one after the other. -/
def runSlab (s : Slab) (live : List SlabObj) : List SlabOp → Option (Slab × List SlabObj)
  | [] => some (s, live)
  | op :: ops => (op.run s live).bind (fun r => runSlab r.1 r.2 ops)

/-- Every step of the run meets its condition. -/
def SlabOpsOk (s : Slab) (live : List SlabObj) : List SlabOp → Prop
  | [] => True
  | op :: ops => op.Ok live ∧
    match op.run s live with
    | some (s, live) => SlabOpsOk s live ops
    | none => True

instance SlabOp.decidableOk (live : List SlabObj) : (op : SlabOp) → Decidable (op.Ok live)
  | .alloc size => inferInstanceAs (Decidable (size.toNat ≤ 8 * 1024 * 1024))
  | .free o => inferInstanceAs (Decidable (o ∈ live))
  | .write a _ => inferInstanceAs (Decidable (∃ o ∈ live, o.addr ≤ a ∧ a < o.addr + o.extent))

instance decidableSlabOpsOk : (s : Slab) → (live : List SlabObj) → (ops : List SlabOp) → Decidable (SlabOpsOk s live ops)
  | _, _, [] => .isTrue trivial
  | s, live, op :: ops =>
    have : Decidable (match op.run s live with | some (s, live) => SlabOpsOk s live ops | none => True) :=
      match op.run s live with
      | some (s, live) => decidableSlabOpsOk s live ops
      | none => .isTrue trivial
    inferInstanceAs (Decidable (_ ∧ _))

/-- What the clients can rely on: `pages` are the pages of the lists and `free` their free lists. -/
structure SlabSound (s : Slab) (live : List SlabObj) (others : List Buddy.Block) (pages : Fin 7 → List Nat)
    (free : Nat → List Nat) : Prop where
  disjoint : live.Pairwise (fun o o' => o.addr + o.extent ≤ o'.addr ∨ o'.addr + o'.extent ≤ o.addr)
  size : ∀ o ∈ live, o.size ≤ o.extent
  inPage : ∀ o ∈ live, o.size ≤ 1024 → ∃ i, o.slabClass = some i ∧ ∃ p ∈ pages i,
    p + slabHeaderSize ≤ o.addr ∧ o.addr + o.extent ≤ p + pageSize
  lists : ∀ i, Linked (slabNext s.mem) (toPtr (s.lists i)) (pages i)
  freeList : ∀ i, ∀ p ∈ pages i, Linked (slotNext s.mem p) (toSlot s.mem p (freeHead s.mem p)) (free p) ∧ (free p).Nodup ∧
    usedCount s.mem p + (free p).length = slotCount s.mem p ∧
    ∀ j, j ∈ free p ↔ j < slotCount s.mem p ∧ ∀ o ∈ live, o.addr ≠ slotAddr s.mem p j
  onList : ∀ i p, p ∈ pages i ↔ ∃ o ∈ live, o.slabClass = some i ∧ o.addr / pageSize * pageSize = p
  used : ∀ i, ∀ p ∈ pages i, 0 < usedCount s.mem p
  heap : ∃ fl blocks, KheapInv s.heap fl blocks ∧ ∀ b, b ∈ blocks ↔ Held pages live others b
  bytes : s.allocatedBytes = (live.map SlabObj.slabBytes).sum

theorem slabInv_init {s : Slab} {fl : Nat → List Nat} {others : List Buddy.Block} (h : KheapInv s.heap fl others) :
    SlabInv (slabInit s) [] others := by
  refine ⟨fun _ => [], fun _ => [],
    { initialized := rfl, heap := ⟨fl, others, h, fun b => by simp [Held]⟩, apart := by simp,
      lists := ⟨fun _ => rfl, fun _ _ _ hm => absurd hm not_mem_nil⟩, heapPage := by simp, page := by simp, small := by simp,
      slot := by simp, large := by simp, sizes := by simp, nodup := nodup_nil, bytes := rfl }, by simp⟩

theorem SlabInv.step (h : SlabInv s live others) {op : SlabOp} (hok : op.Ok live) :
    ∃ r, op.run s live = some r ∧ SlabInv r.1 r.2 others := by
  cases op with
  | alloc size =>
    obtain ⟨s', ptr, hcall, h'⟩ := h.alloc hok
    exact ⟨_, by rw [SlabOp.run, hcall, map_some], h'⟩
  | free o =>
    obtain ⟨s', hcall, h'⟩ := h.free hok
    exact ⟨_, by rw [SlabOp.run, hcall, map_some], h'⟩
  | write a v =>
    obtain ⟨o, ho, h1, h2⟩ := hok
    obtain ⟨pages, free, hcore, hused⟩ := h
    refine ⟨_, rfl, pages, free, hcore.frame (fun b hb => update_of_ne ?_ _ _), hused⟩
    rintro rfl
    exact hcore.not_owned ho h1 h2 hb

theorem SlabInv.run {ops : List SlabOp} : ∀ {s : Slab} {live : List SlabObj}, SlabInv s live others → SlabOpsOk s live ops →
    ∃ s' live', runSlab s live ops = some (s', live') ∧ SlabInv s' live' others := by
  induction ops with
  | nil => exact fun h _ => ⟨_, _, rfl, h⟩
  | cons op ops ih =>
    intro s live h hok
    obtain ⟨hop, hrest⟩ := hok
    obtain ⟨r, hr, h'⟩ := h.step hop
    rw [hr] at hrest
    obtain ⟨s', live', hrun, h''⟩ := ih h' hrest
    exact ⟨s', live', by rw [runSlab, hr, bind_some, hrun], h''⟩

/-- The slots of a page that are free are those at which no object is. -/
theorem SlabAux.mem_free_iff {pages : Fin 7 → List Nat} {free : Nat → List Nat} (h : SlabCore s live pages free others)
    (hp : p ∈ pages i) (j : Nat) :
    j ∈ free p ↔ j < slotCount s.mem p ∧ ∀ o ∈ live, o.addr ≠ slotAddr s.mem p j := by
  have hpage := h.page i p hp
  have hheap := h.heapPage i p hp
  rw [hpage.count]
  constructor
  · intro hj
    refine ⟨hpage.lt hj, fun o ho => ?_⟩
    rw [slotAddr_eq hheap hpage.size (hpage.lt hj)]
    exact h.addr_ne_free hp hj ho
  · rintro ⟨hj, hout⟩
    by_contra hfree
    obtain ⟨o, ho, -, hat⟩ := h.slot i p hp j hj hfree
    refine hout o ho ?_
    rw [slotAddr_eq hheap hpage.size hj, hat]

/-- The pages of the lists are those with an object. -/
theorem SlabAux.mem_pages_iff {pages : Fin 7 → List Nat} {free : Nat → List Nat} (h : SlabCore s live pages free others)
    (hused : ∀ i, ∀ p ∈ pages i, (free p).length < slotsOf i) (i : Fin 7) (p : Nat) :
    p ∈ pages i ↔ ∃ o ∈ live, o.slabClass = some i ∧ o.addr / pageSize * pageSize = p := by
  have hround : ∀ {q j}, q ∈ pages i → j < slotsOf i → slotAt q i j / pageSize * pageSize = q := by
    intro q j hq hj
    have hbounds := slotAt_bounds q hj
    have halign := (h.heapPage i q hq).2.2
    simp only [pageSize] at halign ⊢
    omega
  constructor
  · intro hp
    -- the free list is shorter than the page has slots, so it misses one
    obtain ⟨j, hj, hfree⟩ : ∃ j < slotsOf i, j ∉ free p := by
      by_contra hall
      have hsub : range (slotsOf i) ⊆ free p := by
        intro j hj
        by_contra hfree
        exact hall ⟨j, mem_range.1 hj, hfree⟩
      have hlen := nodup_range.length_le_of_subset hsub
      rw [length_range] at hlen
      have := hused i p hp
      omega
    obtain ⟨o, ho, hc, hat⟩ := h.slot i p hp j hj hfree
    exact ⟨o, ho, hc, by rw [hat, hround hp hj]⟩
  · rintro ⟨o, ho, hc, rfl⟩
    obtain ⟨q, hq, j, hj, -, hat⟩ := h.small o ho i hc
    rwa [hat, hround hq hj]

/-- The invariant says what the clients can rely on. -/
theorem SlabInv.sound (h : SlabInv s live others) :
    ∃ pages free, SlabCore s live pages free others ∧ SlabSound s live others pages free := by
  obtain ⟨pages, free, hcore, hused⟩ := h
  refine ⟨pages, free, hcore, ?_, fun o ho => ?_, fun o ho hsmall => ?_, hcore.lists.linked, fun i p hp => ?_,
    mem_pages_iff hcore hused, fun i p hp => ?_, hcore.heap, hcore.bytes⟩
  · refine (pairwise_map.1 hcore.nodup).imp_of_mem (fun ho ho' hne => ?_)
    exact hcore.disjoint ho ho' hne
  · cases hc : o.slabClass with
    | none =>
      have hsz := hcore.sizes o ho
      have hn : (BitVec.ofNat 64 o.size).toNat = o.size := by
        exact mod_eq_of_lt (by omega)
      have hle : (BitVec.ofNat 64 o.size).toNat ≤ 4096 * 2 ^ needLevel (BitVec.ofNat 64 o.size) :=
        ((needLevel_spec _).2 (by rw [hn]; exact hsz)).1
      rw [hn] at hle
      rwa [SlabObj.extent, hc]
    | some i =>
      rw [extent_small hc]
      exact le_slabSizes hc
  · cases hc : o.slabClass with
    | none => exact absurd (sizeToClass_eq_none.1 hc) (by omega)
    | some i =>
      obtain ⟨p, hp, j, hj, -, hat⟩ := hcore.small o ho i hc
      have hbounds := slotAt_bounds p hj
      refine ⟨i, rfl, p, hp, ?_⟩
      rw [extent_small hc, slabHeaderSize, pageSize]
      omega
  · have hpage := hcore.page i p hp
    refine ⟨hpage.free, hpage.free.nodup, ?_, mem_free_iff hcore hp⟩
    rw [hpage.count]
    exact hpage.used
  · have h1 := (hcore.page i p hp).used
    have h2 := hused i p hp
    omega

/-- A run after `slab_init` returns, in a state with the invariant. -/
theorem SlabAux.runSlab_inv (h0 : Kheap) {calls : List KheapOp} {s0 : Slab} {others : List Buddy.Block}
    (hheap : runKheap (kheapInit h0) [] calls = some (s0.heap, others)) {ops : List SlabOp}
    (hok : SlabOpsOk (slabInit s0) [] ops) : ∃ s live, runSlab (slabInit s0) [] ops = some (s, live) ∧ SlabInv s live others := by
  obtain ⟨fl0, hi0, -⟩ := kheapInv_init h0
  obtain ⟨fl, hi⟩ : ∃ fl, KheapInv s0.heap fl others := by
    obtain ⟨h, live, fl, hr, hi, -⟩ := hi0.run
    obtain ⟨rfl, rfl⟩ := Prod.mk.inj (some.inj (hheap.symm.trans hr))
    exact ⟨fl, hi⟩
  exact (slabInv_init hi).run hok

/-- After `kheap_init`, any calls into the heap, `slab_init` and any sequence of allocations of at most 8 MiB, frees of live
objects and writes to them, every call has returned and the clients can rely on `SlabSound`. -/
theorem slab_sound (h₀ : Kheap) (calls : List KheapOp) (s₀ : Slab) (others : List Buddy.Block)
    (hheap : runKheap (kheapInit h₀) [] calls = some (s₀.heap, others)) (ops : List SlabOp)
    (hok : SlabOpsOk (slabInit s₀) [] ops) :
    ∃ s live pages free, runSlab (slabInit s₀) [] ops = some (s, live) ∧ SlabSound s live others pages free := by
  obtain ⟨s, live, hrun, hinv⟩ := runSlab_inv h₀ hheap hok
  obtain ⟨pages, free, -, hsound⟩ := hinv.sound
  exact ⟨s, live, pages, free, hrun, hsound⟩

/-- The allocator over a heap of which another client holds a page. -/
def sharedSlab : Slab :=
  { heap := (kmalloc (kheapInit zeroHeap) 100#64).1
    mem := fun _ => 0#8
    lists := fun _ => 0
    allocatedBytes := 0
    initialized := false }

theorem sharedSlab_heap : runKheap (kheapInit zeroHeap) [] [.kmalloc 100#64] = some (sharedSlab.heap, [⟨2048, 0⟩]) := by
  have hheld : liveAfterMalloc [] 100#64 (kmalloc (kheapInit zeroHeap) 100#64).2 = [⟨2048, 0⟩] := by decide +kernel
  rw [runKheap, KheapOp.run, bind_some, hheld]
  rfl

/-- Two small objects and a large one; the first is written in its last byte and freed. -/
theorem slab_sound_shared :
    let first : SlabObj := ⟨heapBase + 2049 * 4096 + 48, 1000⟩
    ∃ s live pages free,
      runSlab (slabInit sharedSlab) []
        [.alloc 1000#64, .alloc 600#64, .alloc 5000#64, .write (first.addr + 1023) 255#8, .free first] = some (s, live) ∧
      SlabSound s live [⟨2048, 0⟩] pages free :=
  slab_sound zeroHeap [.kmalloc 100#64] sharedSlab [⟨2048, 0⟩] sharedSlab_heap _ (by decide +kernel)

/-! ## Addresses at which no object is -/

namespace SlabAux

theorem releasePage_bytes {s' : Slab} (h : releasePage s i p = some s') :
    s'.allocatedBytes = (s.allocatedBytes + (2 ^ 64 - classSize s.mem p)) % 2 ^ 64 := by
  unfold releasePage at h
  dsimp only at h
  split at h
  · obtain ⟨r, -, hr⟩ := bind_eq_some_iff.1 h
    obtain ⟨heap, -, rfl⟩ := map_eq_some_iff.1 hr
    cases r with
    | none => rfl
    | some r => exact (setLink_fields _ _ _ _).2.1
  · rw [← some.inj h]

end SlabAux

/-- No object is at the address, which is in a slab page or in no block of the heap that is in use. -/
def NoObjectAt (pages : Fin 7 → List Nat) (live : List SlabObj) (others : List Buddy.Block) (ptr : Nat) : Prop :=
  (∀ o ∈ live, ptr ≠ o.addr) ∧
    ((∃ i, ∃ p ∈ pages i, p ≤ ptr ∧ ptr < p + pageSize) ∨ ∀ b, Held pages live others b →
      ¬ (heapBase + b.start * pageSize ≤ ptr ∧ ptr < heapBase + (b.start + b.size) * pageSize))

/-- The address is not that of a slab page, nor that at which a slot behind the last one of a slab page would start. -/
def Refused (pages : Fin 7 → List Nat) (ptr : Nat) : Prop :=
  ∀ i, ∀ p ∈ pages i, ptr ≠ p ∧ ∀ j, slotsOf i ≤ j → ptr = slotAt p i j → p + pageSize ≤ ptr

theorem SlabCore.slabFree_iff {pages : Fin 7 → List Nat} {free : Nat → List Nat} (h : SlabCore s live pages free others)
    {ptr : Nat} (hlt : ptr < 2 ^ 64) (hat : NoObjectAt pages live others ptr) : slabFree s ptr = some s ↔ Refused pages ptr := by
  obtain ⟨hno, hout⟩ := hat
  simp only [Refused, pageSize] at hout ⊢
  constructor
  · intro hsame i p hp
    have hpage := h.heapPage i p hp
    have hpos := heapPage_ne_zero hpage
    refine ⟨?_, fun j hj hat => ?_⟩
    · -- the page itself goes to `kfree`
      rintro rfl
      have hpass : ∀ i', ∀ q ∈ pages i', Passes s.mem ptr q := by
        intro i' q hq
        by_cases e : q = ptr
        · exact fun _ => slabPageFree_miss (h.page i' q hq) fun j hat => absurd hat (by rw [slotAt_eq]; omega)
        · exact passes_of_ne h hp ⟨le_rfl, by rw [pageSize]; omega⟩ hq e
      obtain ⟨heap', -, -, hk, hne, -⟩ := h.kfree_block hpage (.inl ⟨i, ptr, hp, rfl⟩) rfl
      rw [slabFree, if_neg (by simp [h.initialized, hpos]), freeInLists_skip h hpass, hk] at hsame
      exact hne (congrArg Slab.heap (some.inj hsame))
    · -- the bytes behind the slots are taken for one
      by_contra hin
      subst hat
      have hat := slotAt_eq p i j
      have hok := h.page i p hp
      have hfree : j ∉ free p := fun hm => absurd (hok.lt hm) (by omega)
      obtain ⟨mem', hcall, -, -, -, hmem⟩ := slabPageFree_link hok hpage (by omega) hfree
      have hsize : classSize mem' p = slabSizes i := (le_agree fun a _ _ => hmem a (by omega) (by omega)).trans hok.size
      rw [slabFree, if_neg (by rw [h.initialized]; simp; omega),
        freeInLists_hit h hp ⟨by omega, by rw [pageSize]; omega⟩ hcall (mem_finRange i)] at hsame
      have hbytes := releasePage_bytes hsame
      have hsz := slabSizes_bounds i
      dsimp only at hbytes
      omega
  · intro hgood
    unfold slabFree
    by_cases hz : ptr = 0
    · rw [if_pos (.inr hz)]
    have hpass : ∀ i, ∀ p ∈ pages i, Passes s.mem ptr p := by
      intro i p hp _
      refine slabPageFree_miss (h.page i p hp) fun j hat => ?_
      by_cases hj : slotsOf i ≤ j
      · exact .inl ((hgood i p hp).2 j hj hat)
      · refine .inr (by_contra fun hfree => ?_)
        obtain ⟨o, ho, -, hat'⟩ := h.slot i p hp j (by omega) hfree
        exact hno o ho (hat.trans hat'.symm)
    obtain ⟨fl, blocks, hi, hheld⟩ := h.heap
    obtain ⟨heap', -, hk, -, -, hsame⟩ := hi.kfree (BitVec.ofNat 64 ptr)
    rw [if_neg (by simp [h.initialized, hz]), freeInLists_skip h hpass, hk, hsame, map_some]
    rintro b hb ⟨h1, -, h3, h4⟩
    rw [show (BitVec.ofNat 64 ptr).toNat = ptr from mod_eq_of_lt hlt] at h1 h3 h4
    rcases hout with ⟨i, p, hp, hin⟩ | hout
    · have halign := (h.heapPage i p hp).2.2
      simp only [pageSize] at halign
      exact (hgood i p hp).1 (by omega)
    · refine hout b ((hheld b).1 hb) ?_
      rw [mem_pages, vaddrToPage] at h4
      omega

/-- In every state after `slab_init` and a run as above, `slab_free` of an address at which no object is changes nothing if and
only if the address is refused. -/
theorem slabFree_robust_iff (h₀ : Kheap) (calls : List KheapOp) (s₀ : Slab) (others : List Buddy.Block)
    (hheap : runKheap (kheapInit h₀) [] calls = some (s₀.heap, others)) (ops : List SlabOp)
    (hok : SlabOpsOk (slabInit s₀) [] ops) :
    ∃ s live pages free, runSlab (slabInit s₀) [] ops = some (s, live) ∧ SlabSound s live others pages free ∧
      ∀ ptr < 2 ^ 64, NoObjectAt pages live others ptr → (slabFree s ptr = some s ↔ Refused pages ptr) := by
  obtain ⟨s, live, hrun, hinv⟩ := runSlab_inv h₀ hheap hok
  obtain ⟨pages, free, hcore, hsound⟩ := hinv.sound
  exact ⟨s, live, pages, free, hrun, hsound, fun ptr hlt hat => hcore.slabFree_iff hlt hat⟩

theorem slabFree_robust_shared :
    ∃ s live pages free, runSlab (slabInit sharedSlab) [] [.alloc 1000#64] = some (s, live) ∧
      SlabSound s live [⟨2048, 0⟩] pages free ∧
      ∀ ptr < 2 ^ 64, NoObjectAt pages live [⟨2048, 0⟩] ptr → (slabFree s ptr = some s ↔ Refused pages ptr) :=
  slabFree_robust_iff zeroHeap [.kmalloc 100#64] sharedSlab [⟨2048, 0⟩] sharedSlab_heap _ (by decide +kernel)

/-- With one object in a slab page, `slab_free` of the address of the page gives the page back to the heap, and so does `slab_free`
of the address behind its three slots, which counts the page as empty. -/
theorem slabFree_not_robust :
    let page := heapBase + 2049 * 4096
    (runSlab (slabInit sharedSlab) [] [.alloc 1000#64]).map (fun r => (r.2, r.1.heap.allocatedPages,
        [page, slotAt page 6 3].map fun ptr => (slabFree r.1 ptr).map fun s => s.heap.allocatedPages)) =
      some ([⟨page + 48, 1000⟩], 2, [some 1, some 1]) := by
  decide +kernel

end TsOs
