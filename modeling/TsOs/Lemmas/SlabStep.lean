import TsOs.Lemmas.Slab

/-!
# The steps of the slab allocator
-/

namespace TsOs

open Bytes LinkedList Buddy SlabAux Function List SlabObj

section Steps

variable {s : Slab} {live : List SlabObj} {pages : Fin 7 → List Nat} {free : Nat → List Nat} {others : List Buddy.Block}

/-! ## Slots -/

variable {i : Fin 7} {p : Nat} {fl : List Nat}

section

variable (h : SlabCore s live pages free others)
include h

/-- A page of the lists with another free list: the other pages are as before when only bytes of this one change, and not its
link. -/
theorem SlabCore.pages_set (hp : p ∈ pages i) {mem' : Memory} (hpage : PageOk mem' i p fl)
    (hsame : ∀ a, a < p ∨ (p + 32 ≤ a ∧ a < p + 40) ∨ p + 4096 ≤ a → mem' a = s.mem a) :
    Family (slabNext mem') (fun i => toPtr (s.lists i)) pages ∧
      ∀ i', ∀ q ∈ pages i', PageOk mem' i' q (update free p fl q) := by
  have hfar : ∀ i', ∀ q ∈ pages i', q ≠ p → q + 4096 ≤ p ∨ p + 4096 ≤ q :=
    fun i' q hq => heapPage_apart (h.heapPage i' q hq) (h.heapPage i p hp)
  refine ⟨h.lists.congr (fun i' q hq => ?_), fun i' q hq => ?_⟩
  · refine congrArg toPtr (le_agree (fun a _ _ => hsame a ?_))
    by_cases e : q = p
    · omega
    · have := hfar i' q hq e
      omega
  · by_cases e : q = p
    · subst e
      obtain rfl := h.lists.disjoint i' i q hq hp
      rwa [update_self]
    · have hd := hfar i' q hq e
      rw [update_of_ne e]
      refine (h.page i' q hq).congr (h.heapPage i' q hq) (fun a _ _ => hsame a (by omega)) (fun j hj a _ _ => hsame a ?_)
      have hbounds := slotAt_bounds q ((h.page i' q hq).lt hj)
      omega

theorem SlabCore.takeSlot {j : Nat} (hp : p ∈ pages i)
    (hfl : free p = j :: fl) {size : Nat} (hc : sizeToClass size = some i) (hsize : size ≤ 2 ^ 23) :
    ∃ s', TsOs.takeSlot s p = (s', slotAt p i j) ∧
      SlabCore s' (⟨slotAt p i j, size⟩ :: live) pages (update free p fl) others := by
  have hpage := h.page i p hp
  have hheap := h.heapPage i p hp
  rw [hfl] at hpage
  have hj : j < slotsOf i := hpage.lt mem_cons_self
  have hnd : j ∉ fl := (nodup_cons.1 hpage.free.nodup).1
  obtain ⟨mem', halloc, hpage', hsame⟩ := slabPageAlloc_spec hpage hheap
  obtain ⟨hlists, hpages⟩ := h.pages_set hp hpage' (fun a _ => hsame a (by omega))
  have hbytes := h.bytes_le
  have hsz := slabSizes_bounds i
  have hnew : ∀ o ∈ live, o.addr ≠ slotAt p i j := fun o ho => h.addr_ne_free hp (by rw [hfl]; exact mem_cons_self) ho
  have hsub : ∀ q x, x ∈ update free p fl q → x ∈ free q := by
    intro q x hx
    by_cases e : q = p
    · subst e
      rw [update_self] at hx
      rw [hfl]
      exact mem_cons_of_mem _ hx
    · rwa [update_of_ne e] at hx
  have hobj : slabClass ⟨slotAt p i j, size⟩ = some i := hc
  refine ⟨{ s with mem := mem', allocatedBytes := (s.allocatedBytes + slabSizes i) % 2 ^ 64 }, ?_,
    { initialized := h.initialized, heap := ?_, apart := fun b hb => ⟨(h.apart b hb).1, ?_⟩, lists := hlists,
      heapPage := h.heapPage, page := hpages, small := ?_, slot := ?_, large := ?_, sizes := ?_, nodup := ?_, bytes := ?_ }⟩
  · have hne : slotAt p i j ≠ 0 := by
      rw [slotAt_eq]
      omega
    simp only [TsOs.takeSlot, halloc, hpage'.size, ne_eq, hne, not_false_eq_true, if_true]
  · obtain ⟨fl', blocks, hi, hheld⟩ := h.heap
    exact ⟨fl', blocks, hi, fun b => (hheld b).trans (held_cons_small hobj b).symm⟩
  · refine forall_mem_cons.2 ⟨fun hn => ?_, (h.apart b hb).2⟩
    rw [hobj] at hn
    cases hn
  · refine forall_mem_cons.2 ⟨fun i' hi' => ?_, fun o ho i' hi' => ?_⟩
    · rw [hobj] at hi'
      cases hi'
      exact ⟨p, hp, j, hj, by rwa [update_self], rfl⟩
    · obtain ⟨q, hq, x, hx, hfree, hat⟩ := h.small o ho i' hi'
      exact ⟨q, hq, x, hx, fun hm => hfree (hsub q x hm), hat⟩
  · intro i' q hq x hx hfree
    by_cases hmem : x ∈ free q
    · -- the only slot that has left the free list is the new object
      by_cases e : q = p
      · subst e
        obtain rfl := h.lists.disjoint i i' q hp hq
        rw [update_self] at hfree
        rw [hfl] at hmem
        obtain rfl := (mem_cons.1 hmem).resolve_right hfree
        exact ⟨_, mem_cons_self, hobj, rfl⟩
      · rw [update_of_ne e] at hfree
        exact absurd hmem hfree
    · obtain ⟨o, ho, hc', hat⟩ := h.slot i' q hq x hx hmem
      exact ⟨o, mem_cons_of_mem _ ho, hc', hat⟩
  · refine forall_mem_cons.2 ⟨fun hn => ?_, h.large⟩
    rw [hobj] at hn
    cases hn
  · exact forall_mem_cons.2 ⟨hsize, h.sizes⟩
  · refine nodup_cons.2 ⟨fun hm => ?_, h.nodup⟩
    obtain ⟨o, ho, he⟩ := mem_map.1 hm
    exact hnew o ho he
  · have hob : slabBytes ⟨slotAt p i j, size⟩ = slabSizes i := by rw [slabBytes, hobj]
    rw [map_cons, sum_cons, ← h.bytes]
    simp only
    omega

variable {o : SlabObj}

theorem SlabCore.bytes_erase (ho : o ∈ live) :
    s.allocatedBytes = o.slabBytes + ((live.erase o).map SlabObj.slabBytes).sum := by
  have hsum := ((perm_cons_erase ho).map slabBytes).sum_eq
  rwa [map_cons, sum_cons, ← h.bytes] at hsum

theorem SlabCore.freeSlot (ho : o ∈ live) {j : Nat}
    (hc : o.slabClass = some i) (hp : p ∈ pages i) (hj : j < slotsOf i) (hfree : j ∉ free p) (hat : o.addr = slotAt p i j) :
    ∃ mem', slabPageFree s.mem p o.addr = some (mem', true) ∧ (usedCount mem' p = 0 ↔ (free p).length + 1 = slotsOf i) ∧
      SlabCore { s with mem := mem', allocatedBytes := (s.allocatedBytes + (2 ^ 64 - classSize mem' p)) % 2 ^ 64 }
        (live.erase o) pages (update free p (j :: free p)) others := by
  obtain ⟨mem', hcall, hpage', hused, hsame⟩ := slabPageFree_spec (h.page i p hp) (h.heapPage i p hp) hj hfree
  have hle := slot_le hj
  have hsz := slabSizes_bounds i
  have hat' := slotAt_eq p i j
  obtain ⟨hlists, hpages⟩ := h.pages_set hp hpage' (fun a _ => hsame a (by omega) (by omega))
  have hbytes := h.bytes_le
  have hnd := h.live_nodup
  have hmem : ∀ {o'}, o' ∈ live.erase o ↔ o' ≠ o ∧ o' ∈ live := hnd.mem_erase_iff
  -- the slot of another object is another slot
  have hother : ∀ {o'}, o' ∈ live → o' ≠ o → o'.addr ≠ slotAt p i j :=
    fun ho' hne he => hne (h.addr_inj ho' ho (he.trans hat.symm))
  refine ⟨mem', by rw [hat]; exact hcall, hused,
    { initialized := h.initialized, heap := ?_, apart := fun b hb => ⟨(h.apart b hb).1, ?_⟩, lists := hlists,
      heapPage := h.heapPage, page := hpages, small := ?_, slot := ?_, large := ?_, sizes := ?_, nodup := ?_, bytes := ?_ }⟩
  · obtain ⟨fl', blocks, hi, hheld⟩ := h.heap
    refine ⟨fl', blocks, hi, fun b => (hheld b).trans ?_⟩
    have hlarge : (∃ o' ∈ live, o'.slabClass = none ∧ b = o'.block) ↔ ∃ o' ∈ live.erase o, o'.slabClass = none ∧ b = o'.block := by
      constructor
      · rintro ⟨o', ho', hn, hb⟩
        refine ⟨o', hmem.2 ⟨?_, ho'⟩, hn, hb⟩
        rintro rfl
        rw [hc] at hn
        cases hn
      · rintro ⟨o', ho', hn, hb⟩
        exact ⟨o', (hmem.1 ho').2, hn, hb⟩
    rw [Held, Held, hlarge]
  · exact fun o' ho' => (h.apart b hb).2 o' (hmem.1 ho').2
  · intro o' ho' i' hi'
    obtain ⟨hne, hl⟩ := hmem.1 ho'
    obtain ⟨q, hq, x, hx, hxfree, hxat⟩ := h.small o' hl i' hi'
    refine ⟨q, hq, x, hx, fun hm => ?_, hxat⟩
    by_cases e : q = p
    · subst e
      obtain rfl := h.lists.disjoint i i' q hp hq
      rw [update_self] at hm
      obtain rfl := (mem_cons.1 hm).resolve_right hxfree
      exact hother hl hne hxat
    · rw [update_of_ne e] at hm
      exact hxfree hm
  · intro i' q hq x hx hxfree
    have hold : x ∉ free q := by
      by_cases e : q = p
      · subst e
        rw [update_self] at hxfree
        exact fun hm => hxfree (mem_cons_of_mem _ hm)
      · rwa [update_of_ne e] at hxfree
    obtain ⟨o', ho', hc', hxat⟩ := h.slot i' q hq x hx hold
    refine ⟨o', hmem.2 ⟨?_, ho'⟩, hc', hxat⟩
    rintro rfl
    obtain ⟨rfl, rfl, rfl⟩ := h.slot_unique hq hp hx hj (hxat.symm.trans hat)
    rw [update_self] at hxfree
    exact hxfree mem_cons_self
  · exact fun o' ho' => h.large o' (hmem.1 ho').2
  · exact fun o' ho' => h.sizes o' (hmem.1 ho').2
  · exact h.nodup.sublist ((erase_sublist).map _)
  · have hsum := h.bytes_erase ho
    have hob : o.slabBytes = slabSizes i := by rw [slabBytes, hc]
    simp only [hpage'.size]
    omega

/-! ## Blocks of the heap -/

variable {size : BitVec 64}

theorem SlabCore.kmalloc_fail (hk : (kmalloc s.heap size).2 = 0#64) :
    SlabCore { s with heap := (kmalloc s.heap size).1 } live pages free others := by
  obtain ⟨fl, blocks, hi, hheld⟩ := h.heap
  obtain ⟨fl', hi', -⟩ := hi.kmalloc size
  rw [liveAfterMalloc, if_pos hk] at hi'
  exact { h with heap := ⟨fl', blocks, hi', hheld⟩ }

/-- The block that `kmalloc` returns is the address of a page, and no block that is held starts there. -/
theorem SlabCore.kmalloc_new (hk : (kmalloc s.heap size).2 ≠ 0#64) :
    HeapPage (kmalloc s.heap size).2.toNat ∧
      (∀ b, Held pages live others b → b.start ≠ vaddrToPage (kmalloc s.heap size).2.toNat) ∧
      ∃ fl blocks, KheapInv (kmalloc s.heap size).1 fl blocks ∧
        ∀ b, b ∈ blocks ↔ b = ⟨vaddrToPage (kmalloc s.heap size).2.toNat, needLevel size⟩ ∨ Held pages live others b := by
  obtain ⟨fl, blocks, hi, hheld⟩ := h.heap
  obtain ⟨fl', hi', -⟩ := hi.kmalloc size
  rw [liveAfterMalloc, if_neg hk] at hi'
  refine ⟨?_, fun b hb he => ?_, fl', _, hi', fun b => by rw [mem_cons, hheld]⟩
  · obtain ⟨n, hn, he⟩ := (kmalloc_ptr s.heap size).resolve_left hk
    rw [he]
    exact heapPage_pageToVaddr hn
  · exact hi.kmalloc_fresh hk ((hheld b).2 hb) he

theorem SlabCore.addLarge (hc : sizeToClass size.toNat = none)
    (hsize : size.toNat ≤ 2 ^ 23) (hk : (kmalloc s.heap size).2 ≠ 0#64) :
    SlabCore { s with heap := (kmalloc s.heap size).1 } (⟨(kmalloc s.heap size).2.toNat, size.toNat⟩ :: live) pages free
      others := by
  obtain ⟨hpage, hfresh, hheap⟩ := h.kmalloc_new hk
  generalize (kmalloc s.heap size).2.toNat = a at hpage hfresh hheap ⊢
  have hobj : slabClass ⟨a, size.toNat⟩ = none := hc
  have hblock : block ⟨a, size.toNat⟩ = ⟨vaddrToPage a, needLevel size⟩ := by
    rw [block, BitVec.ofNat_toNat, BitVec.setWidth_eq]
  -- nothing else is at the new address
  have hnew : ∀ o ∈ live, o.addr ≠ a := by
    intro o ho he
    obtain ⟨b, hb, h1, h2, -, hcase⟩ := h.home ho
    rcases hcase with ⟨i, p, hp, -, -, j, hj, hat⟩ | ⟨-, hb', hat⟩
    · have hbounds := slotAt_bounds p hj
      have hp' := (h.heapPage i p hp).2.2
      have ha' := hpage.2.2
      simp only [pageSize] at hp' ha'
      omega
    · refine hfresh b hb ?_
      rw [hb', block, he]
  refine
    { h with
      heap := ?_, apart := fun b hb => ⟨(h.apart b hb).1, ?_⟩, small := ?_, slot := ?_, large := ?_, sizes := ?_,
      nodup := ?_, bytes := ?_ }
  · obtain ⟨fl, blocks, hi, hheld⟩ := hheap
    refine ⟨fl, blocks, hi, fun b => ?_⟩
    rw [hheld, held_cons_large hobj, hblock]
  · refine forall_mem_cons.2 ⟨fun _ he => ?_, (h.apart b hb).2⟩
    rw [hblock] at he
    exact hfresh b (.inr (.inr hb)) (by rw [he])
  · refine forall_mem_cons.2 ⟨fun i hi => ?_, h.small⟩
    rw [hobj] at hi
    cases hi
  · intro i p hp j hj hfree
    obtain ⟨o, ho, hc', hat⟩ := h.slot i p hp j hj hfree
    exact ⟨o, mem_cons_of_mem _ ho, hc', hat⟩
  · refine forall_mem_cons.2 ⟨fun _ => ⟨hpage, fun i hm => ?_⟩, h.large⟩
    exact hfresh _ (.inl ⟨i, a, hm, rfl⟩) rfl
  · exact forall_mem_cons.2 ⟨hsize, h.sizes⟩
  · refine nodup_cons.2 ⟨fun hm => ?_, h.nodup⟩
    obtain ⟨o, ho, he⟩ := mem_map.1 hm
    exact hnew o ho he
  · have hob : slabBytes ⟨a, size.toNat⟩ = 0 := by rw [slabBytes, hobj]
    rw [map_cons, sum_cons, hob, Nat.zero_add]
    exact h.bytes

theorem SlabCore.kfree_block {a : Nat} {b : Buddy.Block} (ha : HeapPage a) (hb : Held pages live others b)
    (hstart : b.start = vaddrToPage a) :
    ∃ heap' fl blocks, kfree s.heap (BitVec.ofNat 64 a) = some heap' ∧ heap' ≠ s.heap ∧ KheapInv heap' fl blocks ∧
      ∀ c, c ∈ blocks ↔ c ≠ b ∧ Held pages live others c := by
  obtain ⟨fl, blocks, hi, hheld⟩ := h.heap
  have hb := (hheld b).2 hb
  obtain ⟨heap', fl', hk, hi', -⟩ := hi.kfree (BitVec.ofNat 64 a)
  rw [ofNat_heapPage ha, ← hstart, hi.blocks.liveAfterFree_start hb] at hi'
  refine ⟨heap', fl', _, hk, ?_, hi', fun c => by rw [hi.blocks.live_nodup.mem_erase_iff, hheld]⟩
  -- the pages of the block are not counted any more
  rintro rfl
  have hsum := ((perm_cons_erase hb).map Buddy.Block.size).sum_eq
  rw [map_cons, sum_cons, ← hi.allocated, ← hi'.allocated] at hsum
  have hpos := b.size_pos
  omega

theorem SlabCore.dropLarge (ho : o ∈ live) (hc : o.slabClass = none) :
    ∃ heap', kfree s.heap (BitVec.ofNat 64 o.addr) = some heap' ∧
      SlabCore { s with heap := heap' } (live.erase o) pages free others := by
  obtain ⟨hpage, hout⟩ := h.large o ho hc
  have hmem : ∀ {o'}, o' ∈ live.erase o ↔ o' ≠ o ∧ o' ∈ live := h.live_nodup.mem_erase_iff
  obtain ⟨heap', fl, blocks, hk, -, hi, hblocks⟩ := h.kfree_block hpage (.inr (.inl ⟨o, ho, hc, rfl⟩)) rfl
  refine ⟨heap', hk,
    { h with
      heap := ⟨fl, blocks, hi, fun b => (hblocks b).trans ?_⟩, apart := fun b hb => ⟨(h.apart b hb).1, ?_⟩, small := ?_, slot := ?_, large := ?_,
      sizes := ?_, nodup := ?_, bytes := ?_ }⟩
  · constructor
    · rintro ⟨hne, hp | ⟨o', ho', hc', rfl⟩ | hb⟩
      · exact .inl hp
      · refine .inr (.inl ⟨o', hmem.2 ⟨?_, ho'⟩, hc', rfl⟩)
        rintro rfl
        exact hne rfl
      · exact .inr (.inr hb)
    · rintro (⟨i, p, hp, rfl⟩ | ⟨o', ho', hc', rfl⟩ | hb)
      · refine ⟨fun he => hout i ?_, .inl ⟨i, p, hp, rfl⟩⟩
        rwa [← heapPage_inj (h.heapPage i p hp) hpage (congrArg Buddy.Block.start he)]
      · obtain ⟨hne, hl⟩ := hmem.1 ho'
        refine ⟨fun he => hne (h.addr_inj hl ho ?_), .inr (.inl ⟨o', hl, hc', rfl⟩)⟩
        exact heapPage_inj (h.large o' hl hc').1 hpage (congrArg Buddy.Block.start he)
      · exact ⟨(h.apart b hb).2 o ho hc, .inr (.inr hb)⟩
  · exact fun o' ho' => (h.apart b hb).2 o' (hmem.1 ho').2
  · exact fun o' ho' => h.small o' (hmem.1 ho').2
  · intro i p hp j hj hfree
    obtain ⟨o', ho', hc', hat⟩ := h.slot i p hp j hj hfree
    refine ⟨o', hmem.2 ⟨?_, ho'⟩, hc', hat⟩
    rintro rfl
    rw [hc] at hc'
    cases hc'
  · exact fun o' ho' => h.large o' (hmem.1 ho').2
  · exact fun o' ho' => h.sizes o' (hmem.1 ho').2
  · exact h.nodup.sublist ((erase_sublist).map _)
  · have hsum := h.bytes_erase ho
    have hob : o.slabBytes = 0 := by rw [slabBytes, hc]
    rwa [hob, Nat.zero_add] at hsum

/-! ## Pages -/

/-- A new page of the heap, initialised and put in front of its list; all its slots are free. -/
theorem SlabCore.addPage (i : Fin 7) {sp : Nat}
    (hsp : (kmalloc s.heap (BitVec.ofNat 64 pageSize)).2.toNat = sp)
    (hk : (kmalloc s.heap (BitVec.ofNat 64 pageSize)).2 ≠ 0#64) :
    (∀ i', sp ∉ pages i') ∧
      SlabCore
        { s with
          heap := (kmalloc s.heap (BitVec.ofNat 64 pageSize)).1
          mem := putLe 8 (slabPageInit s.mem sp i) (sp + 32) (s.lists i)
          lists := update s.lists i sp }
        live (update pages i (sp :: pages i)) (update free sp (List.range (slotsOf i))) others := by
  obtain ⟨hpage, hfresh, hheap⟩ := h.kmalloc_new hk
  rw [hsp] at hpage hfresh hheap
  have hlevel : needLevel (BitVec.ofNat 64 pageSize) = 0 := by decide
  rw [hlevel] at hheap
  have hnew : ∀ i', sp ∉ pages i' := fun i' hm => hfresh _ (.inl ⟨i', sp, hm, rfl⟩) rfl
  have hpages : ∀ {i' p}, p ∈ update pages i (sp :: pages i) i' ↔ (i' = i ∧ p = sp) ∨ p ∈ pages i' := by
    intro i' p
    by_cases e : i' = i
    · subst e
      simp
    · simp [e]
  have hne : ∀ {i' p}, p ∈ pages i' → p ≠ sp := by
    rintro i' p hp rfl
    exact hnew i' hp
  obtain ⟨hinit, hinitSame⟩ := slabPageInit_spec s.mem i hpage
  -- outside the new page the memory is as before
  have hfar : ∀ {i' q a}, q ∈ pages i' → q ≤ a → a < q + 4096 →
      putLe 8 (slabPageInit s.mem sp i) (sp + 32) (s.lists i) a = s.mem a := by
    intro i' q a hq h1 h2
    have hout : a < sp ∨ sp + 4096 ≤ a := by
      by_contra hin
      exact hne hq (heapPage_unique (h.heapPage i' q hq) hpage h1 h2 (by omega) (by omega))
    rw [putLe_outside (by omega), hinitSame a hout]
  refine ⟨hnew,
    { initialized := h.initialized, heap := ?_, apart := fun b hb => ⟨?_, (h.apart b hb).2⟩, lists := ?_, heapPage := ?_,
      page := ?_, small := ?_, slot := ?_, large := ?_, sizes := h.sizes, nodup := h.nodup, bytes := h.bytes }⟩
  · obtain ⟨fl, blocks, hi, hheld⟩ := hheap
    refine ⟨fl, blocks, hi, fun b => (hheld b).trans ?_⟩
    rw [Held, ← or_assoc]
    refine or_congr_left ?_
    constructor
    · rintro (rfl | ⟨i', p, hp, rfl⟩)
      · exact ⟨i, sp, hpages.2 (.inl ⟨rfl, rfl⟩), rfl⟩
      · exact ⟨i', p, hpages.2 (.inr hp), rfl⟩
    · rintro ⟨i', p, hp, rfl⟩
      rcases hpages.1 hp with ⟨rfl, rfl⟩ | hp
      · exact .inl rfl
      · exact .inr ⟨i', p, hp, rfl⟩
  · intro i' p hp
    rcases hpages.1 hp with ⟨rfl, rfl⟩ | hp
    · exact fun he => hfresh b (.inr (.inr hb)) (by rw [he, pageBlock])
    · exact (h.apart b hb).1 i' p hp
  · have hlink : slabNext (putLe 8 (slabPageInit s.mem sp i) (sp + 32) (s.lists i)) sp = toPtr (s.lists i) := by
      rw [slabNext, le_putLe_self _ _ (h.head_lt i)]
    have hhead : (fun i' => toPtr (update s.lists i sp i')) =
        update (fun i' => toPtr (s.lists i')) i (some sp) := by
      funext i'
      by_cases e : i' = i
      · subst e
        rw [update_self, update_self, toPtr, if_neg (heapPage_ne_zero hpage)]
      · rw [update_of_ne e, update_of_ne e]
    simp only [hhead]
    refine (h.lists.push i hnew).congr (fun i' p hp => ?_)
    rcases hpages.1 hp with ⟨rfl, rfl⟩ | hp
    · rw [update_self, hlink]
    · rw [update_of_ne (hne hp)]
      exact congrArg toPtr (le_agree (fun a _ _ => hfar hp (by omega) (by omega)))
  · intro i' p hp
    rcases hpages.1 hp with ⟨rfl, rfl⟩ | hp
    · exact hpage
    · exact h.heapPage i' p hp
  · intro i' p hp
    rcases hpages.1 hp with ⟨rfl, rfl⟩ | hp
    · rw [update_self]
      refine hinit.congr hpage (fun a _ _ => putLe_outside (by omega)) (fun j hj a h1 _ => putLe_outside ?_)
      rw [slotAt_eq] at h1
      omega
    · rw [update_of_ne (hne hp)]
      refine (h.page i' p hp).congr (h.heapPage i' p hp) (fun a _ _ => hfar hp (by omega) (by omega)) (fun j hj a h1 h2 => ?_)
      have hbounds := slotAt_bounds p ((h.page i' p hp).lt hj)
      exact hfar hp (by omega) (by omega)
  · intro o ho i' hc
    obtain ⟨p, hp, j, hj, hfree, hat⟩ := h.small o ho i' hc
    exact ⟨p, hpages.2 (.inr hp), j, hj, by rwa [update_of_ne (hne hp)], hat⟩
  · intro i' p hp j hj hfree
    rcases hpages.1 hp with ⟨rfl, rfl⟩ | hp
    · rw [update_self] at hfree
      exact absurd (mem_range.2 hj) hfree
    · rw [update_of_ne (hne hp)] at hfree
      exact h.slot i' p hp j hj hfree
  · intro o ho hc
    refine ⟨(h.large o ho hc).1, fun i' hm => ?_⟩
    rcases hpages.1 hm with ⟨-, he⟩ | hm
    · exact hfresh _ (.inr (.inl ⟨o, ho, hc, rfl⟩)) (by rw [block, he])
    · exact (h.large o ho hc).2 i' hm

end

/-- A free list as long as the page has slots holds all of them. -/
theorem PageOk.all_free {mem : Memory} (h : PageOk mem i p fl)
    (hall : fl.length = slotsOf i) {j : Nat} (hj : j < slotsOf i) : j ∈ fl := by
  have hsub : fl ⊆ range (slotsOf i) := fun x hx => mem_range.2 (h.lt hx)
  have hperm := (subperm_of_subset h.free.nodup hsub).perm_of_length_le (by rw [length_range, hall])
  exact hperm.mem_iff.2 (mem_range.2 hj)

theorem setLink_fields (s : Slab) (i : Fin 7) (pp : Link Nat) (v : Nat) : (s.setLink i pp v).heap = s.heap ∧
    (s.setLink i pp v).allocatedBytes = s.allocatedBytes ∧ (s.setLink i pp v).initialized = s.initialized := by
  cases pp <;> exact ⟨rfl, rfl, rfl⟩

theorem linkOf_head_cases (xs : List Nat) : linkOf .head xs = .head ∨ ∃ q ∈ xs, linkOf .head xs = .after q := by
  rw [linkOf]
  cases hx : xs.getLast? with
  | none => exact .inl rfl
  | some q => exact .inr ⟨q, mem_of_getLast? hx, rfl⟩

/-- A page taken out of its list: the links of the others. -/
theorem SlabCore.unlinkPage (h : SlabCore s live pages free others) {xs ys : List Nat} (hq : pages i = xs ++ p :: ys) :
    Family (slabNext (s.setLink i (linkOf .head xs) (le 8 s.mem (p + 32))).mem)
        (fun i' => toPtr ((s.setLink i (linkOf .head xs) (le 8 s.mem (p + 32))).lists i')) (update pages i (xs ++ ys)) ∧
      ∀ a, (∀ q ∈ pages i, a < q + 32 ∨ q + 40 ≤ a) → (s.setLink i (linkOf .head xs) (le 8 s.mem (p + 32))).mem a = s.mem a := by
  have hfam := h.lists.unlink hq
  rcases linkOf_head_cases xs with e | ⟨q, hqx, e⟩
  · rw [e] at hfam ⊢
    have hhead : (fun i' => toPtr (update s.lists i (le 8 s.mem (p + 32)) i')) =
        update (fun i' => toPtr (s.lists i')) i (slabNext s.mem p) := by
      funext i'
      by_cases e : i' = i
      · subst e
        rw [update_self, update_self, slabNext]
      · rw [update_of_ne e, update_of_ne e]
    refine ⟨?_, fun _ _ => rfl⟩
    simp only [Link.writeHead, Link.writeNext] at hfam
    rw [← hhead] at hfam
    exact hfam
  · rw [e] at hfam ⊢
    have hqi : q ∈ pages i := by rw [hq]; simp [hqx]
    simp only [Slab.setLink, Link.writeHead, Link.writeNext, update_eq_self] at hfam ⊢
    refine ⟨hfam.congr (fun i' r hr => ?_), fun a ha => putLe_outside (ha q hqi)⟩
    by_cases er : r = q
    · rw [er, update_self, slabNext, le_putLe_self _ _ (le_lt 8 _ _), slabNext]
    · rw [update_of_ne er]
      have hr' : HeapPage r := by
        by_cases ei : i' = i
        · subst ei
          rw [update_self] at hr
          refine h.heapPage i' r ?_
          rw [hq]
          rcases mem_append.1 hr with hr | hr <;> simp [hr]
        · rw [update_of_ne ei] at hr
          exact h.heapPage i' r hr
      have hd := heapPage_apart hr' (h.heapPage i q hqi) er
      exact congrArg toPtr (le_putLe_apart (by omega))

/-- A page without objects leaves its list and goes back to the heap. -/
theorem SlabCore.dropPage (h : SlabCore s live pages free others) (hp : p ∈ pages i) (hall : (free p).length = slotsOf i) :
    ∃ pp heap' pages', findLink (slabNext s.mem) (fun q => q == p) slabFuel .head (toPtr (s.lists i)) = some (some (pp, p)) ∧
      kfree s.heap (BitVec.ofNat 64 p) = some heap' ∧ (∀ i' q, q ∈ pages' i' ↔ q ∈ pages i' ∧ q ≠ p) ∧
      SlabCore { s.setLink i pp (le 8 s.mem (p + 32)) with heap := heap' } live pages' free others := by
  obtain ⟨xs, ys, hq⟩ := append_of_mem hp
  have hlinked := h.lists.linked i
  have hlen := h.length_lt i
  rw [hq] at hlinked hlen
  have hnot := (nodup_cons.1 (nodup_middle.1 hlinked.nodup)).1
  have hpx : p ∉ xs := fun hm => hnot (mem_append_left ys hm)
  have hpages : ∀ i' q, q ∈ update pages i (xs ++ ys) i' ↔ q ∈ pages i' ∧ q ≠ p := by
    intro i' q
    by_cases e : i' = i
    · subst e
      rw [update_self, hq, mem_append, mem_append, mem_cons]
      constructor
      · intro hm
        have hne : q ≠ p := fun he => hnot (he ▸ mem_append.2 hm)
        exact ⟨hm.imp_right .inr, hne⟩
      · rintro ⟨hm, hne⟩
        exact hm.imp_right (fun hm => hm.resolve_left hne)
    · rw [update_of_ne e]
      refine ⟨fun hm => ⟨hm, ?_⟩, And.left⟩
      rintro rfl
      exact e (h.lists.disjoint i' i q hm hp)
  have hfind : findLink (slabNext s.mem) (fun q => q == p) slabFuel .head (toPtr (s.lists i)) =
      some (some (linkOf .head xs, p)) :=
    findLink_some (p := fun q => q == p) hlinked (beq_self_eq_true p) (fun a ha => beq_false_of_ne (fun e => hpx (e ▸ ha)))
      (by simp only [length_append] at hlen; omega) .head
  obtain ⟨hfam, hsame⟩ := h.unlinkPage hq
  obtain ⟨heap', fl, blocks, hk, -, hi, hblocks⟩ := h.kfree_block (h.heapPage i p hp) (.inl ⟨i, p, hp, rfl⟩) rfl
  -- the links are outside the bytes that say which slots are free
  have hlinks : ∀ {i' q a}, q ∈ pages i' → (q ≤ a ∧ a < q + 32) ∨ (q + 48 ≤ a ∧ a < q + 4096) →
      (s.setLink i (linkOf .head xs) (le 8 s.mem (p + 32))).mem a = s.mem a := by
    intro i' q a hqi hin
    refine hsame a (fun r hr => ?_)
    by_contra hover
    obtain rfl := heapPage_unique (a := a) (h.heapPage i' q hqi) (h.heapPage i r hr) (by omega) (by omega) (by omega) (by omega)
    omega
  obtain ⟨-, hbytes, hinit⟩ := setLink_fields s i (linkOf .head xs) (le 8 s.mem (p + 32))
  refine ⟨linkOf .head xs, heap', update pages i (xs ++ ys), hfind, hk, hpages,
    { initialized := hinit.trans h.initialized, heap := ⟨fl, blocks, hi, fun b => (hblocks b).trans ?_⟩,
      apart := fun b hb => ⟨fun i' q hm => (h.apart b hb).1 i' q ((hpages i' q).1 hm).1, (h.apart b hb).2⟩, lists := hfam,
      heapPage := fun i' q hm => h.heapPage i' q ((hpages i' q).1 hm).1, page := ?_, small := ?_,
      slot := fun i' q hm => h.slot i' q ((hpages i' q).1 hm).1,
      large := fun o ho hc => ⟨(h.large o ho hc).1, fun i' hm => (h.large o ho hc).2 i' ((hpages i' _).1 hm).1⟩,
      sizes := h.sizes, nodup := h.nodup, bytes := hbytes.trans h.bytes }⟩
  · constructor
    · rintro ⟨hne, ⟨i', q, hm, rfl⟩ | hb⟩
      · refine .inl ⟨i', q, (hpages i' q).2 ⟨hm, ?_⟩, rfl⟩
        rintro rfl
        exact hne rfl
      · exact .inr hb
    · rintro (⟨i', q, hm, rfl⟩ | ⟨o, ho, hc, rfl⟩ | hb)
      · obtain ⟨hm, hne⟩ := (hpages i' q).1 hm
        exact ⟨fun he => hne (pageBlock_inj (h.heapPage i' q hm) (h.heapPage i p hp) he), .inl ⟨i', q, hm, rfl⟩⟩
      · refine ⟨fun he => (h.large o ho hc).2 i ?_, .inr (.inl ⟨o, ho, hc, rfl⟩)⟩
        rwa [heapPage_inj (h.large o ho hc).1 (h.heapPage i p hp) (congrArg Buddy.Block.start he)]
      · exact ⟨(h.apart b hb).1 i p hp, .inr (.inr hb)⟩
  · intro i' q hm
    obtain ⟨hm, -⟩ := (hpages i' q).1 hm
    refine (h.page i' q hm).congr (h.heapPage i' q hm) (fun a _ _ => hlinks hm (by omega)) (fun j hj a h1 h2 => hlinks hm ?_)
    have hbounds := slotAt_bounds q ((h.page i' q hm).lt hj)
    omega
  · intro o ho i' hc
    obtain ⟨q, hm, j, hj, hfree, hat⟩ := h.small o ho i' hc
    refine ⟨q, (hpages i' q).2 ⟨hm, ?_⟩, j, hj, hfree, hat⟩
    rintro rfl
    obtain rfl := h.lists.disjoint i' i q hm hp
    exact hfree ((h.page i' q hp).all_free hall hj)

end Steps

end TsOs
