import TsOs.Lemmas.Kheap
import TsOs.Lib.Bits

/-!
# The kernel heap over whole runs

The invariant of the heap after `kheap_init` and any sequence of `kmalloc` and `kfree`, with any sizes and any pointers.
-/

namespace TsOs

open LinkedList Buddy Function List

/-- The invariant of the heap between calls: the free blocks and the live ones tile it, and the counter of allocated pages is
the size of the live ones. -/
structure KheapInv (h : Kheap) (fl : Nat → List Nat) (live : List Buddy.Block) : Prop where
  blocks : Blocks h.store h.tags fl [] live
  allocated : h.allocatedPages = (live.map Buddy.Block.size).sum
  initialized : h.initialized = true
  exhausted : h.store.exhausted = false

/-! ## `kheap_init` -/

namespace KheapAux

/-- Once the pool is linked and the heads are cleared, every free list is empty. -/
theorem freeLists_clear (s : FreeStore) : FreeLists (clearLists s) (fun _ => []) := by
  obtain ⟨ps, hlen, hpool⟩ := exists_linked_array (fun i => (rfl : (clearLists s).next i = _)) (by decide)
  refine ⟨fun _ => [], ps, ⟨fun k hk => ?_, hpool, ?_, ?_⟩, fun _ _ => rfl, ?_⟩
  · simp [clearLists, if_pos hk]
  · simp
  · simp
  · simp [freeBlocks, hlen]

/-- The two halves of the heap. -/
theorem tiles_init : Tiles heapPageCount [⟨0, 11⟩, ⟨2048, 11⟩] := by
  have hone : Tiles heapPageCount [⟨0, 12⟩] := by
    rw [Tiles, flatMap_singleton, range_eq_range']
    exact List.Perm.refl _
  exact tiles_halves.2 hone

end KheapAux

open KheapAux

/-- After `kheap_init` the heap is two free blocks of the highest level. -/
theorem kheapInv_init (h : Kheap) : ∃ fl, KheapInv (kheapInit h) fl [] ∧ Coalesced buddyMaxLevel (freeBlocks fl) := by
  have hb : Blocks (clearLists h.store) (markBlockFree (markBlockFree (clearTags h.tags) 0 11) 2048 11) (fun _ => [])
      [⟨0, 11⟩, ⟨2048, 11⟩] [] := by
    have hnil : freeBlocks (fun _ => []) = [] := by simp [freeBlocks]
    refine ⟨freeLists_clear h.store, ?_, ?_, ?_, by simp⟩ <;> rw [hnil]
    · exact tiles_init
    · simp [buddyMaxLevel, Buddy.Block.Aligned, Buddy.Block.size]
    · simp only [append_nil, mem_cons, not_mem_nil, or_false]
      rintro b (rfl | rfl)
      · refine (markBlockFree_freeTag (clearTags h.tags) 0 (Nat.le_refl 11)).congr (fun x hx => markBlockFree_same _ ?_)
        rw [mem_pages] at hx ⊢
        simp only [Buddy.Block.size] at hx ⊢
        omega
      · exact markBlockFree_freeTag _ 2048 (Nat.le_refl 11)
  obtain ⟨s1, hp1, hb1, he1⟩ := hb.push
  obtain ⟨s2, hp2, hb2, he2⟩ := hb1.push
  have hinit : kheapInit h = ⟨s2, markBlockFree (markBlockFree (clearTags h.tags) 0 11) 2048 11, 0, 0, 0, true⟩ := by
    simp [kheapInit, buddyMaxLevel, hp1, hp2]
  rw [hinit]
  refine ⟨_, ⟨hb2, rfl, rfl, he2.trans he1⟩, fun p k hk hp => ?_⟩
  rcases mem_freeBlocks_push hp with he | hp
  · rw [(Buddy.Block.mk.inj he).2] at hk
    exact absurd hk (Nat.lt_irrefl 11)
  · rcases mem_freeBlocks_push hp with he | hp
    · rw [(Buddy.Block.mk.inj he).2] at hk
      exact absurd hk (Nat.lt_irrefl 11)
    · simp [mem_freeBlocks] at hp

/-! ## The live allocations -/

/-- The live blocks after `kmalloc(size)` has returned `ptr`: one more, of the level the request needs, unless it failed. -/
def liveAfterMalloc (live : List Buddy.Block) (size ptr : BitVec 64) : List Buddy.Block :=
  if ptr = 0#64 then live else ⟨vaddrToPage ptr.toNat, needLevel size⟩ :: live

/-- The live blocks after `kfree(ptr)`: the one that holds the page at `ptr` is gone, when `ptr` is the address of a page of
the heap. -/
def liveAfterFree (live : List Buddy.Block) (ptr : BitVec 64) : List Buddy.Block :=
  if heapBase ≤ ptr.toNat ∧ ptr.toNat < heapEnd ∧ ptr.toNat % 4096 = 0 then
    live.filter (fun b => vaddrToPage ptr.toNat ∉ b.pages)
  else live

variable {p : Nat}

theorem pageToVaddr_toNat (hp : p < heapPageCount) : (pageToVaddr p).toNat = heapBase + p * 4096 := by
  simp only [heapPageCount] at hp
  rw [pageToVaddr, BitVec.toNat_ofNat]
  simp only [heapBase]
  omega

/-- The address of a page of the heap is not null and leads back to the page. -/
theorem pageToVaddr_spec (hp : p < heapPageCount) :
    pageToVaddr p ≠ 0#64 ∧ vaddrToPage (pageToVaddr p).toNat = p := by
  have hn := pageToVaddr_toNat hp
  constructor
  · intro he
    rw [he] at hn
    simp only [heapBase, BitVec.toNat_ofNat] at hn
    omega
  · rw [vaddrToPage]
    omega

theorem kmalloc_ptr (h : Kheap) (size : BitVec 64) :
    (kmalloc h size).2 = 0#64 ∨ ∃ p < heapPageCount, (kmalloc h size).2 = pageToVaddr p := by
  unfold kmalloc
  split
  · exact .inl rfl
  · dsimp only
    split
    · exact .inl rfl
    · split
      · exact .inl rfl
      · rename_i hp
        exact .inr ⟨_, Nat.lt_of_not_le hp, rfl⟩

/-! ## The calls one by one -/

variable {fl : Nat → List Nat} {live : List Buddy.Block} {s : FreeStore} {t : PageTags}

theorem Blocks.live_sum_le (h : Blocks s t fl [] live) :
    ((freeBlocks fl).map Buddy.Block.size).sum + (live.map Buddy.Block.size).sum = heapPageCount := by
  have := h.tiles.sum_size
  rwa [nil_append, map_append, sum_append] at this

theorem Blocks.live_nodup (h : Blocks s t fl [] live) : live.Nodup := by
  have hnd := h.tiles.nodup
  rw [nil_append, nodup_append] at hnd
  exact hnd.2.1

/-- The page `kmalloc` takes from the lists is split down to the level it needs and allocated. -/
theorem Blocks.take {k need : Nat} (h : Blocks s t fl [⟨p, k⟩] live) (hle : need ≤ k) :
    ∃ s' t' fl', (if k > need then TsOs.buddySplit p need k (s, t) else (s, t)) = (s', t') ∧
      Blocks s' (markBlockAllocated t' p need) fl' [] (⟨p, need⟩ :: live) ∧ s'.exhausted = s.exhausted ∧
      ∀ b ∈ freeBlocks fl', b ∈ freeBlocks fl ∨ ∃ j < k, b = ⟨p + 2 ^ j, j⟩ := by
  by_cases hgt : k > need
  · obtain ⟨s', t', fl', hs, h', he, hnew⟩ := h.buddySplit hle
    exact ⟨s', t', fl', by rw [if_pos hgt, hs], h'.allocate, he, hnew⟩
  · obtain rfl : k = need := by omega
    exact ⟨s, t, fl, if_neg hgt, h.allocate, rfl, fun _ hb => .inl hb⟩

/-- The halves that a split leaves free cannot be joined: the page they were split from is not free. -/
theorem coalesced_of_split {k : Nat} (ha : Buddy.Block.Aligned ⟨p, k⟩) {fl' : Nat → List Nat}
    (hc : Coalesced buddyMaxLevel (freeBlocks fl))
    (hnew : ∀ b ∈ freeBlocks fl', b ∈ freeBlocks fl ∨ ∃ j < k, b = ⟨p + 2 ^ j, j⟩) (hp : ∀ b ∈ freeBlocks fl', p ∉ b.pages) :
    Coalesced buddyMaxLevel (freeBlocks fl') := by
  have hxor : ∀ j, j < k → (p + 2 ^ j) ^^^ 2 ^ j = p := by
    intro j hj
    have hal : Buddy.Block.Aligned ⟨p, j + 1⟩ := Dvd.dvd.trans (Nat.pow_dvd_pow 2 hj) ha
    have hpos := Nat.two_pow_pos j
    rcases xor_two_pow (aligned_halves hal).2 with ⟨hodd, _⟩ | ⟨_, _, hx⟩
    · -- both `p` and `p + 2 ^ j` would be multiples of `2 ^ (j + 1)`
      have hroom := add_le_of_dvd_of_lt hal hodd (Nat.lt_add_of_pos_right hpos)
      simp only [Buddy.Block.size, Nat.pow_succ] at hroom
      omega
    · rw [hx, Nat.add_sub_cancel]
  intro q j hj hq hq'
  rcases hnew _ hq with hold | ⟨i, hi, he⟩
  · rcases hnew _ hq' with hold' | ⟨i, hi, he⟩
    · exact hc q j hj hold hold'
    · obtain ⟨hx, rfl⟩ := Buddy.Block.mk.inj he
      refine hp _ hq ?_
      have hqp : q = p := by rw [← hxor j hi, ← hx, Nat.xor_assoc, Nat.xor_self, Nat.xor_zero]
      rw [hqp]
      exact start_mem_pages ⟨p, j⟩
  · obtain ⟨rfl, rfl⟩ := Buddy.Block.mk.inj he
    refine hp _ hq' ?_
    rw [hxor j hi]
    exact start_mem_pages ⟨p, j⟩

variable {h : Kheap}

/-- What `kmalloc` returns for a request of level `need`: a null pointer when no free block is large enough, and otherwise the first
page of a free block of the lowest level that is. -/
def Chosen (fl : Nat → List Nat) (need : Nat) (ptr : BitVec 64) : Prop :=
  (ptr = 0#64 ∧ ∀ b ∈ freeBlocks fl, b.level < need) ∨
  ∃ b ∈ freeBlocks fl, b.start < heapPageCount ∧ ptr = pageToVaddr b.start ∧ need ≤ b.level ∧
    ∀ c ∈ freeBlocks fl, need ≤ c.level → b.level ≤ c.level

theorem KheapInv.kmalloc (hi : KheapInv h fl live) (size : BitVec 64) :
    ∃ fl', KheapInv (kmalloc h size).1 fl' (liveAfterMalloc live size (kmalloc h size).2) ∧
      (Coalesced buddyMaxLevel (freeBlocks fl) → Coalesced buddyMaxLevel (freeBlocks fl')) ∧
      Chosen fl (needLevel size) (kmalloc h size).2 := by
  have hneed := (needLevel_spec size).1
  obtain ⟨hlow, hfound, hempty⟩ := firstLevel_spec h.store 12 (needLevel size)
  simp only [TsOs.kmalloc, hi.initialized, Bool.not_true, Bool.false_eq_true, if_false]
  generalize firstLevel h.store 12 (needLevel size) = k at hlow hfound hempty ⊢
  have hfirst : ∀ c ∈ freeBlocks fl, needLevel size ≤ c.level → k ≤ c.level := by
    intro c hc hle
    obtain ⟨hlt, hmem⟩ := mem_freeBlocks.1 hc
    refine Nat.le_of_not_lt (fun hck => ?_)
    have hhas := (flHas_iff hi.blocks.lists hlt).2 (ne_nil_of_mem hmem)
    rw [hempty c.level hle hck] at hhas
    cases hhas
  by_cases hgt : k > buddyMaxLevel
  · rw [if_pos hgt]
    refine ⟨fl, by simpa [liveAfterMalloc] using hi, id, .inl ⟨rfl, fun b hb => Nat.lt_of_not_le (fun hle => ?_)⟩⟩
    exact absurd (hi.blocks.wf b (by simp [hb])).1 (Nat.not_le.2 (Nat.lt_of_lt_of_le hgt (hfirst b hb hle)))
  have hk : k < 12 := by simp only [buddyMaxLevel] at hgt; omega
  have hhas : flHas h.store k = true := by
    rcases hfound with hf | hf | hf
    · omega
    · exact absurd hf hgt
    · exact hf
  obtain ⟨p, ps, hfl⟩ := exists_cons_of_ne_nil ((flHas_iff hi.blocks.lists hk).1 hhas)
  obtain ⟨s1, hpop, hb1, he1⟩ := hi.blocks.pop hk hfl
  have hp : p < heapPageCount := hb1.tiles.lt (by simp) (start_mem_pages ⟨p, k⟩)
  obtain ⟨s2, t2, fl2, hs2, hb2, he2, hnew⟩ := hb1.take hlow
  obtain ⟨hne, hpage⟩ := pageToVaddr_spec hp
  simp only [if_neg hgt, hpop, if_neg (Nat.not_le.2 hp), ge_iff_le, hs2, liveAfterMalloc, if_neg hne, hpage]
  have hsum := hb2.live_sum_le
  simp only [map_cons, sum_cons, Buddy.Block.size, heapPageCount] at hsum
  have hpos := Nat.two_pow_pos (needLevel size)
  have hfree : ⟨p, k⟩ ∈ freeBlocks fl := mem_freeBlocks.2 ⟨hk, by rw [hfl]; exact mem_cons_self⟩
  refine ⟨fl2, ⟨hb2, ?_, rfl, (he2.trans he1).trans hi.exhausted⟩, fun hc => ?_, .inr ⟨⟨p, k⟩, hfree, hp, rfl, hlow, hfirst⟩⟩
  · simp only [map_cons, sum_cons, Buddy.Block.size, hi.allocated]
    omega
  · refine coalesced_of_split (hb1.wf ⟨p, k⟩ (by simp)).2 hc (fun b hb => (hnew b hb).imp_left (fun hb => ?_)) (fun b hb hpb => ?_)
    · refine (mem_freeBlocks_erase (p := p) (hi.blocks.nodup_list hk) ?_).2
      rwa [hfl, erase_cons_head]
    · have htiles : Tiles heapPageCount (freeBlocks fl2 ++ ⟨p, needLevel size⟩ :: live) := hb2.tiles
      exact htiles.disjoint_append hb mem_cons_self hpb (start_mem_pages ⟨p, needLevel size⟩)

variable {b : Buddy.Block}

/-- The block that `kmalloc` returns is not one that is live: no live block starts at its page. -/
theorem KheapInv.kmalloc_fresh (hi : KheapInv h fl live)
    {size : BitVec 64} (hk : (TsOs.kmalloc h size).2 ≠ 0#64) (hb : b ∈ live) :
    b.start ≠ vaddrToPage (TsOs.kmalloc h size).2.toNat := by
  intro he
  obtain ⟨fl', hi', -⟩ := hi.kmalloc size
  rw [liveAfterMalloc, if_neg hk] at hi'
  have hnd := hi'.blocks.live_nodup
  generalize hc : (⟨vaddrToPage (TsOs.kmalloc h size).2.toNat, needLevel size⟩ : Buddy.Block) = c at hi' hnd
  have hstart : b.start = c.start := by rw [← hc, he]
  have heq : c = b := hi'.blocks.tiles.unique (by simp) (by simp [hb]) (start_mem_pages c) (hstart ▸ start_mem_pages b)
  exact (nodup_cons.1 hnd).1 (heq ▸ hb)

/-- A page with the tags of an allocation is in a live block, whose level and first page the tags give. -/
theorem Blocks.mem_live_of_tag (h : Blocks s t fl [] live) {x : Nat} (hx : x < heapPageCount) (ha : t.allocLevel x ≠ 0) :
    ∃ b ∈ live, x ∈ b.pages ∧ t.allocLevel x - 1 = b.level ∧ x &&& (2 ^ 32 - 1 - (2 ^ b.level - 1)) = b.start := by
  obtain ⟨b, hb, hxb⟩ := h.tiles.exists_mem hx
  have hwf := h.wf b hb
  rw [nil_append] at hb
  rcases mem_append.1 hb with hb | hb
  · exact absurd ((h.free b hb).alloc x hxb) ha
  · refine ⟨b, hb, hxb, by rw [(h.live b hb x hxb).2, Nat.add_sub_cancel], ?_⟩
    simp only [heapPageCount, buddyMaxLevel] at hx hwf
    rw [Bits.and_not_mask (by omega) (by omega), aligned_start hwf.2 hxb, Buddy.Block.size]

/-- The live blocks that do not hold a page of a given one are the others. -/
theorem Blocks.filter_live (h : Blocks s t fl [] live) (hb : b ∈ live) {x : Nat} (hx : x ∈ b.pages) :
    live.filter (fun c => x ∉ c.pages) = live.erase b := by
  rw [h.live_nodup.erase_eq_filter]
  refine filter_congr (fun c hc => ?_)
  have hmem : ∀ c ∈ live, c ∈ [] ++ (freeBlocks fl ++ live) := fun c hc => by simp [hc]
  by_cases e : c = b
  · subst e; simp only [hx, not_true_eq_false, decide_false, bne_self_eq_false]
  · have hxc : x ∉ c.pages := fun hxc => e (h.tiles.unique (hmem c hc) (hmem b hb) hxc hx)
    simp only [hxc, not_false_eq_true, decide_true]
    exact (bne_iff_ne.2 e).symm

/-- The address of the first page of a live block frees the block. -/
theorem Blocks.liveAfterFree_start
    (h : Blocks s t fl [] live) (hb : b ∈ live) : liveAfterFree live (pageToVaddr b.start) = live.erase b := by
  have hlt : b.start < heapPageCount := h.tiles.lt (by simp [hb]) (start_mem_pages b)
  have hn := pageToVaddr_toNat hlt
  have hend : heapEnd = heapBase + 4096 * 4096 := rfl
  have halign : heapBase % 4096 = 0 := by decide
  have hpage := (pageToVaddr_spec hlt).2
  simp only [heapPageCount] at hlt
  rw [liveAfterFree, if_pos ⟨by omega, by omega, by omega⟩, hpage]
  exact h.filter_live hb (start_mem_pages b)

/-- The pointer is the address of a page of the block. -/
def PageOf (ptr : BitVec 64) (b : Buddy.Block) : Prop :=
  heapBase ≤ ptr.toNat ∧ ptr.toNat < heapEnd ∧ ptr.toNat % 4096 = 0 ∧ vaddrToPage ptr.toNat ∈ b.pages

/-- `kfree` returns and keeps the invariant, without the live block that holds the page at the pointer; when there is none it does
nothing. -/
theorem KheapInv.kfree (hi : KheapInv h fl live) (ptr : BitVec 64) :
    ∃ h' fl', kfree h ptr = some h' ∧ KheapInv h' fl' (liveAfterFree live ptr) ∧
      (Coalesced buddyMaxLevel (freeBlocks fl) → Coalesced buddyMaxLevel (freeBlocks fl')) ∧
      ((∀ b ∈ live, ¬ PageOf ptr b) → h' = h) := by
  simp only [TsOs.kfree, hi.initialized, Bool.not_true, Bool.false_eq_true, if_false]
  by_cases hnull : ptr = 0#64
  · rw [if_pos hnull, liveAfterFree, if_neg (by rw [hnull]; simp [heapBase])]
    exact ⟨h, fl, rfl, hi, id, fun _ => rfl⟩
  rw [if_neg hnull]
  by_cases hrange : ptr.toNat < heapBase ∨ ptr.toNat ≥ heapEnd
  · rw [if_pos hrange, liveAfterFree, if_neg (by omega)]
    exact ⟨h, fl, rfl, hi, id, fun _ => rfl⟩
  rw [if_neg hrange]
  by_cases halign : ptr.toNat % 4096 ≠ 0
  · rw [if_pos halign, liveAfterFree, if_neg (by omega)]
    exact ⟨h, fl, rfl, hi, id, fun _ => rfl⟩
  rw [if_neg halign]
  have hlive : liveAfterFree live ptr = live.filter (fun b => vaddrToPage ptr.toNat ∉ b.pages) := if_pos (by omega)
  rw [hlive]
  have hx : vaddrToPage ptr.toNat < heapPageCount := by
    have hend : heapEnd = heapBase + 4096 * 4096 := rfl
    rw [vaddrToPage, Nat.shiftRight_eq_div_pow, heapPageCount]
    omega
  have hpage : ∀ b, vaddrToPage ptr.toNat ∈ b.pages → PageOf ptr b := fun b hb => ⟨by omega, by omega, by omega, hb⟩
  generalize vaddrToPage ptr.toNat = x at hx hpage ⊢
  by_cases htag : h.tags.blockLevel x ≠ pageAllocated ∨ h.tags.allocLevel x = 0
  · rw [if_pos htag, filter_eq_self.2 ?_]
    · exact ⟨h, fl, rfl, hi, id, fun _ => rfl⟩
    · intro b hb
      rw [decide_eq_true_eq]
      intro hxb
      have hl := hi.blocks.live b hb x hxb
      omega
  rw [if_neg htag]
  rw [not_or] at htag
  obtain ⟨⟨p, k⟩, hb, hxb, hlevel, hhead⟩ := hi.blocks.mem_live_of_tag hx htag.2
  rw [hi.blocks.filter_live hb hxb, hlevel, hhead]
  obtain ⟨s1, hpush, hb1, he1⟩ := (hi.blocks.release hb).push
  have hk := (hi.blocks.wf ⟨p, k⟩ (by simp [hb])).1
  simp only at hk
  obtain ⟨s2, t2, fl2, hc, hb2, he2, hend⟩ := hb1.buddyCoalesce (show p ∈ _ by rw [update_self]; exact mem_cons_self) hk
    (show buddyMaxLevel - k < 12 by simp only [buddyMaxLevel]; omega)
  have hsum := hi.blocks.live_sum_le
  have hperm := ((perm_cons_erase hb).map Buddy.Block.size).sum_eq
  simp only [map_cons, sum_cons, Buddy.Block.size, heapPageCount] at hsum hperm
  simp only [hpush, hc, Option.map_some]
  have hpos := Nat.two_pow_pos k
  refine ⟨_, fl2, rfl, ⟨hb2, ?_, rfl, (he2.trans he1).trans hi.exhausted⟩, fun hc => hend (hc.but (fun c => mem_freeBlocks_push)),
    fun hnone => absurd (hpage _ hxb) (hnone _ hb)⟩
  simp only [hi.allocated]
  omega

/-! ## `kheap_verify_integrity` -/

/-- The body of the inner loop of `kheap_verify_integrity`, for a block. -/
def verifyBlock (t : PageTags) (v : Verify) (b : Buddy.Block) : Verify :=
  if b.start ≥ heapPageCount then { v with ok := false }
  else
    { ok := v.ok && t.blockLevel b.start == b.level % 256 && !v.visited b.start &&
        (List.range' 1 (2 ^ b.level - 1)).all
          (fun i => b.start + i ≥ heapPageCount || t.blockLevel (b.start + i) == pageInterior)
      visited := Function.update v.visited b.start true
      freePages := (v.freePages + 2 ^ b.level) % 2 ^ 64 }

/-- The loops of `kheap_verify_integrity` visit the free blocks, level by level. -/
theorem verifyLevels_eq (hl : FreeLists h.store fl) (lvls : List Nat) (hlt : ∀ k ∈ lvls, k < 12) (v : Verify) :
    verifyLevels h lvls v = some ((lvls.flatMap (fun k => (fl k).map (fun p => ⟨p, k⟩))).foldl (verifyBlock h.tags) v) := by
  obtain ⟨ns, ps, hn, hp, _⟩ := hl
  induction lvls generalizing v with
  | nil => rfl
  | cons k lvls ih =>
    have hk : k < 12 := hlt k (by simp)
    have hfold : (ns k).foldl (verifyNode h k) v = ((fl k).map (fun p => Buddy.Block.mk p k)).foldl (verifyBlock h.tags) v := by
      rw [← hp k hk, map_map, foldl_map]
      rfl
    rw [verifyLevels, forEach_eq (hn.lists k hk) (length_lt_nodeFuel (hn.lists k hk).nodup), Option.bind_some, hfold,
      ih (fun j hj => hlt j (by simp [hj])), flatMap_cons, foldl_append]

/-- Visiting free blocks that start at pages not seen before finds no fault and counts their pages. -/
theorem foldl_verifyBlock {bs : List Buddy.Block} (ht : ∀ b ∈ bs, FreeTag t b)
    (hw : ∀ b ∈ bs, b.level ≤ buddyMaxLevel ∧ b.start + b.size ≤ heapPageCount) {v : Verify}
    (hd : bs.Pairwise (fun b c => b.start ≠ c.start)) (hv : ∀ b ∈ bs, v.visited b.start = false) (hok : v.ok = true)
    (hsum : v.freePages + (bs.map Buddy.Block.size).sum < 2 ^ 64) :
    (bs.foldl (verifyBlock t) v).ok = true ∧
      (bs.foldl (verifyBlock t) v).freePages = v.freePages + (bs.map Buddy.Block.size).sum := by
  induction bs generalizing v with
  | nil => exact ⟨hok, rfl⟩
  | cons b bs ih =>
    have htag := ht b (by simp)
    obtain ⟨hlev, hin⟩ := hw b (by simp)
    have hpos := b.size_pos
    have hstart : ¬b.start ≥ heapPageCount := by omega
    have hmod : b.level % 256 = b.level := Nat.mod_eq_of_lt (by simp only [buddyMaxLevel] at hlev; omega)
    simp only [map_cons, sum_cons] at hsum
    have hsize : b.size = 2 ^ b.level := rfl
    have hinterior : (range' 1 (2 ^ b.level - 1)).all
        (fun i => b.start + i ≥ heapPageCount || t.blockLevel (b.start + i) == pageInterior) = true := by
      rw [all_eq_true]
      intro i hi
      rw [mem_range'_1] at hi
      rw [htag.interior (b.start + i) (by rw [mem_pages]; omega) (by omega)]
      simp
    have hstep : verifyBlock t v b = { ok := true, visited := update v.visited b.start true,
                                       freePages := v.freePages + b.size } := by
      rw [verifyBlock, if_neg hstart, hinterior, hok, htag.head, hmod, hv b (by simp), hsize,
        Nat.mod_eq_of_lt (by omega)]
      simp
    obtain ⟨hne, hd⟩ := pairwise_cons.1 hd
    rw [foldl_cons, hstep]
    have hrest := ih (fun c hc => ht c (by simp [hc])) (fun c hc => hw c (by simp [hc])) hd
      (v := ⟨true, update v.visited b.start true, v.freePages + b.size⟩)
      (fun c hc => (update_of_ne (hne c hc).symm _ _).trans (hv c (by simp [hc]))) rfl
      (by simp only; omega)
    refine ⟨hrest.1, hrest.2.trans ?_⟩
    simp only [map_cons, sum_cons]
    omega

theorem KheapInv.verify (hi : KheapInv h fl live) :
    kheapVerifyIntegrity h = some 1 := by
  have hb := hi.blocks
  have hmem : ∀ b ∈ freeBlocks fl, b ∈ [] ++ (freeBlocks fl ++ live) := fun b hb => by simp [hb]
  have hsum := hb.live_sum_le
  have hpair : (freeBlocks fl).Pairwise (fun b c => b.start ≠ c.start) := by
    have hd := hb.tiles.pairwise
    rw [nil_append, pairwise_append] at hd
    exact hd.1.imp (fun {b c} hbc (e : b.start = c.start) => hbc (start_mem_pages b) (e ▸ start_mem_pages c))
  obtain ⟨hok, hfree⟩ := foldl_verifyBlock (v := ⟨true, fun _ => false, 0⟩) (fun b h => hb.free b (by simp [h]))
    (fun b h => ⟨(hb.wf b (hmem b h)).1, hb.tiles.le (hmem b h)⟩) hpair (fun _ _ => rfl) rfl
    (by simp only [heapPageCount] at hsum ⊢; omega)
  simp only [kheapVerifyIntegrity, hi.initialized, Bool.not_true, Bool.false_eq_true, if_false]
  rw [verifyLevels_eq hb.lists _ (fun k hk => mem_range.1 hk), Option.map_some]
  rw [if_pos]
  refine ⟨hok, hfree.trans ?_⟩
  simp only [heapPageCount, hi.allocated] at hsum ⊢
  omega

/-! ## Whole runs -/

/-- The calls into the heap. -/
inductive KheapOp where
  | kmalloc (size : BitVec 64)
  | kfree (ptr : BitVec 64)
  deriving DecidableEq, Repr

/-- One call, with the live blocks before and after it. -/
def KheapOp.run (h : Kheap) (live : List Buddy.Block) : KheapOp → Option (Kheap × List Buddy.Block)
  | .kmalloc size => some ((TsOs.kmalloc h size).1, liveAfterMalloc live size (TsOs.kmalloc h size).2)
  | .kfree ptr => (TsOs.kfree h ptr).map (fun h' => (h', liveAfterFree live ptr))

/-- A sequence of calls, one after the other. -/
def runKheap (h : Kheap) (live : List Buddy.Block) : List KheapOp → Option (Kheap × List Buddy.Block)
  | [] => some (h, live)
  | op :: ops => (op.run h live).bind (fun r => runKheap r.1 r.2 ops)

theorem KheapInv.step (hi : KheapInv h fl live) (op : KheapOp) :
    ∃ h' live' fl', op.run h live = some (h', live') ∧ KheapInv h' fl' live' ∧
      (Coalesced buddyMaxLevel (freeBlocks fl) → Coalesced buddyMaxLevel (freeBlocks fl')) := by
  cases op with
  | kmalloc size =>
    obtain ⟨fl', h', hc, _⟩ := hi.kmalloc size
    exact ⟨_, _, fl', rfl, h', hc⟩
  | kfree ptr =>
    obtain ⟨h', fl', hf, hi', hc, _⟩ := hi.kfree ptr
    exact ⟨h', _, fl', by simp only [KheapOp.run, hf, Option.map_some], hi', hc⟩

theorem KheapInv.run {ops : List KheapOp} : ∀ {h : Kheap} {fl : Nat → List Nat} {live : List Buddy.Block}, KheapInv h fl live →
    ∃ h' live' fl', runKheap h live ops = some (h', live') ∧ KheapInv h' fl' live' ∧
      (Coalesced buddyMaxLevel (freeBlocks fl) → Coalesced buddyMaxLevel (freeBlocks fl')) := by
  induction ops with
  | nil => exact fun {h fl live} hi => ⟨h, live, fl, rfl, hi, id⟩
  | cons op ops ih =>
    intro h fl live hi
    obtain ⟨h1, live1, fl1, hs, hi1, hc1⟩ := hi.step op
    obtain ⟨h', live', fl', hr, hi', hc'⟩ := ih hi1
    exact ⟨h', live', fl', by rw [runKheap, hs]; exact hr, hi', fun hc => hc' (hc1 hc)⟩

/-- After `kheap_init` and any sequence of `kmalloc` and `kfree`, with any sizes and pointers, the blocks on the free lists and
the live allocations tile the 4096 pages of the heap in aligned blocks, every page has the tags of its block, no block is on
two lists or twice on one, the counter of allocated pages is the size of the live blocks, the pool is not empty and has never
been found empty, and `kheap_verify_integrity` returns 1. -/
theorem kheap_invariant (h₀ : Kheap) (ops : List KheapOp) :
    ∃ h live fl, runKheap (kheapInit h₀) [] ops = some (h, live) ∧
      (∀ k < 12, ∃ ns, Linked h.store.next (h.store.freeList k) ns ∧ ns.map h.store.pageIdx = fl k) ∧
      Tiles heapPageCount (freeBlocks fl ++ live) ∧
      (∀ b ∈ freeBlocks fl ++ live, b.level ≤ buddyMaxLevel ∧ b.Aligned) ∧
      (∀ b ∈ freeBlocks fl, FreeTag h.tags b) ∧ (∀ b ∈ live, LiveTag h.tags b) ∧ (freeBlocks fl ++ live).Nodup ∧
      h.allocatedPages = (live.map Buddy.Block.size).sum ∧ h.store.poolHead ≠ none ∧ h.store.exhausted = false ∧
      kheapVerifyIntegrity h = some 1 := by
  obtain ⟨fl0, hi0, _⟩ := kheapInv_init h₀
  obtain ⟨h, live, fl, hr, hi, _⟩ := KheapInv.run hi0
  have hb := hi.blocks
  obtain ⟨ns, ps, hn, hp, hcount⟩ := hb.lists
  refine ⟨h, live, fl, hr, fun k hk => ⟨ns k, hn.lists k hk, hp k hk⟩, hb.tiles, hb.wf, hb.free, hb.live, hb.tiles.nodup,
    hi.allocated, fun hnone => ?_, hi.exhausted, hi.verify⟩
  have hpool := hn.pool
  rw [hnone] at hpool
  have hnil : ps = [] := hpool.unique rfl
  have hlen := hb.length_lt
  rw [hnil, length_nil] at hcount
  omega

/-! ## Requests and releases -/

/-- In every state after `kheap_init` and any calls, `kmalloc` of 1 byte to 8 MiB returns a null pointer exactly when no free block
has the pages for it; otherwise the block it returns has the least power of two of pages that holds the bytes, starts where a free
block of the lowest level that fits starts, and is the only new live block, and the tags of the others stay. -/
theorem kmalloc_exact (h₀ : Kheap) (ops : List KheapOp) :
    ∃ h live fl, runKheap (kheapInit h₀) [] ops = some (h, live) ∧
      (∀ k < 12, ∃ ns, Linked h.store.next (h.store.freeList k) ns ∧ ns.map h.store.pageIdx = fl k) ∧
      ∀ size : BitVec 64, 0 < size.toNat → size.toNat ≤ 8 * 2 ^ 20 →
        ((kmalloc h size).2 = 0#64 ↔ ∀ b ∈ freeBlocks fl, b.size < (size.toNat + 4095) / 4096) ∧
        ((kmalloc h size).2 ≠ 0#64 → ∃ b ∈ freeBlocks fl, ∃ n, (kmalloc h size).2 = pageToVaddr b.start ∧
          size.toNat ≤ 4096 * 2 ^ n ∧ (∀ j < n, 4096 * 2 ^ j < size.toNat) ∧ (size.toNat + 4095) / 4096 ≤ b.size ∧
          (∀ c ∈ freeBlocks fl, (size.toNat + 4095) / 4096 ≤ c.size → b.level ≤ c.level) ∧
          (∃ fl', KheapInv (kmalloc h size).1 fl' (⟨b.start, n⟩ :: live)) ∧
          ∀ c ∈ live, ∀ x ∈ c.pages, SameAt h.tags (kmalloc h size).1.tags x) := by
  obtain ⟨fl0, hi0, _⟩ := kheapInv_init h₀
  obtain ⟨h, live, fl, hr, hi, _⟩ := KheapInv.run hi0
  obtain ⟨ns, _, hn, hp, _⟩ := hi.blocks.lists
  refine ⟨h, live, fl, hr, fun k hk => ⟨ns k, hn.lists k hk, hp k hk⟩, fun size hpos hsize => ?_⟩
  have hfits : ∀ b : Buddy.Block, needLevel size ≤ b.level ↔ (size.toNat + 4095) / 4096 ≤ b.size := by
    intro b
    rw [needLevel_le_iff hsize, Buddy.Block.size]
    omega
  obtain ⟨fl', hi', _, hchosen⟩ := hi.kmalloc size
  rcases hchosen with ⟨hnull, hsmall⟩ | ⟨b, hb, hlt, hptr, hneed, hlow⟩
  · refine ⟨⟨fun _ b hb => ?_, fun _ => hnull⟩, fun hne => absurd hnull hne⟩
    rw [← Nat.not_le, ← hfits, Nat.not_le]
    exact hsmall b hb
  · obtain ⟨hne, hpage⟩ := pageToVaddr_spec hlt
    rw [hptr, liveAfterMalloc, if_neg hne, hpage] at hi'
    refine ⟨⟨fun hnull => absurd (hptr ▸ hnull) hne, fun hnone => ?_⟩, fun _ => ?_⟩
    · exact absurd ((hfits b).1 hneed) (Nat.not_le.2 (hnone b hb))
    · obtain ⟨hlarge, hleast⟩ := (needLevel_spec size).2 hsize
      refine ⟨b, hb, needLevel size, hptr, hlarge, hleast, (hfits b).1 hneed, fun c hc hle => hlow c hc ((hfits c).2 hle),
        ⟨fl', hi'⟩, fun c hc x hx => ?_⟩
      have hbefore := hi.blocks.live c hc x hx
      have hafter := hi'.blocks.live c (mem_cons_of_mem _ hc) x hx
      exact ⟨hafter.1.trans hbefore.1.symm, hafter.2.trans hbefore.2.symm⟩

/-- In every state after `kheap_init` and any calls, the block that `kmalloc` returns lies in the heap, and it has the bytes asked
for exactly when they are at most 8 MiB: the number of pages wraps for sizes near `2 ^ 64`, and the level is capped. -/
theorem kmalloc_large_enough_iff (h₀ : Kheap) (ops : List KheapOp) :
    ∃ h live, runKheap (kheapInit h₀) [] ops = some (h, live) ∧
      ∀ size : BitVec 64, (kmalloc h size).2 ≠ 0#64 →
        ∃ b fl', (kmalloc h size).2 = pageToVaddr b.start ∧ KheapInv (kmalloc h size).1 fl' (b :: live) ∧
          b.start + b.size ≤ heapPageCount ∧ (size.toNat ≤ 4096 * b.size ↔ size.toNat ≤ 8 * 2 ^ 20) := by
  obtain ⟨fl0, hi0, _⟩ := kheapInv_init h₀
  obtain ⟨h, live, fl, hr, hi, _⟩ := KheapInv.run hi0
  refine ⟨h, live, hr, fun size hne => ?_⟩
  obtain ⟨fl', hi', _, hchosen⟩ := hi.kmalloc size
  rcases hchosen with ⟨hnull, _⟩ | ⟨b, _, hlt, hptr, _, _⟩
  · exact absurd hnull hne
  rw [liveAfterMalloc, if_neg hne, hptr, (pageToVaddr_spec hlt).2] at hi'
  have hwf := hi'.blocks.wf ⟨b.start, needLevel size⟩ (by simp)
  refine ⟨⟨b.start, needLevel size⟩, fl', hptr, hi', hi'.blocks.tiles.le (by simp), fun hle => ?_, fun hle => ?_⟩
  · have hcap : 2 ^ needLevel size ≤ 2 ^ 11 := Nat.pow_le_pow_right (by decide) hwf.1
    simp only [Buddy.Block.size] at hle
    omega
  · exact ((needLevel_spec size).2 hle).1

/-- The heap before `kheap_init`: static data, all zero. -/
def zeroHeap : Kheap :=
  { store := ⟨fun _ => 0, fun _ => none, none, fun _ => none, false⟩
    tags := ⟨fun _ => 0, fun _ => 0⟩
    allocatedPages := 0
    totalAllocs := 0
    activeAllocs := 0
    initialized := false }

/-- A request of 9 MiB on a fresh heap gets the upper half of the heap, so its last MiB lies past the end. -/
theorem kmalloc_nine_mib : (kmalloc (kheapInit zeroHeap) 0x900000#64).2 ≠ 0#64 ∧
    heapEnd < (kmalloc (kheapInit zeroHeap) 0x900000#64).2.toNat + (0x900000#64).toNat := by
  decide +kernel

/-- In every state after `kheap_init` and any calls, `kfree` of an address that is not aligned, not in the heap or in no live block
changes nothing, and `kfree` of any page of a live block releases that block and no other page. -/
theorem kfree_robust (h₀ : Kheap) (ops : List KheapOp) :
    ∃ h live, runKheap (kheapInit h₀) [] ops = some (h, live) ∧ ∀ ptr : BitVec 64,
      ((ptr.toNat % 4096 ≠ 0 ∨ ptr.toNat < heapBase ∨ heapEnd ≤ ptr.toNat ∨ ∀ b ∈ live, vaddrToPage ptr.toNat ∉ b.pages) →
        kfree h ptr = some h) ∧
      ∀ b ∈ live, PageOf ptr b → ∃ h' fl', kfree h ptr = some h' ∧ KheapInv h' fl' (live.erase b) ∧
        ∀ x < heapPageCount, h'.tags.allocLevel x = if x ∈ b.pages then 0 else h.tags.allocLevel x := by
  obtain ⟨fl0, hi0, _⟩ := kheapInv_init h₀
  obtain ⟨h, live, fl, hr, hi, _⟩ := KheapInv.run hi0
  refine ⟨h, live, hr, fun ptr => ?_⟩
  obtain ⟨h', fl', hf, hi', _, hsame⟩ := hi.kfree ptr
  refine ⟨fun hout => ?_, fun b hb hpage => ⟨h', fl', hf, ?_⟩⟩
  · rw [hf, hsame]
    rintro b hb ⟨hlo, hhi, hal, hx⟩
    rcases hout with hout | hout | hout | hout
    · exact hout hal
    · omega
    · omega
    · exact hout b hb hx
  · have hafter : liveAfterFree live ptr = live.erase b := by
      rw [liveAfterFree, if_pos ⟨hpage.1, hpage.2.1, hpage.2.2.1⟩]
      exact hi.blocks.filter_live hb hpage.2.2.2
    rw [hafter] at hi'
    refine ⟨hi', fun x hx => ?_⟩
    have hmem : ∀ c, c ∈ live.erase b ↔ c ≠ b ∧ c ∈ live := fun c => hi.blocks.live_nodup.mem_erase_iff
    by_cases hxb : x ∈ b.pages
    · rw [if_pos hxb]
      by_contra hne
      obtain ⟨c, hc, hxc, _⟩ := hi'.blocks.mem_live_of_tag hx hne
      obtain ⟨hcb, hc⟩ := (hmem c).1 hc
      exact hcb (hi.blocks.tiles.unique (by simp [hc]) (by simp [hb]) hxc hxb)
    · rw [if_neg hxb]
      by_cases hzero : h.tags.allocLevel x = 0
      · rw [hzero]
        by_contra hne
        obtain ⟨c, hc, hxc, _⟩ := hi'.blocks.mem_live_of_tag hx hne
        have := (hi.blocks.live c ((hmem c).1 hc).2 x hxc).2
        omega
      · obtain ⟨c, hc, hxc, _⟩ := hi.blocks.mem_live_of_tag hx hzero
        have hcb : c ≠ b := fun e => hxb (e ▸ hxc)
        rw [(hi.blocks.live c hc x hxc).2, (hi'.blocks.live c ((hmem c).2 ⟨hcb, hc⟩) x hxc).2]

/-! ## Coalescing -/

/-- With nothing allocated and nothing left to join, the free blocks are the two halves of the heap. -/
theorem Blocks.free_perm (h : Blocks s t fl [] [])
    (hc : Coalesced buddyMaxLevel (freeBlocks fl)) : (freeBlocks fl).Perm [⟨0, 11⟩, ⟨2048, 11⟩] := by
  have htiles : Tiles (2 ^ (11 + 1)) (freeBlocks fl) := by
    have := h.tiles
    rwa [nil_append, append_nil] at this
  have hwf : ∀ b ∈ freeBlocks fl, b.level ≤ 11 ∧ b.Aligned := fun b hb => h.wf b (by simpa using hb)
  have hlevel := htiles.level_of_coalesced hwf hc
  -- a block of level 11 starts at page 0 or 2048
  have hstart : ∀ b ∈ freeBlocks fl, b = ⟨0, 11⟩ ∨ b = ⟨2048, 11⟩ := by
    intro b hb
    obtain ⟨p, k⟩ := b
    obtain rfl : k = 11 := hlevel _ hb
    obtain ⟨m, hm⟩ : 2048 ∣ p := (hwf _ hb).2
    have hle : p + 2048 ≤ 4096 := htiles.le hb
    rcases Nat.lt_or_ge m 1 with h0 | h1
    · left
      rw [hm, show m = 0 by omega]
    · right
      rw [hm, show m = 1 by omega]
  have hmem : ∀ x < 4096, ∃ b ∈ freeBlocks fl, x ∈ b.pages := fun x hx => htiles.exists_mem hx
  refine (perm_ext_iff_of_nodup htiles.nodup (by decide)).2 (fun b => ⟨fun hb => by simpa using hstart b hb, fun hb => ?_⟩)
  rw [mem_cons, mem_singleton] at hb
  rcases hb with rfl | rfl
  · obtain ⟨c, hcmem, hx⟩ := hmem 0 (by decide)
    rcases hstart c hcmem with rfl | rfl
    · exact hcmem
    · simp [Buddy.Block.size] at hx
  · obtain ⟨c, hcmem, hx⟩ := hmem 2048 (by decide)
    rcases hstart c hcmem with rfl | rfl
    · simp [Buddy.Block.size] at hx
    · exact hcmem

theorem KheapInv.freeAll {ptrs : List (BitVec 64)} : ∀ {h : Kheap} {fl : Nat → List Nat} {live : List Buddy.Block}, KheapInv h fl live →
    ptrs.Perm (live.map (fun b => pageToVaddr b.start)) →
    ∃ h' fl', runKheap h live (ptrs.map .kfree) = some (h', []) ∧ KheapInv h' fl' [] ∧
      (Coalesced buddyMaxLevel (freeBlocks fl) → Coalesced buddyMaxLevel (freeBlocks fl')) := by
  induction ptrs with
  | nil =>
    intro h fl live hi hp
    obtain rfl : live = [] := map_eq_nil_iff.1 hp.nil_eq.symm
    exact ⟨h, fl, rfl, hi, id⟩
  | cons ptr ptrs ih =>
    intro h fl live hi hp
    obtain ⟨b, hb, hptr⟩ := mem_map.1 (hp.mem_iff.1 mem_cons_self)
    have hafter : liveAfterFree live ptr = live.erase b := by rw [← hptr, hi.blocks.liveAfterFree_start hb]
    obtain ⟨h1, fl1, hf, hi1, hc1, _⟩ := hi.kfree ptr
    rw [hafter] at hi1
    have hrest : ptrs.Perm ((live.erase b).map (fun b => pageToVaddr b.start)) := by
      have hmap := (perm_cons_erase hb).map (fun b : Buddy.Block => pageToVaddr b.start)
      rw [map_cons, hptr] at hmap
      exact (hp.trans hmap).cons_inv
    obtain ⟨h', fl', hr, hi', hc'⟩ := ih hi1 hrest
    refine ⟨h', fl', ?_, hi', fun hc => hc' (hc1 hc)⟩
    rw [map_cons, runKheap, KheapOp.run, hf, Option.map_some, hafter]
    exact hr

/-- After `kheap_init` and any calls, no two halves of a block below level 11 are both free; so freeing the live allocations, in
any order, leaves as free blocks the two of level 11 at pages 0 and 2048. -/
theorem kheap_coalesced (h₀ : Kheap) (ops : List KheapOp) :
    ∃ (h : Kheap) (live : List Buddy.Block) (fl : Nat → List Nat), runKheap (kheapInit h₀) [] ops = some (h, live) ∧
      (∀ k < 12, ∃ ns, Linked h.store.next (h.store.freeList k) ns ∧ ns.map h.store.pageIdx = fl k) ∧
      (∀ k < 11, ∀ p ∈ fl k, buddyOf p k ∉ fl k) ∧
      ∀ ptrs : List (BitVec 64), ptrs.Perm (live.map (fun b => pageToVaddr b.start)) →
        ∃ (h' : Kheap) (fl' : Nat → List Nat), runKheap h live (ptrs.map .kfree) = some (h', []) ∧
          (∀ k < 12, ∃ ns, Linked h'.store.next (h'.store.freeList k) ns ∧ ns.map h'.store.pageIdx = fl' k) ∧
          (freeBlocks fl').Perm [⟨0, 11⟩, ⟨2048, 11⟩] := by
  obtain ⟨fl0, hi0, hc0⟩ := kheapInv_init h₀
  obtain ⟨h, live, fl, hr, hi, hc⟩ := KheapInv.run hi0
  obtain ⟨ns, _, hn, hp, _⟩ := hi.blocks.lists
  refine ⟨h, live, fl, hr, fun k hk => ⟨ns k, hn.lists k hk, hp k hk⟩, fun k hk p hmem hbuddy => ?_, fun ptrs hperm => ?_⟩
  · refine hc hc0 p k hk (mem_freeBlocks.2 ⟨Nat.lt_succ_of_lt hk, hmem⟩) (mem_freeBlocks.2 ⟨Nat.lt_succ_of_lt hk, hbuddy⟩)
  · obtain ⟨h', fl', hr', hi', hc'⟩ := hi.freeAll hperm
    obtain ⟨ns', _, hn', hp', _⟩ := hi'.blocks.lists
    exact ⟨h', fl', hr', fun k hk => ⟨ns' k, hn'.lists k hk, hp' k hk⟩, hi'.blocks.free_perm (hc' (hc hc0))⟩

end TsOs
