import TsOs.Kheap
import TsOs.Lib.Chains

/-!
# The blocks of the kernel heap

The free lists of `kheap.c` as lists of pages (`FreeLists`), and the state of the heap as blocks that tile its pages
(`Blocks`): those on the free lists, those held by the call that is running, and those allocated. Splitting, merging,
allocating and releasing are moves between the three, each with the tags it leaves.
-/

namespace TsOs

open LinkedList Buddy Function List Nat

/-! ## The free lists -/

/-- The free blocks of the lists, level by level. -/
def freeBlocks (fl : Nat → List Nat) : List Buddy.Block := (List.range 12).flatMap (fun k => (fl k).map (fun p => ⟨p, k⟩))

/-- The heads of the store thread the nodes `ns` and the pool threads `ps`; no node is on two lists, and none is lost. -/
structure Nodes (s : FreeStore) (ns : Nat → List FreeNode) (ps : List FreeNode) : Prop where
  lists : ∀ k < 12, Linked s.next (s.freeList k) (ns k)
  pool : Linked s.next s.poolHead ps
  disjoint : ∀ k < 12, ∀ j < 12, ∀ n, n ∈ ns k → n ∈ ns j → k = j
  poolDisjoint : ∀ k < 12, ∀ n ∈ ns k, n ∉ ps

/-- The free list of each level holds the pages `fl`, and the other nodes are in the pool. -/
def FreeLists (s : FreeStore) (fl : Nat → List Nat) : Prop :=
  ∃ ns ps, Nodes s ns ps ∧ (∀ k < 12, (ns k).map s.pageIdx = fl k) ∧ ps.length + (freeBlocks fl).length = 8192

variable {b : Buddy.Block} {fl : Nat → List Nat}

theorem mem_freeBlocks : b ∈ freeBlocks fl ↔ b.level < 12 ∧ b.start ∈ fl b.level := by
  simp only [freeBlocks, mem_flatMap, mem_range, mem_map]
  constructor
  · rintro ⟨k, hk, p, hp, rfl⟩
    exact ⟨hk, hp⟩
  · rintro ⟨hk, hp⟩
    exact ⟨b.level, hk, b.start, hp, rfl⟩

variable {k p : Nat}

/-- A list of one level with a page more has a block more. -/
theorem freeBlocks_perm (fl : Nat → List Nat) (hk : k < 12) {xs ys : List Nat} (h : xs.Perm (p :: ys)) :
    (freeBlocks (update fl k xs)).Perm (⟨p, k⟩ :: freeBlocks (update fl k ys)) := by
  obtain ⟨l1, l2, hr⟩ := append_of_mem (mem_range.2 hk)
  have hnd : (l1 ++ k :: l2).Nodup := hr ▸ nodup_range
  have hk' := (nodup_cons.1 (nodup_middle.1 hnd)).1
  rw [mem_append, not_or] at hk'
  -- the lists of the other levels are the same on both sides
  have hout : ∀ {l : List Nat}, k ∉ l → ∀ zs, l.flatMap (fun j => (update fl k zs j).map (fun p => Buddy.Block.mk p j)) =
      l.flatMap (fun j => (fl j).map (fun p => Buddy.Block.mk p j)) := by
    intro l hl zs
    refine flatMap_congr (fun j hj => ?_)
    rw [update_of_ne]
    rintro rfl
    exact hl hj
  simp only [freeBlocks, hr, flatMap_append, flatMap_cons, hout hk'.1, hout hk'.2, update_self]
  refine ((List.Perm.append_right _ (h.map _)).append_left _).trans ?_
  exact perm_middle

variable {xs : List FreeNode} {ns : Nat → List FreeNode}

namespace KheapAux

/-- The nodes of a list are fewer than the fuel of a walk over it. -/
theorem length_lt_nodeFuel (h : xs.Nodup) : xs.length < nodeFuel := by
  have hle : xs.length ≤ (finRange 8192).length := h.length_le_of_subset (fun x _ => mem_finRange x)
  rw [length_finRange] at hle
  simp only [nodeFuel]
  omega

/-- Both updates of a family of lists, at the level they are about and elsewhere. -/
theorem map_update {f : FreeNode → Nat} {ys : List Nat} (hk : xs.map f = ys)
    (ho : ∀ j < 12, j ≠ k → (ns j).map f = fl j) :
    ∀ j < 12, (update ns k xs j).map f = update fl k ys j := by
  intro j hj
  by_cases e : j = k
  · subst e; simpa using hk
  · rw [update_of_ne e, update_of_ne e]; exact ho j hj e

/-- The value of the pool (`none`) and those of the levels as one family. -/
def byLevel {β : Type} (pool : β) (f : Nat → β) : Option (Fin 12) → β
  | none => pool
  | some k => f k

theorem update_byLevel_none {β : Type} (pool x : β) (f : Nat → β) :
    update (byLevel pool f) none x = byLevel x f := by
  funext i
  cases i <;> rfl

theorem update_byLevel_some {β : Type} (pool x : β) (f : Nat → β) (hk : k < 12) :
    update (byLevel pool f) (some ⟨k, hk⟩) x = byLevel pool (update f k x) := by
  funext i
  cases i with
  | none => rfl
  | some j =>
    by_cases e : j = ⟨k, hk⟩
    · subst e
      simp [byLevel]
    · have hne : j.val ≠ k := fun h => e (Fin.ext h)
      simp [byLevel, e, hne]

end KheapAux

open KheapAux

variable {s : FreeStore} {ps : List FreeNode}

/-- The lists and the pool are lists that share no node. -/
theorem nodes_iff :
    Nodes s ns ps ↔ LinkedList.Family s.next (byLevel s.poolHead s.freeList) (byLevel ps ns) := by
  constructor
  · intro h
    refine ⟨fun i => ?_, fun i j n hi hj => ?_⟩
    · cases i with
      | none => exact h.pool
      | some k => exact h.lists k k.isLt
    · cases i with
      | none =>
        cases j with
        | none => rfl
        | some j => exact absurd hi (h.poolDisjoint j j.isLt n hj)
      | some i =>
        cases j with
        | none => exact absurd hj (h.poolDisjoint i i.isLt n hi)
        | some j => rw [Fin.ext (h.disjoint i i.isLt j j.isLt n hi hj)]
  · intro h
    refine ⟨fun k hk => h.linked (some ⟨k, hk⟩), h.linked none, fun k hk j hj n h1 h2 => ?_, fun k hk n h1 h2 => ?_⟩
    · cases h.disjoint (some ⟨k, hk⟩) (some ⟨j, hj⟩) n h1 h2
      rfl
    · cases h.disjoint (some ⟨k, hk⟩) none n h1 h2

/-- `fl_push` puts the page in front of the list, as long as the pool is not empty. -/
theorem flPush_spec (h : FreeLists s fl) (hk : k < 12) (p : Nat) (hc : (freeBlocks fl).length < 8192) :
    ∃ s', flPush s k p = (s', true) ∧ FreeLists s' (update fl k (p :: fl k)) ∧ s'.exhausted = s.exhausted := by
  obtain ⟨ns, ps, hn, hp, hcount⟩ := h
  obtain ⟨n, ps, rfl⟩ : ∃ n ps', ps = n :: ps' := by
    cases ps with
    | nil => simp only [length_nil] at hcount; omega
    | cons n ps => exact ⟨n, ps, rfl⟩
  obtain ⟨hhead, _⟩ := hn.pool
  have hfresh : ∀ j < 12, n ∉ ns j := fun j hj hm => hn.poolDisjoint j hj n hm (by simp)
  have hpush : flPush s k p = ({ s with
      pageIdx := update s.pageIdx n p
      next := update s.next n (s.freeList k)
      poolHead := s.next n
      freeList := update s.freeList k (some n) }, true) := by
    simp [flPush, poolAlloc, hhead]
  refine ⟨_, hpush, ⟨update ns k (n :: ns k), ps, ?_, ?_, ?_⟩, rfl⟩
  · have hf := (nodes_iff.1 hn).unlink (show byLevel (n :: ps) ns none = [] ++ n :: ps from rfl)
    rw [update_byLevel_none, update_byLevel_none] at hf
    have hf' := hf.push (some ⟨k, hk⟩) (x := n) (fun j => ?_)
    · rw [update_byLevel_some, update_byLevel_some] at hf'
      exact nodes_iff.2 hf'
    · cases j with
      | none => exact (nodup_cons.1 hn.pool.nodup).1
      | some j => exact hfresh j j.isLt
  · have hsame : ∀ j < 12, (ns j).map (update s.pageIdx n p) = fl j := by
      intro j hj
      rw [← hp j hj]
      refine map_congr_left (fun m hm => update_of_ne ?_ _ _)
      rintro rfl
      exact hfresh j hj hm
    refine map_update ?_ (fun j hj _ => hsame j hj)
    simp [hsame k hk]
  · have := (freeBlocks_perm fl hk (List.Perm.refl (p :: fl k))).length_eq
    rw [length_cons, update_eq_self] at this
    simp only [length_cons] at hcount
    omega

theorem setLink_eq (s : FreeStore) (k : Nat) (pp : Link FreeNode) (v : Option FreeNode) :
    s.setLink k pp v = { s with
      next := pp.writeNext s.next v
      freeList := update s.freeList k (pp.writeHead (s.freeList k) v) } := by
  cases pp <;> simp [FreeStore.setLink, Link.writeNext, Link.writeHead]

/-- Unlinking a node from a list and giving it back to the pool. -/
theorem Nodes.release (hn : Nodes s ns ps)
    (hk : k < 12) {ys : List FreeNode} {n : FreeNode} (hq : ns k = xs ++ n :: ys) :
    Nodes (poolFree (s.setLink k (linkOf .head xs) (s.next n)) n) (update ns k (xs ++ ys)) (n :: ps) := by
  have hnk : n ∈ ns k := by rw [hq]; simp
  have hf := (nodes_iff.1 hn).unlink (show byLevel ps ns (some ⟨k, hk⟩) = xs ++ n :: ys from hq)
  rw [update_byLevel_some, update_byLevel_some] at hf
  have hf' := hf.push none (x := n) (fun j => ?_)
  · rw [update_byLevel_none, update_byLevel_none] at hf'
    rw [setLink_eq]
    exact nodes_iff.2 hf'
  · cases j with
    | none => exact hn.poolDisjoint k hk n hnk
    | some j =>
      by_cases e : j.val = k
      · have hnd := (hn.lists k hk).nodup
        rw [hq] at hnd
        simp only [byLevel, e, update_self]
        exact (nodup_cons.1 (nodup_middle.1 hnd)).1
      · simp only [byLevel, update_of_ne e]
        exact fun hm => e (hn.disjoint j j.isLt k hk n hm hnk)

/-- The pages on the lists once a node is unlinked. -/
theorem FreeLists.release
    (hn : Nodes s ns ps) (hp : ∀ k < 12, (ns k).map s.pageIdx = fl k) (hcount : ps.length + (freeBlocks fl).length = 8192)
    (hk : k < 12) {ys : List FreeNode} {n : FreeNode} (hq : ns k = xs ++ n :: ys) :
    FreeLists (poolFree (s.setLink k (linkOf .head xs) (s.next n)) n)
      (update fl k (xs.map s.pageIdx ++ ys.map s.pageIdx)) := by
  have hpage : (poolFree (s.setLink k (linkOf .head xs) (s.next n)) n).pageIdx = s.pageIdx := by
    rw [setLink_eq, poolFree]
  refine ⟨_, _, hn.release hk hq, ?_, ?_⟩
  · rw [hpage]
    exact map_update (map_append) (fun j hj _ => hp j hj)
  · have hperm : (fl k).Perm (s.pageIdx n :: (xs.map s.pageIdx ++ ys.map s.pageIdx)) := by
      rw [← hp k hk, hq, map_append]
      exact perm_middle
    have := (freeBlocks_perm fl hk hperm).length_eq
    rw [update_eq_self, length_cons] at this
    rw [length_cons]
    omega

theorem setLink_exhausted (s : FreeStore) (k : Nat) (pp : Link FreeNode) (v : Option FreeNode) (n : FreeNode) :
    (poolFree (s.setLink k pp v) n).exhausted = s.exhausted := by
  rw [setLink_eq, poolFree]

/-- `fl_pop` takes the first page of the list. -/
theorem flPop_spec (h : FreeLists s fl) (hk : k < 12) {ps : List Nat} (hfl : fl k = p :: ps) :
    ∃ s', flPop s k = (s', p) ∧ FreeLists s' (update fl k ps) ∧ s'.exhausted = s.exhausted := by
  obtain ⟨ns, pool, hn, hp, hcount⟩ := h
  have hm := hp k hk
  rw [hfl, map_eq_cons_iff] at hm
  obtain ⟨n, ys, hq, rfl, rfl⟩ := hm
  have hhead : s.freeList k = some n := by
    have := hn.lists k hk
    rw [hq] at this
    exact this.1
  refine ⟨_, by simp only [flPop, hhead]; rfl, ?_, setLink_exhausted s k .head (s.next n) n⟩
  exact FreeLists.release hn hp hcount hk (show ns k = [] ++ n :: ys from hq)

/-- `fl_remove` takes the page out of the list, at its first place. -/
theorem flRemove_spec (h : FreeLists s fl) (hk : k < 12) (hm : p ∈ fl k) :
    ∃ s', flRemove s k p = some (s', true) ∧ FreeLists s' (update fl k ((fl k).erase p)) ∧
      s'.exhausted = s.exhausted := by
  obtain ⟨ns, pool, hn, hp, hcount⟩ := h
  obtain ⟨as, bs, hnot, hfl, herase⟩ := exists_erase_eq hm
  have hmap := hp k hk
  rw [hfl, map_eq_append_iff] at hmap
  obtain ⟨xs, zs, hq, rfl, hzs⟩ := hmap
  obtain ⟨n, ys, rfl, rfl, rfl⟩ := map_eq_cons_iff.1 hzs
  have hlink := hn.lists k hk
  have hlen := length_lt_nodeFuel hlink.nodup
  rw [hq] at hlink
  rw [hq, length_append] at hlen
  have hfind : findLink s.next (fun m => s.pageIdx m == s.pageIdx n) nodeFuel .head (s.freeList k) =
      some (some (linkOf .head xs, n)) := by
    refine findLink_some hlink (by simp) (fun m hmx => ?_) (by omega) .head
    rw [beq_eq_false_iff_ne]
    exact fun e => hnot (e ▸ mem_map_of_mem hmx)
  refine ⟨_, by simp only [flRemove, hfind], ?_, setLink_exhausted s k (linkOf .head xs) (s.next n) n⟩
  rw [herase]
  exact FreeLists.release hn hp hcount hk hq

/-- `fl_has` tells whether the list is empty. -/
theorem flHas_iff (h : FreeLists s fl) (hk : k < 12) :
    flHas s k = true ↔ fl k ≠ [] := by
  obtain ⟨ns, pool, hn, hp, _⟩ := h
  rw [flHas, (hn.lists k hk).head_eq, ← hp k hk, ne_eq]
  cases ns k <;> simp

/-! ## The blocks and their tags -/

/-- The tags of a free block. -/
structure FreeTag (t : PageTags) (b : Buddy.Block) : Prop where
  head : t.blockLevel b.start = b.level
  interior : ∀ x ∈ b.pages, x ≠ b.start → t.blockLevel x = pageInterior
  alloc : ∀ x ∈ b.pages, t.allocLevel x = 0

/-- The tags of an allocated block. -/
def LiveTag (t : PageTags) (b : Buddy.Block) : Prop :=
  ∀ x ∈ b.pages, t.blockLevel x = pageAllocated ∧ t.allocLevel x = b.level + 1

/-- The blocks on the free lists, the blocks `held` by the running call and the blocks `live` that are allocated tile the heap,
and every page has the tags of its block; a held block has the tags of a free one. -/
structure Blocks (s : FreeStore) (t : PageTags) (fl : Nat → List Nat) (held live : List Buddy.Block) : Prop where
  lists : FreeLists s fl
  tiles : Tiles heapPageCount (held ++ (freeBlocks fl ++ live))
  wf : ∀ b ∈ held ++ (freeBlocks fl ++ live), b.level ≤ buddyMaxLevel ∧ b.Aligned
  free : ∀ b ∈ held ++ freeBlocks fl, FreeTag t b
  live : ∀ b ∈ live, LiveTag t b

/-- Two states of the tags agree at a page. -/
def SameAt (t t' : PageTags) (x : Nat) : Prop := t'.blockLevel x = t.blockLevel x ∧ t'.allocLevel x = t.allocLevel x

variable {t : PageTags} {t' : PageTags}

theorem FreeTag.congr (h : FreeTag t b) (hs : ∀ x ∈ b.pages, SameAt t t' x) : FreeTag t' b where
  head := (hs b.start (start_mem_pages b)).1.trans h.head
  interior x hx hne := (hs x hx).1.trans (h.interior x hx hne)
  alloc x hx := (hs x hx).2.trans (h.alloc x hx)

theorem LiveTag.congr (h : LiveTag t b) (hs : ∀ x ∈ b.pages, SameAt t t' x) : LiveTag t' b :=
  fun x hx => ⟨(hs x hx).1.trans (h x hx).1, (hs x hx).2.trans (h x hx).2⟩

variable {held live : List Buddy.Block}

/-- There are fewer free blocks than nodes in the pool. -/
theorem Blocks.length_lt (h : Blocks s t fl held live) : (freeBlocks fl).length < 8192 := by
  have := h.tiles.length_le
  simp only [length_append, heapPageCount] at this
  omega

/-- A block moves between the free lists and the running call: the tags stay. -/
theorem Blocks.move {s' : FreeStore} {fl' : Nat → List Nat} {held' : List Buddy.Block}
    (h : Blocks s t fl held live) (hl : FreeLists s' fl') (hp : (held' ++ freeBlocks fl').Perm (held ++ freeBlocks fl)) :
    Blocks s' t fl' held' live := by
  have hp' : (held' ++ (freeBlocks fl' ++ live)).Perm (held ++ (freeBlocks fl ++ live)) := by
    rw [← append_assoc, ← append_assoc]
    exact hp.append_right live
  exact ⟨hl, h.tiles.perm hp', fun b hb => h.wf b (hp'.mem_iff.1 hb), fun b hb => h.free b (hp.mem_iff.1 hb), h.live⟩

/-- The held blocks are in no order, and neither are the live ones. -/
theorem Blocks.perm {held' live' : List Buddy.Block}
    (h : Blocks s t fl held live) (hp : held'.Perm held) (hl : live'.Perm live) : Blocks s t fl held' live' := by
  have hp' : (held' ++ (freeBlocks fl ++ live')).Perm (held ++ (freeBlocks fl ++ live)) := hp.append (hl.append_left _)
  exact ⟨h.lists, h.tiles.perm hp', fun b hb => h.wf b (hp'.mem_iff.1 hb),
    fun b hb => h.free b ((hp.append_right _).mem_iff.1 hb), fun b hb => h.live b (hl.mem_iff.1 hb)⟩

/-- The blocks `os` and `ol` are replaced by `hs` and `ls`, which cover the same pages, and only those pages get new tags. -/
theorem Blocks.replace (os ol hs ls : List Buddy.Block) (h : Blocks s t fl (os ++ held) (ol ++ live))
    (ht : ∀ rest, Tiles heapPageCount ((os ++ ol) ++ rest) → Tiles heapPageCount ((hs ++ ls) ++ rest))
    (hw : ∀ b ∈ hs ++ ls, b.level ≤ buddyMaxLevel ∧ b.Aligned)
    (hsame : ∀ x, (∀ b ∈ os ++ ol, x ∉ b.pages) → SameAt t t' x)
    (hf : ∀ b ∈ hs, FreeTag t' b) (hl : ∀ b ∈ ls, LiveTag t' b) : Blocks s t' fl (hs ++ held) (ls ++ live) := by
  have hold : ((os ++ ol) ++ (held ++ (freeBlocks fl ++ live))).Perm ((os ++ held) ++ (freeBlocks fl ++ (ol ++ live))) :=
    perm_iff_count.2 (fun b => by simp only [count_append]; omega)
  have hnew : ((hs ++ held) ++ (freeBlocks fl ++ (ls ++ live))).Perm ((hs ++ ls) ++ (held ++ (freeBlocks fl ++ live))) :=
    perm_iff_count.2 (fun b => by simp only [count_append]; omega)
  have htiles := h.tiles.perm hold
  -- a block that stays shares no page with those replaced, so it keeps its tags
  have hkeep : ∀ b ∈ held ++ (freeBlocks fl ++ live), ∀ x ∈ b.pages, SameAt t t' x := fun b hb x hx =>
    hsame x (fun c hc hxc => htiles.disjoint_append hc hb hxc hx)
  refine ⟨h.lists, (ht _ htiles).perm hnew, fun b hb => ?_, fun b hb => ?_, fun b hb => ?_⟩
  · rcases mem_append.1 (hnew.mem_iff.1 hb) with hb | hb
    · exact hw b hb
    · exact h.wf b (hold.mem_iff.1 (mem_append_right _ hb))
  · rw [append_assoc] at hb
    rcases mem_append.1 hb with hb | hb
    · exact hf b hb
    · refine (h.free b (by rw [append_assoc]; exact mem_append_right _ hb)).congr (hkeep b ?_)
      rw [← append_assoc]
      exact mem_append_left _ hb
  · rcases mem_append.1 hb with hb | hb
    · exact hl b hb
    · exact (h.live b (mem_append_right _ hb)).congr (hkeep b (by simp [hb]))

/-! ### What the marks write -/

theorem markBlockFree_freeTag (t : PageTags) (p : Nat) (hk : k ≤ buddyMaxLevel) :
    FreeTag (markBlockFree t p k) ⟨p, k⟩ where
  head := by
    simp only [markBlockFree, if_true, buddyMaxLevel] at hk ⊢
    omega
  interior x hx hne := by
    rw [mem_pages] at hx
    simp only [Buddy.Block.size] at hx hne
    simp only [markBlockFree, if_neg hne]
    rw [if_pos ⟨by omega, hx.2⟩]
  alloc x hx := by
    rw [mem_pages] at hx
    simp only [markBlockFree, Buddy.Block.size] at hx ⊢
    rw [if_pos hx]

theorem markBlockFree_same (t : PageTags) {x : Nat} (hx : x ∉ Buddy.Block.pages ⟨p, k⟩) : SameAt t (markBlockFree t p k) x := by
  rw [mem_pages] at hx
  simp only [Buddy.Block.size] at hx
  have hpos := Nat.two_pow_pos k
  constructor
  · simp only [markBlockFree]
    rw [if_neg (by omega), if_neg (by omega)]
  · simp only [markBlockFree]
    rw [if_neg hx]

theorem markBlockAllocated_liveTag (t : PageTags) (p : Nat) (hk : k ≤ buddyMaxLevel) :
    LiveTag (markBlockAllocated t p k) ⟨p, k⟩ := by
  intro x hx
  rw [mem_pages] at hx
  simp only [markBlockAllocated, Buddy.Block.size, buddyMaxLevel] at hk hx ⊢
  rw [if_pos hx, if_pos hx]
  exact ⟨rfl, by omega⟩

theorem markBlockAllocated_same (t : PageTags) {x : Nat} (hx : x ∉ Buddy.Block.pages ⟨p, k⟩) :
    SameAt t (markBlockAllocated t p k) x := by
  rw [mem_pages] at hx
  exact ⟨if_neg hx, if_neg hx⟩

/-! ### The moves of the heap -/

/-- A held block goes onto its free list. -/
theorem Blocks.push (h : Blocks s t fl (⟨p, k⟩ :: held) live) :
    ∃ s', flPush s k p = (s', true) ∧ Blocks s' t (update fl k (p :: fl k)) held live ∧
      s'.exhausted = s.exhausted := by
  have hk : k < 12 := lt_succ_of_le (h.wf ⟨p, k⟩ (by simp)).1
  obtain ⟨s', hpush, hlists, he⟩ := flPush_spec h.lists hk p h.length_lt
  have hp := freeBlocks_perm fl hk (List.Perm.refl (p :: fl k))
  rw [update_eq_self] at hp
  exact ⟨s', hpush, h.move hlists ((hp.append_left held).trans perm_middle), he⟩

/-- The first block of a free list is taken by the running call. -/
theorem Blocks.pop (h : Blocks s t fl held live) {ps : List Nat} (hk : k < 12) (hfl : fl k = p :: ps) :
    ∃ s', flPop s k = (s', p) ∧ Blocks s' t (update fl k ps) (⟨p, k⟩ :: held) live ∧
      s'.exhausted = s.exhausted := by
  obtain ⟨s', hpop, hlists, he⟩ := flPop_spec h.lists hk hfl
  have hp := freeBlocks_perm fl hk (List.Perm.of_eq hfl)
  rw [update_eq_self] at hp
  exact ⟨s', hpop, h.move hlists (perm_middle.symm.trans (hp.symm.append_left held)), he⟩

/-- A block of a free list is taken by the running call. -/
theorem Blocks.remove (h : Blocks s t fl held live) (hk : k < 12) (hm : p ∈ fl k) :
    ∃ s', flRemove s k p = some (s', true) ∧ Blocks s' t (update fl k ((fl k).erase p)) (⟨p, k⟩ :: held) live ∧
      s'.exhausted = s.exhausted := by
  obtain ⟨s', hrem, hlists, he⟩ := flRemove_spec h.lists hk hm
  have hp := freeBlocks_perm fl hk (perm_cons_erase hm)
  rw [update_eq_self] at hp
  exact ⟨s', hrem, h.move hlists (perm_middle.symm.trans (hp.symm.append_left held)), he⟩

/-- A held block is split in halves: the upper one is marked, the lower one gets its level. -/
theorem Blocks.split (h : Blocks s t fl (⟨p, k + 1⟩ :: held) live) :
    Blocks s { markBlockFree t (p + 2 ^ k) k with
        blockLevel := update (markBlockFree t (p + 2 ^ k) k).blockLevel p (k % 256) }
      fl (⟨p + 2 ^ k, k⟩ :: ⟨p, k⟩ :: held) live := by
  have hpos := Nat.two_pow_pos k
  have hwf := h.wf ⟨p, k + 1⟩ (by simp)
  have hk : k ≤ buddyMaxLevel := le_of_succ_le hwf.1
  have htag := h.free ⟨p, k + 1⟩ (by simp)
  have hk256 : k % 256 = k := mod_eq_of_lt (by simp only [buddyMaxLevel] at hk; omega)
  -- away from the head of the block the tags are those the mark leaves
  have hne : ∀ x, x ≠ p → update (markBlockFree t (p + 2 ^ k) k).blockLevel p (k % 256) x =
      (markBlockFree t (p + 2 ^ k) k).blockLevel x := fun x hx => update_of_ne hx _ _
  refine Blocks.replace [⟨p, k + 1⟩] [] [⟨p + 2 ^ k, k⟩, ⟨p, k⟩] [] h
    (fun rest hr => ?_) ?_ (fun x hx => ?_) ?_ (by simp)
  · exact (tiles_halves.2 hr).perm (List.Perm.swap _ _ rest)
  · intro b hb
    simp only [append_nil, mem_cons, not_mem_nil, or_false] at hb
    rcases hb with rfl | rfl
    · exact ⟨hk, (aligned_halves hwf.2).2⟩
    · exact ⟨hk, (aligned_halves hwf.2).1⟩
  · have hx' := hx ⟨p, k + 1⟩ (by simp)
    rw [pages_halves, mem_append, not_or] at hx'
    have hxp : x ≠ p := fun e => hx'.1 (e ▸ start_mem_pages ⟨p, k⟩)
    have hs := markBlockFree_same t hx'.2
    exact ⟨(hne x hxp).trans hs.1, hs.2⟩
  · intro b hb
    simp only [mem_cons, not_mem_nil, or_false] at hb
    rcases hb with rfl | rfl
    · refine (markBlockFree_freeTag t (p + 2 ^ k) hk).congr (fun x hx => ⟨hne x ?_, rfl⟩)
      rw [mem_pages] at hx
      simp only at hx
      omega
    · have hsame : ∀ x ∈ Buddy.Block.pages ⟨p, k⟩, SameAt t (markBlockFree t (p + 2 ^ k) k) x := by
        intro x hx
        refine markBlockFree_same t ?_
        rw [mem_pages] at hx ⊢
        simp only [Buddy.Block.size] at hx ⊢
        omega
      have hmem : ∀ x ∈ Buddy.Block.pages ⟨p, k⟩, x ∈ Buddy.Block.pages ⟨p, k + 1⟩ := by
        intro x hx
        rw [pages_halves]
        exact mem_append_left _ hx
      refine ⟨?_, fun x hx hxp => ?_, fun x hx => ?_⟩
      · exact (update_self _ _ _).trans hk256
      · exact (hne x hxp).trans ((hsame x hx).1.trans (htag.interior x (hmem x hx) hxp))
      · exact (hsame x hx).2.trans (htag.alloc x (hmem x hx))

/-- Two held halves are joined. -/
theorem Blocks.merge
    (h : Blocks s t fl (⟨p, k⟩ :: ⟨p + 2 ^ k, k⟩ :: held) live) (hk : k < buddyMaxLevel) (ha : Buddy.Block.Aligned ⟨p, k + 1⟩) :
    Blocks s (markBlockFree t p (k + 1)) fl (⟨p, k + 1⟩ :: held) live := by
  refine Blocks.replace [⟨p, k⟩, ⟨p + 2 ^ k, k⟩] [] [⟨p, k + 1⟩] [] h (fun rest hr => tiles_halves.1 hr)
    (forall_mem_singleton.2 ⟨hk, ha⟩) (fun x hx => ?_) (forall_mem_singleton.2 (markBlockFree_freeTag t p hk)) (by simp)
  refine markBlockFree_same t ?_
  rw [pages_halves, mem_append, not_or]
  exact ⟨hx _ (by simp), hx _ (by simp)⟩

/-- A held block is allocated. -/
theorem Blocks.allocate
    (h : Blocks s t fl (⟨p, k⟩ :: held) live) : Blocks s (markBlockAllocated t p k) fl held (⟨p, k⟩ :: live) := by
  have hwf := h.wf ⟨p, k⟩ (by simp)
  exact Blocks.replace [⟨p, k⟩] [] [] [⟨p, k⟩] h (fun rest hr => hr) (forall_mem_singleton.2 hwf)
    (fun x hx => markBlockAllocated_same t (hx _ (by simp))) (by simp)
    (forall_mem_singleton.2 (markBlockAllocated_liveTag t p hwf.1))

/-- An allocated block is taken back by the running call. -/
theorem Blocks.release (h : Blocks s t fl held live) (hm : ⟨p, k⟩ ∈ live) :
    Blocks s (markBlockFree t p k) fl (⟨p, k⟩ :: held) (live.erase ⟨p, k⟩) := by
  have hwf := h.wf ⟨p, k⟩ (by simp [hm])
  have h' := h.perm (List.Perm.refl held) (perm_cons_erase hm).symm
  exact Blocks.replace [] [⟨p, k⟩] [⟨p, k⟩] [] h' (fun rest hr => hr) (forall_mem_singleton.2 hwf)
    (fun x hx => markBlockFree_same t (hx _ (by simp))) (forall_mem_singleton.2 (markBlockFree_freeTag t p hwf.1)) (by simp)

/-! ## The loops -/

/-- The free blocks once a block is put on its list. -/
theorem mem_freeBlocks_push (hb : b ∈ freeBlocks (update fl k (p :: fl k))) : b = ⟨p, k⟩ ∨ b ∈ freeBlocks fl := by
  rw [mem_freeBlocks] at hb
  by_cases e : b.level = k
  · subst e
    rw [update_self] at hb
    rcases mem_cons.1 hb.2 with he | hm
    · exact .inl (by rw [← he])
    · exact .inr (mem_freeBlocks.2 ⟨hb.1, hm⟩)
  · rw [update_of_ne e] at hb
    exact .inr (mem_freeBlocks.2 hb)

/-- The free blocks once a block is taken off its list. -/
theorem mem_freeBlocks_erase (hnd : (fl k).Nodup)
    (hb : b ∈ freeBlocks (update fl k ((fl k).erase p))) : b ≠ ⟨p, k⟩ ∧ b ∈ freeBlocks fl := by
  rw [mem_freeBlocks] at hb
  by_cases e : b.level = k
  · subst e
    rw [update_self, hnd.mem_erase_iff] at hb
    exact ⟨fun he => hb.2.1 (by rw [he]), mem_freeBlocks.2 ⟨hb.1, hb.2.2⟩⟩
  · rw [update_of_ne e] at hb
    exact ⟨fun he => e (by rw [he]), mem_freeBlocks.2 hb⟩

/-- No page is twice on a free list. -/
theorem Blocks.nodup_list (h : Blocks s t fl held live) (hk : k < 12) : (fl k).Nodup := by
  have hnd := h.tiles.nodup
  rw [nodup_append, nodup_append, freeBlocks, nodup_flatMap] at hnd
  exact (hnd.2.1.1.1 k (mem_range.2 hk)).of_map _

/-- `buddy_split` leaves the lower end of the block, of the level asked for, with the running call. -/
theorem Blocks.buddySplit {toLevel lvl : Nat} (h : Blocks s t fl (⟨p, lvl⟩ :: held) live) (hle : toLevel ≤ lvl) :
    ∃ s' t' fl', buddySplit p toLevel lvl (s, t) = (s', t') ∧ Blocks s' t' fl' (⟨p, toLevel⟩ :: held) live ∧
      s'.exhausted = s.exhausted ∧ ∀ b ∈ freeBlocks fl', b ∈ freeBlocks fl ∨ ∃ j < lvl, b = ⟨p + 2 ^ j, j⟩ := by
  induction lvl generalizing s t fl with
  | zero =>
    obtain rfl : toLevel = 0 := le_zero.1 hle
    exact ⟨s, t, fl, rfl, h, rfl, fun _ hb => .inl hb⟩
  | succ child ih =>
    rcases lt_or_ge toLevel (child + 1) with hlt | hge
    · obtain ⟨s1, hpush, h1, he1⟩ := h.split.push
      obtain ⟨s', t', fl', hs, h', he, hnew⟩ := ih h1 (le_of_lt_succ hlt)
      refine ⟨s', t', fl', ?_, h', he.trans he1, fun b hb => ?_⟩
      · simp only [TsOs.buddySplit, gt_iff_lt, if_pos hlt, hpush]
        exact hs
      · rcases hnew b hb with hb | ⟨j, hj, rfl⟩
        · exact (mem_freeBlocks_push hb).symm.imp_right (fun e => ⟨child, lt_succ_self child, e⟩)
        · exact .inr ⟨j, lt_succ_of_lt hj, rfl⟩
    · obtain rfl : toLevel = child + 1 := le_antisymm hle hge
      exact ⟨s, t, fl, by simp [TsOs.buddySplit], h, rfl, fun _ hb => .inl hb⟩

/-- A page with a level as tag is the first page of a free block of that level. -/
theorem Blocks.mem_of_tag
    (h : Blocks s t fl [] live) {x : Nat} (hx : x < heapPageCount) (hk : k ≤ buddyMaxLevel) (ht : t.blockLevel x = k) :
    x ∈ fl k := by
  obtain ⟨b, hb, hxb⟩ := h.tiles.exists_mem hx
  simp only [buddyMaxLevel] at hk
  rw [nil_append] at hb
  rcases mem_append.1 hb with hb | hb
  · have htag := h.free b hb
    by_cases e : x = b.start
    · have hlev : b.level = k := by rw [← ht, e, htag.head]
      rw [e, ← hlev]
      exact (mem_freeBlocks.1 hb).2
    · rw [htag.interior x hxb e, pageInterior] at ht
      omega
  · rw [(h.live b hb x hxb).1, pageAllocated] at ht
    omega

/-- `buddy_coalesce` from a block on a free list returns and keeps the heap well formed; when no two other free blocks can be
joined, no two can be joined afterwards. -/
theorem Blocks.buddyCoalesce {n : Nat} : ∀ {s : FreeStore} {t : PageTags} {fl : Nat → List Nat}
    {start level : Nat}, Blocks s t fl [] live → start ∈ fl level → level ≤ buddyMaxLevel → buddyMaxLevel - level < n →
    ∃ s' t' fl', buddyCoalesce n (s, t) start level = some (s', t') ∧ Blocks s' t' fl' [] live ∧
      s'.exhausted = s.exhausted ∧
      (CoalescedBut buddyMaxLevel ⟨start, level⟩ (freeBlocks fl) → Coalesced buddyMaxLevel (freeBlocks fl')) := by
  induction n with
  | zero => exact fun _ _ _ hn => absurd hn (not_lt_zero _)
  | succ n ih =>
    intro s t fl start level h hm hle hn
    rcases lt_or_ge level buddyMaxLevel with hlt | hge
    · simp only [TsOs.buddyCoalesce, if_pos hlt]
      have hl12 : level < 12 := lt_succ_of_le hle
      by_cases hin : buddyOf start level ≥ heapPageCount
      · rw [if_pos hin]
        refine ⟨s, t, fl, rfl, h, rfl, fun hc => hc.coalesced (fun _ hm => ?_)⟩
        exact absurd (h.tiles.lt (mem_append_left live hm) (start_mem_pages ⟨buddyOf start level, level⟩)) (not_lt.2 hin)
      rw [if_neg hin]
      by_cases htag : t.blockLevel (buddyOf start level) ≠ level % 256
      · rw [if_pos htag]
        refine ⟨s, t, fl, rfl, h, rfl, fun hc => hc.coalesced (fun _ hm => htag ?_)⟩
        rw [mod_eq_of_lt (show level < 256 by omega)]
        exact (h.free ⟨buddyOf start level, level⟩ hm).head
      rw [if_neg htag]
      have hb : buddyOf start level ∈ fl level := by
        refine h.mem_of_tag (lt_of_not_ge hin) hle ?_
        rw [not_not] at htag
        exact htag.trans (mod_eq_of_lt (by omega))
      have hal : Buddy.Block.Aligned ⟨start, level⟩ := (h.wf ⟨start, level⟩ (by simp [mem_freeBlocks, hl12, hm])).2
      -- the two halves in either order, and the block they make
      have hpos := Nat.two_pow_pos level
      obtain ⟨m, hmerged, hma, hperm, hne⟩ : ∃ m, (if buddyOf start level < start then buddyOf start level else start) = m ∧
          Buddy.Block.Aligned ⟨m, level + 1⟩ ∧
          [Buddy.Block.mk m level, ⟨m + 2 ^ level, level⟩].Perm [⟨buddyOf start level, level⟩, ⟨start, level⟩] ∧
          buddyOf start level ≠ start := by
        rcases xor_two_pow hal with ⟨ha, hx⟩ | ⟨hp, ha, hx⟩
        · refine ⟨start, if_neg ?_, ha, ?_, ?_⟩ <;> rw [buddyOf, hx]
          · omega
          · exact List.Perm.swap _ _ _
          · omega
        · refine ⟨start - 2 ^ level, ?_, ha, ?_, ?_⟩ <;> rw [buddyOf, hx]
          · rw [if_pos (by omega)]
          · rw [Nat.sub_add_cancel hp]
          · omega
      obtain ⟨s1, hrem1, h1, he1⟩ := h.remove hl12 hm
      obtain ⟨s2, hrem2, h2, he2⟩ := h1.remove hl12 (p := buddyOf start level)
        (by rw [update_self]; exact (mem_erase_of_ne hne).2 hb)
      have h3 := (h2.perm hperm (List.Perm.refl live)).merge hlt hma
      obtain ⟨s4, hpush, h4, he4⟩ := h3.push
      simp only [hrem1, hrem2, Option.bind_some, hmerged, hpush]
      obtain ⟨s', t', fl', hs, h', he, hend⟩ :=
        ih h4 (show m ∈ _ by rw [update_self]; exact mem_cons_self) hlt (by omega)
      refine ⟨s', t', fl', hs, h', ((he.trans he4).trans he2).trans he1, fun hc => hend ?_⟩
      -- only the block they make is new, and the two halves are gone
      have hold : Coalesced buddyMaxLevel (freeBlocks (update (update fl level ((fl level).erase start)) level
          ((update fl level ((fl level).erase start) level).erase (buddyOf start level)))) := by
        intro q j hj hq hq'
        obtain ⟨_, hq⟩ := mem_freeBlocks_erase (h1.nodup_list hl12) hq
        obtain ⟨_, hq'⟩ := mem_freeBlocks_erase (h1.nodup_list hl12) hq'
        obtain ⟨hne1, hq⟩ := mem_freeBlocks_erase (h.nodup_list hl12) hq
        obtain ⟨hne2, hq'⟩ := mem_freeBlocks_erase (h.nodup_list hl12) hq'
        rcases hc q j hj hq hq' with he | he
        · exact hne1 he.symm
        · exact hne2 he.symm
      exact hold.but (fun c hc => mem_freeBlocks_push hc)
    · refine ⟨s, t, fl, ?_, h, rfl, fun hc => hc.coalesced (fun hlt => absurd hlt (not_lt.2 hge))⟩
      simp only [TsOs.buddyCoalesce, if_neg (not_lt.2 hge)]

/-- The loop of `min_level_for_pages` ends at the lowest level, from the present one on, whose blocks are large enough, or at the
highest one. -/
theorem minLevelLoop_spec {n pages level : Nat} (hn : level + n = buddyMaxLevel) :
    minLevelLoop pages n level (2 ^ level) ≤ buddyMaxLevel ∧
    (pages ≤ 2 ^ minLevelLoop pages n level (2 ^ level) ∨ minLevelLoop pages n level (2 ^ level) = buddyMaxLevel) ∧
    ∀ j, level ≤ j → j < minLevelLoop pages n level (2 ^ level) → 2 ^ j < pages := by
  induction n generalizing level with
  | zero => exact ⟨by simp only [minLevelLoop]; omega, .inr hn, fun j h1 h2 => absurd h2 (not_lt.2 h1)⟩
  | succ n ih =>
    rw [minLevelLoop]
    by_cases hc : 2 ^ level < pages ∧ level < buddyMaxLevel
    · have hmod : 2 ^ level * 2 % 2 ^ 64 = 2 ^ (level + 1) := by
        rw [← pow_succ]
        exact Nat.mod_eq_of_lt (Nat.pow_lt_pow_right (by decide) (by simp only [buddyMaxLevel] at hn; omega))
      rw [if_pos hc, hmod]
      obtain ⟨hle, hend, hlow⟩ := ih (show level + 1 + n = buddyMaxLevel by omega)
      refine ⟨hle, hend, fun j h1 h2 => ?_⟩
      rcases lt_or_eq_of_le h1 with h1 | rfl
      · exact hlow j h1 h2
      · exact hc.1
    · rw [if_neg hc]
      exact ⟨by omega, by omega, fun j h1 h2 => absurd h2 (not_lt.2 h1)⟩

/-- The level of a request is the lowest one whose blocks are large enough, when it is for at most half the heap; any other request
gets a level that is not above the highest. -/
theorem needLevel_spec (size : BitVec 64) : needLevel size ≤ buddyMaxLevel ∧
    (size.toNat ≤ 2 ^ 23 → size.toNat ≤ 4096 * 2 ^ needLevel size ∧ ∀ j < needLevel size, 4096 * 2 ^ j < size.toNat) := by
  obtain ⟨pages, hlevel, hpages⟩ : ∃ pages, needLevel size = minLevelLoop pages 11 0 (2 ^ 0) ∧
      (size.toNat ≤ 2 ^ 23 → pages ≤ 2 ^ 11 ∧ size.toNat ≤ 4096 * pages ∧ ∀ n, 0 < n → n < pages → 4096 * n < size.toNat) := by
    refine ⟨_, rfl, fun h => ⟨?_, ?_, fun n h0 hn => ?_⟩⟩
    · (repeat' split) <;> omega
    · (repeat' split) <;> omega
    · (repeat' split at hn) <;> omega
  obtain ⟨hle, hend, hlow⟩ := @minLevelLoop_spec 11 pages 0 rfl
  rw [hlevel]
  refine ⟨hle, fun h => ?_⟩
  obtain ⟨hmax, hsize, hmin⟩ := hpages h
  refine ⟨?_, fun j hj => hmin _ (Nat.two_pow_pos j) (hlow j (Nat.zero_le j) hj)⟩
  rcases hend with hend | hend
  · exact hsize.trans (mul_le_mul_left 4096 hend)
  · rw [hend]
    exact hsize.trans (mul_le_mul_left 4096 hmax)

/-- A level is high enough for a request of at most half the heap when its blocks are large enough. -/
theorem needLevel_le_iff {size : BitVec 64} (h : size.toNat ≤ 2 ^ 23) (j : Nat) :
    needLevel size ≤ j ↔ size.toNat ≤ 4096 * 2 ^ j := by
  obtain ⟨hlarge, hlow⟩ := (needLevel_spec size).2 h
  constructor
  · intro hle
    exact hlarge.trans (Nat.mul_le_mul_left 4096 (Nat.pow_le_pow_right (by decide) hle))
  · intro hle
    exact Nat.le_of_not_lt (fun hlt => absurd (hlow j hlt) (Nat.not_lt.2 hle))

/-- The first loop of `kmalloc` ends at the first list, from the given one on, that is not empty, or beyond the levels. -/
theorem firstLevel_spec (s : FreeStore) (n level : Nat) : level ≤ firstLevel s n level ∧
    (level + n ≤ firstLevel s n level ∨ buddyMaxLevel < firstLevel s n level ∨ flHas s (firstLevel s n level) = true) ∧
    ∀ j, level ≤ j → j < firstLevel s n level → flHas s j = false := by
  induction n generalizing level with
  | zero => exact ⟨le_refl _, .inl (le_refl _), fun j h1 h2 => absurd h2 (not_lt.2 h1)⟩
  | succ n ih =>
    rw [firstLevel]
    by_cases hc : level ≤ buddyMaxLevel ∧ (!flHas s level) = true
    · obtain ⟨h1, h2, h3⟩ := ih (level + 1)
      rw [if_pos hc]
      refine ⟨by omega, h2.imp_left (by omega), fun j hj hj' => ?_⟩
      rcases lt_or_eq_of_le hj with hj | rfl
      · exact h3 j hj hj'
      · rw [← Bool.not_eq_true']
        exact hc.2
    · rw [if_neg hc]
      refine ⟨le_refl _, .inr ?_, fun j h1 h2 => absurd h2 (not_lt.2 h1)⟩
      rw [not_and_or, not_le, Bool.not_eq_true', Bool.not_eq_false] at hc
      exact hc

end TsOs
