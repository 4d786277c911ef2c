import TsOs.Lemmas.UserHeap

/-!
# The calls of the user heap

An allocator, seen from outside, is a map from the addresses of the blocks in use to their sizes. `Holds` says that a heap is one for
such a map; for each call of `malloc.c`: it returns, the map changes in one place, and the blocks of the map keep their bytes.
-/

namespace TsOs

open Bytes HeapBlocks UserHeapAux Function List BitVec Nat

/-- The block list tiles the heap from its base on, within the break, and no two neighbours are free. -/
structure UserHeap.Tiled (h : UserHeap) (bs : List Blk) : Prop where
  head : h.head = start h.base bs 0
  laid : Laid h.mem h.base bs 0
  fits : h.base + extent 24 bs ≤ h.brk
  merged : Merged bs
  low : h.brk < 2 ^ 63
  avail : h.brk ≤ h.kernelBrk
  word : h.kernelBrk < 2 ^ 64
  asked : 0 < h.kernelBrk
  fresh : h.base = 0 → bs = []

/-- The blocks in use, with the addresses of their headers, are those of `used`. -/
def UserHeap.Holds (h : UserHeap) (used : Nat → Option Nat) : Prop :=
  ∃ bs, h.Tiled bs ∧ ∀ x s, used x = some s ↔ At 24 h.base bs x ⟨s, false⟩

/-- The blocks of the map keep their bytes. -/
def KeptData (used : Nat → Option Nat) (mem mem' : Nat → BitVec 8) : Prop :=
  ∀ x s, used x = some s → ∀ i < s, mem' (x + 24 + i) = mem (x + 24 + i)

/-- The size of a request, with the header and the rounding, is a word. -/
def RequestFits (size : Nat) : Prop := size + 7 < 2 ^ 64 ∧ UserHeap.alignSize size + 24 + 4095 < 2 ^ 64

/-- The break as `malloc` sees it, after its first call. -/
def UserHeap.currentBrk (h : UserHeap) : Nat := if h.base = 0 then h.kernelBrk else h.brk

/-- The break does not wrap around when the heap is grown for the request. -/
def UserHeap.RoomFor (h : UserHeap) (size : Nat) : Prop :=
  h.currentBrk + UserHeap.pageAlign (UserHeap.alignSize size + 24) < 2 ^ 64

/-- The call has handed out a block of at least `size` bytes, and `r` is its first byte. -/
def UserHeap.Hands (h : UserHeap) (used : Nat → Option Nat) (size : Nat) (h' : UserHeap) (r : Nat) : Prop :=
  ∃ x s, r = x + 24 ∧ size ≤ s ∧ used x = none ∧ h'.Holds (Function.update used x (some s)) ∧ KeptData used h.mem h'.mem

variable {mem' : Nat → BitVec 8} {n size : Nat} {bs : List Blk}

namespace UserHeapAux

theorem pageAlign_spec (hn : n + 4095 < 2 ^ 64) : n ≤ UserHeap.pageAlign n ∧ UserHeap.pageAlign n ≤ n + 4095 := by
  unfold UserHeap.pageAlign
  rw [Bits.and_not_mask (mod_lt _ (by decide)) (by decide)]
  omega

theorem alignSize_spec (hs : size + 7 < 2 ^ 64) : size ≤ UserHeap.alignSize size ∧ 0 < UserHeap.alignSize size := by
  unfold UserHeap.alignSize UserHeap.minBlockSize
  rw [Bits.and_not_mask (mod_lt _ (by decide)) (by decide)]
  dsimp only
  split <;> omega

variable {h : UserHeap} {used : Nat → Option Nat}

theorem SameUsed.trans {a : Nat} {mem1 mem2 mem3 : Nat → BitVec 8} (h1 : SameUsed a bs mem1 mem2)
    (h2 : SameUsed a bs mem2 mem3) : SameUsed a bs mem1 mem3 :=
  fun x s hx i hi => (h2 x s hx i hi).trans (h1 x s hx i hi)

/-- What is written at a block that is not in use is of no concern to the others. -/
theorem sameUsed_of_free {a : Nat} {pre post : List Blk} {b : Blk} {mem : Nat → BitVec 8} (hb : b.free = true)
    (hold : ∀ i, i < a + extent 24 pre ∨ a + extent 24 pre + (24 + b.size) ≤ i → mem' i = mem i) :
    SameUsed a (pre ++ b :: post) mem mem' := by
  intro x s hx i hi
  rcases hx.eq_or_apart at_middle with ⟨-, he⟩ | hlt | hlt
  · rw [← he] at hb
    cases hb
  · exact hold _ (.inl (by dsimp only at hlt; omega))
  · exact hold _ (.inr (by omega))

end UserHeapAux

namespace UserHeap

variable {h : UserHeap} {bs pre post : List Blk} {b : Blk}

theorem Tiled.header (ht : h.Tiled (pre ++ b :: post)) :
    HeaderAt h.mem (h.base + extent 24 pre) b (start (h.base + extent 24 pre + (24 + b.size)) post 0) :=
  (laid_append.1 ht.laid).2.1

theorem Tiled.base_pos (ht : h.Tiled (pre ++ b :: post)) : 0 < h.base :=
  Nat.pos_of_ne_zero fun hz => by simpa using ht.fresh hz

theorem Tiled.length_lt (ht : h.Tiled bs) : bs.length < blockFuel := by
  have hlen := length_le_extent 24 bs
  have hfits := ht.fits
  have hlow := ht.low
  unfold blockFuel
  omega

theorem Tiled.start_lt (ht : h.Tiled (pre ++ b :: post)) : start (h.base + extent 24 pre + (24 + b.size)) post 0 < 2 ^ 64 := by
  have hfits := ht.fits
  have hlow := ht.low
  rw [extent_append, extent_cons] at hfits
  cases post <;> simp only [start] <;> omega

/-- Only the memory changes, and blocks in the middle are exchanged for others of the same extent. -/
theorem Tiled.replace {mid mid' : List Blk} (ht : h.Tiled (pre ++ mid ++ post))
    (hmid : Laid mem' (h.base + extent 24 pre) mid' (start (h.base + extent 24 (pre ++ mid)) post 0))
    (he : extent 24 mid' = extent 24 mid) (hne : mid ≠ []) (hne' : mid' ≠ []) (hmerged : Merged (pre ++ mid' ++ post))
    (hlo : ∀ i < h.base + extent 24 pre, mem' i = h.mem i) (hhi : ∀ i, h.base + extent 24 (pre ++ mid) ≤ i → mem' i = h.mem i) :
    Tiled { h with mem := mem' } (pre ++ mid' ++ post) where
  head := by
    rw [start_of_ne_nil (by simp [hne'])]
    have hhead := ht.head
    rwa [start_of_ne_nil (by simp [hne])] at hhead
  laid := ht.laid.replace hmid he hne hne' hlo hhi
  fits := by
    have hfits := ht.fits
    simp only [extent_append, he] at hfits ⊢
    exact hfits
  merged := hmerged
  low := ht.low
  avail := ht.avail
  word := ht.word
  asked := ht.asked
  fresh hz := absurd (ht.fresh hz) (by simp [hne])

theorem Tiled.take (ht : h.Tiled (pre ++ b :: post)) (hb : b.free = true) (hle : size ≤ b.size) :
    ∃ mem' s rest, h.takeBlock (h.base + extent 24 pre) size = ({ h with mem := mem' }, h.base + extent 24 pre + 24) ∧
      Tiled { h with mem := mem' } (pre ++ ⟨s, false⟩ :: (rest ++ post)) ∧ size ≤ s ∧
      (rest = [] ∨ ∃ c : Blk, rest = [c] ∧ c.free = true) ∧ 24 + s + extent 24 rest = 24 + b.size ∧
      SameUsed h.base (pre ++ b :: post) h.mem mem' := by
  have hfits := ht.fits
  have hlow := ht.low
  rw [extent_append, extent_cons] at hfits
  obtain ⟨mem', s, rest, hrun, hlaid, hs, hrest, hext, hold⟩ := takeBlock_spec h ht.header hle (by omega) ht.start_lt
  refine ⟨mem', s, rest, hrun, ?_, hs, hrest, hext, sameUsed_of_free hb hold⟩
  have hmerged := ht.merged.take (u := ⟨s, false⟩) hb rfl hrest
  rw [show pre ++ b :: post = pre ++ [b] ++ post by simp] at ht
  rw [show pre ++ (⟨s, false⟩ : Blk) :: (rest ++ post) = pre ++ (⟨s, false⟩ :: rest) ++ post by simp] at hmerged ⊢
  have haddr : h.base + extent 24 (pre ++ [b]) = h.base + extent 24 pre + (24 + b.size) := by
    simp only [extent_append, extent_cons, extent_nil]
    omega
  refine ht.replace ?_ (by simpa using hext) (by simp) (by simp) hmerged (fun i hi => hold i (.inl hi)) fun i hi => hold i (.inr ?_)
  · rw [haddr]
    exact hlaid
  · rwa [haddr] at hi

/-- The last block, which is free, gets the bytes by which the heap has been grown. -/
theorem Tiled.extend (ht : h.Tiled (pre ++ [b])) (hb : b.free = true) (hn : h.base + extent 24 (pre ++ [b]) + n ≤ h.brk) :
    ∃ mem', h.setSize (h.base + extent 24 pre) (b.size + n) = { h with mem := mem' } ∧
      Tiled { h with mem := mem' } (pre ++ [⟨b.size + n, true⟩]) ∧ SameUsed h.base (pre ++ [b]) h.mem mem' := by
  have hlow := ht.low
  simp only [extent_append, extent_cons, extent_nil] at hn
  have hheader := ht.header.setSize (b.size + n)
  rw [mod_eq_of_lt (by omega), hb] at hheader
  have hold : ∀ i, i < h.base + extent 24 pre ∨ h.base + extent 24 pre + (24 + b.size) ≤ i →
      putLe 8 h.mem (h.base + extent 24 pre) (b.size + n) i = h.mem i := fun i hi => putLe_outside (by omega)
  refine ⟨_, rfl, ?_, sameUsed_of_free hb hold⟩
  have hmerged := ht.merged
  unfold Merged at hmerged
  rw [isChain_append] at hmerged
  constructor
  case head => simpa [start_of_ne_nil] using ht.head
  case laid =>
    refine laid_append.2 ⟨?_, hheader, laid_nil _ _ _⟩
    exact (laid_append.1 ht.laid).1.congr fun i _ hi => hold i (.inl hi)
  case fits =>
    simp only [extent_append, extent_cons, extent_nil]
    omega
  case merged =>
    refine isChain_append.2 ⟨hmerged.1, isChain_singleton _, fun c hc d hd => ?_⟩
    cases hd
    have hlast := hmerged.2.2 c hc b rfl
    rwa [hb] at hlast
  case fresh => exact fun hz => absurd (ht.fresh hz) (by simp)
  all_goals first | exact ht.low | exact ht.avail | exact ht.word | exact ht.asked

theorem Tiled.first (ht : h.Tiled []) (hbase : 0 < h.base) (hn : h.base + (24 + n) ≤ h.brk) :
    Tiled { h.newHeader h.base (n + 24) with head := h.base } [⟨n, false⟩] := by
  have hlow := ht.low
  have hnew := headerAt_new h.mem h.base (n + 24 + (2 ^ 64 - 24)) 0 false
  rw [show (n + 24 + (2 ^ 64 - 24)) % 2 ^ 64 = n by omega] at hnew
  exact ⟨rfl, ⟨hnew, laid_nil _ _ _⟩, by simpa [newHeader, setNext, setFree, setSize] using hn, isChain_singleton _, ht.low,
    ht.avail, ht.word, ht.asked, fun hz => absurd hz hbase.ne'⟩

theorem Tiled.snoc (ht : h.Tiled (pre ++ [b])) (hn : h.base + extent 24 (pre ++ [b]) + (24 + n) ≤ h.brk) :
    ∃ mem1 mem', h.newHeader (h.base + extent 24 (pre ++ [b])) (n + 24) = { h with mem := mem1 } ∧
      lastBlock { h with mem := mem1 } blockFuel h.head = some (h.base + extent 24 pre) ∧
      setNext { h with mem := mem1 } (h.base + extent 24 pre) (h.base + extent 24 (pre ++ [b])) = { h with mem := mem' } ∧
      Tiled { h with mem := mem' } (pre ++ [b] ++ [⟨n, false⟩]) ∧ SameUsed h.base (pre ++ [b]) h.mem mem' := by
  have hlow := ht.low
  have hlen := ht.length_lt
  have hnew := headerAt_new h.mem (h.base + extent 24 (pre ++ [b])) (n + 24 + (2 ^ 64 - 24)) 0 false
  rw [show (n + 24 + (2 ^ 64 - 24)) % 2 ^ 64 = n by omega] at hnew
  generalize hmem1 : putLe 8 (putLe 4 (putLe 8 h.mem (h.base + extent 24 (pre ++ [b])) (n + 24 + (2 ^ 64 - 24)))
    (h.base + extent 24 (pre ++ [b]) + 8) false.toNat) (h.base + extent 24 (pre ++ [b]) + 16) 0 = mem1 at hnew
  have hold1 : ∀ i < h.base + extent 24 (pre ++ [b]), mem1 i = h.mem i := by
    intro i hi
    rw [← hmem1, putLe_outside (by omega), putLe_outside (by omega), putLe_outside (by omega)]
  have hlaid1 : Laid mem1 h.base (pre ++ [b]) 0 := ht.laid.congr fun i _ hi => hold1 i hi
  have hlast : lastBlock { h with mem := mem1 } blockFuel h.head = some (h.base + extent 24 pre) := by
    rw [ht.head]
    rw [length_append] at hlen
    exact lastBlock_spec hlaid1 ht.base_pos (by omega)
  obtain ⟨hpre, hb, -⟩ := laid_append.1 hlaid1
  have haddr : h.base + extent 24 (pre ++ [b]) = h.base + extent 24 pre + (24 + b.size) := by
    simp only [extent_append, extent_cons, extent_nil]
    omega
  have hb' := hb.setNext (h.base + extent 24 (pre ++ [b]))
  rw [mod_eq_of_lt (show h.base + extent 24 (pre ++ [b]) < 2 ^ 64 by omega)] at hb'
  refine ⟨mem1, _, ?_, hlast, rfl, ?_, fun y s hy i hi => ?_⟩
  · rw [← hmem1]
    rfl
  · constructor
    case head =>
      rw [ht.head, start_of_ne_nil (by simp), start_of_ne_nil (by simp)]
    case laid =>
      refine laid_append.2 ⟨laid_append.2 ⟨?_, ?_, laid_nil _ _ _⟩, ?_, laid_nil _ _ _⟩
      · exact hpre.congr fun i _ hi => putLe_outside (by omega)
      · exact hb'
      · exact hnew.congr fun i hi _ => putLe_outside (by omega)
    case fits =>
      have hfits : h.base + extent 24 (pre ++ [b] ++ [⟨n, false⟩]) ≤ h.brk := by
        rw [extent_append, extent_cons, extent_nil]
        dsimp only
        omega
      exact hfits
    case merged => exact ht.merged.snoc rfl
    case fresh => exact fun hz => absurd (ht.fresh hz) (by simp)
    all_goals first | exact ht.low | exact ht.avail | exact ht.word | exact ht.asked
  · have hbound := hy.bounds
    have hapart := hy.eq_or_apart at_middle
    dsimp only at hbound hapart
    exact (putLe_outside (by omega)).trans (hold1 _ (by omega))

variable {used : Nat → Option Nat}

theorem Hands.of_tiled {h' : UserHeap} {bs bs' : List Blk} {x s : Nat}
    (hu : ∀ x s, used x = some s ↔ At 24 h.base bs x ⟨s, false⟩) (ht : h'.Tiled bs') (hbase : h'.base = h.base) (hs : size ≤ s)
    (hnone : ∀ t, ¬ At 24 h.base bs x ⟨t, false⟩)
    (hat : ∀ y t, At 24 h.base bs' y ⟨t, false⟩ ↔ y = x ∧ t = s ∨ At 24 h.base bs y ⟨t, false⟩)
    (hsame : SameUsed h.base bs h.mem h'.mem) : h.Hands used size h' (x + 24) := by
  have hx : used x = none := Option.eq_none_iff_forall_ne_some.2 fun t ht => hnone t ((hu x t).1 ht)
  refine ⟨x, s, rfl, hs, hx, ⟨bs', ht, fun y t => ?_⟩, fun y t hy => hsame y t ((hu y t).1 hy)⟩
  rw [hbase, hat, ← hu]
  by_cases hy : y = x
  · subst hy
    simp [hx, eq_comm]
  · simp [hy]

theorem mallocGrown_spec (ht : h.Tiled bs)
    (hu : ∀ x s, used x = some s ↔ At 24 h.base bs x ⟨s, false⟩) (hbase : 0 < h.base)
    (hn : h.base + extent 24 bs + (size + 24) ≤ h.brk) :
    ∃ h' r, h.mallocGrown size (size + 24) = some (h', r) ∧ h.Hands used size h' r := by
  have hlow := ht.low
  have hlen := ht.length_lt
  unfold mallocGrown
  rcases eq_nil_or_concat' bs with rfl | ⟨pre, b, rfl⟩
  · have hhead : h.head = 0 := ht.head
    rw [if_neg (not_not.2 hhead)]
    have hfirst := ht.first hbase (n := size) (by omega)
    refine ⟨_, h.base + 24, congrArg some (Prod.ext rfl (mod_eq_of_lt (by unfold blockHdrSize; omega))), ?_⟩
    refine Hands.of_tiled hu hfirst rfl le_rfl (fun _ => at_nil) (fun y t => ?_) fun y t hy => absurd hy at_nil
    simp
  · have hhead : h.head = h.base := ht.head.trans (start_of_ne_nil (by simp))
    rw [length_append] at hlen
    have hlast : h.lastBlock blockFuel h.head = some (h.base + extent 24 pre) := by
      rw [ht.head]
      exact lastBlock_spec ht.laid hbase (by omega)
    obtain ⟨hsize, hfree, -⟩ := headerAt_iff.1 ht.header
    rw [if_pos (by omega), hlast, Option.bind_some, hfree, hsize]
    cases hb : b.free with
    | true =>
      obtain ⟨mem1, hset, ht1, hsame1⟩ := ht.extend (n := size + 24) hb (by omega)
      obtain ⟨mem2, s, rest, htake, ht2, hs, hrest, hext, hsame2⟩ := ht1.take rfl
        (show size ≤ b.size + (size + 24) by omega)
      dsimp only
      rw [hset, htake]
      refine ⟨_, _, rfl, Hands.of_tiled hu ht2 rfl hs (fun t hx => ?_) (fun y t => ?_) ?_⟩
      · have := (hx.unique (by decide) at_middle).symm
        simp [this] at hb
      · rw [at_take rfl hext hrest]
        simp only [at_append, at_cons, at_nil, or_false]
        constructor
        · rintro (h1 | h1 | ⟨-, h1⟩)
          · exact .inl h1
          · exact .inr (.inl h1)
          · cases h1
        · rintro (h1 | h1 | ⟨-, h1⟩)
          · exact .inl h1
          · exact .inr (.inl h1)
          · simp [← h1] at hb
      · refine hsame1.trans fun y t hy => hsame2 y t ?_
        simp only [at_append, at_cons, at_nil, or_false] at hy ⊢
        rcases hy with hy | ⟨-, hy⟩
        · exact .inl hy
        · simp [← hy] at hb
    | false =>
      obtain ⟨mem1, mem', hhdr, hlast1, hset, ht', hsame⟩ := ht.snoc (n := size) (by omega)
      have haddr : (h.base + extent 24 pre + blockHdrSize + b.size) % 2 ^ 64 = h.base + extent 24 (pre ++ [b]) := by
        simp only [extent_append, extent_cons, extent_nil, blockHdrSize] at hn ⊢
        omega
      dsimp only
      rw [haddr, hhdr, hlast1, Option.map_some, hset, mod_eq_of_lt (by unfold blockHdrSize; omega)]
      refine ⟨_, _, rfl, Hands.of_tiled hu ht' rfl le_rfl (fun t hx => ?_) (fun y t => ?_) hsame⟩
      · have := hx.bounds
        omega
      · rw [at_append, at_cons]
        simp only [at_nil, or_false, Blk.mk.injEq, and_true]
        exact or_comm

theorem growHeap_spec (ht : h.Tiled bs) (grant : Bool) (hpos : 0 < n) (hn : n + 4095 < 2 ^ 64)
    (hroom : h.brk + pageAlign n < 2 ^ 64) :
    ∃ h' ok, h.growHeap grant n = (h', ok) ∧ h'.mem = h.mem ∧ h'.base = h.base ∧ h'.Tiled bs ∧
      (ok = true → h.brk + n ≤ h'.brk) := by
  have hpage := pageAlign_spec hn
  have hne : ¬ h.brk + pageAlign n = 0 := by omega
  unfold growHeap sysBrk
  dsimp only
  rw [mod_eq_of_lt hroom, if_neg hne]
  cases grant with
  | true =>
    have hval : (BitVec.ofNat 64 (h.brk + pageAlign n)).toNat = h.brk + pageAlign n := mod_eq_of_lt hroom
    rw [if_pos (show true = true from rfl)]
    by_cases hneg : (BitVec.ofNat 64 (h.brk + pageAlign n)).toInt < 0
    · -- the break has been moved, but its address is negative as a `long`
      rw [if_pos hneg]
      exact ⟨_, _, rfl, rfl, rfl, ⟨ht.head, ht.laid, ht.fits, ht.merged, ht.low, le_add_right _ _, hroom,
        lt_of_lt_of_le (by omega) (le_add_left _ _), ht.fresh⟩, nofun⟩
    · rw [if_neg hneg, hval]
      rw [toInt_neg_iff] at hneg
      exact ⟨_, _, rfl, rfl, rfl, ⟨ht.head, ht.laid, ht.fits.trans (le_add_right _ _), ht.merged, by dsimp only; omega, le_rfl, hroom,
        lt_of_lt_of_le (by omega) (le_add_left _ _), ht.fresh⟩, fun _ => by dsimp only; omega⟩
  | false => exact ⟨h, false, rfl, rfl, rfl, ht, nofun⟩

theorem initHeap_spec (hh : h.Holds used) (grant : Bool) :
    h.initHeap grant = none ∨ ∃ h', h.initHeap grant = some h' ∧ h'.mem = h.mem ∧ 0 < h'.base ∧ h'.brk = h.currentBrk ∧
      h'.Holds used := by
  obtain ⟨bs, ht, hu⟩ := hh
  unfold initHeap currentBrk sysBrk
  by_cases hbase : h.base = 0
  · rw [if_pos hbase, if_pos rfl, if_pos hbase]
    have hval : (BitVec.ofNat 64 h.kernelBrk).toNat = h.kernelBrk := mod_eq_of_lt ht.word
    dsimp only
    by_cases hneg : (BitVec.ofNat 64 h.kernelBrk).toInt < 0
    · exact .inl (if_pos hneg)
    · rw [if_neg hneg, hval]
      rw [toInt_neg_iff] at hneg
      obtain rfl := ht.fresh hbase
      exact .inr ⟨_, rfl, rfl, ht.asked, rfl, [], ⟨ht.head, laid_nil _ _ _, le_rfl, isChain_nil, by dsimp only; omega, le_rfl,
        ht.word, ht.asked, fun _ => rfl⟩, hu⟩
  · rw [if_neg hbase, if_neg hbase]
    exact .inr ⟨h, rfl, rfl, Nat.pos_of_ne_zero hbase, rfl, bs, ht, hu⟩

theorem Hands.congr {h1 h' : UserHeap} {size' r : Nat} (hh : h1.Hands used size h' r)
    (hmem : h1.mem = h.mem) (hle : size' ≤ size) : h.Hands used size' h' r := by
  obtain ⟨x, s, hr, hs, hx, hholds, hkept⟩ := hh
  rw [hmem] at hkept
  exact ⟨x, s, hr, hle.trans hs, hx, hholds, hkept⟩

/-- `malloc` returns a null pointer or a block that was not in use. -/
theorem malloc_spec (hh : h.Holds used) (grant : Bool) (hsize : RequestFits size)
    (hroom : h.RoomFor size) :
    ∃ h' r, h.malloc grant size = some (h', r) ∧
      (r = 0 ∧ h'.Holds used ∧ KeptData used h.mem h'.mem ∨ h.Hands used size h' r) := by
  unfold malloc
  by_cases hz : size = 0
  · rw [if_pos hz]
    exact ⟨h, 0, rfl, .inl ⟨rfl, hh, fun _ _ _ _ _ => rfl⟩⟩
  obtain ⟨hle, hpos⟩ := alignSize_spec hsize.1
  rw [if_neg hz]
  rcases initHeap_spec hh grant with hnone | ⟨h1, hinit, hmem, hbase, hbrk, bs, ht, hu⟩
  · rw [hnone]
    exact ⟨h, 0, rfl, .inl ⟨rfl, hh, fun _ _ _ _ _ => rfl⟩⟩
  rw [hinit]
  dsimp only
  have hlen := ht.length_lt
  rw [ht.head]
  rcases findFit_spec (alignSize size) ht.laid hbase hlen with hfind | ⟨pre, b, post, rfl, hb, hfit, hfind⟩
  · -- no block is large enough
    rw [hfind, blockHdrSize, mod_eq_of_lt (lt_of_le_of_lt (le_add_right _ 4095) hsize.2)]
    unfold RoomFor at hroom
    rw [← hbrk] at hroom
    obtain ⟨h2, ok, hgrow, hmem2, hbase2, ht2, hmore⟩ := growHeap_spec ht grant (Nat.add_pos_left hpos _) hsize.2 hroom
    have hu2 : ∀ x s, used x = some s ↔ At 24 h2.base bs x ⟨s, false⟩ := by rwa [hbase2]
    rw [hgrow]
    cases ok with
    | false =>
      refine ⟨h2, 0, rfl, .inl ⟨rfl, ⟨bs, ht2, hu2⟩, ?_⟩⟩
      rw [hmem2, hmem]
      exact fun _ _ _ _ _ => rfl
    | true =>
      have hfits := ht.fits
      have hgrown := hmore rfl
      have hspace : h2.base + extent 24 bs + (alignSize size + 24) ≤ h2.brk := by omega
      obtain ⟨h3, r, hrun, hhands⟩ := mallocGrown_spec ht2 hu2 (by omega) hspace
      exact ⟨h3, r, hrun, .inr (hhands.congr (hmem2.trans hmem) hle)⟩
  · rw [hfind]
    obtain ⟨mem', s, rest, htake, ht', hs, hrest, hext, hsame⟩ := ht.take hb hfit
    dsimp only
    rw [htake]
    refine ⟨_, _, rfl, .inr (Hands.congr (Hands.of_tiled hu ht' rfl hs (fun t hx => ?_) (fun y t => at_take hb hext hrest) hsame)
      hmem hle)⟩
    have := (hx.unique (by decide) at_middle).symm
    simp [this] at hb

/-! ## A block in use -/

section Used

variable {used : Nat → Option Nat} {x s : Nat}

section

variable (hh : h.Holds used) (hx : used x = some s)
include hh hx

theorem Holds.header :
    ∃ pre post, h.Tiled (pre ++ ⟨s, false⟩ :: post) ∧ x = h.base + extent 24 pre ∧
      ∀ y t, used y = some t ↔ At 24 h.base (pre ++ ⟨s, false⟩ :: post) y ⟨t, false⟩ := by
  obtain ⟨bs, ht, hu⟩ := hh
  obtain ⟨pre, post, rfl, rfl⟩ := ((hu x s).1 hx).exists_append
  exact ⟨pre, post, ht, rfl, hu⟩

theorem Holds.bounds : 0 < x ∧ x + (24 + s) < 2 ^ 63 ∧ h.size x = s := by
  obtain ⟨pre, post, ht, rfl, -⟩ := hh.header hx
  have hpos := ht.base_pos
  have hfits := ht.fits
  have hlow := ht.low
  simp only [extent_append, extent_cons] at hfits
  exact ⟨by omega, by omega, ht.header.size⟩

theorem Holds.apart {y t : Nat} (hy : used y = some t) (hne : x ≠ y) :
    x + (24 + s) ≤ y ∨ y + (24 + t) ≤ x := by
  obtain ⟨bs, -, hu⟩ := hh
  rcases ((hu x s).1 hx).eq_or_apart ((hu y t).1 hy) with ⟨h, -⟩ | h
  · exact absurd h hne
  · exact h

omit hh hx in
theorem headerOf_eq (hx : x < 2 ^ 63) : headerOf (x + 24) = x := by
  unfold headerOf blockHdrSize
  omega

theorem Holds.write
    (hold : ∀ i, i < x + 24 ∨ x + (24 + s) ≤ i → mem' i = h.mem i) : Holds { h with mem := mem' } used := by
  obtain ⟨pre, post, ht, rfl, hu⟩ := hh.header hx
  refine ⟨pre ++ [⟨s, false⟩] ++ post, ?_, ?_⟩
  · have haddr : h.base + extent 24 (pre ++ [⟨s, false⟩]) = h.base + extent 24 pre + (24 + s) := by
      simp only [extent_append, extent_cons, extent_nil]
      omega
    have hheader := ht.header
    have hmerged := ht.merged
    rw [show pre ++ (⟨s, false⟩ : Blk) :: post = pre ++ [⟨s, false⟩] ++ post by simp] at ht hmerged
    refine ht.replace ⟨?_, laid_nil _ _ _⟩ rfl (by simp) (by simp) hmerged (fun i hi => hold i (.inl (by omega))) fun i hi =>
      hold i (.inr (by omega))
    rw [haddr]
    exact hheader.congr fun i _ hi => hold i (.inl hi)
  · simpa using hu

end

/-- A block that is not one of two apart blocks keeps its bytes when the other is written. -/
theorem keptData_write {mem mem1 : Nat → BitVec 8} {used' : Nat → Option Nat} (hk : KeptData used mem mem1) (hh : h.Holds used')
    (hx : used' x = some s) (hsub : ∀ y t, used y = some t → used' y = some t ∧ y ≠ x)
    (hold : ∀ i, i < x + 24 ∨ x + (24 + s) ≤ i → mem' i = mem1 i) : KeptData used mem mem' := by
  intro y t hy i hi
  obtain ⟨hy', hne⟩ := hsub y t hy
  rw [hold _ (by have := hh.apart hy' hx hne; omega), hk y t hy i hi]

theorem free_spec (hh : h.Holds used) (hx : used x = some s) :
    ∃ h', h.free (x + 24) = some h' ∧ h'.Holds (update used x none) ∧
      KeptData (update used x none) h.mem h'.mem := by
  have hlow := (hh.bounds hx).2.1
  obtain ⟨pre, post, ht, rfl, hu⟩ := hh.header hx
  unfold free coalesce
  rw [if_neg (by omega), headerOf_eq (by omega)]
  -- the header says that the block is free
  have hheader := ht.header.setFree true
  have hold1 : ∀ i, i < h.base + extent 24 pre ∨ h.base + extent 24 pre + 24 ≤ i →
      putLe 4 h.mem (h.base + extent 24 pre + 8) true.toNat i = h.mem i := fun i hi => putLe_outside (by omega)
  have hset : h.setFree (h.base + extent 24 pre) 1 = { h with mem := putLe 4 h.mem (h.base + extent 24 pre + 8) true.toNat } := rfl
  rw [hset]
  generalize putLe 4 h.mem (h.base + extent 24 pre + 8) true.toNat = mem1 at hheader hold1
  have hlaid1 : Laid mem1 h.base (pre ++ ⟨s, true⟩ :: post) 0 := by
    obtain ⟨hpre, -, hpost⟩ := laid_append.1 ht.laid
    exact laid_append.2 ⟨hpre.congr fun i _ hi => hold1 i (.inl hi), hheader, hpost.congr fun i hi _ => hold1 i (.inr (by omega))⟩
  have hat : ∀ y t, At 24 h.base (pre ++ ⟨s, true⟩ :: post) y ⟨t, false⟩ ↔
      update used (h.base + extent 24 pre) none y = some t := by
    intro y t
    by_cases hy : y = h.base + extent 24 pre
    · subst hy
      rw [update_self]
      refine iff_of_false (fun hmid => ?_) nofun
      cases hmid.unique (by decide) at_middle
    · rw [update_of_ne hy, hu, at_append, at_append]
      simp [hy]
  have hlen := ht.length_lt
  have hfits := ht.fits
  have hbase := ht.base_pos
  have hext : extent 24 (pre ++ ⟨s, true⟩ :: post) = extent 24 (pre ++ ⟨s, false⟩ :: post) := by simp
  -- the free blocks are merged
  have hhead : h.head = h.base := ht.head.trans (start_of_ne_nil (by simp))
  obtain ⟨b, bs, hbs⟩ : ∃ b bs, pre ++ (⟨s, true⟩ : Blk) :: post = b :: bs := exists_cons_of_ne_nil (by simp)
  have hcount : bs.length < blockFuel := by
    have := congrArg length hbs
    simp only [length_append, length_cons] at this hlen
    omega
  rw [hbs] at hlaid1 hat hext
  obtain ⟨mem2, hrun, hlaid2, hlo, hsame⟩ := coalesceFrom_spec blockFuel { h with mem := mem1 } hlaid1 hbase hcount
    (by rw [hext]; have := ht.low; omega)
  obtain ⟨c, cs, hc, -⟩ := merge_head 24 b bs
  refine ⟨{ h with mem := mem2 }, ?_, ⟨merge 24 (b :: bs), ?_, fun y t => ?_⟩, fun y t hy i hi => ?_⟩
  · rw [← hrun]
    exact congrArg _ hhead
  · refine ⟨?_, hlaid2, ?_, merged_merge _, ht.low, ht.avail, ht.word, ht.asked, fun hz => absurd hz hbase.ne'⟩
    · rw [hc]
      exact hhead
    · rw [extent_merge, hext]
      exact hfits
  · exact (hat y t).symm.trans (at_merge (b :: bs) rfl).symm
  · refine (hsame y t ((hat y t).2 hy) i hi).trans (hold1 _ ?_)
    by_cases hyx : y = h.base + extent 24 pre
    · rw [hyx, update_self] at hy
      cases hy
    · rw [update_of_ne hyx, hu] at hy
      have := hy.eq_or_apart at_middle
      dsimp only at this
      omega

theorem zeroBytes_apply (mem : Nat → BitVec 8) (dst n i : Nat) :
    zeroBytes mem dst n i = if dst ≤ i ∧ i < dst + n then 0#8 else mem i := by
  induction n with
  | zero => rw [zeroBytes, if_neg (by omega)]
  | succ n ih =>
    rw [zeroBytes]
    by_cases hi : i = dst + n
    · rw [hi, update_self, if_pos (by omega)]
    · rw [update_of_ne hi, ih]
      exact if_congr (by omega) rfl rfl

/-- The loop of `realloc`, between places that do not overlap. -/
theorem copyBytes_apply (mem : Nat → BitVec 8) {dst src : Nat} (hd : src + n ≤ dst ∨ dst + n ≤ src) (i : Nat) :
    copyBytes mem dst src n i = if dst ≤ i ∧ i < dst + n then mem (src + (i - dst)) else mem i := by
  induction n generalizing i with
  | zero => rw [copyBytes, if_neg (by omega)]
  | succ n ih =>
    have ih := ih (by omega)
    rw [copyBytes]
    by_cases hi : i = dst + n
    · rw [hi, update_self, if_pos (by omega), ih, if_neg (by omega), Nat.add_sub_cancel_left]
    · rw [update_of_ne hi, ih]
      exact if_congr (by omega) rfl rfl

/-- `calloc` returns a null pointer or a block of zeros that was not in use. -/
theorem calloc_spec {nmemb : Nat} (hh : h.Holds used) (grant : Bool) (hsize : nmemb * size < 2 ^ 64 → RequestFits (nmemb * size))
    (hroom : nmemb * size < 2 ^ 64 → h.RoomFor (nmemb * size)) :
    ∃ h' r, h.calloc grant nmemb size = some (h', r) ∧
      (r = 0 ∧ h'.Holds used ∧ KeptData used h.mem h'.mem ∨
        h.Hands used (nmemb * size) h' r ∧ ∀ i < nmemb * size, h'.mem (r + i) = 0#8) := by
  unfold calloc
  by_cases hz : nmemb = 0 ∨ size = 0
  · rw [if_pos hz]
    exact ⟨h, 0, rfl, .inl ⟨rfl, hh, fun _ _ _ _ _ => rfl⟩⟩
  rw [if_neg hz]
  dsimp only
  by_cases hover : nmemb * size % 2 ^ 64 / nmemb = size
  · -- the product is a word
    have hfit : nmemb * size < 2 ^ 64 := by
      have hle : nmemb * (nmemb * size % 2 ^ 64 / nmemb) ≤ nmemb * size % 2 ^ 64 := mul_div_le _ _
      rw [hover] at hle
      exact lt_of_le_of_lt hle (mod_lt _ (by decide))
    rw [if_neg (not_not.2 hover), mod_eq_of_lt hfit]
    obtain ⟨h1, r, hrun, hres⟩ := malloc_spec hh grant (hsize hfit) (hroom hfit)
    rw [hrun, Option.map_some]
    rcases hres with ⟨rfl, hnone⟩ | ⟨x, s, rfl, hs, hx, hholds, hkept⟩
    · exact ⟨h1, 0, rfl, .inl ⟨rfl, hnone⟩⟩
    · refine ⟨{ h1 with mem := zeroBytes h1.mem (x + 24) (nmemb * size) }, x + 24, ?_, .inr ⟨⟨x, s, rfl, hs, hx, ?_, ?_⟩, ?_⟩⟩
      · rw [if_neg (by omega)]
      · refine hholds.write (update_self x _ _) fun i hi => ?_
        rw [zeroBytes_apply, if_neg (by omega)]
      · refine keptData_write hkept hholds (update_self x _ _) (fun y t hy => ?_) fun i hi => ?_
        · have hne : y ≠ x := fun he => by simp [he, hx] at hy
          exact ⟨by rw [update_of_ne hne, hy], hne⟩
        · exact (zeroBytes_apply _ _ _ _).trans (if_neg (by omega))
      · intro i hi
        change zeroBytes _ _ _ _ = _
        rw [zeroBytes_apply, if_pos (by omega)]
  · rw [if_pos hover]
    exact ⟨h, 0, rfl, .inl ⟨rfl, hh, fun _ _ _ _ _ => rfl⟩⟩

/-- A block in use takes in the free block behind it and is cut behind its first `size` bytes. -/
theorem Tiled.grow {c : Blk} (ht : h.Tiled (pre ++ ⟨s, false⟩ :: c :: post)) (hc : c.free = true)
    (hle : size ≤ s + (24 + c.size)) :
    ∃ mem' t rest, (h.absorbNext (h.base + extent 24 pre)).splitBlock (h.base + extent 24 pre) size = { h with mem := mem' } ∧
      Tiled { h with mem := mem' } (pre ++ ⟨t, false⟩ :: (rest ++ post)) ∧ size ≤ t ∧
      (rest = [] ∨ ∃ c : Blk, rest = [c] ∧ c.free = true) ∧ 24 + t + extent 24 rest = 24 + (s + (24 + c.size)) ∧
      ∀ i, i < h.base + extent 24 pre ∨ h.base + extent 24 pre + 24 ≤ i ∧ i < h.base + extent 24 pre + (24 + size) ∨
        h.base + extent 24 pre + (24 + (s + (24 + c.size))) ≤ i → mem' i = h.mem i := by
  have hfits := ht.fits
  have hlow := ht.low
  simp only [extent_append, extent_cons] at hfits
  have htwo : Laid h.mem (h.base + extent 24 pre) [⟨s, false⟩, c]
      (start (h.base + extent 24 pre + (24 + s) + (24 + c.size)) post 0) := by
    obtain ⟨-, hs, hc, -⟩ := laid_append.1 ht.laid
    exact ⟨hs, hc, laid_nil _ _ _⟩
  have hnx : start (h.base + extent 24 pre + (24 + s) + (24 + c.size)) post 0 < 2 ^ 64 := by
    cases post <;> simp only [start] <;> omega
  obtain ⟨mem1, habs, hheader, hold1⟩ := absorbNext_spec h htwo (by dsimp only; omega) hnx
  obtain ⟨mem', hsplit, hlaid, hold⟩ := splitBlock_spec { h with mem := mem1 } hheader hle (by dsimp only; omega) hnx
  obtain ⟨t, rest, heq, hsize, hrest⟩ := split_eq_cons 24 16 (b := ⟨s + (24 + c.size), false⟩) hle
  have hext := extent_split 24 16 ⟨s + (24 + c.size), false⟩ size
  rw [heq, extent_cons] at hext
  rw [heq] at hlaid
  dsimp only at hext hlaid hold
  refine ⟨mem', t, rest, by rw [habs, hsplit], ?_, hsize, hrest, hext, fun i hi => (hold i hi).trans (hold1 i (by omega))⟩
  have hmerged := ht.merged.grow hc (show (⟨t, false⟩ : Blk).free = false from rfl) hrest
  have haddr : h.base + extent 24 (pre ++ [⟨s, false⟩, c]) = h.base + extent 24 pre + (24 + s) + (24 + c.size) := by
    simp only [extent_append, extent_cons, extent_nil]
    omega
  rw [show pre ++ (⟨s, false⟩ : Blk) :: c :: post = pre ++ [⟨s, false⟩, c] ++ post by simp] at ht
  rw [show pre ++ (⟨t, false⟩ : Blk) :: (rest ++ post) = pre ++ (⟨t, false⟩ :: rest) ++ post by simp] at hmerged ⊢
  refine ht.replace ?_ ?_ (by simp) (by simp) hmerged (fun i hi => ?_) fun i hi => ?_
  · rw [haddr]
    exact hlaid
  · simp only [extent_cons, extent_nil]
    omega
  · exact (hold i (.inl hi)).trans (hold1 i (.inl hi))
  · exact (hold i (.inr (.inr (by omega)))).trans (hold1 i (.inr (by omega)))

/-- `realloc` of a block in use returns a null pointer, and the block is still in use, or the block with at least `size` bytes, here
or elsewhere. -/
theorem realloc_spec (hh : h.Holds used) (hx : used x = some s) (grant : Bool) (hz : size ≠ 0) (hsize : RequestFits size)
    (hroom : h.RoomFor size) :
    ∃ h' r, h.realloc grant (x + 24) size = some (h', r) ∧
      (r = 0 ∧ h'.Holds used ∧ KeptData used h.mem h'.mem ∨
        ∃ y t, r = y + 24 ∧ size ≤ t ∧ (y = x ∨ used y = none) ∧
          h'.Holds (update (update used x none) y (some t)) ∧
          KeptData (update used x none) h.mem h'.mem ∧
          ∀ i < min s size, h'.mem (r + i) = h.mem (x + 24 + i)) := by
  obtain ⟨hpos, hlow, hhdr⟩ := hh.bounds hx
  unfold realloc
  rw [if_neg (by omega), if_neg hz, headerOf_eq (by omega)]
  dsimp only
  rw [hhdr]
  by_cases hlarge : s ≥ size
  · -- the block is large enough
    rw [if_pos hlarge]
    refine ⟨h, x + 24, rfl, .inr ⟨x, s, rfl, hlarge, .inl rfl, ?_, fun _ _ _ _ _ => rfl, fun _ _ => rfl⟩⟩
    rw [update_idem, ← hx, update_eq_self]
    exact hh
  rw [if_neg hlarge]
  split
  case isTrue hnext =>
    -- the free block behind it is taken in
    obtain ⟨pre, post, ht, rfl, hu⟩ := hh.header hx
    obtain ⟨c, post, rfl⟩ : ∃ c post', post = c :: post' := by
      cases post with
      | nil => exact absurd ht.header.next hnext.1
      | cons c post => exact ⟨c, post, rfl⟩
    have hnx : h.next (h.base + extent 24 pre) = h.base + extent 24 pre + (24 + s) := ht.header.next
    obtain ⟨-, -, hcheader, -⟩ := laid_append.1 ht.laid
    obtain ⟨hcsize, hcfree, -⟩ := headerAt_iff.1 hcheader
    rw [hnx] at hnext
    rw [hcfree, hcsize, blockHdrSize] at hnext
    obtain ⟨mem', t, rest, hrun, ht', htsize, hrest, hext, hold⟩ := ht.grow hnext.2.1 (show size ≤ s + (24 + c.size) by omega)
    rw [hrun]
    refine ⟨_, _, rfl, .inr ⟨_, t, rfl, htsize, .inl rfl, ⟨_, ht', fun y t' => ?_⟩, fun y t' hy i hi => ?_, fun i hi => ?_⟩⟩
    · rw [update_idem, at_grow (by decide) hnext.2.1 hext hrest, ← hu]
      by_cases hy : y = h.base + extent 24 pre
      · subst hy
        simp [eq_comm]
      · simp [hy]
    · have hne : y ≠ h.base + extent 24 pre := fun he => by simp [he] at hy
      rw [update_of_ne hne, hu] at hy
      have hfirst := hy.eq_or_apart at_middle
      have hsecond : At 24 h.base (pre ++ ⟨s, false⟩ :: c :: post) (h.base + extent 24 pre + (24 + s)) c := by
        simp [at_append]
      have hsecond := hy.eq_or_apart hsecond
      have hc : (⟨t', false⟩ : Blk) ≠ c := fun he => by simp [← he] at hnext
      simp only [hc, and_false, false_or] at hsecond
      dsimp only at hfirst
      exact hold _ (by omega)
    · exact hold _ (.inr (.inl ⟨by omega, by omega⟩))
  case isFalse =>
    -- another block is allocated
    obtain ⟨h1, r, hrun, hres⟩ := malloc_spec hh grant hsize hroom
    rw [hrun, Option.bind_some]
    rcases hres with ⟨rfl, hnone⟩ | ⟨y, t, rfl, ht, hy, hholds, hkept⟩
    · exact ⟨h1, 0, rfl, .inl ⟨rfl, hnone⟩⟩
    · have hne : x ≠ y := fun he => by simp [← he, hx] at hy
      have hx1 : update used y (some t) x = some s := by rw [update_of_ne hne, hx]
      have hy1 : update used y (some t) y = some t := update_self y _ _
      have hsize1 := (hholds.bounds hx1).2.2
      have hapart := hholds.apart hx1 hy1 hne
      rw [if_neg (by omega), hsize1, if_pos (by omega)]
      -- the bytes are copied
      have hcopy := copyBytes_apply h1.mem (show x + 24 + s ≤ y + 24 ∨ y + 24 + s ≤ x + 24 by omega)
      have hholds2 : Holds { h1 with mem := copyBytes h1.mem (y + 24) (x + 24) s } (update used y (some t)) :=
        hholds.write hy1 fun i hi => (hcopy i).trans (if_neg (by omega))
      -- the old block is freed
      obtain ⟨h3, hfree, hholds3, hkept3⟩ := free_spec hholds2 hx1
      have hcomm : update (update used y (some t)) x none = update (update used x none) y (some t) :=
        update_comm hne.symm _ _ used
      rw [hcomm] at hholds3 hkept3
      rw [hfree, Option.map_some]
      refine ⟨h3, y + 24, rfl, .inr ⟨y, t, rfl, ht, .inr hy, hholds3, fun z v hz i hi => ?_, fun i hi => ?_⟩⟩
      · have hzx : z ≠ x := fun he => by simp [he] at hz
        have hused : used z = some v := by rwa [update_of_ne hzx] at hz
        have hzy : z ≠ y := fun he => by simp [he, hy] at hused
        have hzapart := hholds.apart (show update used y (some t) z = some v by rw [update_of_ne hzy, hused]) hy1 hzy
        calc h3.mem (z + 24 + i) = copyBytes h1.mem (y + 24) (x + 24) s (z + 24 + i) :=
              hkept3 z v (by rw [update_of_ne hzy, hz]) i hi
          _ = h1.mem (z + 24 + i) := (hcopy _).trans (if_neg (by omega))
          _ = h.mem (z + 24 + i) := hkept z v hused i hi
      · rw [Nat.lt_min] at hi
        calc h3.mem (y + 24 + i) = copyBytes h1.mem (y + 24) (x + 24) s (y + 24 + i) :=
              hkept3 y t (update_self y _ _) i (by omega)
          _ = h1.mem (x + 24 + (y + 24 + i - (y + 24))) := (hcopy _).trans (if_pos (by omega))
          _ = h1.mem (x + 24 + i) := by rw [Nat.add_sub_cancel_left]
          _ = h.mem (x + 24 + i) := hkept x s hx i hi.1

end Used

end UserHeap

end TsOs
