import TsOs.Slab

/-!
# One page of the slab allocator

`PageOk` reads the header of a page and its free list off the memory. Each of `slab_page_init`, `slab_page_alloc` and
`slab_page_free` has one lemma: the page it leaves, and the bytes it does not touch.
-/

namespace TsOs

open Bytes LinkedList List BitVec

/-- The address of a slot. -/
def slotAt (p : Nat) (i : Fin 7) (j : Nat) : Nat := p + slabHeaderSize + j * slabSizes i

/-- A page of the heap, by its address. -/
def HeapPage (p : Nat) : Prop := heapBase ≤ p ∧ p + pageSize ≤ heapEnd ∧ p % pageSize = 0

/-- The page at `p` has slots of class `i`, and those of `fl` are free, in the order of its list. -/
structure PageOk (mem : Memory) (i : Fin 7) (p : Nat) (fl : List Nat) : Prop where
  size : classSize mem p = slabSizes i
  count : slotCount mem p = slotsOf i
  used : usedCount mem p + fl.length = slotsOf i
  free : Linked (slotNext mem p) (toSlot mem p (freeHead mem p)) fl

namespace SlabAux

/-! ## Sizes -/

theorem slotAt_eq (p : Nat) (i : Fin 7) (j : Nat) : slotAt p i j = p + 48 + j * slabSizes i := rfl

theorem slabSizes_bounds (i : Fin 7) : 16 ≤ slabSizes i ∧ slabSizes i ≤ 1024 := by
  revert i
  decide

theorem slotsOf_bounds (i : Fin 7) : 3 ≤ slotsOf i ∧ slotsOf i < slotFuel := by
  revert i
  decide

variable {i : Fin 7}

/-- A slot lies in its page, past the header. -/
theorem slot_le {j : Nat} (hj : j < slotsOf i) : j * slabSizes i + slabSizes i ≤ 4048 := by
  have h : (j + 1) * slabSizes i ≤ 4048 := (Nat.le_div_iff_mul_le (by have := slabSizes_bounds i; omega)).1 hj
  rwa [Nat.add_mul, Nat.one_mul] at h

theorem slotAt_bounds (p : Nat) {j : Nat} (hj : j < slotsOf i) :
    p + 48 ≤ slotAt p i j ∧ slotAt p i j + slabSizes i ≤ p + 4096 ∧ 16 ≤ slabSizes i := by
  have hle := slot_le hj
  have hs := slabSizes_bounds i
  rw [slotAt_eq]
  omega

/-- Two slots of a page do not overlap. -/
theorem slot_disjoint {j j' : Nat} (h : j ≠ j') :
    j * slabSizes i + slabSizes i ≤ j' * slabSizes i ∨ j' * slabSizes i + slabSizes i ≤ j * slabSizes i := by
  rcases Nat.lt_or_gt_of_ne h with h | h
  · left
    have := Nat.mul_le_mul_right (slabSizes i) (Nat.succ_le_of_lt h)
    rwa [Nat.succ_mul] at this
  · right
    have := Nat.mul_le_mul_right (slabSizes i) (Nat.succ_le_of_lt h)
    rwa [Nat.succ_mul] at this

theorem heapPage_lt {p : Nat} (h : HeapPage p) : p + 4096 < 2 ^ 64 :=
  Nat.lt_of_le_of_lt h.2.1 (by decide)

variable {mem : Memory}

theorem slotAddr_eq_of_lt {p j : Nat} (hp : HeapPage p) (hs : classSize mem p = slabSizes i)
    (hj : slotAt p i j < p + 4096) : slotAddr mem p j = slotAt p i j := by
  have hlt := heapPage_lt hp
  rw [slotAddr, hs]
  exact Nat.mod_eq_of_lt (hj.trans hlt)

theorem slotAddr_eq {p j : Nat} (hp : HeapPage p) (hs : classSize mem p = slabSizes i)
    (hj : j < slotsOf i) : slotAddr mem p j = slotAt p i j :=
  slotAddr_eq_of_lt hp hs (by have := slotAt_bounds p hj; omega)

/-! ## Reads and writes of 64 bits -/

theorem le_putLe_self (mem : Memory) (a : Nat) {x : Nat} (hx : x < 2 ^ 64) : le 8 (putLe 8 mem a x) a = x := by
  rw [le_putLe]
  exact Nat.mod_eq_of_lt hx

theorem putLe_outside {a x b : Nat} (h : b < a ∨ a + 8 ≤ b) : putLe 8 mem a x b = mem b :=
  splice_outside (by omega)

theorem le_agree {mem mem' : Memory} {a : Nat} (h : ∀ b, a ≤ b → b < a + 8 → mem' b = mem b) : le 8 mem' a = le 8 mem a :=
  le_congr (fun k hk => h (a + k) (by omega) (by omega))

theorem toSlot_eq_some {p x j : Nat} : toSlot mem p x = some j ↔ x < slotCount mem p ∧ x = j := by
  simp [toSlot]

end SlabAux

open SlabAux

/-! ## Pages -/

section Page

variable {mem mem' : Memory} {i : Fin 7} {p j : Nat} {fl : List Nat}

/-- The indices of a free list are indices of slots. -/
theorem linked_lt {h : Option Nat} (hs : Linked (slotNext mem p) h fl) (hh : ∀ x, h = some x → x < slotCount mem p) :
    ∀ x ∈ fl, x < slotCount mem p := by
  induction fl generalizing h with
  | nil => simp
  | cons y fl ih =>
    obtain ⟨h1, h2⟩ := hs
    refine forall_mem_cons.2 ⟨hh y h1, ih h2 (fun x hx => ?_)⟩
    obtain ⟨hlt, rfl⟩ := toSlot_eq_some.1 hx
    exact hlt

section

variable (h : PageOk mem i p fl)
include h

theorem PageOk.lt {x : Nat} (hx : x ∈ fl) : x < slotsOf i := by
  rw [← h.count]
  refine linked_lt h.free (fun y hy => ?_) x hx
  obtain ⟨hlt, rfl⟩ := toSlot_eq_some.1 hy
  exact hlt

/-- A list of free slots, when the slots have kept their size and number, and those of the list their links. -/
theorem PageOk.linked (hp : HeapPage p) (hsize : classSize mem' p = classSize mem p)
    (hcount : slotCount mem' p = slotCount mem p) {xs : List Nat} (hsub : xs ⊆ fl)
    (hslots : ∀ j ∈ xs, ∀ a, slotAt p i j ≤ a → a < slotAt p i j + 8 → mem' a = mem a) {x : Nat}
    (hl : Linked (slotNext mem p) (toSlot mem p x) xs) : Linked (slotNext mem' p) (toSlot mem' p x) xs := by
  have hto : ∀ x, toSlot mem' p x = toSlot mem p x := fun x => by rw [toSlot, toSlot, hcount]
  rw [hto]
  refine hl.congr (fun j hj => ?_)
  have hlt := h.lt (hsub hj)
  rw [slotNext, slotNext, hto, slotAddr_eq hp (hsize.trans h.size) hlt, slotAddr_eq hp h.size hlt]
  exact congrArg _ (le_agree (hslots j hj))

/-- The free list of a page with the header and the free slots as before. -/
theorem PageOk.congr (hp : HeapPage p) (hhead : ∀ a, p ≤ a → a < p + 32 → mem' a = mem a)
    (hslots : ∀ j ∈ fl, ∀ a, slotAt p i j ≤ a → a < slotAt p i j + 8 → mem' a = mem a) : PageOk mem' i p fl := by
  have hsize : classSize mem' p = classSize mem p := le_agree (fun a h1 h2 => hhead a (by omega) (by omega))
  have hcount : slotCount mem' p = slotCount mem p := le_agree (fun a h1 h2 => hhead a (by omega) (by omega))
  have hused : usedCount mem' p = usedCount mem p := le_agree (fun a h1 h2 => hhead a (by omega) (by omega))
  have hfree : freeHead mem' p = freeHead mem p := le_agree (fun a h1 h2 => hhead a (by omega) (by omega))
  refine ⟨hsize.trans h.size, hcount.trans h.count, by rw [hused]; exact h.used, ?_⟩
  rw [hfree]
  exact h.linked hp hsize hcount (List.Subset.refl fl) hslots h.free

omit h in
/-- `slab_page_alloc` takes the first free slot. -/
theorem slabPageAlloc_spec (h : PageOk mem i p (j :: fl)) (hp : HeapPage p) :
    ∃ mem', slabPageAlloc mem p = (mem', slotAt p i j) ∧ PageOk mem' i p fl ∧
      ∀ a, a < p + 8 ∨ p + 24 ≤ a → mem' a = mem a := by
  have hj : j < slotsOf i := h.lt mem_cons_self
  obtain ⟨hhead, hnext⟩ := h.free
  obtain ⟨hlt, hfree⟩ := toSlot_eq_some.1 hhead
  have hbounds := slotsOf_bounds i
  have hused := h.used
  simp only [length_cons, slotFuel] at hused hbounds
  have hu1 : usedCount (putLe 8 mem (p + 8) (le 8 mem (slotAt p i j))) p = usedCount mem p := le_putLe_apart (by omega)
  simp only [slabPageAlloc, hfree, slotAddr_eq hp h.size hj, hu1]
  generalize hmem2 : putLe 8 (putLe 8 mem (p + 8) (le 8 mem (slotAt p i j))) (p + 16) (usedCount mem p + 1) = mem2
  have hsame : ∀ a, a < p + 8 ∨ p + 24 ≤ a → mem2 a = mem a := by
    intro a ha
    rw [← hmem2, putLe_outside (by omega), putLe_outside (by omega)]
  have hsize : classSize mem2 p = classSize mem p := le_agree (fun a _ _ => hsame a (by omega))
  have hcount : slotCount mem2 p = slotCount mem p := le_agree (fun a _ _ => hsame a (by omega))
  have hu2 : usedCount mem2 p = usedCount mem p + 1 := by
    rw [← hmem2]
    exact le_putLe_self _ _ (by omega)
  have hf2 : freeHead mem2 p = le 8 mem (slotAt p i j) := by
    rw [← hmem2, freeHead, le_putLe_apart (by omega)]
    exact le_putLe_self _ _ (le_lt 8 _ _)
  refine ⟨mem2, ?_, ⟨hsize.trans h.size, hcount.trans h.count, by omega, ?_⟩, hsame⟩
  · rw [if_neg (by omega), slotAddr_eq hp (hsize.trans h.size) hj]
  · rw [slotNext, slotAddr_eq hp h.size hj] at hnext
    rw [hf2]
    refine h.linked hp hsize hcount (subset_cons_self j fl) (fun x _ a h1 _ => hsame a ?_) hnext
    rw [slotAt_eq] at h1
    omega

/-- The walk of `slab_page_free` over the free list. -/
theorem PageOk.findNode_eq (q : Nat → Bool) :
    findNode (slotNext mem p) q slotFuel (toSlot mem p (freeHead mem p)) = some (fl.find? q) := by
  have hbounds := slotsOf_bounds i
  have hused := h.used
  exact LinkedList.findNode_eq h.free (by omega)

/-- `slab_page_free` of an address at which no slot starts, or a free one, does nothing. -/
theorem slabPageFree_miss {ptr : Nat} (hno : ∀ j, ptr = slotAt p i j → p + pageSize ≤ ptr ∨ j ∈ fl) :
    slabPageFree mem p ptr = some (mem, false) := by
  simp only [slabPageFree, h.size]
  by_cases hlo : ptr < p + slabHeaderSize
  · rw [if_pos hlo]
  by_cases hhi : ptr ≥ p + pageSize
  · rw [if_neg hlo, if_pos hhi]
  by_cases hmod : (ptr - (p + slabHeaderSize)) % slabSizes i ≠ 0
  · rw [if_neg hlo, if_neg hhi, if_pos hmod]
  have hat : ptr = slotAt p i ((ptr - (p + slabHeaderSize)) / slabSizes i) := by
    rw [slotAt, Nat.div_mul_cancel (Nat.dvd_of_mod_eq_zero (not_not.1 hmod))]
    omega
  have hmem := (hno _ hat).resolve_left hhi
  rw [if_neg hlo, if_neg hhi, if_neg hmod, h.findNode_eq]
  cases hfind : fl.find? fun check => check == (ptr - (p + slabHeaderSize)) / slabSizes i with
  | none => exact absurd (beq_self_eq_true _) (find?_eq_none.1 hfind _ hmem)
  | some x => rfl

/-- `slab_page_free` of an address in the page that would be that of a slot which is not on the free list: the index of the slot is
put in front of the list. -/
theorem slabPageFree_link (hp : HeapPage p) (hlt : slotAt p i j < p + 4096) (hfree : j ∉ fl) :
    ∃ mem', slabPageFree mem p (slotAt p i j) = some (mem', true) ∧ freeHead mem' p = j ∧
      le 8 mem' (slotAt p i j) = freeHead mem p ∧ usedCount mem' p = (usedCount mem p + (2 ^ 64 - 1)) % 2 ^ 64 ∧
      ∀ a, (a < p + 8 ∨ p + 24 ≤ a) → (a < slotAt p i j ∨ slotAt p i j + 8 ≤ a) → mem' a = mem a := by
  have hsz := slabSizes_bounds i
  have hat := slotAt_eq p i j
  have hle : j * 16 ≤ j * slabSizes i := Nat.mul_le_mul_left j hsz.1
  have hwalk : fl.find? (fun check => check == j) = none := by
    rw [find?_eq_none]
    intro x hx
    rw [beq_iff_eq]
    rintro rfl
    exact hfree hx
  have hdiff : slotAt p i j - (p + slabHeaderSize) = j * slabSizes i := by rw [slotAt, Nat.add_sub_cancel_left]
  simp only [slabPageFree, h.size, hdiff, Nat.mul_mod_left, Nat.mul_div_cancel _ (show 0 < slabSizes i by omega), h.findNode_eq,
    hwalk, slotAddr_eq_of_lt hp h.size hlt]
  rw [if_neg (by rw [slabHeaderSize]; omega), if_neg (by rw [pageSize]; omega)]
  refine ⟨_, rfl, ?_, ?_, ?_, fun a ha ha' => ?_⟩
  · rw [freeHead, le_putLe_apart (by omega), le_putLe_self _ _ (by omega)]
  · rw [le_putLe_apart (by omega), le_putLe_apart (by omega)]
    exact le_putLe_self _ _ (le_lt 8 _ _)
  · simp only [usedCount]
    rw [le_putLe, le_putLe_apart (by omega), le_putLe_apart (by omega)]
    rfl
  · rw [putLe_outside (by omega), putLe_outside (by omega), putLe_outside ha']

/-- `slab_page_free` of a slot that is not free puts it in front of the free list. -/
theorem slabPageFree_spec (hp : HeapPage p) (hj : j < slotsOf i) (hfree : j ∉ fl) :
    ∃ mem', slabPageFree mem p (slotAt p i j) = some (mem', true) ∧ PageOk mem' i p (j :: fl) ∧
      (usedCount mem' p = 0 ↔ fl.length + 1 = slotsOf i) ∧
      ∀ a, (a < p + 8 ∨ p + 24 ≤ a) → (a < slotAt p i j ∨ slotAt p i j + 8 ≤ a) → mem' a = mem a := by
  have hat := slotAt_bounds p hj
  have hbounds := slotsOf_bounds i
  have hused := h.used
  -- the slot is not on the list, so the list misses one slot at least
  have hroom : fl.length + 1 ≤ slotsOf i := by
    have hnd : (j :: fl).Nodup := nodup_cons.2 ⟨hfree, h.free.nodup⟩
    have hsub : (j :: fl) ⊆ range (slotsOf i) :=
      cons_subset.2 ⟨mem_range.2 hj, fun x hx => mem_range.2 (h.lt hx)⟩
    have := hnd.length_le_of_subset hsub
    rwa [length_range] at this
  obtain ⟨mem', hcall, hhead, hlink, hused', hsame⟩ := slabPageFree_link h hp (by omega) hfree
  simp only [slotFuel] at hbounds
  have hsize : classSize mem' p = classSize mem p := le_agree (fun a _ _ => hsame a (by omega) (by omega))
  have hcount : slotCount mem' p = slotCount mem p := le_agree (fun a _ _ => hsame a (by omega) (by omega))
  refine ⟨mem', hcall, ⟨hsize.trans h.size, hcount.trans h.count, ?_, ?_, ?_⟩, by omega, hsame⟩
  · rw [length_cons]
    omega
  · rw [hhead, toSlot_eq_some, hcount, h.count]
    exact ⟨hj, rfl⟩
  · rw [slotNext, slotAddr_eq hp (hsize.trans h.size) hj, hlink]
    refine h.linked hp hsize hcount (List.Subset.refl fl) (fun x hx a h1 h2 => ?_) h.free
    have hxj : x ≠ j := by
      rintro rfl
      exact hfree hx
    have hne := slot_disjoint (i := i) hxj
    rw [slotAt_eq] at h1 h2 hat
    exact hsame a (by omega) (by rw [slotAt_eq]; omega)

end

/-! ## `slab_page_init` -/

/-- A list of consecutive indices. -/
theorem linked_range {next : Nat → Option Nat} {n : Nat} (hn : 0 < n)
    (hnext : ∀ j < n, next j = if j + 1 < n then some (j + 1) else none) : Linked next (some 0) (List.range n) := by
  have key : ∀ k a, a + k = n → Linked next (if k = 0 then none else some a) (range' a k) := by
    intro k
    induction k with
    | zero => exact fun a _ => rfl
    | succ k ih =>
      intro a ha
      refine ⟨if_neg (by omega), ?_⟩
      have := ih (a + 1) (by omega)
      rw [hnext a (by omega)]
      by_cases hk : k = 0
      · rw [if_neg (by omega)]
        rwa [if_pos hk] at this
      · rw [if_pos (by omega)]
        rwa [if_neg hk] at this
  have := key n 0 (by omega)
  rwa [if_neg (by omega), ← range_eq_range'] at this

/-- The loop of `slab_page_init`: the first `n` slots hold the index of the next one, and nothing else changes. -/
theorem initLoop_spec (hp : HeapPage p) (hs : classSize mem p = slabSizes i) {n : Nat} (hn : n ≤ slotsOf i) :
    ∃ mem', (List.range n).foldl (fun mem j => putLe 8 mem (slotAddr mem p j) (j + 1)) mem = mem' ∧
      (∀ j < n, le 8 mem' (slotAt p i j) = j + 1) ∧
      ∀ a, (∀ j < n, a < slotAt p i j ∨ slotAt p i j + 8 ≤ a) → mem' a = mem a := by
  induction n with
  | zero => exact ⟨mem, rfl, fun j hj => absurd hj (by omega), fun _ _ => rfl⟩
  | succ n ih =>
    obtain ⟨mem1, hfold, hlinks, hsame⟩ := ih (by omega)
    have hsz := slabSizes_bounds i
    have hs1 : classSize mem1 p = slabSizes i := by
      rw [← hs]
      refine le_agree (fun a _ _ => hsame a (fun j _ => ?_))
      rw [slotAt_eq]
      omega
    have hbounds := slotsOf_bounds i
    rw [range_succ, foldl_append, hfold]
    refine ⟨putLe 8 mem1 (slotAt p i n) (n + 1), ?_, fun j hj => ?_, fun a ha => ?_⟩
    · simp only [foldl_cons, foldl_nil]
      rw [slotAddr_eq hp hs1 (by omega)]
    · by_cases e : j = n
      · subst e
        exact le_putLe_self _ _ (by simp only [slotFuel] at hbounds; omega)
      · rw [le_putLe_apart ?_, hlinks j (by omega)]
        have := slot_disjoint (i := i) e
        rw [slotAt_eq, slotAt_eq]
        omega
    · rw [putLe_outside (ha n (by omega))]
      exact hsame a (fun j hj => ha j (by omega))

/-- `slab_page_init` makes a page with all its slots free. -/
theorem slabPageInit_spec (mem : Memory) (i : Fin 7) (hp : HeapPage p) :
    PageOk (slabPageInit mem p i) i p (List.range (slotsOf i)) ∧
      ∀ a, a < p ∨ p + pageSize ≤ a → slabPageInit mem p i a = mem a := by
  have hbounds := slotsOf_bounds i
  have hsz := slabSizes_bounds i
  simp only [slotFuel] at hbounds
  simp only [slabPageInit]
  -- the header
  generalize hmem4 : putLe 8 (putLe 8 (putLe 8 (putLe 8 mem p (slabSizes i)) (p + 24) (slotsOf i)) (p + 16) 0) (p + 32) 0 = mem4
  have hsize4 : classSize mem4 p = slabSizes i := by
    rw [← hmem4, classSize, le_putLe_apart (by omega), le_putLe_apart (by omega), le_putLe_apart (by omega)]
    exact le_putLe_self _ _ (by omega)
  have hcount4 : slotCount mem4 p = slotsOf i := by
    rw [← hmem4, slotCount, le_putLe_apart (by omega), le_putLe_apart (by omega)]
    exact le_putLe_self _ _ (by omega)
  have hused4 : usedCount mem4 p = 0 := by
    rw [← hmem4, usedCount, le_putLe_apart (by omega)]
    exact le_putLe_self _ _ (by omega)
  have hsame4 : ∀ a, a < p ∨ p + 40 ≤ a → mem4 a = mem a := by
    intro a ha
    rw [← hmem4, putLe_outside (by omega), putLe_outside (by omega), putLe_outside (by omega), putLe_outside (by omega)]
  -- the links
  obtain ⟨mem5, hfold, hlinks, hsame5⟩ := initLoop_spec hp hsize4 (n := slotsOf i - 1) (by omega)
  have hhead5 : ∀ off, off + 8 ≤ 48 → le 8 mem5 (p + off) = le 8 mem4 (p + off) := by
    intro off hoff
    refine le_agree (fun a _ _ => hsame5 a (fun j _ => ?_))
    rw [slotAt_eq]
    omega
  have hsize5 : classSize mem5 p = slabSizes i := (hhead5 0 (by omega)).trans hsize4
  rw [hfold, slotAddr_eq hp hsize5 (by omega)]
  have hlast := slotAt_bounds p (show slotsOf i - 1 < slotsOf i by omega)
  generalize hmem7 : putLe 8 (putLe 8 mem5 (slotAt p i (slotsOf i - 1)) (slotsOf i)) (p + 8) 0 = mem7
  have hhead7 : ∀ off, off + 8 ≤ 8 ∨ 16 ≤ off → off + 8 ≤ 48 → le 8 mem7 (p + off) = le 8 mem4 (p + off) := by
    intro off hoff hlt
    rw [← hhead5 off hlt, ← hmem7, le_putLe_apart (by omega), le_putLe_apart (by omega)]
  have hsize : classSize mem7 p = slabSizes i := (hhead7 0 (by omega) (by omega)).trans hsize4
  have hcount : slotCount mem7 p = slotsOf i := (hhead7 24 (by omega) (by omega)).trans hcount4
  have hused : usedCount mem7 p = 0 := (hhead7 16 (by omega) (by omega)).trans hused4
  have hfree : freeHead mem7 p = 0 := by
    rw [← hmem7]
    exact le_putLe_self _ _ (by omega)
  have hlink : ∀ j < slotsOf i, le 8 mem7 (slotAt p i j) = j + 1 := by
    intro j hj
    have hat := slotAt_bounds p hj
    rw [← hmem7, le_putLe_apart (by omega)]
    by_cases e : j = slotsOf i - 1
    · rw [e, le_putLe_self _ _ (by omega)]
      omega
    · rw [← hlinks j (by omega)]
      refine le_putLe_apart ?_
      have := slot_disjoint (i := i) e
      rw [slotAt_eq, slotAt_eq]
      omega
  refine ⟨⟨hsize, hcount, by rw [hused, length_range, Nat.zero_add], ?_⟩, fun a ha => ?_⟩
  · rw [hfree, toSlot_eq_some.2 ⟨by omega, rfl⟩]
    refine linked_range (by omega) (fun j hj => ?_)
    rw [slotNext, slotAddr_eq hp hsize hj, hlink j hj, toSlot, hcount]
  · simp only [pageSize] at ha
    have hfar : ∀ j < slotsOf i, a < slotAt p i j ∨ slotAt p i j + 8 ≤ a := by
      intro j hj
      have hat := slotAt_bounds p hj
      omega
    rw [← hmem7, putLe_outside (by omega), putLe_outside (hfar _ (by omega)), hsame5 a (fun j hj => hfar j (by omega)),
      hsame4 a (by omega)]

end Page

end TsOs
