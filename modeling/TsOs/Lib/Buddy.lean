import Mathlib

/-!
# Blocks of a power of two of pages

The general part of a buddy system: blocks of `2 ^ level` pages, lists of blocks that tile the first `n` pages, and the two
moves of the system, halving a block and joining two halves, as one equation between the pages of a block and of its halves.
-/

namespace Buddy

open List BitVec Option Bool Nat

/-- A block of `2 ^ level` pages from page `start` on. -/
structure Block where
  start : Nat
  level : Nat
  deriving DecidableEq, Repr

/-- The number of pages of a block. -/
def Block.size (b : Block) : Nat := 2 ^ b.level

/-- The pages of a block, in order. -/
def Block.pages (b : Block) : List Nat := List.range' b.start b.size

/-- A block starts at a multiple of its size. -/
def Block.Aligned (b : Block) : Prop := b.size ∣ b.start

theorem Block.size_pos (b : Block) : 0 < b.size := Nat.two_pow_pos b.level

variable {b : Block} {x : Nat}

@[simp] theorem mem_pages : x ∈ b.pages ↔ b.start ≤ x ∧ x < b.start + b.size := by
  rw [Block.pages, mem_range'_1]

theorem start_mem_pages (b : Block) : b.start ∈ b.pages :=
  mem_pages.2 ⟨Nat.le_refl _, Nat.lt_add_of_pos_right b.size_pos⟩

/-- The pages of a block are those of its lower half, then those of its upper half. -/
theorem pages_halves (p k : Nat) : Block.pages ⟨p, k + 1⟩ = Block.pages ⟨p, k⟩ ++ Block.pages ⟨p + 2 ^ k, k⟩ := by
  simp only [Block.pages, Block.size]
  rw [Nat.pow_succ, Nat.mul_two, ← range'_append, Nat.one_mul]

variable {k p : Nat}

/-- The upper half of an aligned block is aligned, and so is the lower. -/
theorem aligned_halves (h : Block.Aligned ⟨p, k + 1⟩) :
    Block.Aligned ⟨p, k⟩ ∧ Block.Aligned ⟨p + 2 ^ k, k⟩ := by
  have hp : 2 ^ k ∣ p := Dvd.dvd.trans (pow_dvd_pow 2 (le_succ k)) h
  exact ⟨hp, Nat.dvd_add hp (Nat.dvd_refl _)⟩

/-- The page that starts the aligned block around a page. -/
theorem aligned_start (h : b.Aligned) (hx : x ∈ b.pages) : b.start = x / b.size * b.size := by
  obtain ⟨m, hm⟩ := h
  rw [mem_pages, hm] at hx
  rw [hm, Nat.mul_comm b.size m, Nat.mul_left_inj b.size_pos.ne']
  have hlo : m ≤ x / b.size := (le_div_iff_mul_le b.size_pos).2 (by rw [mul_comm]; exact hx.1)
  have hhi : x / b.size < m + 1 := (Nat.div_lt_iff_lt_mul b.size_pos).2 (by rw [Nat.mul_comm]; exact hx.2)
  omega

/-- Flipping the bit of its level in the start of an aligned block gives the start of the other half of a block of the next
level. -/
theorem xor_two_pow (h : Block.Aligned ⟨p, k⟩) :
    (Block.Aligned ⟨p, k + 1⟩ ∧ p ^^^ 2 ^ k = p + 2 ^ k) ∨
      (2 ^ k ≤ p ∧ Block.Aligned ⟨p - 2 ^ k, k + 1⟩ ∧ p ^^^ 2 ^ k = p - 2 ^ k) := by
  obtain ⟨m, hm⟩ := h
  simp only [Block.size, Block.Aligned] at hm ⊢
  have hx : p ^^^ 2 ^ k = 2 ^ k * (m ^^^ 1) := by
    have hs : ∀ a, 2 ^ k * a = a <<< k := fun a => by rw [Nat.shiftLeft_eq, Nat.mul_comm]
    rw [hs, Nat.shiftLeft_xor_distrib, Nat.one_shiftLeft, ← hs, ← hm]
  rcases even_or_odd m with he | ho
  · left
    rw [hx, Nat.xor_one_of_even he, hm]
    obtain ⟨r, hr⟩ := he
    exact ⟨⟨r, by rw [hr, Nat.pow_succ, Nat.mul_assoc, Nat.two_mul]⟩, rfl⟩
  · right
    rw [hx, xor_one_of_odd ho, hm]
    obtain ⟨r, hr⟩ := ho
    have hsub : 2 ^ k * m - 2 ^ k = 2 ^ (k + 1) * r := by
      rw [hr, Nat.mul_add, Nat.mul_one, Nat.add_sub_cancel, Nat.pow_succ, Nat.mul_assoc]
    refine ⟨Nat.le_mul_of_pos_right _ (by omega), ⟨r, hsub⟩, ?_⟩
    rw [mul_sub_one]

/-- Flipping one bit of a number adds its weight or takes it away. -/
theorem xor_two_pow_cases (a n : Nat) : a ^^^ 2 ^ n = a + 2 ^ n ∨ (2 ^ n ≤ a ∧ a ^^^ 2 ^ n = a - 2 ^ n) := by
  have hpos := Nat.two_pow_pos n
  have hmod : (a ^^^ 2 ^ n) % 2 ^ n = a % 2 ^ n := by
    rw [Nat.xor_mod_two_pow, Nat.mod_self, Nat.xor_zero]
  have hdiv : (a ^^^ 2 ^ n) / 2 ^ n = a / 2 ^ n ^^^ 1 := by
    rw [Nat.xor_div_two_pow, Nat.div_self hpos]
  have ha := div_add_mod a (2 ^ n)
  have hx := div_add_mod (a ^^^ 2 ^ n) (2 ^ n)
  rw [hdiv] at hx
  rcases even_or_odd (a / 2 ^ n) with he | ho
  · left
    rw [Nat.xor_one_of_even he, Nat.mul_succ] at hx
    omega
  · right
    obtain ⟨r, hr⟩ := ho
    rw [Nat.xor_one_of_odd ⟨r, hr⟩, hr, Nat.add_sub_cancel] at hx
    rw [hr, Nat.mul_add] at ha
    omega

/-! ## Tilings -/

/-- The blocks tile the first `n` pages: their pages, put together, are those pages, each once. -/
def Tiles (n : Nat) (bs : List Block) : Prop := (bs.flatMap Block.pages).Perm (List.range n)

variable {bs : List Block} {n : Nat}

theorem Tiles.perm {bs' : List Block} (h : Tiles n bs) (hp : bs'.Perm bs) : Tiles n bs' :=
  (hp.flatMap_right Block.pages).trans h

/-- A block can be replaced by its halves, and two halves by the block. -/
theorem tiles_halves :
    Tiles n (⟨p, k⟩ :: ⟨p + 2 ^ k, k⟩ :: bs) ↔ Tiles n (⟨p, k + 1⟩ :: bs) := by
  simp only [Tiles, List.flatMap_cons, pages_halves, List.append_assoc]

/-- Every page is in a block. -/
theorem Tiles.exists_mem (h : Tiles n bs) (hx : x < n) : ∃ b ∈ bs, x ∈ b.pages :=
  mem_flatMap.1 (h.mem_iff.2 (mem_range.2 hx))

/-- Every page of a block is one of the first `n`. -/
theorem Tiles.lt (h : Tiles n bs) (hb : b ∈ bs) (hx : x ∈ b.pages) :
    x < n :=
  mem_range.1 (h.mem_iff.1 (mem_flatMap.2 ⟨b, hb, hx⟩))

/-- A block lies among the first `n` pages. -/
theorem Tiles.le (h : Tiles n bs) (hb : b ∈ bs) : b.start + b.size ≤ n := by
  have hpos := b.size_pos
  have := h.lt hb (x := b.start + b.size - 1) (by rw [mem_pages]; omega)
  omega

/-- No two blocks of a tiling share a page. -/
theorem Tiles.pairwise (h : Tiles n bs) :
    bs.Pairwise (Function.onFun List.Disjoint Block.pages) :=
  (nodup_flatMap.1 (h.nodup_iff.2 nodup_range)).2

variable {c : Block}

/-- The blocks of the first part of a tiling share no page with those of the second. -/
theorem Tiles.disjoint_append {cs : List Block} (h : Tiles n (bs ++ cs)) (hb : b ∈ bs)
    (hc : c ∈ cs) (hx : x ∈ b.pages) : x ∉ c.pages :=
  fun hxc => (pairwise_append.1 h.pairwise).2.2 b hb c hc hx hxc

/-- No block stands twice in a tiling. -/
theorem Tiles.nodup (h : Tiles n bs) : bs.Nodup :=
  h.pairwise.imp (fun {b c} hd (e : b = c) => hd (start_mem_pages b) (e ▸ start_mem_pages b))

/-- A page is in one block only. -/
theorem Tiles.unique (h : Tiles n bs) (hb : b ∈ bs) (hc : c ∈ bs)
    (hxb : x ∈ b.pages) (hxc : x ∈ c.pages) : b = c := by
  by_contra hne
  have hsymm : Std.Symm (Function.onFun List.Disjoint Block.pages) := ⟨fun _ _ hd _ hx hy => hd hy hx⟩
  exact h.pairwise.forall hb hc hne hxb hxc

/-- The sizes of the blocks of a tiling add up to the number of pages. -/
theorem Tiles.sum_size (h : Tiles n bs) : (bs.map Block.size).sum = n := by
  have hl := h.length_eq
  rw [length_range, length_flatMap] at hl
  rw [← hl]
  congr 1
  exact map_congr_left (fun b _ => (length_range').symm)

/-- A tiling has at most as many blocks as pages. -/
theorem Tiles.length_le (h : Tiles n bs) : bs.length ≤ n := by
  rw [← h.sum_size]
  have hpos : ∀ n ∈ bs.map Block.size, 1 ≤ n := by
    intro n hn
    obtain ⟨b, _, rfl⟩ := mem_map.1 hn
    exact b.size_pos
  simpa using length_le_sum_of_one_le _ hpos

/-! ## Coalescing -/

/-- Below level `top` no two halves of one block are both in the list. -/
def Coalesced (top : Nat) (bs : List Block) : Prop := ∀ p k, k < top → ⟨p, k⟩ ∈ bs → ⟨p ^^^ 2 ^ k, k⟩ ∉ bs

/-- Below level `top` two halves of one block are both in the list only when one of them is `b`. -/
def CoalescedBut (top : Nat) (b : Block) (bs : List Block) : Prop :=
  ∀ p k, k < top → ⟨p, k⟩ ∈ bs → ⟨p ^^^ 2 ^ k, k⟩ ∈ bs → b = ⟨p, k⟩ ∨ b = ⟨p ^^^ 2 ^ k, k⟩

variable {top : Nat}

/-- The other half of the block, when it is not in the list, leaves nothing to join. -/
theorem CoalescedBut.coalesced (h : CoalescedBut top ⟨p, k⟩ bs)
    (hout : k < top → ⟨p ^^^ 2 ^ k, k⟩ ∉ bs) : Coalesced top bs := by
  intro q j hj hq hq'
  rcases h q j hj hq hq' with he | he
  · obtain ⟨rfl, rfl⟩ := Block.mk.inj he
    exact hout hj hq'
  · obtain ⟨rfl, rfl⟩ := Block.mk.inj he
    refine hout hj ?_
    rwa [Nat.xor_assoc, Nat.xor_self, Nat.xor_zero]

/-- A block more in the list. -/
theorem Coalesced.but {bs' : List Block} (h : Coalesced top bs)
    (hsub : ∀ c ∈ bs', c = b ∨ c ∈ bs) : CoalescedBut top b bs' := by
  intro p k hk hp hp'
  rcases hsub _ hp with he | hp
  · exact .inl he.symm
  · rcases hsub _ hp' with he | hp'
    · exact .inr he.symm
    · exact absurd hp' (h p k hk hp)

/-- Multiples of a number are apart by at least that number. -/
theorem add_le_of_dvd_of_lt {d a b : Nat} (ha : d ∣ a) (hb : d ∣ b) (hlt : a < b) : a + d ≤ b := by
  obtain ⟨x, rfl⟩ := ha
  obtain ⟨y, rfl⟩ := hb
  have hxy : x < y := Nat.lt_of_mul_lt_mul_left hlt
  calc d * x + d = d * (x + 1) := (mul_succ d x).symm
    _ ≤ d * y := mul_le_mul_left d hxy

/-- An aligned block of a higher level that holds the other half of a block holds the block. -/
theorem mem_pages_of_xor (hp : Block.Aligned ⟨p, k⟩) (hc : c.Aligned) (hlevel : k < c.level)
    (hmem : p ^^^ 2 ^ k ∈ c.pages) : p ∈ c.pages := by
  have hdvd : 2 ^ (k + 1) ∣ c.size := pow_dvd_pow 2 hlevel
  have hstart : 2 ^ (k + 1) ∣ c.start := hdvd.trans hc
  have hend : 2 ^ (k + 1) ∣ c.start + c.size := Nat.dvd_add hstart hdvd
  rw [mem_pages] at hmem ⊢
  rcases xor_two_pow hp with ⟨ha, hx⟩ | ⟨hle, ha, hx⟩
  · refine ⟨Nat.le_of_not_lt (fun hlt => ?_), by omega⟩
    have hroom : p + 2 ^ (k + 1) ≤ c.start := add_le_of_dvd_of_lt ha hstart hlt
    omega
  · rw [hx] at hmem
    have hroom : p - 2 ^ k + 2 ^ (k + 1) ≤ c.start + c.size := add_le_of_dvd_of_lt ha hend hmem.2
    omega

/-- A tiling of the pages of two blocks of level `top` in which nothing can be joined has no smaller block. -/
theorem Tiles.level_of_coalesced (h : Tiles (2 ^ (top + 1)) bs)
    (hw : ∀ b ∈ bs, b.level ≤ top ∧ b.Aligned) (hc : Coalesced top bs) : ∀ b ∈ bs, b.level = top := by
  -- by induction on the level: the other half of a smallest block would be in a larger one
  have hnone : ∀ k, k < top → ∀ p, ⟨p, k⟩ ∉ bs := by
    intro k
    induction k using Nat.strong_induction_on with
    | _ k ih =>
      intro hk p hp
      have hpa : Block.Aligned ⟨p, k⟩ := (hw _ hp).2
      have hplt : p < 2 ^ (top + 1) := h.lt hp (start_mem_pages ⟨p, k⟩)
      have hklt : 2 ^ k < 2 ^ (top + 1) := Nat.pow_lt_pow_right (by decide) (by omega)
      obtain ⟨c, hcmem, hq⟩ := h.exists_mem (xor_lt_two_pow hplt hklt)
      rcases Nat.lt_trichotomy c.level k with hlt | heq | hgt
      · exact ih c.level hlt (by omega) c.start hcmem
      · have hqa : 2 ^ k ∣ p ^^^ 2 ^ k := by
          rcases xor_two_pow hpa with ⟨_, hx⟩ | ⟨_, ha, hx⟩
          · rw [hx]
            exact Nat.dvd_add hpa (Nat.dvd_refl _)
          · rw [hx]
            exact (aligned_halves ha).1
        have hstart := aligned_start (hw c hcmem).2 hq
        have hsize : c.size = 2 ^ k := by rw [Block.size, heq]
        rw [hsize, Nat.div_mul_cancel hqa] at hstart
        obtain rfl : c = ⟨p ^^^ 2 ^ k, k⟩ := by
          cases c
          simp only at hstart heq
          rw [hstart, heq]
        exact hc p k hk hp hcmem
      · have hpc := mem_pages_of_xor hpa (hw c hcmem).2 hgt hq
        rw [h.unique hcmem hp hpc (start_mem_pages ⟨p, k⟩)] at hgt
        exact absurd hgt (lt_irrefl k)
  intro b hb
  rcases lt_or_ge b.level top with hlt | hge
  · exact absurd hb (hnone b.level hlt b.start)
  · exact le_antisymm (hw b hb).1 hge

end Buddy
