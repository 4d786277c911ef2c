import Mathlib

/-!
# Blocks with headers

A range of addresses that is cut into blocks without gaps: each is a header of `hdr` bytes and the bytes it describes, and is free or in
use. `At` finds the block that stands at an address; blocks are split, and neighbours that are both free are merged.
-/

namespace HeapBlocks

open List

/-- The number of bytes behind the header of a block, and whether the block is free. -/
structure Blk where
  size : Nat
  free : Bool
  deriving DecidableEq, Repr

/-- The number of bytes that blocks take, with their headers. -/
def extent (hdr : Nat) : List Blk → Nat
  | [] => 0
  | b :: bs => hdr + b.size + extent hdr bs

/-- The block `b` stands at `x` when the blocks stand one behind the other from `a` on. -/
def At (hdr : Nat) : Nat → List Blk → Nat → Blk → Prop
  | _, [], _, _ => False
  | a, c :: bs, x, b => x = a ∧ b = c ∨ At hdr (a + (hdr + c.size)) bs x b

/-- No two neighbours are both free. -/
def Merged (bs : List Blk) : Prop := bs.IsChain fun b c => ¬ (b.free = true ∧ c.free = true)

/-- A block is cut behind its first `size` bytes, if the second part can have `least` bytes. -/
def split (hdr least : Nat) (b : Blk) (size : Nat) : List Blk :=
  if size + hdr + least ≤ b.size then [⟨size, b.free⟩, ⟨b.size - size - hdr, true⟩] else [b]

/-- Neighbours that are free are merged, from the left. -/
def merge (hdr : Nat) : List Blk → List Blk
  | [] => []
  | [b] => [b]
  | b :: c :: bs => if b.free && c.free then merge hdr (⟨b.size + (hdr + c.size), true⟩ :: bs) else b :: merge hdr (c :: bs)
  termination_by bs => bs.length

variable {hdr : Nat}

@[simp] theorem extent_nil : extent hdr [] = 0 := rfl

@[simp] theorem extent_cons (b : Blk) (bs : List Blk) : extent hdr (b :: bs) = hdr + b.size + extent hdr bs := rfl

@[simp] theorem extent_append (bs cs : List Blk) : extent hdr (bs ++ cs) = extent hdr bs + extent hdr cs := by
  induction bs with
  | nil => simp
  | cons b bs ih =>
    simp only [cons_append, extent_cons, ih]
    omega

theorem length_le_extent (hdr : Nat) (bs : List Blk) : hdr * bs.length ≤ extent hdr bs := by
  induction bs with
  | nil => simp
  | cons b bs ih =>
    rw [length_cons, Nat.mul_succ, extent_cons]
    omega

/-! ## The block at an address -/

variable {a x : Nat} {b : Blk}

@[simp] theorem at_nil : ¬ At hdr a [] x b := id

variable {bs : List Blk} {c : Blk}

@[simp] theorem at_cons :
    At hdr a (c :: bs) x b ↔ x = a ∧ b = c ∨ At hdr (a + (hdr + c.size)) bs x b := Iff.rfl

theorem at_append {cs : List Blk} :
    At hdr a (bs ++ cs) x b ↔ At hdr a bs x b ∨ At hdr (a + extent hdr bs) cs x b := by
  induction bs generalizing a with
  | nil => simp
  | cons c bs ih =>
    rw [cons_append, at_cons, at_cons, ih, extent_cons, or_assoc, show a + (hdr + c.size) + extent hdr bs =
      a + (hdr + c.size + extent hdr bs) by omega]

/-- A block is found with the ones before it and the ones behind it. -/
theorem At.exists_append (h : At hdr a bs x b) :
    ∃ pre post, bs = pre ++ b :: post ∧ x = a + extent hdr pre := by
  induction bs generalizing a with
  | nil => exact absurd h at_nil
  | cons c bs ih =>
    rcases h with ⟨rfl, rfl⟩ | h
    · exact ⟨[], bs, rfl, rfl⟩
    · obtain ⟨pre, post, rfl, rfl⟩ := ih h
      refine ⟨c :: pre, post, rfl, ?_⟩
      simp only [extent_cons]
      omega

variable {post pre : List Blk}

theorem at_middle : At hdr a (pre ++ b :: post) (a + extent hdr pre) b := by
  simp [at_append]

theorem At.bounds (h : At hdr a bs x b) :
    a ≤ x ∧ x + (hdr + b.size) ≤ a + extent hdr bs := by
  obtain ⟨pre, post, rfl, rfl⟩ := h.exists_append
  simp only [extent_append, extent_cons]
  omega

/-- Two blocks are the same one, or one stands behind the other. -/
theorem At.eq_or_apart {y : Nat} (hb : At hdr a bs x b) (hc : At hdr a bs y c) :
    x = y ∧ b = c ∨ x + (hdr + b.size) ≤ y ∨ y + (hdr + c.size) ≤ x := by
  induction bs generalizing a with
  | nil => exact absurd hb at_nil
  | cons d bs ih =>
    rcases hb with ⟨rfl, rfl⟩ | hb
    · rcases hc with ⟨rfl, rfl⟩ | hc
      · exact .inl ⟨rfl, rfl⟩
      · exact .inr (.inl hc.bounds.1)
    · rcases hc with ⟨rfl, rfl⟩ | hc
      · exact .inr (.inr hb.bounds.1)
      · exact ih hb hc

/-- The block at an address, where headers are not empty. -/
theorem At.unique (hpos : 0 < hdr) (hb : At hdr a bs x b) (hc : At hdr a bs x c) : b = c := by
  rcases hb.eq_or_apart hc with ⟨-, h⟩ | h | h
  · exact h
  · omega
  · omega

variable {rest : List Blk}

/-- A free block is exchanged for one in use with a free rest or none: this is the one block in use that is new. -/
theorem at_take {y s t : Nat} (hb : b.free = true)
    (he : hdr + s + extent hdr rest = hdr + b.size) (hrest : rest = [] ∨ ∃ c : Blk, rest = [c] ∧ c.free = true) :
    At hdr a (pre ++ ⟨s, false⟩ :: (rest ++ post)) y ⟨t, false⟩ ↔
      y = a + extent hdr pre ∧ t = s ∨ At hdr a (pre ++ b :: post) y ⟨t, false⟩ := by
  have hne : (⟨t, false⟩ : Blk) ≠ b := fun h => by simp [← h] at hb
  have hpost : a + extent hdr pre + (hdr + s) + extent hdr rest = a + extent hdr pre + (hdr + b.size) := by omega
  have hnone : ∀ a', ¬ At hdr a' rest y ⟨t, false⟩ := by
    intro a'
    rcases hrest with rfl | ⟨c, rfl, hc⟩
    · exact at_nil
    · rintro (⟨-, h⟩ | h)
      · simp [← h] at hc
      · exact h
  rw [at_append, at_cons, at_append, hpost, at_append, at_cons]
  simp only [hnone, hne, and_false, false_or, Blk.mk.injEq, and_true]
  tauto

/-- A block in use takes in the free block behind it and is cut again: the other blocks in use stay. -/
theorem at_grow (hpos : 0 < hdr) {y s t t' : Nat} (hc : c.free = true)
    (he : hdr + t + extent hdr rest = hdr + (s + (hdr + c.size))) (hrest : rest = [] ∨ ∃ c : Blk, rest = [c] ∧ c.free = true) :
    At hdr a (pre ++ ⟨t, false⟩ :: (rest ++ post)) y ⟨t', false⟩ ↔
      y = a + extent hdr pre ∧ t' = t ∨ y ≠ a + extent hdr pre ∧ At hdr a (pre ++ ⟨s, false⟩ :: c :: post) y ⟨t', false⟩ := by
  have hfree : (⟨s + (hdr + c.size), true⟩ : Blk).free = true := rfl
  rw [at_take hfree he hrest]
  refine or_congr_right ?_
  by_cases hy : y = a + extent hdr pre
  · subst hy
    refine iff_of_false (fun h => ?_) fun h => h.1 rfl
    cases h.unique hpos at_middle
  · have hne : (⟨t', false⟩ : Blk) ≠ c := fun h => by simp [← h] at hc
    simp only [at_append, at_cons, hy, hne, false_and, and_false, false_or, ne_eq, not_false_eq_true, true_and]
    rw [show a + extent hdr pre + (hdr + s) + (hdr + c.size) = a + extent hdr pre + (hdr + (s + (hdr + c.size))) by omega]

/-! ## Splitting -/

theorem extent_split (hdr least : Nat) (b : Blk) (size : Nat) : extent hdr (split hdr least b size) = hdr + b.size := by
  unfold split
  split
  · simp only [extent_cons, extent_nil]
    omega
  · simp

/-- The first part of a block that is split; the rest, if there is one, is free. -/
theorem split_eq_cons (hdr least : Nat) {size : Nat} (hle : size ≤ b.size) :
    ∃ s rest, split hdr least b size = ⟨s, b.free⟩ :: rest ∧ size ≤ s ∧ (rest = [] ∨ ∃ c : Blk, rest = [c] ∧ c.free = true) := by
  unfold split
  split
  · exact ⟨size, _, rfl, le_rfl, .inr ⟨_, rfl, rfl⟩⟩
  · exact ⟨b.size, [], rfl, hle, .inl rfl⟩

/-! ## Merging -/

theorem extent_merge (bs : List Blk) : extent hdr (merge hdr bs) = extent hdr bs := by
  induction bs using merge.induct hdr with
  | case1 => rw [merge]
  | case2 b => rw [merge]
  | case3 b c bs hf ih =>
    rw [merge, if_pos hf, ih]
    simp only [extent_cons]
    omega
  | case4 b c bs hf ih => rw [merge, if_neg hf, extent_cons, ih, extent_cons b]

/-- Merging keeps the blocks in use where they are. -/
theorem at_merge (bs : List Blk) (hb : b.free = false) : At hdr a (merge hdr bs) x b ↔ At hdr a bs x b := by
  induction bs using merge.induct hdr generalizing a with
  | case1 => rw [merge]
  | case2 c => rw [merge]
  | case3 c d bs hf ih =>
    have hc : b ≠ c := fun h => by simp [← h, hb] at hf
    have hd : b ≠ d := fun h => by simp [← h, hb] at hf
    have hm : b ≠ ⟨c.size + (hdr + d.size), true⟩ := fun h => by simp [h] at hb
    rw [merge, if_pos (by simp [hf]), ih, at_cons, at_cons, at_cons, show a + (hdr + (c.size + (hdr + d.size))) =
      a + (hdr + c.size) + (hdr + d.size) by omega]
    simp [hc, hd, hm]
  | case4 c d bs hf ih =>
    rw [merge, if_neg hf, at_cons, ih]
    exact Iff.rfl

/-- The first block after merging is free only if the first one was. -/
theorem merge_head (hdr : Nat) (b : Blk) (bs : List Blk) : ∃ c cs, merge hdr (b :: bs) = c :: cs ∧ c.free = b.free := by
  generalize hl : b :: bs = l
  induction l using merge.induct hdr generalizing b bs with
  | case1 => cases hl
  | case2 c =>
    obtain ⟨rfl, rfl⟩ := cons.inj hl
    exact ⟨b, [], by rw [merge], rfl⟩
  | case3 c d cs hf ih =>
    obtain ⟨rfl, rfl⟩ := cons.inj hl
    obtain ⟨e, es, he, hfree⟩ := ih _ _ rfl
    rw [Bool.and_eq_true] at hf
    refine ⟨e, es, ?_, hfree.trans hf.1.symm⟩
    rw [merge, if_pos (by simp [hf]), he]
  | case4 c d cs hf ih =>
    obtain ⟨rfl, rfl⟩ := cons.inj hl
    exact ⟨b, _, by rw [merge, if_neg hf], rfl⟩

theorem merged_merge (bs : List Blk) : Merged (merge hdr bs) := by
  induction bs using merge.induct hdr with
  | case1 =>
    rw [merge]
    exact isChain_nil
  | case2 b =>
    rw [merge]
    exact isChain_singleton b
  | case3 b c bs hf ih => rwa [merge, if_pos hf]
  | case4 b c bs hf ih =>
    rw [merge, if_neg hf]
    refine isChain_cons.2 ⟨fun d hd => ?_, ih⟩
    obtain ⟨e, es, he, hfree⟩ := merge_head hdr c bs
    rw [he] at hd
    cases hd
    rw [hfree]
    simpa using hf

/-- A free block is exchanged for one in use, with a free rest or none. -/
theorem Merged.take {u : Blk} (h : Merged (pre ++ b :: post)) (hb : b.free = true) (hu : u.free = false)
    (hrest : rest = [] ∨ ∃ c : Blk, rest = [c] ∧ c.free = true) : Merged (pre ++ u :: (rest ++ post)) := by
  unfold Merged at h ⊢
  rw [isChain_append] at h ⊢
  obtain ⟨hpre, hpost, -⟩ := h
  rw [isChain_cons] at hpost
  refine ⟨hpre, isChain_cons.2 ⟨fun c _ => by simp [hu], ?_⟩, fun c _ d hd => ?_⟩
  · rcases hrest with rfl | ⟨c, rfl, hc⟩
    · exact hpost.2
    · refine isChain_cons.2 ⟨fun d hd => ?_, hpost.2⟩
      rw [hc.trans hb.symm]
      exact hpost.1 d hd
  · cases hd
    simp [hu]

/-- A block in use takes in the free block behind it and is cut again. -/
theorem Merged.grow {u u' : Blk} (h : Merged (pre ++ u :: c :: post)) (hc : c.free = true)
    (hu : u'.free = false) (hrest : rest = [] ∨ ∃ c : Blk, rest = [c] ∧ c.free = true) : Merged (pre ++ u' :: (rest ++ post)) := by
  obtain ⟨hpre, htail, -⟩ := isChain_append.1 h
  have hcut : Merged ([u] ++ u' :: (rest ++ post)) := Merged.take htail hc hu hrest
  refine isChain_append.2 ⟨hpre, (isChain_append.1 hcut).2.1, fun d _ e he => ?_⟩
  cases he
  simp [hu]

/-- A block in use is put at the end. -/
theorem Merged.snoc {u : Blk} (h : Merged bs) (hu : u.free = false) : Merged (bs ++ [u]) := by
  refine isChain_append.2 ⟨h, isChain_singleton u, fun c _ d hd => ?_⟩
  cases hd
  simp [hu]

end HeapBlocks
