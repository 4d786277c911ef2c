import TsOs.Pmm
import TsOs.Lib.Bits

/-!
# What allocating and freeing a frame do to the bitmap

The search of `pmm_alloc_frame` finds the lowest free frame, and the two calls change one bit and keep the difference between
the count and the number of clear bits.
-/

namespace TsOs

open Bits Function List Nat

/-- A frame that `pmm_alloc_frame` may return. -/
def Pmm.Free (p : Pmm) (f : Nat) : Prop := 0 < f ∧ f < p.totalFrames ∧ p.isUsed f = false

/-- The state after frame `f` is allocated. -/
def Pmm.take (p : Pmm) (f : Nat) : Pmm := { p.setUsed f with freeFrames := p.freeFrames - 1 }

/-- The state after frame `f` is freed. -/
def Pmm.release (p : Pmm) (f : Nat) : Pmm := { p.setFree f with freeFrames := p.freeFrames + 1 }

variable {p : Pmm}

namespace PmmAux

/-! ## Bits -/

theorem getLsbD_bitMask (n i : Nat) : (bitMask n).getLsbD i = decide (i = n % 64) := by
  rw [bitMask, getLsbD_one_shiftLeft]
  by_cases hi : i = n % 64
  · have hlt : i < 64 := by omega
    rw [decide_eq_true hlt, Bool.true_and]
  · rw [decide_eq_false hi, Bool.and_false]

theorem isUsed_eq (p : Pmm) (n : Nat) : p.isUsed n = (p.bitmap (n / 64)).getLsbD (n % 64) :=
  and_mask_ne_zero (getLsbD_one_shiftLeft _)

theorem isUsed_setUsed (p : Pmm) (f n : Nat) : (p.setUsed f).isUsed n = (decide (n = f) || p.isUsed n) := by
  rw [isUsed_eq, isUsed_eq]
  simp only [Pmm.setUsed]
  by_cases hw : n / 64 = f / 64
  · have heq : (n % 64 = f % 64) ↔ n = f := by omega
    rw [hw, update_self, BitVec.getLsbD_or, getLsbD_bitMask, Bool.or_comm]
    simp only [heq]
  · have hne : n ≠ f := fun h => hw (by rw [h])
    rw [update_of_ne hw, decide_eq_false hne, Bool.false_or]

theorem isUsed_setFree (p : Pmm) (f n : Nat) : (p.setFree f).isUsed n = (!decide (n = f) && p.isUsed n) := by
  rw [isUsed_eq, isUsed_eq]
  simp only [Pmm.setFree]
  have hn : n % 64 < 64 := by omega
  by_cases hw : n / 64 = f / 64
  · have heq : (n % 64 = f % 64) ↔ n = f := by omega
    rw [hw, update_self, BitVec.getLsbD_and, BitVec.getLsbD_not, getLsbD_bitMask, Bool.and_comm]
    simp only [heq, hn, decide_true, Bool.true_and]
  · have hne : n ≠ f := fun h => hw (by rw [h])
    rw [update_of_ne hw, decide_eq_false hne, Bool.not_false, Bool.true_and]

/-- The bitmap is determined by its bits. -/
theorem bitmap_ext {q : Pmm} (h : ∀ n, p.isUsed n = q.isUsed n) : p.bitmap = q.bitmap := by
  funext w
  apply BitVec.eq_of_getLsbD_eq
  intro i hi
  have := h (w * 64 + i)
  rwa [isUsed_eq, isUsed_eq, show (w * 64 + i) / 64 = w by omega, show (w * 64 + i) % 64 = i by omega] at this

end PmmAux

open PmmAux

@[simp] theorem Pmm.isUsed_take (p : Pmm) (f n : Nat) : (p.take f).isUsed n = (decide (n = f) || p.isUsed n) :=
  isUsed_setUsed p f n

@[simp] theorem Pmm.isUsed_release (p : Pmm) (f n : Nat) : (p.release f).isUsed n = (!decide (n = f) && p.isUsed n) :=
  isUsed_setFree p f n

namespace PmmAux

/-! ## The search -/

theorem getLsbD_low (k b : Nat) (hk : k < 64) : (1#64 <<< k - 1#64).getLsbD b = decide (b < k) := by
  have hpow : (1#64 <<< k).toNat = 2 ^ k := by
    rw [BitVec.toNat_shiftLeft, BitVec.toNat_ofNat, shiftLeft_eq]
    have : 2 ^ k < 2 ^ 64 := Nat.pow_lt_pow_right (by omega) hk
    rw [Nat.one_mul, Nat.mod_eq_of_lt this]
  have hle : 1#64 ≤ 1#64 <<< k := by
    rw [BitVec.le_def, hpow]
    exact Nat.one_le_two_pow
  rw [BitVec.getLsbD, BitVec.toNat_sub_of_le hle, hpow]
  exact testBit_two_pow_sub_one k b

/-- The bits `pmm_alloc_frame` picks from stand for the free frames. -/
theorem freeBits_iff {w b : Nat} (hpos : 0 < p.totalFrames) (hw : w < (p.totalFrames + 63) / 64) (hb : b < 64) :
    (p.freeBits ((p.totalFrames + 63) / 64) w).getLsbD b = true ↔ p.Free (w * 64 + b) := by
  have hused : p.isUsed (w * 64 + b) = (p.bitmap w).getLsbD b := by
    rw [isUsed_eq, show (w * 64 + b) / 64 = w by omega, show (w * 64 + b) % 64 = b by omega]
  have hzero : (if w = 0 then ~~~p.bitmap w &&& ~~~1#64 else ~~~p.bitmap w).getLsbD b =
      (!p.isUsed (w * 64 + b) && decide (0 < w * 64 + b)) := by
    rw [hused]
    by_cases hw0 : w = 0
    · have hone : (1#64).getLsbD b = decide (b = 0) := by simp [BitVec.getLsbD_one]
      rw [if_pos hw0, BitVec.getLsbD_and, BitVec.getLsbD_not, BitVec.getLsbD_not]
      by_cases hb0 : b = 0 <;> simp [hb, hw0, hb0]
      omega
    · rw [if_neg hw0]
      have : 0 < w * 64 + b := by omega
      simp [hb, this]
  have hbits : (p.freeBits ((p.totalFrames + 63) / 64) w).getLsbD b =
      (!p.isUsed (w * 64 + b) && decide (0 < w * 64 + b) && decide (w * 64 + b < p.totalFrames)) := by
    rw [Pmm.freeBits]
    split
    · next h =>
      rw [BitVec.getLsbD_and, hzero, getLsbD_low _ _ (by omega)]
      have hiff : b < p.totalFrames % 64 ↔ w * 64 + b < p.totalFrames := by omega
      simp only [hiff]
    · next h =>
      have hlt : w * 64 + b < p.totalFrames := by omega
      rw [hzero, decide_eq_true hlt, Bool.and_true]
  rw [hbits, Pmm.Free]
  simp
  tauto

/-- The scan from word `s` on, when no frame below it is free. -/
theorem allocScan_spec (hpos : 0 < p.totalFrames) (s k : Nat) (hsk : s + k = (p.totalFrames + 63) / 64)
    (hbelow : ∀ g < s * 64, ¬ p.Free g) :
    (allocScan p ((p.totalFrames + 63) / 64) (List.range' s k) = (p, 0) ∧ ∀ f, ¬ p.Free f) ∨
    ∃ f, p.Free f ∧ (∀ g < f, ¬ p.Free g) ∧
      allocScan p ((p.totalFrames + 63) / 64) (List.range' s k) = (p.take f, f * 4096) := by
  induction k generalizing s with
  | zero =>
    refine .inl ⟨rfl, fun f hf => hbelow f ?_ hf⟩
    have := hf.2.1
    omega
  | succ k ih =>
    have hbits : ∀ b < 64, (p.freeBits ((p.totalFrames + 63) / 64) s).getLsbD b = true ↔ p.Free (s * 64 + b) :=
      fun b hb => freeBits_iff hpos (by omega) hb
    -- when the word has no free bit the scan goes on
    have hnext : p.freeBits ((p.totalFrames + 63) / 64) s = 0#64 → ∀ g < (s + 1) * 64, ¬ p.Free g := by
      intro h0 g hg hfree
      by_cases hlt : g < s * 64
      · exact hbelow g hlt hfree
      · obtain ⟨b, rfl⟩ := Nat.exists_eq_add_of_le (Nat.le_of_not_lt hlt)
        have := (hbits b (by omega)).mpr hfree
        rw [h0, BitVec.getLsbD_zero] at this
        exact absurd this (by decide)
    rw [range'_succ, allocScan]
    by_cases hall : p.bitmap s = BitVec.allOnes 64
    · rw [if_pos hall]
      refine ih (s + 1) (by omega) (hnext ?_)
      apply BitVec.eq_of_getLsbD_eq
      intro b hb
      rw [BitVec.getLsbD_zero, Bool.eq_false_iff]
      intro htrue
      have hfree := ((hbits b hb).mp htrue).2.2
      rw [isUsed_eq, show (s * 64 + b) / 64 = s by omega, show (s * 64 + b) % 64 = b by omega, hall,
        BitVec.getLsbD_allOnes] at hfree
      simp [hb] at hfree
    · rw [if_neg hall]
      by_cases h0 : p.freeBits ((p.totalFrames + 63) / 64) s = 0#64
      · rw [if_pos h0]
        exact ih (s + 1) (by omega) (hnext h0)
      · rw [if_neg h0]
        have hbit := BitVec.getLsbD_true_ctz_of_ne_zero h0
        have hlt : (p.freeBits ((p.totalFrames + 63) / 64) s).ctz.toNat < 64 := BitVec.lt_of_getLsbD hbit
        have hfree := (hbits _ hlt).mp hbit
        have hguard : ¬ s * 64 + (p.freeBits ((p.totalFrames + 63) / 64) s).ctz.toNat ≥ p.totalFrames := by
          have := hfree.2.1
          omega
        refine .inr ⟨_, hfree, fun g hg hgfree => ?_, by rw [if_neg hguard]; rfl⟩
        by_cases hgs : g < s * 64
        · exact hbelow g hgs hgfree
        · obtain ⟨b, rfl⟩ := Nat.exists_eq_add_of_le (Nat.le_of_not_lt hgs)
          have hfalse := BitVec.getLsbD_false_of_lt_ctz (show b < (p.freeBits ((p.totalFrames + 63) / 64) s).ctz.toNat by omega)
          rw [(hbits b (by omega)).mpr hgfree] at hfalse
          exact absurd hfalse (by decide)

end PmmAux

/-- `pmm_alloc_frame` takes the lowest free frame, and returns 0 only when there is none. -/
theorem pmmAllocFrame_spec (p : Pmm) :
    (pmmAllocFrame p = (p, 0) ∧ (p.initialized = true → ∀ f, ¬ p.Free f)) ∨
    ∃ f, p.Free f ∧ (∀ g < f, ¬ p.Free g) ∧ p.initialized = true ∧ pmmAllocFrame p = (p.take f, f * 4096) := by
  cases hinit : p.initialized with
  | false => exact .inl ⟨by simp [pmmAllocFrame, hinit], fun h => absurd h (by decide)⟩
  | true =>
    have hrun : pmmAllocFrame p = allocScan p (if (p.totalFrames + 63) / 64 = 0 then 1 else (p.totalFrames + 63) / 64)
        (range (if (p.totalFrames + 63) / 64 = 0 then 1 else (p.totalFrames + 63) / 64)) := by
      simp [pmmAllocFrame, hinit]
    rw [hrun]
    by_cases hpos : 0 < p.totalFrames
    · rw [if_neg (by omega), range_eq_range']
      rcases allocScan_spec hpos 0 _ (Nat.zero_add _) (fun g hg => absurd hg (by omega)) with ⟨h, hnone⟩ | ⟨f, hf, hlow, h⟩
      · exact .inl ⟨h, fun _ => hnone⟩
      · exact .inr ⟨f, hf, hlow, rfl, h⟩
    · -- with no frames at all the scan looks at one word, and every frame in it is past the total
      refine .inl ⟨?_, fun _ f hf => ?_⟩
      · rw [if_pos (by omega)]
        show allocScan p 1 [0] = (p, 0)
        rw [allocScan]
        split
        · rfl
        · split
          · rfl
          · rw [if_pos (by omega)]
      · have := hf.2.1
        omega

/-- The state after `pmm_free_frame` of frame `f`, which changes nothing when the frame cannot be freed. -/
def Pmm.drop (p : Pmm) (f : Nat) : Pmm :=
  if p.initialized = true ∧ 0 < f ∧ f < p.totalFrames ∧ p.isUsed f = true then p.release f else p

theorem pmmFreeFrame_eq (p : Pmm) (f : Nat) : (pmmFreeFrame p (f * 4096)).1 = p.drop f := by
  have hdiv : f * 4096 / 4096 = f := by omega
  have hmod : f * 4096 % 4096 = 0 := by omega
  simp only [pmmFreeFrame, hdiv, hmod, Pmm.drop]
  cases p.initialized with
  | false => simp
  | true =>
    by_cases h0 : f = 0 ∨ f ≥ p.totalFrames
    · rw [if_neg (by simp), if_neg (by simp), if_pos h0, if_neg (by omega)]
    · cases hu : p.isUsed f with
      | false => rw [if_neg (by simp), if_neg (by simp), if_neg h0, if_pos (by simp), if_neg (by simp)]
      | true =>
        rw [if_neg (by simp), if_neg (by simp), if_neg h0, if_neg (by simp), if_pos ⟨rfl, by omega, by omega, rfl⟩]
        rfl

@[simp] theorem Pmm.drop_totalFrames (p : Pmm) (f : Nat) : (p.drop f).totalFrames = p.totalFrames := by
  rw [Pmm.drop]
  split <;> rfl

@[simp] theorem Pmm.drop_initialized (p : Pmm) (f : Nat) : (p.drop f).initialized = p.initialized := by
  rw [Pmm.drop]
  split <;> rfl

variable {f : Nat}

/-- Freeing a frame that was allocated clears its bit and no other. -/
theorem Pmm.isUsed_drop (hi : p.initialized = true) (h0 : 0 < f) (hlt : f < p.totalFrames) (n : Nat) :
    (p.drop f).isUsed n = (!decide (n = f) && p.isUsed n) := by
  rw [Pmm.drop]
  by_cases hu : p.isUsed f = true
  · rw [if_pos ⟨hi, h0, hlt, hu⟩, Pmm.isUsed_release]
  · rw [if_neg (fun h => hu h.2.2.2)]
    rw [Bool.not_eq_true] at hu
    by_cases hn : n = f
    · rw [hn, hu, Bool.and_false]
    · rw [decide_eq_false hn, Bool.not_false, Bool.true_and]

theorem Pmm.isUsed_drop_of_ne (p : Pmm) {n : Nat} (h : n ≠ f) : (p.drop f).isUsed n = p.isUsed n := by
  rw [Pmm.drop]
  split
  · rw [Pmm.isUsed_release, decide_eq_false h, Bool.not_false, Bool.true_and]
  · rfl

/-! ## The count of free frames -/

/-- The number of clear bits below the total. -/
def Pmm.clearCount (p : Pmm) : Nat := (List.range p.totalFrames).countP (fun f => !p.isUsed f)

/-- How far `g_free_frames` is from the number of clear bits. -/
def Pmm.drift (p : Pmm) : BitVec 64 := p.freeFrames - BitVec.ofNat 64 p.clearCount

theorem Pmm.drift_take (hlt : f < p.totalFrames) (h : p.isUsed f = false) : (p.take f).drift = p.drift := by
  have hcount : p.clearCount = (p.take f).clearCount + 1 := by
    refine countP_update hlt (by simp) (by simp [h]) (fun g hg => ?_)
    simp [hg]
  simp only [Pmm.drift, hcount]
  show p.freeFrames - 1 - _ = _
  bv_omega

theorem Pmm.drift_release (hlt : f < p.totalFrames) (h : p.isUsed f = true) :
    (p.release f).drift = p.drift := by
  have hcount : (p.release f).clearCount = p.clearCount + 1 := by
    refine countP_update hlt (by simp [h]) (by simp) (fun g hg => ?_)
    simp [hg]
  simp only [Pmm.drift, hcount]
  show p.freeFrames + 1 - _ = _
  bv_omega

/-- The count is right when there is no drift. -/
theorem Pmm.drift_eq_zero (p : Pmm) : p.drift = 0#64 ↔ p.freeFrames.toNat = p.clearCount := by
  have hle : p.clearCount ≤ p.totalFrames := by
    have := countP_le_length (p := fun f => !p.isUsed f) (l := range p.totalFrames)
    rwa [length_range] at this
  have hlt : p.clearCount < 2 ^ 64 := by
    have := p.total_le
    rw [pmmMaxFrames] at this
    omega
  rw [Pmm.drift, ← BitVec.toNat_inj, BitVec.toNat_sub, BitVec.toNat_ofNat, BitVec.toNat_ofNat]
  omega

/-- The number of frames that `pmm_alloc_frame` may return. -/
def Pmm.freeCount (p : Pmm) : Nat := (List.range p.totalFrames).countP (fun f => decide (0 < f) && !p.isUsed f)

theorem Pmm.freeCount_take (h : p.Free f) : (p.take f).freeCount + 1 = p.freeCount := by
  refine (countP_update h.2.1 (by simp) (by simp [h.1, h.2.2]) (fun g hg => ?_)).symm
  simp [hg]

theorem Pmm.freeCount_eq_zero : p.freeCount = 0 ↔ ∀ f, ¬ p.Free f := by
  rw [Pmm.freeCount, countP_eq_zero]
  simp only [mem_range, Bool.and_eq_true, decide_eq_true_eq, Bool.not_eq_true']
  exact ⟨fun h f hf => h f hf.2.1 ⟨hf.1, hf.2.2⟩, fun h f hlt hf => h f ⟨hf.1, hlt, hf.2⟩⟩

/-- The state after `pmm_free_frame` of each of the frames `fs`. -/
def Pmm.dropAll (p : Pmm) (fs : List Nat) : Pmm := fs.foldl Pmm.drop p

theorem Pmm.dropAll_append (p : Pmm) (fs gs : List Nat) : p.dropAll (fs ++ gs) = (p.dropAll fs).dropAll gs := List.foldl_append

theorem Pmm.dropAll_singleton (p : Pmm) (f : Nat) : p.dropAll [f] = p.drop f := rfl

/-- Freeing frames that can be allocated clears their bits and no others. -/
theorem Pmm.dropAll_spec (hi : p.initialized = true) (fs : List Nat) (h : ∀ f ∈ fs, 0 < f ∧ f < p.totalFrames) :
    (p.dropAll fs).initialized = true ∧ (p.dropAll fs).totalFrames = p.totalFrames ∧
    ∀ n, (p.dropAll fs).isUsed n = true ↔ p.isUsed n = true ∧ n ∉ fs := by
  induction fs generalizing p with
  | nil => exact ⟨hi, rfl, fun n => by simp [Pmm.dropAll]⟩
  | cons f fs ih =>
    obtain ⟨h0, hlt⟩ := h f mem_cons_self
    have hrest : ∀ g ∈ fs, 0 < g ∧ g < (p.drop f).totalFrames := by
      intro g hg
      rw [Pmm.drop_totalFrames]
      exact h g (mem_cons_of_mem f hg)
    obtain ⟨hi', htot, hused⟩ := ih ((Pmm.drop_initialized p f).trans hi) hrest
    refine ⟨hi', htot.trans (Pmm.drop_totalFrames p f), fun n => ?_⟩
    rw [show p.dropAll (f :: fs) = (p.drop f).dropAll fs from rfl, hused n, Pmm.isUsed_drop hi h0 hlt, Bool.and_eq_true,
      Bool.not_eq_true', decide_eq_false_iff_not, mem_cons, not_or]
    exact ⟨fun hn => ⟨hn.1.2, hn.1.1, hn.2⟩, fun hn => ⟨⟨hn.2.1, hn.1⟩, hn.2.2⟩⟩

theorem Pmm.drift_drop (p : Pmm) (f : Nat) : (p.drop f).drift = p.drift := by
  rw [Pmm.drop]
  split
  · next h => exact Pmm.drift_release h.2.2.1 h.2.2.2
  · rfl

theorem Pmm.drift_dropAll (p : Pmm) (fs : List Nat) : (p.dropAll fs).drift = p.drift := by
  induction fs generalizing p with
  | nil => rfl
  | cons f fs ih => exact (ih (p.drop f)).trans (Pmm.drift_drop p f)

end TsOs
