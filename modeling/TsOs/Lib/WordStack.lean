import Mathlib

/-!
# Stacks of 64-bit words

A stack grows down in a memory of words at their byte addresses. What is read above the stack pointer after a list of pushes is the list
read backwards, and beyond it what stood there before.
-/

namespace TsOs

/-- A memory of words, and a stack pointer into it. -/
structure WordStack where
  mem : BitVec 64 → BitVec 64
  sp : BitVec 64

namespace WordStack

variable (s : WordStack)

/-- Move the stack pointer down by one word, and store the word there. -/
def push (v : BitVec 64) : WordStack :=
  ⟨Function.update s.mem (s.sp - 8#64) v, s.sp - 8#64⟩

/-- Push words one after the other. -/
def pushAll (vs : List (BitVec 64)) : WordStack :=
  vs.foldl push s

/-- Load the word at the stack pointer, and move the pointer up. -/
def pop : BitVec 64 × WordStack :=
  (s.mem s.sp, { s with sp := s.sp + 8#64 })

/-- The word `k` places above the stack pointer. -/
def peek (k : Nat) : BitVec 64 :=
  s.mem (s.sp + BitVec.ofNat 64 (8 * k))

@[simp]
theorem pop_fst : s.pop.1 = s.peek 0 := by simp [pop, peek]

@[simp]
theorem peek_pop (k : Nat) : s.pop.2.peek k = s.peek (k + 1) := by
  have h : s.sp + 8#64 + BitVec.ofNat 64 (8 * k) = s.sp + BitVec.ofNat 64 (8 * (k + 1)) := by bv_omega
  simp only [pop, peek, h]

theorem peek_push (v : BitVec 64) {k : Nat} (hk : k < 2 ^ 60) :
    (s.push v).peek k = if k = 0 then v else s.peek (k - 1) := by
  cases k with
  | zero => simp [push, peek]
  | succ k =>
    have hne : s.sp - 8#64 + BitVec.ofNat 64 (8 * (k + 1)) ≠ s.sp - 8#64 := by bv_omega
    have hat : s.sp - 8#64 + BitVec.ofNat 64 (8 * (k + 1)) = s.sp + BitVec.ofNat 64 (8 * k) := by bv_omega
    simp only [push, peek]
    rw [Function.update_of_ne hne, hat]
    simp

/-- After the pushes of `vs`, the words from the stack pointer up are `vs` read backwards, and then the words that stood above. -/
theorem peek_pushAll (vs : List (BitVec 64)) {k : Nat} (hk : k < 2 ^ 60) :
    (s.pushAll vs).peek k = vs.reverse[k]?.getD (s.peek (k - vs.length)) := by
  induction vs generalizing s with
  | nil => simp [pushAll]
  | cons v vs ih =>
    rw [pushAll, List.foldl_cons, ← pushAll, ih, peek_push s v (by omega)]
    rcases Nat.lt_trichotomy k vs.length with h | rfl | h
    · simp [List.getElem?_append_left, h]
    · simp
    · rw [List.getElem?_eq_none (by simp; omega), List.getElem?_eq_none (by simp; omega), if_neg (by omega), List.length_cons,
        Nat.sub_sub]

theorem sp_pushAll (vs : List (BitVec 64)) : (s.pushAll vs).sp = s.sp - BitVec.ofNat 64 (8 * vs.length) := by
  induction vs generalizing s with
  | nil => simp [pushAll]
  | cons v vs ih =>
    rw [pushAll, List.foldl_cons, ← pushAll, ih]
    simp only [push, List.length_cons]
    bv_omega

end WordStack

end TsOs
