import Mathlib

/-!
# Buffers of bytes

Buffers of a fixed length, copies into them, and the numbers stored in them in little-endian order. A buffer is read through
its view, a function on all offsets; copies and stores are made on views, and `pack` cuts a view back to the length of a buffer.
-/

namespace Bytes

open Nat

/-- Sectors and tables have 512 entries, the first of which is entry 0. -/
instance neZero_512 : NeZero 512 := ⟨by norm_num⟩

/-- A buffer of `n` bytes. -/
abbrev Buffer (n : Nat) : Type := Fin n → BitVec 8

/-- The bytes from the start of a buffer on. Offsets past the end read as zero. -/
def view {n : Nat} (b : Buffer n) : Nat → BitVec 8 := fun i => if h : i < n then b ⟨i, h⟩ else 0#8

/-- The first `n` bytes. -/
def pack (n : Nat) (v : Nat → BitVec 8) : Buffer n := fun i => v i

/-- `memcpy(v + off, src, len)`. -/
def splice (v : Nat → BitVec 8) (off : Nat) (src : Nat → BitVec 8) (len : Nat) : Nat → BitVec 8 :=
  fun i => if off ≤ i ∧ i < off + len then src (i - off) else v i

/-- The number stored in little-endian order in the `w` bytes at `off`. -/
def le : Nat → (Nat → BitVec 8) → Nat → Nat
  | 0, _, _ => 0
  | w + 1, v, off => (v off).toNat + 256 * le w v (off + 1)

/-- Store `x` in little-endian order in the `w` bytes at `off`. -/
def putLe (w : Nat) (v : Nat → BitVec 8) (off x : Nat) : Nat → BitVec 8 :=
  splice v off (fun k => BitVec.ofNat 8 (x / 256 ^ k)) w

variable {n : Nat}

variable {v : Nat → BitVec 8}

@[simp] theorem view_pack {i : Nat} (h : i < n) : view (pack n v) i = v i := by
  simp [view, pack, h]

theorem view_fin (b : Buffer n) (i : Fin n) : view b i = b i := by
  simp [view]

variable {off : Nat}

theorem splice_inside {src : Nat → BitVec 8} {len i : Nat} (h1 : off ≤ i) (h2 : i < off + len) :
    splice v off src len i = src (i - off) :=
  if_pos ⟨h1, h2⟩

theorem splice_outside {src : Nat → BitVec 8} {len i : Nat} (h : i < off ∨ off + len ≤ i) :
    splice v off src len i = v i :=
  if_neg (by omega)

/-! ## Numbers in buffers -/

theorem le_lt (w : Nat) (v : Nat → BitVec 8) (off : Nat) : le w v off < 256 ^ w := by
  induction w generalizing off with
  | zero => simp [le]
  | succ w ih =>
    have hr := ih (off + 1)
    rw [le]
    omega

variable {w : Nat}

/-- A number depends only on the bytes it is stored in. -/
theorem le_congr {v' : Nat → BitVec 8} {off' : Nat} (h : ∀ k < w, v (off + k) = v' (off' + k)) :
    le w v off = le w v' off' := by
  induction w generalizing off off' with
  | zero => rfl
  | succ w ih =>
    have h0 := h 0 (by omega)
    have hr : le w v (off + 1) = le w v' (off' + 1) := by
      refine ih (fun k hk => ?_)
      have := h (k + 1) (by omega)
      simpa [Nat.add_assoc, Nat.add_comm 1 k] using this
    simp only [Nat.add_zero] at h0
    rw [le, le, h0, hr]

/-- The bytes of `x` in little-endian order store `x`, cut to their number. -/
theorem le_digits {x : Nat} (h : ∀ k < w, v (off + k) = BitVec.ofNat 8 (x / 256 ^ k)) :
    le w v off = x % 256 ^ w := by
  induction w generalizing off x with
  | zero => simp [le, mod_one]
  | succ w ih =>
    have h0 := h 0 (by omega)
    have hr : le w v (off + 1) = x / 256 % 256 ^ w := by
      refine ih (fun k hk => ?_)
      have := h (k + 1) (by omega)
      rw [Nat.div_div_eq_div_mul, ← Nat.pow_succ', show off + 1 + k = off + (k + 1) by omega, this]
    simp only [Nat.add_zero, Nat.pow_zero, Nat.div_one] at h0
    have hm : x % 256 ^ (w + 1) = x % 256 + 256 * (x / 256 % 256 ^ w) := by
      rw [pow_succ', mod_mul]
    rw [le, h0, hr, BitVec.toNat_ofNat, hm]

theorem le_putLe (w : Nat) (v : Nat → BitVec 8) (off x : Nat) : le w (putLe w v off x) off = x % 256 ^ w := by
  refine le_digits (fun k hk => ?_)
  rw [putLe, splice_inside (by omega) (by omega), Nat.add_sub_cancel_left]

theorem le_putLe_apart {w' : Nat} {off' x : Nat} (h : off' + w' ≤ off ∨ off + w ≤ off') :
    le w' (putLe w v off x) off' = le w' v off' := by
  refine le_congr (fun k hk => ?_)
  rw [putLe, splice_outside (by omega)]

theorem le_pack (h : off + w ≤ n) : le w (view (pack n v)) off = le w v off :=
  le_congr (fun k hk => view_pack (by omega))

end Bytes
