import TsOs.Lib.Bits
import TsOs.Lib.HeapBlocks
import TsOs.UserHeap

/-!
# The block list in memory

`Laid` says that memory holds the headers of a list of blocks that stand one behind the other, each linked to the next one. For each
function of the allocator: what it makes of the list, and which bytes of memory it leaves alone.
-/

namespace TsOs

open Bytes HeapBlocks Nat UserHeap

namespace UserHeapAux

/-- Memory holds the header of the block `b` at `x`, with the link `nx`. -/
structure HeaderAt (mem : Nat → BitVec 8) (x : Nat) (b : Blk) (nx : Nat) : Prop where
  size : le 8 mem x = b.size
  free : (le 4 mem (x + 8) != 0) = b.free
  next : le 8 mem (x + 16) = nx

/-- The pointer to the first of the blocks at `a`, or `nx` if there is none. -/
def start (a : Nat) : List Blk → Nat → Nat
  | [], nx => nx
  | _ :: _, _ => a

/-- Memory holds the headers of the blocks, one behind the other from `a` on; the last one has the link `nx`. -/
def Laid (mem : Nat → BitVec 8) : Nat → List Blk → Nat → Prop
  | _, [], _ => True
  | a, b :: bs, nx => HeaderAt mem a b (start (a + (24 + b.size)) bs nx) ∧ Laid mem (a + (24 + b.size)) bs nx

@[simp] theorem start_cons (a : Nat) (b : Blk) (bs : List Blk) (nx : Nat) : start a (b :: bs) nx = a := rfl

theorem start_append (a : Nat) (bs cs : List Blk) (nx : Nat) :
    start a (bs ++ cs) nx = start a bs (start (a + extent 24 bs) cs nx) := by
  cases bs <;> simp [start]

variable {a nx : Nat} {bs : List Blk}

theorem start_of_ne_nil (h : bs ≠ []) : start a bs nx = a := by
  cases bs with
  | nil => exact absurd rfl h
  | cons b bs => rfl

@[simp] theorem laid_nil (mem : Nat → BitVec 8) (a nx : Nat) : Laid mem a [] nx := trivial

variable {b : Blk} {mem : Nat → BitVec 8}

@[simp] theorem laid_cons : Laid mem a (b :: bs) nx ↔
    HeaderAt mem a b (start (a + (24 + b.size)) bs nx) ∧ Laid mem (a + (24 + b.size)) bs nx := Iff.rfl

theorem laid_append {cs : List Blk} : Laid mem a (bs ++ cs) nx ↔
    Laid mem a bs (start (a + extent 24 bs) cs nx) ∧ Laid mem (a + extent 24 bs) cs nx := by
  induction bs generalizing a with
  | nil => simp
  | cons b bs ih =>
    rw [List.cons_append, laid_cons, laid_cons, ih, start_append, extent_cons,
      show a + (24 + b.size) + extent 24 bs = a + (24 + b.size + extent 24 bs) by omega, and_assoc]

/-! ## Which bytes a header depends on -/

variable {x : Nat} {mem' : Nat → BitVec 8}

theorem HeaderAt.congr (h : HeaderAt mem x b nx)
    (he : ∀ i, x ≤ i → i < x + 24 → mem' i = mem i) : HeaderAt mem' x b nx := by
  refine ⟨?_, ?_, ?_⟩
  · rw [le_congr fun k hk => he (x + k) (by omega) (by omega), h.size]
  · rw [le_congr fun k hk => he (x + 8 + k) (by omega) (by omega), h.free]
  · rw [le_congr fun k hk => he (x + 16 + k) (by omega) (by omega), h.next]

theorem Laid.congr (h : Laid mem a bs nx)
    (he : ∀ i, a ≤ i → i < a + extent 24 bs → mem' i = mem i) : Laid mem' a bs nx := by
  induction bs generalizing a with
  | nil => trivial
  | cons b bs ih =>
    rw [extent_cons] at he
    refine ⟨h.1.congr fun i hlo hhi => he i hlo (by omega), ih h.2 fun i hlo hhi => he i (by omega) (by omega)⟩

/-- The blocks in the middle are exchanged for others of the same extent. -/
theorem Laid.replace {pre mid mid' post : List Blk} (h : Laid mem a (pre ++ mid ++ post) nx)
    (hmid : Laid mem' (a + extent 24 pre) mid' (start (a + extent 24 (pre ++ mid)) post nx)) (he : extent 24 mid' = extent 24 mid)
    (hne : mid ≠ []) (hne' : mid' ≠ []) (hlo : ∀ i < a + extent 24 pre, mem' i = mem i)
    (hhi : ∀ i, a + extent 24 (pre ++ mid) ≤ i → mem' i = mem i) : Laid mem' a (pre ++ mid' ++ post) nx := by
  rw [laid_append, laid_append] at h
  obtain ⟨⟨hpre, -⟩, hpost⟩ := h
  have hsame : a + extent 24 (pre ++ mid') = a + extent 24 (pre ++ mid) := by simp [he]
  rw [laid_append, laid_append, hsame]
  refine ⟨⟨?_, hmid⟩, hpost.congr fun i hi _ => hhi i hi⟩
  rw [start_of_ne_nil hne] at hpre
  rw [start_of_ne_nil hne']
  exact hpre.congr fun i _ hi => hlo i hi

/-! ## Writing a header -/

theorem HeaderAt.setSize (h : HeaderAt mem x b nx) (v : Nat) :
    HeaderAt (putLe 8 mem x v) x ⟨v % 2 ^ 64, b.free⟩ nx := by
  refine ⟨le_putLe 8 mem x v, ?_, ?_⟩
  · rw [le_putLe_apart (by omega), h.free]
  · rw [le_putLe_apart (by omega), h.next]

theorem HeaderAt.setFree (h : HeaderAt mem x b nx) (v : Bool) :
    HeaderAt (putLe 4 mem (x + 8) v.toNat) x ⟨b.size, v⟩ nx := by
  refine ⟨?_, ?_, ?_⟩
  · rw [le_putLe_apart (by omega), h.size]
  · rw [le_putLe]
    cases v <;> rfl
  · rw [le_putLe_apart (by omega), h.next]

theorem HeaderAt.setNext (h : HeaderAt mem x b nx) (v : Nat) :
    HeaderAt (putLe 8 mem (x + 16) v) x b (v % 2 ^ 64) := by
  refine ⟨?_, ?_, le_putLe 8 mem (x + 16) v⟩
  · rw [le_putLe_apart (by omega), h.size]
  · rw [le_putLe_apart (by omega), h.free]

theorem putLe_outside {w : Nat} {off v i : Nat} (h : i < off ∨ off + w ≤ i) : putLe w mem off v i = mem i :=
  splice_outside h

/-- A new header, all of whose fields are written. -/
theorem headerAt_new (mem : Nat → BitVec 8) (x s nx : Nat) (f : Bool) :
    HeaderAt (putLe 8 (putLe 4 (putLe 8 mem x s) (x + 8) f.toNat) (x + 16) nx) x ⟨s % 2 ^ 64, f⟩ (nx % 2 ^ 64) := by
  refine ⟨?_, ?_, le_putLe 8 _ _ nx⟩
  · rw [le_putLe_apart (by omega), le_putLe_apart (by omega)]
    exact le_putLe 8 mem x s
  · rw [le_putLe_apart (by omega), le_putLe]
    cases f <;> rfl

variable {h : UserHeap}

theorem headerAt_iff :
    HeaderAt h.mem x b nx ↔ h.size x = b.size ∧ h.isFree x = b.free ∧ h.next x = nx :=
  ⟨fun hx => ⟨hx.size, hx.free, hx.next⟩, fun ⟨h1, h2, h3⟩ => ⟨h1, h2, h3⟩⟩

/-! ## The functions on one block -/

/-- `split_block`. -/
theorem splitBlock_spec (h : UserHeap) {size : Nat} (hb : HeaderAt h.mem x b nx) (hle : size ≤ b.size)
    (hx : x + (24 + b.size) < 2 ^ 63) (hnx : nx < 2 ^ 64) :
    ∃ mem', h.splitBlock x size = { h with mem := mem' } ∧ Laid mem' x (split 24 16 b size) nx ∧
      ∀ i, i < x ∨ x + 24 ≤ i ∧ i < x + (24 + size) ∨ x + (24 + b.size) ≤ i → mem' i = h.mem i := by
  obtain ⟨hsize, -, hnext⟩ := headerAt_iff.1 hb
  have hmod : (size + 24 + 16) % 2 ^ 64 = size + 24 + 16 := mod_eq_of_lt (by omega)
  unfold splitBlock blockHdrSize minBlockSize HeapBlocks.split
  rw [hmod, hsize]
  by_cases hfit : size + 24 + 16 ≤ b.size
  · rw [if_pos hfit, if_pos hfit, mod_eq_of_lt (show x + 24 + size < 2 ^ 64 by omega)]
    -- the header of the second part is written first
    let mem1 := putLe 8 h.mem (x + 24 + size) (b.size + (2 ^ 64 - size) + (2 ^ 64 - 24))
    let mem2 := putLe 4 mem1 (x + 24 + size + 8) true.toNat
    have hold2 : ∀ i, i < x + 24 + size ∨ x + (24 + b.size) ≤ i → mem2 i = h.mem i := fun i hi =>
      (putLe_outside (by omega)).trans (putLe_outside (by omega))
    have hnx2 : next { h with mem := mem2 } x = nx := (hb.congr fun i _ hi => hold2 i (by omega)).next
    let mem3 := putLe 8 mem2 (x + 24 + size + 16) nx
    have hold3 : ∀ i, i < x + 24 + size ∨ x + (24 + b.size) ≤ i → mem3 i = h.mem i := fun i hi =>
      (putLe_outside (by omega)).trans (hold2 i hi)
    have hnew := headerAt_new h.mem (x + 24 + size) (b.size + (2 ^ 64 - size) + (2 ^ 64 - 24)) nx true
    have hfirst := ((hb.congr fun i _ hi => hold3 i (by omega)).setNext (x + 24 + size)).setSize size
    rw [mod_eq_of_lt hnx] at hnew
    rw [mod_eq_of_lt (show size < 2 ^ 64 by omega), mod_eq_of_lt (show x + 24 + size < 2 ^ 64 by omega)] at hfirst
    refine ⟨putLe 8 (putLe 8 mem3 (x + 16) (x + 24 + size)) x size, ?_, ?_, fun i hi => ?_⟩
    · change setSize (setNext (setNext { h with mem := mem2 } (x + 24 + size)
        (next { h with mem := mem2 } x)) x (x + 24 + size)) x size = _
      rw [hnx2]
      rfl
    · rw [laid_cons, show x + (24 + size) = x + 24 + size by omega]
      refine ⟨hfirst, ?_, laid_nil _ _ _⟩
      rw [show b.size - size - 24 = (b.size + (2 ^ 64 - size) + (2 ^ 64 - 24)) % 2 ^ 64 by omega]
      exact hnew.congr fun i hi _ => by rw [putLe_outside (by omega), putLe_outside (by omega)]
    · rw [putLe_outside (by omega), putLe_outside (by omega), hold3 i (by omega)]
  · rw [if_neg hfit, if_neg hfit]
    exact ⟨h.mem, rfl, ⟨hb, laid_nil _ _ _⟩, fun _ _ => rfl⟩

/-- A block takes in the one behind it. -/
theorem absorbNext_spec (h : UserHeap) {c : Blk} (hl : Laid h.mem x [b, c] nx)
    (hx : x + (24 + b.size) + (24 + c.size) < 2 ^ 63) (hnx : nx < 2 ^ 64) :
    ∃ mem', h.absorbNext x = { h with mem := mem' } ∧ HeaderAt mem' x ⟨b.size + (24 + c.size), b.free⟩ nx ∧
      ∀ i, i < x ∨ x + 24 ≤ i → mem' i = h.mem i := by
  rw [laid_cons, start_cons] at hl
  obtain ⟨hb, hc, -⟩ := hl
  obtain ⟨hsize, -, hnext⟩ := headerAt_iff.1 hb
  obtain ⟨hsize', -, -⟩ := headerAt_iff.1 hc
  let mem1 := putLe 8 h.mem x (b.size + (24 + c.size))
  have hb1 := hb.setSize (b.size + (24 + c.size))
  rw [mod_eq_of_lt (by omega)] at hb1
  have hc1 : HeaderAt mem1 (x + (24 + b.size)) c nx := hc.congr fun i hi _ => putLe_outside (by omega)
  have hb2 := hb1.setNext nx
  rw [mod_eq_of_lt hnx] at hb2
  refine ⟨putLe 8 mem1 (x + 16) nx, ?_, hb2, fun i hi => ?_⟩
  · unfold absorbNext blockHdrSize
    rw [hnext, hsize, hsize']
    have hnext1 : next { h with mem := mem1 } x = x + (24 + b.size) := hb1.next
    have hnext2 : next { h with mem := mem1 } (x + (24 + b.size)) = nx := hc1.next
    change setNext { h with mem := mem1 } x
      (next { h with mem := mem1 } (next { h with mem := mem1 } x)) = _
    rw [hnext1, hnext2]
    rfl
  · exact (putLe_outside (by omega)).trans (putLe_outside (by omega))

/-- A free block is split and handed out. -/
theorem takeBlock_spec (h : UserHeap) {size : Nat} (hb : HeaderAt h.mem x b nx) (hle : size ≤ b.size)
    (hx : x + (24 + b.size) < 2 ^ 63) (hnx : nx < 2 ^ 64) :
    ∃ mem' s rest, h.takeBlock x size = ({ h with mem := mem' }, x + 24) ∧ Laid mem' x (⟨s, false⟩ :: rest) nx ∧ size ≤ s ∧
      (rest = [] ∨ ∃ c : Blk, rest = [c] ∧ c.free = true) ∧ 24 + s + extent 24 rest = 24 + b.size ∧
      ∀ i, i < x ∨ x + (24 + b.size) ≤ i → mem' i = h.mem i := by
  obtain ⟨mem1, hsplit, hlaid, hold⟩ := splitBlock_spec h hb hle hx hnx
  obtain ⟨s, rest, heq, hs, hrest⟩ := split_eq_cons 24 16 hle
  have hext := extent_split 24 16 b size
  rw [heq] at hlaid
  rw [heq] at hext
  refine ⟨putLe 4 mem1 (x + 8) false.toNat, s, rest, ?_, ⟨hlaid.1.setFree false, ?_⟩, hs, hrest, hext, fun i hi => ?_⟩
  · unfold takeBlock blockHdrSize
    rw [hsplit, mod_eq_of_lt (by omega)]
    rfl
  · exact hlaid.2.congr fun i hi _ => putLe_outside (by omega)
  · exact (putLe_outside (by omega)).trans (hold i (by omega))

/-! ## The loops -/

/-- The bytes of the blocks in use are the same. -/
def SameUsed (a : Nat) (bs : List Blk) (mem mem' : Nat → BitVec 8) : Prop :=
  ∀ x s, At 24 a bs x ⟨s, false⟩ → ∀ i < s, mem' (x + 24 + i) = mem (x + 24 + i)

/-- The loop of `coalesce` merges the blocks from `x` on. -/
theorem coalesceFrom_spec (n : Nat) (h : UserHeap) (hl : Laid h.mem x (b :: bs) 0) (hx : 0 < x)
    (hn : bs.length < n) (hend : x + extent 24 (b :: bs) < 2 ^ 63) :
    ∃ mem', UserHeap.coalesceFrom n h x = some { h with mem := mem' } ∧ Laid mem' x (merge 24 (b :: bs)) 0 ∧
      (∀ i < x, mem' i = h.mem i) ∧ SameUsed x (b :: bs) h.mem mem' := by
  induction n generalizing h x b bs with
  | zero => exact absurd hn (not_lt_zero _)
  | succ n ih =>
    rw [coalesceFrom]
    cases bs with
    | nil =>
      obtain ⟨-, -, hnext⟩ := headerAt_iff.1 hl.1
      rw [if_neg fun hc => hc.2 hnext, merge]
      exact ⟨h.mem, rfl, hl, fun _ _ => rfl, fun _ _ _ _ _ => rfl⟩
    | cons c bs =>
      have hl' := hl
      rw [laid_cons, start_cons] at hl'
      obtain ⟨hb, hc, hrest⟩ := hl'
      obtain ⟨-, hbf, hnext⟩ := headerAt_iff.1 hb
      obtain ⟨-, hcf, -⟩ := headerAt_iff.1 hc
      simp only [extent_cons] at hend
      rw [List.length_cons] at hn
      rw [if_pos ⟨by omega, by omega⟩, hnext, hbf, hcf, merge]
      by_cases hfree : (b.free && c.free) = true
      · rw [if_pos hfree, if_pos hfree]
        have hnx : start (x + (24 + b.size) + (24 + c.size)) bs 0 < 2 ^ 64 := by
          cases bs <;> simp only [start] <;> omega
        have htwo : Laid h.mem x [b, c] (start (x + (24 + b.size) + (24 + c.size)) bs 0) := ⟨hb, hc, laid_nil _ _ _⟩
        obtain ⟨mem1, habs, hnew, hold⟩ := absorbNext_spec h htwo (by omega) hnx
        rw [Bool.and_eq_true] at hfree
        rw [hfree.1] at hnew
        have haddr : x + (24 + (b.size + (24 + c.size))) = x + (24 + b.size) + (24 + c.size) := by omega
        have hl1 : Laid mem1 x (⟨b.size + (24 + c.size), true⟩ :: bs) 0 := by
          rw [laid_cons, haddr]
          exact ⟨hnew, hrest.congr fun i hi _ => hold i (by omega)⟩
        rw [habs]
        obtain ⟨mem2, hrun, hlaid, hlo, hsame⟩ := ih { h with mem := mem1 } hl1 hx (by omega) (by simp only [extent_cons]; omega)
        refine ⟨mem2, hrun, hlaid, fun i hi => (hlo i hi).trans (hold i (by omega)), fun y s hy i hi => ?_⟩
        -- a block in use is behind the two
        have hbehind : At 24 (x + (24 + b.size) + (24 + c.size)) bs y ⟨s, false⟩ := by
          rcases hy with ⟨-, he⟩ | ⟨-, he⟩ | hy
          · simp [← he] at hfree
          · simp [← he] at hfree
          · exact hy
        have hbound := hbehind.bounds
        rw [← haddr] at hbehind
        exact (hsame y s (.inr hbehind) i hi).trans (hold _ (by omega))
      · rw [if_neg hfree, if_neg hfree]
        obtain ⟨mem2, hrun, hlaid, hlo, hsame⟩ := ih h (x := x + (24 + b.size)) ⟨hc, hrest⟩ (by omega) (by omega)
          (by simp only [extent_cons]; omega)
        refine ⟨mem2, hrun, ?_, fun i hi => hlo i (by omega), fun y s hy i hi => ?_⟩
        · obtain ⟨d, ds, hd, -⟩ := merge_head 24 c bs
          rw [hd] at hlaid ⊢
          exact ⟨hb.congr fun i _ hi => hlo i (by omega), hlaid⟩
        · rcases hy with ⟨rfl, rfl⟩ | hy
          · exact hlo _ (by dsimp only; omega)
          · exact hsame y s hy i hi

/-- The search of `malloc`. -/
theorem findFit_spec (size : Nat) {n : Nat} (hl : Laid h.mem a bs 0) (ha : 0 < a) (hn : bs.length < n) :
    h.findFit size n (start a bs 0) = some none ∨
    ∃ pre b post, bs = pre ++ b :: post ∧ b.free = true ∧ size ≤ b.size ∧
      h.findFit size n (start a bs 0) = some (some (a + extent 24 pre)) := by
  induction n generalizing a bs with
  | zero => exact absurd hn (not_lt_zero _)
  | succ n ih =>
    cases bs with
    | nil => exact .inl (by rw [start, findFit, if_pos rfl])
    | cons b bs =>
      obtain ⟨hsize, hfree, hnext⟩ := headerAt_iff.1 hl.1
      rw [List.length_cons] at hn
      rw [start_cons, findFit, if_neg (by omega), hsize, hfree, hnext]
      by_cases hfit : (b.free && decide (size ≤ b.size)) = true
      · rw [if_pos hfit]
        rw [Bool.and_eq_true, decide_eq_true_eq] at hfit
        exact .inr ⟨[], b, bs, rfl, hfit.1, hfit.2, rfl⟩
      · rw [if_neg hfit]
        rcases ih hl.2 (by omega) (by omega) with hnone | ⟨pre, c, post, rfl, hcf, hcs, hsome⟩
        · exact .inl hnone
        · refine .inr ⟨b :: pre, c, post, rfl, hcf, hcs, ?_⟩
          rw [hsome, extent_cons, show a + (24 + b.size) + extent 24 pre = a + (24 + b.size + extent 24 pre) by omega]

/-- The walk of `malloc` to the last block. -/
theorem lastBlock_spec {n : Nat} (hl : Laid h.mem a (bs ++ [b]) 0) (ha : 0 < a)
    (hn : bs.length < n) : h.lastBlock n (start a (bs ++ [b]) 0) = some (a + extent 24 bs) := by
  induction n generalizing a bs with
  | zero => exact absurd hn (not_lt_zero _)
  | succ n ih =>
    cases bs with
    | nil =>
      have hnext : h.next a = 0 := hl.1.next
      rw [List.nil_append, start_cons, lastBlock, if_pos hnext, extent_nil, Nat.add_zero]
    | cons c bs =>
      obtain ⟨-, -, hnext⟩ := headerAt_iff.1 hl.1
      rw [List.length_cons] at hn
      have hrest := ih hl.2 (by omega) (by omega)
      rw [start_of_ne_nil (by simp)] at hnext hrest
      rw [List.cons_append, start_cons, lastBlock, hnext, if_neg (by omega), hrest, extent_cons, Nat.add_assoc]

end UserHeapAux

end TsOs
