import TsOs.PageTable
import TsOs.Lemmas.Pmm
import TsOs.Lib.Radix
import TsOs.Lib.StateProg

/-!
# Tables in memory

The entries of a tree of page tables as a function of the walk that leads to them, and what the stores of `page_table.c` do to
it. The tables of several trees are kept apart by `Tables`: no frame is reached by two walks.
-/

namespace TsOs

open Bits Radix StateProg List BitVec

/-! ## Entries -/

variable {e : BitVec 64} {f : Nat}

namespace PteAux

theorem hasFlag_present (e : BitVec 64) : hasFlag e ptePresent = e.getLsbD 0 :=
  and_mask_ne_zero (getLsbD_one_shiftLeft 0)

theorem hasFlag_writable (e : BitVec 64) : hasFlag e pteWritable = e.getLsbD 1 :=
  and_mask_ne_zero (getLsbD_one_shiftLeft 1)

theorem hasFlag_ps (e : BitVec 64) : hasFlag e ptePs = e.getLsbD 7 :=
  and_mask_ne_zero (getLsbD_one_shiftLeft 7)

theorem hasFlag_cow (e : BitVec 64) : hasFlag e pteCow = e.getLsbD 9 :=
  and_mask_ne_zero (getLsbD_one_shiftLeft 9)

theorem hasFlag_demand (e : BitVec 64) : hasFlag e pteDemand = e.getLsbD 10 :=
  and_mask_ne_zero (getLsbD_one_shiftLeft 10)

theorem hasFlag_zero (flag : BitVec 64) : hasFlag 0#64 flag = false := by
  rw [hasFlag, zero_and]
  rfl

theorem hasFlag_or (e a b : BitVec 64) : hasFlag e (a ||| b) = (hasFlag e a || hasFlag e b) := by
  rw [Bool.eq_iff_iff]
  simp only [hasFlag, bne_iff_ne, ne_eq, Bool.or_eq_true, and_or_distrib_left, or_eq_zero_iff, not_and_or]

theorem getLsbD_addrMask (i : Nat) : pteAddrMask.getLsbD i = (decide (12 ≤ i) && decide (i < 52)) := by
  by_cases hi : i < 64
  · have h : ∀ i : Fin 64, pteAddrMask.getLsbD i = (decide (12 ≤ i.val) && decide (i.val < 52)) := by decide
    exact h ⟨i, hi⟩
  · have : ¬ i < 52 := by omega
    rw [getLsbD_of_ge _ _ (by omega), decide_eq_false this, Bool.and_false]

/-- The flag bits of an entry are those of the word it is made with. -/
theorem getLsbD_pteMake {a flags : BitVec 64} {i : Nat} (hi : i < 12) : (pteMake a flags).getLsbD i = flags.getLsbD i := by
  have : ¬ 12 ≤ i := by omega
  rw [pteMake, getLsbD_or, getLsbD_and, getLsbD_addrMask, decide_eq_false this, Bool.false_and, Bool.and_false,
    Bool.false_or]

theorem getLsbD_pteFlags {i : Nat} (hi : i < 12) : (pteFlags e).getLsbD i = e.getLsbD i := by
  have h12 : ¬ 12 ≤ i := by omega
  have h64 : i < 64 := by omega
  rw [pteFlags, getLsbD_and, getLsbD_not, getLsbD_addrMask, decide_eq_false h12, Bool.false_and, Bool.not_false,
    decide_eq_true h64, Bool.and_true, Bool.and_true]

theorem pteAddr_pteMake {a flags : BitVec 64} (hf : flags &&& pteAddrMask = 0#64) :
    pteAddr (pteMake a flags) = a &&& pteAddrMask := by
  rw [pteAddr, pteMake, BitVec.and_or_distrib_right, hf, BitVec.or_zero, BitVec.and_assoc, BitVec.and_self]

theorem pteFlags_and_mask (e : BitVec 64) : pteFlags e &&& pteAddrMask = 0#64 := by
  rw [pteFlags, BitVec.and_assoc]
  simp

/-- A page-aligned address below `2 ^ 52` has only address bits. -/
theorem and_addrMask_of_lt {a : BitVec 64} (h0 : a.toNat % 4096 = 0) (hlt : a.toNat < 2 ^ 52) : a &&& pteAddrMask = a := by
  apply eq_of_getLsbD_eq
  intro i hi
  rw [getLsbD_and, getLsbD_addrMask]
  by_cases hbit : a.getLsbD i = true
  · have h12 : 12 ≤ i := by
      by_contra hlt12
      obtain ⟨q, hq⟩ : 2 ^ 12 ∣ a.toNat := Nat.dvd_of_mod_eq_zero h0
      rw [getLsbD, hq, Nat.mul_comm, Nat.testBit_mul_two_pow] at hbit
      simp [hlt12] at hbit
    have h52 : i < 52 := by
      by_contra hge
      rw [getLsbD, Nat.testBit_lt_two_pow (Nat.lt_of_lt_of_le hlt (Nat.pow_le_pow_right (by omega) (by omega)))] at hbit
      exact absurd hbit (by decide)
    rw [decide_eq_true h12, decide_eq_true h52, Bool.and_self, Bool.and_true]
  · rw [Bool.not_eq_true] at hbit
    rw [hbit, Bool.false_and]

theorem toNat_frameAddr (hf : f < 2 ^ 40) : (frameAddr f).toNat = f * 4096 := by
  exact Nat.mod_eq_of_lt (by omega)

theorem frameOf_frameAddr (hf : f < 2 ^ 40) : frameOf (frameAddr f) = f := by
  rw [frameOf, toNat_frameAddr hf]
  omega

theorem frameAddr_and_mask (hf : f < 2 ^ 40) : frameAddr f &&& pteAddrMask = frameAddr f :=
  and_addrMask_of_lt (by rw [toNat_frameAddr hf]; omega) (by rw [toNat_frameAddr hf]; omega)

theorem frameAddr_ne_zero (h0 : 0 < f) (hf : f < 2 ^ 40) : frameAddr f ≠ 0#64 := by
  intro h
  have := congrArg BitVec.toNat h
  rw [toNat_frameAddr hf] at this
  simp only [toNat_ofNat, Nat.zero_mod] at this
  omega

/-- The frame of an entry. -/
def pteFrame (e : BitVec 64) : Nat := frameOf (pteAddr e)

/-- The frame of an entry made for a frame. -/
theorem pteFrame_make {flags : BitVec 64} (hf : f < 2 ^ 40) (hflags : flags &&& pteAddrMask = 0#64) :
    pteFrame (pteMake (frameAddr f) flags) = f := by
  rw [pteFrame, pteAddr_pteMake hflags, frameAddr_and_mask hf, frameOf_frameAddr hf]

/-- The address in an entry is that of its frame. -/
theorem pteAddr_eq (e : BitVec 64) : pteAddr e = frameAddr (pteFrame e) ∧ pteFrame e < 2 ^ 40 := by
  have hle : (pteAddr e).toNat < 2 ^ 52 := by
    exact Nat.lt_of_le_of_lt Nat.and_le_right (by decide)
  have hmod : (pteAddr e).toNat % 4096 = 0 := by
    apply Nat.eq_of_testBit_eq
    intro i
    rw [show 4096 = 2 ^ 12 by rfl, Nat.testBit_mod_two_pow, Nat.zero_testBit]
    by_cases hi : i < 12
    · have hbit : (pteAddr e).getLsbD i = false := by
        have : ¬ 12 ≤ i := by omega
        rw [pteAddr, getLsbD_and, getLsbD_addrMask, decide_eq_false this, Bool.false_and, Bool.and_false]
      rw [decide_eq_true hi]
      exact hbit
    · rw [decide_eq_false hi, Bool.false_and]
  have hlt : pteFrame e < 2 ^ 40 := by
    rw [pteFrame, frameOf]
    omega
  refine ⟨eq_of_toNat_eq ?_, hlt⟩
  rw [toNat_frameAddr hlt, pteFrame, frameOf]
  omega

end PteAux

open PteAux

/-! ## Walks and entries -/

/-- The table an entry of an upper level leads to. -/
def childOf (e : BitVec 64) : Option Nat := if hasFlag e ptePresent && !hasFlag e ptePs then some (pteFrame e) else none

/-- The table that entry `i` of table `f` leads to. -/
def subTable (mem : Nat → Fin 512 → BitVec 64) (f : Nat) (i : Fin 512) : Option Nat := childOf (mem f i)

/-- The table reached from the root `r` along `p`. -/
def tableAt (mem : Nat → Fin 512 → BitVec 64) (r : Nat) (p : List (Fin 512)) : Option Nat := walk (subTable mem) r p

/-- Entry `i` of the table reached along `p`; 0 when there is no such table. -/
def entryAt (mem : Nat → Fin 512 → BitVec 64) (r : Nat) (p : List (Fin 512)) (i : Fin 512) : BitVec 64 :=
  match tableAt mem r p with
  | some f => mem f i
  | none => 0#64

/-- A walk to a table: at most three indices, the first of them below `B`. With `B = 256` these are the walks of the user half. -/
def TablePath (B : Nat) (p : List (Fin 512)) : Prop := p.length ≤ 3 ∧ ∀ i, p.head? = some i → i.val < B

/-- The tables of the trees at the roots `live`, with no frame reached twice. -/
def Tables (B : Nat) (mem : Nat → Fin 512 → BitVec 64) (live : List Nat) : Prop :=
  Forest (subTable mem) (fun r p => r ∈ live ∧ TablePath B p)

variable {p : List (Fin 512)} {B : Nat}

theorem TablePath.of_append {q : List (Fin 512)} (h : TablePath B (p ++ q)) : TablePath B p := by
  refine ⟨?_, fun i hi => h.2 i ?_⟩
  · have := h.1
    rw [length_append] at this
    omega
  · cases p with
    | nil => cases hi
    | cons j p => exact hi

theorem TablePath.nil (B : Nat) : TablePath B [] := ⟨by simp, fun _ h => nomatch h⟩

namespace TableAux

theorem childOf_zero : childOf 0#64 = none := by
  rfl

theorem childOf_some {c : Nat} (h : childOf e = some c) :
    hasFlag e ptePresent = true ∧ hasFlag e ptePs = false ∧ pteFrame e = c := by
  rw [childOf] at h
  split at h
  · next hb =>
    rw [Bool.and_eq_true, Bool.not_eq_true'] at hb
    exact ⟨hb.1, hb.2, Option.some.inj h⟩
  · cases h

theorem childOf_present (hp : hasFlag e ptePresent = true) (hs : hasFlag e ptePs = false) :
    childOf e = some (pteFrame e) := by
  rw [childOf, hp, hs]
  rfl

theorem childOf_absent (hp : hasFlag e ptePresent = false) : childOf e = none := by
  rw [childOf, hp]
  rfl

variable {mem mem' : Nat → Fin 512 → BitVec 64}

theorem tableAt_nil (r : Nat) : tableAt mem r [] = some r := rfl

theorem tableAt_snoc (r : Nat) (p : List (Fin 512)) (i : Fin 512) :
    tableAt mem r (p ++ [i]) = childOf (entryAt mem r p i) := by
  rw [tableAt, walk_snoc, entryAt, tableAt]
  cases walk (subTable mem) r p with
  | none => exact childOf_zero.symm
  | some f => rfl

theorem entryAt_eq {r : Nat} (h : tableAt mem r p = some f) (i : Fin 512) :
    entryAt mem r p i = mem f i := by
  rw [entryAt, h]

theorem entryAt_none {r : Nat} (h : tableAt mem r p = none) (i : Fin 512) :
    entryAt mem r p i = 0#64 := by
  rw [entryAt, h]

theorem tables_of_distinct {live : List Nat}
    (h : ∀ r ∈ live, ∀ r' ∈ live, ∀ p p' f, TablePath B p → TablePath B p' → tableAt mem r p = some f →
      tableAt mem r' p' = some f → r = r' ∧ p = p') : Tables B mem live where
  closed _ _ _ hd := ⟨hd.1, hd.2.of_append⟩
  distinct r r' p p' f hd hd' hp hp' := h r hd.1 r' hd'.1 p p' f hd.2 hd'.2 hp hp'

/-- From a table without present entries no other is reached. -/
theorem tableAt_of_empty {B r : Nat} (h : ∀ i : Fin 512, i.val < B → hasFlag (mem r i) ptePresent = false)
    (hp : TablePath B p) (hf : tableAt mem r p = some f) : p = [] ∧ f = r := by
  cases p with
  | nil => exact ⟨rfl, (Option.some.inj hf).symm⟩
  | cons i p =>
    rw [tableAt, walk_cons, subTable, childOf_absent (h i (hp.2 i rfl))] at hf
    cases hf

/-- Tables stay distinct when some of them go. -/
theorem tables_of_sub {live live' : List Nat} (h : Tables B mem live)
    (hsub : ∀ r ∈ live', ∀ p f, TablePath B p → tableAt mem' r p = some f → r ∈ live ∧ tableAt mem r p = some f) :
    Tables B mem' live' := by
  apply tables_of_distinct
  intro r hr r' hr' p p' f hp hp' hf hf'
  obtain ⟨hlive, hold⟩ := hsub r hr p f hp hf
  obtain ⟨hlive', hold'⟩ := hsub r' hr' p' f hp' hf'
  exact h.distinct r r' p p' f ⟨hlive, hp⟩ ⟨hlive', hp'⟩ hold hold'

/-- Tables stay distinct when one is added that was none before. -/
theorem tables_of_added {live : List Nat} {r0 c : Nat} {q : List (Fin 512)} (h : Tables B mem live)
    (hnew : tableAt mem' r0 q = some c) (hc : ∀ r ∈ live, ∀ p, TablePath B p → tableAt mem r p ≠ some c)
    (hold : ∀ r ∈ live, ∀ p, TablePath B p → ¬ (r = r0 ∧ p = q) → tableAt mem' r p = tableAt mem r p) :
    Tables B mem' live := by
  have key : ∀ r ∈ live, ∀ p f, TablePath B p → tableAt mem' r p = some f →
      (r = r0 ∧ p = q) ∧ f = c ∨ tableAt mem r p = some f ∧ f ≠ c := by
    intro r hr p f hp hf
    by_cases hq : r = r0 ∧ p = q
    · rw [hq.1, hq.2, hnew, Option.some.injEq] at hf
      exact .inl ⟨hq, hf.symm⟩
    · rw [hold r hr p hp hq] at hf
      exact .inr ⟨hf, fun hfc => hc r hr p hp (hfc ▸ hf)⟩
  apply tables_of_distinct
  intro r hr r' hr' p p' f hp hp' hf hf'
  rcases key r hr p f hp hf with ⟨⟨rfl, rfl⟩, rfl⟩ | ⟨hm, hne⟩
  · rcases key r' hr' p' f hp' hf' with ⟨⟨rfl, rfl⟩, -⟩ | ⟨-, hne⟩
    · exact ⟨rfl, rfl⟩
    · exact absurd rfl hne
  · rcases key r' hr' p' f hp' hf' with ⟨-, hfc⟩ | ⟨hm', -⟩
    · exact absurd hfc hne
    · exact h.distinct r r' p p' f ⟨hr, hp⟩ ⟨hr', hp'⟩ hm hm'

variable {B : Nat} {live : List Nat} {r0 n : Nat} {p0 : List (Fin 512)} {i0 : Fin 512}

section

variable (mem' : Nat → Fin 512 → BitVec 64) (i0 : Fin 512) (ht : Tables B mem live) (hr : r0 ∈ live)
  (hn : tableAt mem r0 p0 = some n)
  (hmem : ∀ r ∈ live, ∀ p f j, TablePath B p → tableAt mem r p = some f → ¬ (f = n ∧ j = i0) → mem' f j = mem f j)
include ht hr hn hmem

/-- After a store to entry `i0` of table `n`, any other entry of a table that is reached as before. -/
theorem entryAt_off (hp0 : TablePath B p0) {r : Nat} {p : List (Fin 512)} {i : Fin 512} (hr' : r ∈ live)
    (hp : TablePath B p) (hsame : tableAt mem' r p = tableAt mem r p)
    (hne : ¬ (r = r0 ∧ p = p0 ∧ i = i0)) : entryAt mem' r p i = entryAt mem r p i := by
  cases hf : tableAt mem r p with
  | none => rw [entryAt_none hf, entryAt_none (hsame.trans hf)]
  | some f =>
    rw [entryAt_eq hf, entryAt_eq (hsame.trans hf)]
    refine hmem r hr' p f i hp hf (fun hfi => hne ?_)
    obtain ⟨rfl, rfl⟩ := hfi
    obtain ⟨rfl, rfl⟩ := ht.distinct _ _ _ _ _ ⟨hr', hp⟩ ⟨hr, hp0⟩ hf hn
    exact ⟨rfl, rfl, rfl⟩

/-- A store to a leaf, or to memory outside the tables, changes no table and one entry. -/
theorem set_leaf (hp0 : TablePath B p0) (hlen : p0.length = 3) :
    (∀ r ∈ live, ∀ p, TablePath B p → tableAt mem' r p = tableAt mem r p) ∧
    entryAt mem' r0 p0 i0 = mem' n i0 ∧
    ∀ r ∈ live, ∀ p i, TablePath B p → ¬ (r = r0 ∧ p = p0 ∧ i = i0) → entryAt mem' r p i = entryAt mem r p i := by
  have htab : ∀ r ∈ live, ∀ p, TablePath B p → tableAt mem' r p = tableAt mem r p := by
    intro r hr' p hp
    refine Forest.walk_off ht (subTable mem') i0 ⟨hr, hp0⟩ hn (fun r q f j hd hf hne => ?_) ⟨hr', hp⟩ ?_
    · exact congrArg childOf (hmem r hd.1 q f j hd.2.of_append hf hne)
    · rintro ⟨-, hpre⟩
      have hle := hpre.length_le
      rw [length_append, length_singleton] at hle
      exact absurd hp.1 (by omega)
  exact ⟨htab, entryAt_eq ((htab r0 hr p0 hp0).trans hn) i0, fun r hr' p i hp =>
    entryAt_off mem' i0 ht hr hn hmem hp0 hr' hp (htab r hr' p hp)⟩

/-- A store to an entry of an upper level that leads, before and after, to no table or to an empty one. -/
theorem set_table (hp1 : TablePath B (p0 ++ [i0]))
    (hold : ∀ c j, childOf (mem n i0) = some c → hasFlag (mem c j) ptePresent = false)
    (hnew : ∀ c j, childOf (mem' n i0) = some c → hasFlag (mem' c j) ptePresent = false) :
    tableAt mem' r0 (p0 ++ [i0]) = childOf (mem' n i0) ∧
    (∀ r ∈ live, ∀ p, TablePath B p → ¬ (r = r0 ∧ p = p0 ++ [i0]) → tableAt mem' r p = tableAt mem r p) ∧
    entryAt mem' r0 p0 i0 = mem' n i0 ∧
    ∀ r ∈ live, ∀ p i, TablePath B p → ¬ (r = r0 ∧ p = p0 ++ [i0]) → ¬ (r = r0 ∧ p = p0 ∧ i = i0) →
      entryAt mem' r p i = entryAt mem r p i := by
  have hp0 := hp1.of_append
  have hset := fun {r : Nat} {p : List (Fin 512)} (hd : r ∈ live ∧ TablePath B p) =>
    Forest.walk_set ht (subTable mem') i0 ⟨hr, hp0⟩ hn
      (fun r q f j hd hf hne => congrArg childOf (hmem r hd.1 q f j hd.2.of_append hf hne))
      (fun c j hc _ => childOf_absent (hold c j hc)) (fun c j hc _ => childOf_absent (hnew c j hc)) hd
  have htab : ∀ r ∈ live, ∀ p, TablePath B p → ¬ (r = r0 ∧ p = p0 ++ [i0]) → tableAt mem' r p = tableAt mem r p :=
    fun r hr' p hp => (hset ⟨hr', hp⟩).2
  have hn' : tableAt mem' r0 p0 = some n := by
    rw [htab r0 hr p0 hp0 ?_, hn]
    rintro ⟨-, h⟩
    have := congrArg length h
    rw [length_append, length_singleton] at this
    omega
  exact ⟨(hset ⟨hr, hp1⟩).1 ⟨rfl, rfl⟩, htab, entryAt_eq hn' i0, fun r hr' p i hp hne =>
    entryAt_off mem' i0 ht hr hn hmem hp0 hr' hp (htab r hr' p hp hne)⟩

end

/-- Removing a table without present entries: one walk ends, and the entry that led to the table reads as 0. -/
theorem clear_table {c : Nat} (ht : Tables B mem live) (hr : r0 ∈ live) (hp1 : TablePath B (p0 ++ [i0]))
    (hn : tableAt mem r0 p0 = some n) (hc : tableAt mem r0 (p0 ++ [i0]) = some c)
    (hempty : ∀ j, hasFlag (mem c j) ptePresent = false) :
    tableAt (setEntry mem n i0 0#64) r0 (p0 ++ [i0]) = none ∧
    (∀ r ∈ live, ∀ p, TablePath B p → ¬ (r = r0 ∧ p = p0 ++ [i0]) →
      tableAt (setEntry mem n i0 0#64) r p = tableAt mem r p) ∧
    entryAt (setEntry mem n i0 0#64) r0 p0 i0 = 0#64 ∧
    ∀ r ∈ live, ∀ p i, TablePath B p → ¬ (r = r0 ∧ p = p0 ++ [i0]) → ¬ (r = r0 ∧ p = p0 ∧ i = i0) →
      entryAt (setEntry mem n i0 0#64) r p i = entryAt mem r p i := by
  have hself : setEntry mem n i0 0#64 n i0 = 0#64 := by simp [setEntry]
  have hother : ∀ f j, ¬ (f = n ∧ j = i0) → setEntry mem n i0 0#64 f j = mem f j := by
    intro f j hne
    by_cases hf : f = n
    · subst hf
      rw [setEntry, Function.update_self, Function.update_of_ne fun hj => hne ⟨rfl, hj⟩]
    · rw [setEntry, Function.update_of_ne hf]
  obtain ⟨hnew, htab, hent, hents⟩ := set_table (setEntry mem n i0 0#64) i0 ht hr hn (fun _ _ _ f j _ _ hne => hother f j hne) hp1
    (fun d j hd => by
      rw [tableAt_snoc, entryAt_eq hn, hd, Option.some.injEq] at hc
      exact hc ▸ hempty j)
    (fun d j hd => by
      rw [hself] at hd
      cases hd)
  rw [hself] at hnew hent
  exact ⟨hnew, htab, hent, hents⟩

end TableAux

end TsOs
