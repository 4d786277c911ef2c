import Mathlib

/-!
# Trees of tables

A table is a node with a slot for each index, and a slot may lead to a further table. `walk` follows the slots from a root along
a list of indices. When the tables reached from the roots of a forest are distinct, a store to one slot changes only the walks
through that slot.
-/

namespace Radix

open List BitVec

variable {α ι : Type}

/-- The table reached from `a` along `p`. -/
def walk (sub : α → ι → Option α) : α → List ι → Option α
  | a, [] => some a
  | a, i :: p => (sub a i).bind fun b => walk sub b p

variable {sub sub' : α → ι → Option α}

theorem walk_cons (a : α) (i : ι) (p : List ι) : walk sub a (i :: p) = (sub a i).bind fun b => walk sub b p := rfl

theorem walk_append (a : α) (p q : List ι) : walk sub a (p ++ q) = (walk sub a p).bind fun b => walk sub b q := by
  induction p generalizing a with
  | nil => rfl
  | cons i p ih =>
    rw [List.cons_append, walk_cons, walk_cons, Option.bind_assoc]
    congr 1
    funext b
    exact ih b

theorem walk_snoc (a : α) (p : List ι) (i : ι) : walk sub a (p ++ [i]) = (walk sub a p).bind fun b => sub b i := by
  rw [walk_append]
  congr 1
  funext b
  rw [walk_cons]
  cases sub b i <;> rfl

variable {p : List ι}

theorem walk_append_none {a : α} (h : walk sub a p = none) (q : List ι) : walk sub a (p ++ q) = none := by
  rw [walk_append, h]
  rfl

/-- A walk depends only on the slots it goes through. -/
theorem walk_congr {a : α} (h : ∀ q i b, q ++ [i] <+: p → walk sub a q = some b → sub' b i = sub b i) :
    walk sub' a p = walk sub a p := by
  induction p using reverseRecOn with
  | nil => rfl
  | append_singleton p i ih =>
    have hp : walk sub' a p = walk sub a p :=
      ih (fun q j b hq => h q j b (hq.trans (prefix_append p [i])))
    rw [walk_snoc, walk_snoc, hp]
    cases hb : walk sub a p with
    | none => rfl
    | some b => exact h p i b (prefix_refl _) hb

/-! ## Forests of distinct tables -/

/-- The walks of a forest: `dom r p` says that `p` is a walk from the root `r`. -/
structure Forest (sub : α → ι → Option α) (dom : α → List ι → Prop) : Prop where
  closed : ∀ r p q, dom r (p ++ q) → dom r p
  distinct : ∀ r r' p p' a, dom r p → dom r' p' → walk sub r p = some a → walk sub r' p' = some a → r = r' ∧ p = p'

variable {dom : α → List ι → Prop} {r0 n : α} {p0 : List ι}

variable (hf : Forest sub dom) (sub' : α → ι → Option α) (i0 : ι) (h0 : dom r0 p0) (hn : walk sub r0 p0 = some n)
  (hsub : ∀ r p b j, dom r (p ++ [j]) → walk sub r p = some b → ¬ (b = n ∧ j = i0) → sub' b j = sub b j)
include hf h0 hn hsub

/-- A store to the slot `i₀` of the table at `p0` does not change the walks that do not go through it. -/
theorem Forest.walk_off
    {r : α} (hp : dom r p) (hoff : ¬ (r = r0 ∧ p0 ++ [i0] <+: p)) : walk sub' r p = walk sub r p := by
  refine walk_congr (fun q j b hq hb => ?_)
  obtain ⟨s, rfl⟩ := hq
  have hqj : dom r (q ++ [j]) := hf.closed _ _ _ hp
  refine hsub r q b j hqj hb (fun hbj => ?_)
  obtain ⟨rfl, rfl⟩ := hbj
  obtain ⟨rfl, rfl⟩ := hf.distinct _ _ _ _ _ (hf.closed _ _ _ hqj) h0 hb hn
  exact hoff ⟨rfl, prefix_append _ _⟩

/-- A store to a slot that leads, before and after, to no table or to a table without further ones changes one walk. -/
theorem Forest.walk_set
    (hold : ∀ c j, sub n i0 = some c → dom r0 (p0 ++ [i0] ++ [j]) → sub c j = none)
    (hnew : ∀ c j, sub' n i0 = some c → dom r0 (p0 ++ [i0] ++ [j]) → sub' c j = none)
    {r : α} (hp : dom r p) :
    (r = r0 ∧ p = p0 ++ [i0] → walk sub' r p = sub' n i0) ∧
    (¬ (r = r0 ∧ p = p0 ++ [i0]) → walk sub' r p = walk sub r p) := by
  have hat : walk sub' r0 p0 = some n := by
    rw [hf.walk_off sub' i0 h0 hn hsub h0 ?_, hn]
    rintro ⟨-, hpre⟩
    have := hpre.length_le
    rw [length_append, length_singleton] at this
    omega
  have hslot : walk sub' r0 (p0 ++ [i0]) = sub' n i0 := by
    rw [walk_snoc, hat, Option.bind_some]
  have hslot' : walk sub r0 (p0 ++ [i0]) = sub n i0 := by
    rw [walk_snoc, hn, Option.bind_some]
  refine ⟨?_, fun hne => ?_⟩
  · rintro ⟨rfl, rfl⟩
    exact hslot
  by_cases hoff : r = r0 ∧ p0 ++ [i0] <+: p
  · -- a longer walk through the slot: there is nothing below it, before and after
    obtain ⟨rfl, q, rfl⟩ := hoff
    cases q with
    | nil => exact absurd ⟨rfl, append_nil _⟩ hne
    | cons j q =>
      have hj : dom r (p0 ++ [i0] ++ [j]) := hf.closed _ _ q (by simpa using hp)
      have below : ∀ {s : α → ι → Option α} {o : Option α}, walk s r (p0 ++ [i0]) = o →
          (∀ c, o = some c → s c j = none) → walk s r (p0 ++ [i0] ++ j :: q) = none := by
        intro s o ho hs
        rw [walk_append, ho]
        cases o with
        | none => rfl
        | some c => rw [Option.bind_some, walk_cons, hs c rfl, Option.bind_none]
      rw [below hslot (fun c hc => hnew c j hc hj), below hslot' (fun c hc => hold c j hc hj)]
  · exact hf.walk_off sub' i0 h0 hn hsub hp hoff

end Radix
