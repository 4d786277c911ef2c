import Mathlib

/-!
# Singly linked lists in a store of nodes

A node is a value of any type `α` and its link field is read through `next : α → Option α` (`none` is the null pointer).
`Seg next h xs r` says that following the links from `h` visits exactly the nodes `xs` and then stands at `r`;
`Linked next h xs` is the case where the walk ends in the null pointer. The loops a program runs over such a list are the
functions `findLink` (search with a pointer to the link), `lastFrom` (walk to the last node) and `forEach` (visit every node);
they take fuel and return `none` when it runs out, which a list that ends in the null pointer never makes them do.
-/

namespace LinkedList

open List BitVec Option Bool Nat

variable {α : Type*}

/-- Following `next` from `h` visits exactly the nodes `xs` and then stands at `r`. -/
def Seg (next : α → Option α) : Option α → List α → Option α → Prop
  | h, [], r => h = r
  | h, x :: xs, r => h = some x ∧ Seg next (next x) xs r

/-- Following `next` from `h` visits exactly the nodes `xs` and then meets the null pointer. -/
def Linked (next : α → Option α) (h : Option α) (xs : List α) : Prop := Seg next h xs none

@[simp] theorem seg_nil (next : α → Option α) (h r : Option α) : Seg next h [] r ↔ h = r := Iff.rfl

@[simp] theorem seg_cons (next : α → Option α) (h r : Option α) (x : α) (xs : List α) :
    Seg next h (x :: xs) r ↔ h = some x ∧ Seg next (next x) xs r := Iff.rfl

@[simp] theorem linked_nil (next : α → Option α) (h : Option α) : Linked next h [] ↔ h = none := Iff.rfl

@[simp] theorem linked_cons (next : α → Option α) (h : Option α) (x : α) (xs : List α) :
    Linked next h (x :: xs) ↔ h = some x ∧ Linked next (next x) xs := Iff.rfl

/-- A walk splits at any node: the first part ends where the second begins. -/
theorem seg_append (next : α → Option α) (h r : Option α) (xs ys : List α) :
    Seg next h (xs ++ ys) r ↔ ∃ m, Seg next h xs m ∧ Seg next m ys r := by
  induction xs generalizing h with
  | nil => simp
  | cons x xs ih =>
    simp only [List.cons_append, seg_cons, ih]
    exact ⟨fun ⟨h1, m, h2, h3⟩ => ⟨m, ⟨h1, h2⟩, h3⟩, fun ⟨m, ⟨h1, h2⟩, h3⟩ => ⟨h1, m, h2, h3⟩⟩

variable {h : Option α} {next : α → Option α} {xs : List α} {r : Option α}

/-- A walk only reads the links of the nodes it visits. -/
theorem Seg.congr {next' : α → Option α} (hs : Seg next h xs r)
    (he : ∀ x ∈ xs, next' x = next x) : Seg next' h xs r := by
  induction xs generalizing h with
  | nil => exact hs
  | cons x xs ih =>
    obtain ⟨h1, h2⟩ := hs
    refine ⟨h1, ?_⟩
    rw [he x (by simp)]
    exact ih h2 (fun y hy => he y (by simp [hy]))

theorem Linked.congr {next' : α → Option α} (hs : Linked next h xs)
    (he : ∀ x ∈ xs, next' x = next x) : Linked next' h xs := Seg.congr hs he

variable {ys : List α}

/-- The nodes a head pointer leads to are determined by the links. -/
theorem Linked.unique (hx : Linked next h xs) (hy : Linked next h ys) : xs = ys := by
  induction xs generalizing h ys with
  | nil =>
    cases ys with
    | nil => rfl
    | cons y ys =>
      rw [linked_cons, hx] at hy
      exact absurd hy.1 (by simp)
  | cons x xs ih =>
    cases ys with
    | nil =>
      rw [hy] at hx
      exact absurd hx.1 (by simp)
    | cons y ys =>
      have hxy : x = y := some.inj (hx.1.symm.trans hy.1)
      subst hxy
      rw [ih hx.2 hy.2]

/-- The head pointer of a list is its first node. -/
theorem Linked.head_eq (hs : Linked next h xs) : h = xs.head? := by
  cases xs with
  | nil => exact hs
  | cons x xs => exact hs.1

variable {x : α}

/-- What follows a node of the list is the rest of the list. -/
theorem Linked.next_of_append (hs : Linked next h (xs ++ x :: ys)) : Linked next (next x) ys := by
  obtain ⟨m, -, -, h3⟩ := (seg_append next h none xs (x :: ys)).1 hs
  exact h3

/-- A list that ends in the null pointer visits no node twice: after its second visit the walk would have to go on for as
long as after its first. -/
theorem Linked.nodup (hs : Linked next h xs) : xs.Nodup := by
  induction xs generalizing h with
  | nil => exact nodup_nil
  | cons x xs ih =>
    refine nodup_cons.2 ⟨fun hmem => ?_, ih hs.2⟩
    obtain ⟨as, bs, rfl⟩ := append_of_mem hmem
    have h1 : Linked next (next x) bs := Linked.next_of_append hs.2
    have h2 : as ++ x :: bs = bs := Linked.unique hs.2 h1
    have h3 := congrArg length h2
    simp only [length_append, length_cons] at h3
    omega

/-! ## Changing one link -/

section Update

variable [DecidableEq α]

/-- A write to the link of a node outside the walk does not change it. -/
theorem Seg.update (hs : Seg next h xs r) {a : α} (ha : a ∉ xs)
    (v : Option α) : Seg (Function.update next a v) h xs r := by
  refine hs.congr (fun x hx => ?_)
  rw [Function.update_of_ne]
  rintro rfl
  exact ha hx

theorem Linked.update (hs : Linked next h xs) {a : α} (ha : a ∉ xs)
    (v : Option α) : Linked (Function.update next a v) h xs := Seg.update hs ha v

/-- Redirecting the link of the last node of a walk moves its end. -/
theorem Seg.update_last {t : α} (hs : Seg next h (xs ++ [t]) r)
    (ht : t ∉ xs) (v : Option α) : Seg (Function.update next t v) h (xs ++ [t]) v := by
  obtain ⟨m, h1, h2, -⟩ := (seg_append next h r xs [t]).1 hs
  refine (seg_append _ h v xs [t]).2 ⟨m, h1.update ht v, h2, ?_⟩
  rw [Function.update_self]
  rfl

/-- Linking a new node behind the last one appends it. -/
theorem Linked.snoc {t y : α} (hs : Linked next h (xs ++ [t]))
    (hy : y ∉ xs ++ [t]) (hn : next y = none) : Linked (Function.update next t (some y)) h (xs ++ [t] ++ [y]) := by
  have hnd := hs.nodup
  have ht : t ∉ xs := fun hm => (nodup_append.1 hnd).2.2 t hm t (by simp) rfl
  refine (seg_append _ h none (xs ++ [t]) [y]).2 ⟨some y, Seg.update_last hs ht (some y), rfl, ?_⟩
  rw [Function.update_of_ne]
  · exact hn
  · rintro rfl
    exact hy (by simp)

/-- A walk behind whose end a second list is linked is the two lists put end to end. -/
theorem Linked.append {g : Option α} {t : α} (hx : Linked next h (xs ++ [t]))
    (hy : Linked next g ys) (hd : ∀ z ∈ xs ++ [t], z ∉ ys) :
    Linked (Function.update next t g) h (xs ++ [t] ++ ys) := by
  have ht : t ∉ xs := fun hm => (nodup_append.1 hx.nodup).2.2 t hm t (by simp) rfl
  exact (seg_append _ h none (xs ++ [t]) ys).2 ⟨g, Seg.update_last hx ht g, Linked.update hy (hd t (by simp)) g⟩

/-- Redirecting the link before a node to the node behind it takes the node out. -/
theorem Linked.unlink {p : α} (hs : Linked next h (xs ++ p :: x :: ys)) :
    Linked (Function.update next p (next x)) h (xs ++ p :: ys) := by
  have hnd := hs.nodup
  have hp : p ∉ xs := fun hm => (nodup_append.1 hnd).2.2 p hm p (by simp) rfl
  have hp' : p ∉ ys := by
    have := (nodup_cons.1 (nodup_append.1 hnd).2.1).1
    exact fun hm => this (by simp [hm])
  obtain ⟨m, h1, h2, h3, h4⟩ := (seg_append next h none xs (p :: x :: ys)).1 hs
  refine (seg_append _ h none xs (p :: ys)).2 ⟨m, h1.update hp _, h2, ?_⟩
  rw [Function.update_self]
  exact h4.update hp' _

end Update

variable {n : Nat}

/-- An array of nodes, each linked to the next one, is a list of all its nodes. -/
theorem exists_linked_array {next : Fin n → Option (Fin n)}
    (hnext : ∀ i : Fin n, next i = if h : i.val + 1 < n then some ⟨i.val + 1, h⟩ else none) (hn : 0 < n) :
    ∃ xs, xs.length = n ∧ Linked next (some ⟨0, hn⟩) xs := by
  have hdrop : ∀ d i, n - i = d → Linked next (if h : i < n then some ⟨i, h⟩ else none) ((finRange n).drop i) := by
    intro d
    induction d with
    | zero =>
      intro i hd
      rw [drop_eq_nil_of_le (by rw [length_finRange]; omega), linked_nil, dif_neg (by omega)]
    | succ d ih =>
      intro i hd
      have hlt : i < n := by omega
      rw [drop_eq_getElem_cons (by rw [length_finRange]; exact hlt), dif_pos hlt, linked_cons]
      refine ⟨by simp, ?_⟩
      rw [hnext]
      simpa using ih (i + 1) (by omega)
  exact ⟨finRange n, length_finRange, by simpa [hn] using hdrop n 0 (Nat.sub_zero n)⟩

/-! ## The loops over a list -/

/-- The place a link is stored in: the head pointer of the list, or the link field of a node. -/
inductive Link (α : Type*) where
  | head
  | after (x : α)
  deriving DecidableEq, Repr

/-- `while (*pp) { if (p(*pp)) ...; pp = &(*pp)->next; }`: the first node that satisfies `p`, with the place of the link that
leads to it. `some none` when the list has no such node, `none` when the fuel runs out. -/
def findLink (next : α → Option α) (p : α → Bool) : Nat → Link α → Option α → Option (Option (Link α × α))
  | 0, _, _ => none
  | _ + 1, _, none => some none
  | n + 1, pp, some x => if p x then some (some (pp, x)) else findLink next p n (.after x) (next x)

/-- `while (t->next) t = t->next;`: the last node, `none` when the fuel runs out. -/
def lastFrom (next : α → Option α) : Nat → α → Option α
  | 0, _ => none
  | n + 1, t => match next t with
    | none => some t
    | some u => lastFrom next n u

/-- `for (n = h; n; n = n->next) s = f(s, n);`: a loop over the nodes of a list, `none` when the fuel runs out. -/
def forEach {σ : Type*} (next : α → Option α) (f : σ → α → σ) : Nat → σ → Option α → Option σ
  | 0, _, _ => none
  | _ + 1, s, none => some s
  | n + 1, s, some x => forEach next f n (f s x) (next x)

/-- The place of the link that leads to the node behind `xs`. -/
def linkOf (pp : Link α) (xs : List α) : Link α := (xs.getLast?.map Link.after).getD pp

theorem linkOf_cons (pp : Link α) (x : α) (xs : List α) : linkOf pp (x :: xs) = linkOf (.after x) xs := by
  cases xs with
  | nil => rfl
  | cons y ys =>
    obtain ⟨t, ht⟩ : ∃ t, (y :: ys).getLast? = some t := ⟨_, getLast?_eq_some_getLast (by simp)⟩
    simp only [linkOf, getLast?_cons_cons, ht, map_some, getD_some]

variable {p : α → Bool}

/-- With fuel for the whole list, a search for a property no node has finds nothing. -/
theorem findLink_none (hs : Linked next h xs)
    (hp : ∀ x ∈ xs, p x = false) (hn : xs.length < n) (pp : Link α) :
    findLink next p n pp h = some none := by
  induction xs generalizing h n pp with
  | nil =>
    obtain ⟨n, rfl⟩ := Nat.exists_eq_succ_of_ne_zero (Nat.ne_of_gt hn)
    rw [hs]
    rfl
  | cons x xs ih =>
    obtain ⟨rfl, h2⟩ := hs
    obtain ⟨n, rfl⟩ := Nat.exists_eq_succ_of_ne_zero (Nat.ne_zero_of_lt hn)
    simp only [findLink, hp x (by simp), false_eq_true, if_false]
    exact ih h2 (fun y hy => hp y (by simp [hy])) (by simpa using hn) _

/-- The node that a search finds has the property. -/
theorem findLink_holds {pp : Link α} {res : Link α × α}
    (hf : findLink next p n pp h = some (some res)) : p res.2 = true := by
  induction n generalizing pp h with
  | zero => cases hf
  | succ n ih =>
    cases h with
    | none => cases hf
    | some x =>
      rw [findLink] at hf
      split at hf
      · rename_i hx
        cases hf
        exact hx
      · exact ih hf

/-- With fuel for the whole list, a search finds the first node with the property, and the link that leads to it. -/
theorem findLink_some (hs : Linked next h (xs ++ x :: ys)) (hx : p x = true) (hp : ∀ a ∈ xs, p a = false)
    (hn : xs.length < n) (pp : Link α) : findLink next p n pp h = some (some (linkOf pp xs, x)) := by
  induction xs generalizing h n pp with
  | nil =>
    obtain ⟨n, rfl⟩ := Nat.exists_eq_succ_of_ne_zero (Nat.ne_of_gt hn)
    rw [hs.1]
    simp [findLink, hx, linkOf]
  | cons a xs ih =>
    obtain ⟨rfl, h2⟩ := hs
    obtain ⟨n, rfl⟩ := Nat.exists_eq_succ_of_ne_zero (Nat.ne_zero_of_lt hn)
    simp only [findLink, hp a (by simp), false_eq_true, if_false]
    rw [ih h2 (fun b hb => hp b (by simp [hb])) (by simpa using hn), linkOf_cons]

/-- With fuel for the whole list, the walk to the last node gets there. -/
theorem lastFrom_eq (hs : Linked next (some x) xs) (hn : xs.length ≤ n) : lastFrom next n x = xs.getLast? := by
  induction xs generalizing x n with
  | nil => exact absurd hs (by simp)
  | cons y xs ih =>
    obtain ⟨hxy, h2⟩ := hs
    cases hxy
    obtain ⟨n, rfl⟩ := Nat.exists_eq_succ_of_ne_zero (Nat.ne_of_gt (Nat.lt_of_lt_of_le (Nat.succ_pos _) hn))
    cases xs with
    | nil =>
      rw [seg_nil] at h2
      simp [lastFrom, h2]
    | cons z zs =>
      have hz := h2.1
      simp only [lastFrom, hz]
      rw [hz] at h2
      rw [ih h2 (by simpa using hn), getLast?_cons_cons]

/-- With fuel for the whole list, a loop over its nodes is a fold. -/
theorem forEach_eq {σ : Type*} {f : σ → α → σ} (hs : Linked next h xs)
    (hn : xs.length < n) (s : σ) : forEach next f n s h = some (xs.foldl f s) := by
  induction xs generalizing h n s with
  | nil =>
    obtain ⟨n, rfl⟩ := Nat.exists_eq_succ_of_ne_zero (Nat.ne_of_gt hn)
    rw [hs]
    rfl
  | cons x xs ih =>
    obtain ⟨rfl, h2⟩ := hs
    obtain ⟨n, rfl⟩ := Nat.exists_eq_succ_of_ne_zero (Nat.ne_zero_of_lt hn)
    exact ih h2 (by simpa using hn) (f s x)

end LinkedList
