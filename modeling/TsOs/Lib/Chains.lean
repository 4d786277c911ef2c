import TsOs.Lib.Linked

/-!
# Families of linked lists and doubly linked lists

Several singly linked lists that share one link field (the buckets of a hash table, the queues of a scheduler), and one list
linked both ways. Each update a program makes to such a structure is a lemma about the lists it stands for.
-/

namespace LinkedList

open Function List

variable {α ι : Type*} [DecidableEq α]

/-! ## Writing through a link -/

/-- The link fields after the write `*pp = v`. -/
def Link.writeNext (pp : Link α) (next : α → Option α) (v : Option α) : α → Option α :=
  match pp with
  | .head => next
  | .after p => Function.update next p v

/-- The head pointer after the write `*pp = v`. -/
def Link.writeHead (pp : Link α) (h v : Option α) : Option α :=
  match pp with
  | .head => v
  | .after _ => h

variable {xs ys : List α} {x : α}

/-- Writing `x->next` through the link that leads to `x` takes `x` out of the list and changes no link outside it. -/
theorem Linked.unlink_at {next : α → Option α} {h : Option α}
    (hs : Linked next h (xs ++ x :: ys)) :
    Linked ((linkOf .head xs).writeNext next (next x)) ((linkOf .head xs).writeHead h (next x)) (xs ++ ys) ∧
      ∀ u, u ∉ xs → (linkOf .head xs).writeNext next (next x) u = next u := by
  rcases eq_nil_or_concat xs with e | ⟨zs, p, e⟩
  · subst e
    exact ⟨hs.2, fun _ _ => rfl⟩
  · rw [concat_eq_append] at e
    subst e
    have hpp : linkOf .head (zs ++ [p]) = Link.after p := by simp [linkOf]
    rw [hpp]
    refine ⟨?_, fun u hu => update_of_ne (fun e => hu (by simp [e])) _ _⟩
    rw [append_assoc] at hs ⊢
    exact hs.unlink

/-! ## Families of lists -/

/-- The heads lead to the lists `ls`, which share no node. -/
structure Family (next : α → Option α) (head : ι → Option α) (ls : ι → List α) : Prop where
  linked : ∀ i, Linked next (head i) (ls i)
  disjoint : ∀ i j x, x ∈ ls i → x ∈ ls j → i = j

variable [DecidableEq ι] {next : α → Option α} {head : ι → Option α} {ls : ι → List α} {xs : List α}

omit [DecidableEq α] in
/-- A family in which one list has changed. -/
theorem Family.set (h : Family next head ls) {i : ι} {next' : α → Option α} {g : Option α}
    (hl : Linked next' g xs) (hn : ∀ j, j ≠ i → ∀ x ∈ ls j, next' x = next x) (hd : ∀ x ∈ xs, ∀ j, j ≠ i → x ∉ ls j) :
    Family next' (update head i g) (update ls i xs) := by
  refine ⟨fun j => ?_, fun j k x hj hk => ?_⟩
  · by_cases e : j = i
    · subst e; rw [update_self, update_self]; exact hl
    · rw [update_of_ne e, update_of_ne e]; exact (h.linked j).congr (hn j e)
  · by_cases ej : j = i
    · by_cases ek : k = i
      · rw [ej, ek]
      · rw [ej, update_self] at hj
        rw [update_of_ne ek] at hk
        exact absurd hk (hd x hj k ek)
    · by_cases ek : k = i
      · rw [ek, update_self] at hk
        rw [update_of_ne ej] at hj
        exact absurd hj (hd x hk j ej)
      · rw [update_of_ne ej] at hj
        rw [update_of_ne ek] at hk
        exact h.disjoint j k x hj hk

/-- A new node in front of a list. -/
theorem Family.push (h : Family next head ls) (i : ι) (hx : ∀ j, x ∉ ls j) :
    Family (update next x (head i)) (update head i (some x)) (update ls i (x :: ls i)) := by
  refine h.set ⟨rfl, ?_⟩ (fun j _ y hy => update_of_ne ?_ _ _) (fun y hy j hj => ?_)
  · rw [update_self]
    exact (h.linked i).update (hx i) _
  · rintro rfl
    exact hx j hy
  · rcases mem_cons.1 hy with rfl | hy
    · exact hx j
    · exact fun hm => hj (h.disjoint j i y hm hy)

/-- A node taken out of a list. -/
theorem Family.unlink (h : Family next head ls) {i : ι} (hq : ls i = xs ++ x :: ys) :
    Family ((linkOf .head xs).writeNext next (next x))
      (update head i ((linkOf .head xs).writeHead (head i) (next x))) (update ls i (xs ++ ys)) := by
  have hl := h.linked i
  rw [hq] at hl
  have hmem : ∀ y ∈ xs ++ ys, y ∈ ls i := by
    intro y hy
    rw [hq]
    rcases mem_append.1 hy with hy | hy <;> simp [hy]
  refine h.set hl.unlink_at.1 (fun j hj y hy => ?_) (fun y hy j hj hm => hj (h.disjoint j i y hm (hmem y hy)))
  exact hl.unlink_at.2 y (fun hyx => hj (h.disjoint j i y hy (hmem y (by simp [hyx]))))

omit [DecidableEq α] [DecidableEq ι] in
/-- Links of nodes on no list do not matter. -/
theorem Family.congr (h : Family next head ls) {next' : α → Option α} (hn : ∀ i, ∀ x ∈ ls i, next' x = next x) :
    Family next' head ls :=
  ⟨fun i => (h.linked i).congr (hn i), h.disjoint⟩

/-! ## Doubly linked lists -/

/-- The list `xs`, linked forwards from `head` and backwards from `tail`. -/
structure DLinked (next prev : α → Option α) (head tail : Option α) (xs : List α) : Prop where
  fwd : Linked next head xs
  bwd : Linked prev tail xs.reverse

section DLinked

variable {prev : α → Option α} {hd tl : Option α}

omit [DecidableEq α] in
/-- The link field or the head pointer that leads to a node, found through the link back from it. -/
theorem linkOf_eq (h : DLinked next prev hd tl (xs ++ x :: ys)) :
    linkOf .head xs = match prev x with | some p => .after p | none => .head := by
  have hb := h.bwd
  rw [reverse_append, reverse_cons, append_assoc, singleton_append] at hb
  have hp : prev x = xs.getLast? := by rw [hb.next_of_append.head_eq, head?_reverse]
  rw [hp, linkOf]
  cases xs.getLast? <;> rfl

omit [DecidableEq α] in
/-- Reversing a doubly linked list. -/
theorem DLinked.reverse (h : DLinked next prev hd tl xs) : DLinked prev next tl hd xs.reverse :=
  ⟨h.bwd, by rw [reverse_reverse]; exact h.fwd⟩

/-- A node taken out of a doubly linked list: both links to it are redirected. -/
theorem DLinked.remove (h : DLinked next prev hd tl (xs ++ x :: ys)) :
    DLinked ((linkOf .head xs).writeNext next (next x)) ((linkOf .head ys.reverse).writeNext prev (prev x))
      ((linkOf .head xs).writeHead hd (next x)) ((linkOf .head ys.reverse).writeHead tl (prev x)) (xs ++ ys) := by
  refine ⟨h.fwd.unlink_at.1, ?_⟩
  have hb := h.bwd
  rw [reverse_append, reverse_cons, append_assoc] at hb
  rw [reverse_append]
  exact hb.unlink_at.1

omit [DecidableEq α] in
/-- Links of nodes outside the list do not matter. -/
theorem DLinked.congr {next' prev' : α → Option α} (h : DLinked next prev hd tl xs)
    (hn : ∀ x ∈ xs, next' x = next x) (hp : ∀ x ∈ xs, prev' x = prev x) : DLinked next' prev' hd tl xs :=
  ⟨h.fwd.congr hn, h.bwd.congr (fun x hx => hp x (mem_reverse.1 hx))⟩

/-- A new node in front of a doubly linked list that is not empty. -/
theorem DLinked.push {y : α} (h : DLinked next prev hd tl (y :: xs)) (hx : x ∉ y :: xs) :
    DLinked (update next x hd) (update (update prev x none) y (some x)) (some x) tl
      (x :: y :: xs) := by
  refine ⟨⟨rfl, ?_⟩, ?_⟩
  · rw [update_self]
    exact h.fwd.update hx _
  · have hb := h.bwd
    rw [reverse_cons] at hb
    rw [reverse_cons, reverse_cons]
    have hxr : x ∉ xs.reverse ++ [y] := by rw [← reverse_cons]; exact fun hm => hx (mem_reverse.1 hm)
    exact Linked.snoc (hb.update hxr none) hxr (update_self x none prev)

omit [DecidableEq α] in
/-- The first node of an empty doubly linked list. -/
theorem DLinked.singleton (hn : next x = none) (hp : prev x = none) : DLinked next prev (some x) (some x) [x] :=
  ⟨⟨rfl, hn⟩, ⟨rfl, hp⟩⟩

end DLinked

/-! ## Searching a list -/

/-- `while (b) { if (p(b)) return b; b = b->next; }`: the first node that satisfies `p`, `none` when the fuel runs out. -/
def findNode {α : Type*} (next : α → Option α) (p : α → Bool) : Nat → Option α → Option (Option α)
  | 0, _ => none
  | _ + 1, none => some none
  | n + 1, some x => if p x then some (some x) else findNode next p n (next x)

/-- With fuel for the whole list, the search finds what is first in the list. -/
theorem findNode_eq {α : Type*} {next : α → Option α} {p : α → Bool} {h : Option α} {xs : List α} (hs : Linked next h xs)
    {n : Nat} (hn : xs.length < n) : findNode next p n h = some (xs.find? p) := by
  induction xs generalizing h n with
  | nil =>
    obtain ⟨n, rfl⟩ := Nat.exists_eq_succ_of_ne_zero (Nat.ne_of_gt hn)
    rw [hs]
    rfl
  | cons x xs ih =>
    obtain ⟨rfl, h2⟩ := hs
    obtain ⟨n, rfl⟩ := Nat.exists_eq_succ_of_ne_zero (Nat.ne_zero_of_lt hn)
    rw [findNode, find?_cons]
    cases p x with
    | true => rfl
    | false => exact ih h2 (by simpa using hn)

end LinkedList
