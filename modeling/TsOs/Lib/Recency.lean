import Mathlib

/-!
# Orders of last use

A history lists the uses of elements, the oldest first. A list is in order of last use when each of its elements was used after
every use of the elements behind it.
-/

namespace Recency

open List BitVec

variable {α : Type*}

/-- In the history, `a` was used after every use of `b`. -/
def After (hist : List α) (a b : α) : Prop := ∃ pre post, hist = pre ++ a :: post ∧ b ∉ post

/-- The list is in order of last use, the most recent first. -/
def Ordered (hist xs : List α) : Prop := xs.Pairwise (After hist)

/-- A use of a third element does not matter. -/
theorem After.snoc {hist : List α} {a b c : α} (h : After hist a b) (hc : b ≠ c) : After (hist ++ [c]) a b := by
  obtain ⟨pre, post, rfl, hb⟩ := h
  refine ⟨pre, post ++ [c], by simp, fun hm => ?_⟩
  rcases mem_append.1 hm with hm | hm
  · exact hb hm
  · exact hc (mem_singleton.1 hm)

/-- The element used last is the most recent. -/
theorem after_last (hist : List α) (a b : α) : After (hist ++ [a]) a b := ⟨hist, [], rfl, List.not_mem_nil⟩

/-- Using an element moves it to the front. -/
theorem Ordered.touch [DecidableEq α] {hist xs : List α} (h : Ordered hist xs) (hnd : xs.Nodup) (b : α) :
    Ordered (hist ++ [b]) (b :: xs.erase b) := by
  refine pairwise_cons.2 ⟨fun c _ => after_last hist b c, ?_⟩
  have hsub : Ordered hist (xs.erase b) := h.sublist (erase_sublist)
  refine hsub.imp_of_mem (fun {x y} _ hy hxy => hxy.snoc ?_)
  rintro rfl
  exact (hnd.mem_erase_iff.1 hy).1 rfl

/-- Elements used once each, in the order of the history. -/
theorem ordered_reverse {hist : List α} (hnd : hist.Nodup) : Ordered hist hist.reverse := by
  refine pairwise_reverse.2 ?_
  induction hist with
  | nil => exact List.Pairwise.nil
  | cons x hist ih =>
    obtain ⟨hx, hnd⟩ := nodup_cons.1 hnd
    refine pairwise_cons.2 ⟨fun b hb => ?_, (ih hnd).imp (fun {a b} hab => ?_)⟩
    · obtain ⟨pre, post, rfl⟩ := append_of_mem hb
      exact ⟨x :: pre, post, rfl, fun hm => hx (by simp [hm])⟩
    · obtain ⟨pre, post, he, ha⟩ := hab
      exact ⟨x :: pre, post, by rw [he, List.cons_append], ha⟩

/-- The first from the end with a property is the least recently used with it. -/
theorem Ordered.find?_reverse {hist xs : List α} (h : Ordered hist xs) {p : α → Bool} {b : α}
    (hfind : xs.reverse.find? p = some b) {a : α} (ha : a ∈ xs) (hp : p a = true) (hne : a ≠ b) : After hist a b := by
  obtain ⟨_, pre, post, hsplit, hpre⟩ := find?_eq_some_iff_append.1 hfind
  have hxs : xs = post.reverse ++ b :: pre.reverse := by
    have := congrArg List.reverse hsplit
    rwa [List.reverse_reverse, List.reverse_append, List.reverse_cons, List.append_assoc, List.singleton_append] at this
  rw [hxs, mem_append, mem_cons] at ha
  rw [Ordered, hxs, pairwise_append] at h
  rcases ha with ha | ha | ha
  · exact h.2.2 a ha b mem_cons_self
  · exact absurd ha hne
  · have := hpre a (mem_reverse.1 ha)
    rw [hp] at this
    exact absurd this (by decide)

end Recency
