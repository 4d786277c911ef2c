import Mathlib

/-!
# Words

The words of a list: the maximal runs of elements that are no separators.
-/

namespace Words

open List

variable {α : Type*} {p : α → Bool} {x : α}

/-- The maximal runs of elements without `p`, in order. -/
def words (p : α → Bool) (l : List α) : List (List α) := (l.splitOnP p).filter (!·.isEmpty)

@[simp] theorem words_nil : words p [] = [] := rfl

@[simp] theorem words_sep (hx : p x = true) (l : List α) : words p (x :: l) = words p l := by
  simp [words, splitOnP_cons_eq_if_modifyHead, hx]

theorem words_seps {d : List α} (hd : ∀ y ∈ d, p y = true) (l : List α) : words p (d ++ l) = words p l := by
  induction d with
  | nil => rfl
  | cons y d ih =>
    rw [cons_append, words_sep (hd y mem_cons_self), ih fun z hz => hd z (mem_cons_of_mem y hz)]

/-- A list is what `takeWhile` and `dropWhile` give of it. -/
theorem exists_span (q : α → Bool) (l : List α) : ∃ d t, l = d ++ t ∧ d = l.takeWhile q ∧ t = l.dropWhile q ∧
    (∀ y ∈ d, q y = true) ∧ ∀ y ∈ t.head?, q y = false := by
  refine ⟨_, _, takeWhile_append_dropWhile.symm, rfl, rfl, fun y hy => mem_takeWhile_imp hy, fun y hy => ?_⟩
  have := head?_dropWhile_not q l
  rw [hy] at this
  exact this

/-- A word goes on up to the next separator. -/
theorem words_run (hx : p x = false) (l : List α) :
    words p (x :: l) = (x :: l.takeWhile (!p ·)) :: words p (l.dropWhile (!p ·)) := by
  obtain ⟨w, r, hl, hw, hr, hrun, hsep⟩ := exists_span (!p ·) l
  have hword : ∀ y ∈ x :: w, p y = false := by
    simpa [hx] using hrun
  rw [words, ← hw, ← hr, hl, ← cons_append]
  cases r with
  | nil => simp [splitOnP_eq_singleton hword]
  | cons y r =>
    have hy : p y = true := by simpa using hsep
    rw [words_sep hy, splitOnP_append_cons_of_forall_mem hword y hy]
    simp [words]

end Words
