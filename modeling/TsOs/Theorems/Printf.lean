import Mathlib.Data.List.TakeWhile
import Mathlib.Logic.Relation
import TsOs.Printf

/-!
# The end of a format

A format that ends inside a directive is read past its NUL.
-/

namespace TsOs

open List

namespace Printf

/-- What is left of a format from one round of the loop to another. -/
def Reaches : List Char → List Char → Prop := Relation.ReflTransGen fun a b => a ≠ [] ∧ nextFormat a = some b

/-- The flags of a directive. -/
def isFlag (c : Char) : Bool := c ∈ ['-', '+', ' ', '0', '#']

/-- The number of a width or a precision. -/
def IsNumber (w : List Char) : Prop := w = ['*'] ∨ ∀ c ∈ w, c.isDigit = true

/-- A precision, or none. -/
def IsPrecision (p : List Char) : Prop := p = [] ∨ ∃ w, p = '.' :: w ∧ IsNumber w

/-- The length modifiers, with the empty one. -/
def modifiers : List (List Char) := [[], ['l'], ['l', 'l'], ['h'], ['h', 'h'], ['z'], ['t']]

/-- A directive without a conversion: nothing follows its flags, its width, its precision and its modifier, each of which may be
missing. A width does not start with `0`, which is a flag. -/
def Unfinished (d : List Char) : Prop :=
  ∃ flags width precision modifier, d = flags ++ (width ++ (precision ++ modifier)) ∧ (∀ c ∈ flags, isFlag c = true) ∧
    (IsNumber width ∧ width.head? ≠ some '0') ∧ IsPrecision precision ∧ modifier ∈ modifiers

theorem dropWhile_append_stop {p : Char → Bool} {a b : List Char} (ha : ∀ c ∈ a, p c = true) (hb : ∀ c ∈ b.head?, p c = false) :
    (a ++ b).dropWhile p = b := by
  rw [dropWhile_append, (dropWhile_eq_nil_iff.mpr ha)]
  cases b with
  | nil => rfl
  | cons c b => simp [hb c rfl]

theorem skipWidth_append {w r : List Char} (hw : IsNumber w) (hr : ∀ c ∈ r.head?, c.isDigit = false ∧ c ≠ '*') :
    skipWidth (w ++ r) = r := by
  rcases hw with rfl | hw
  · rfl
  · unfold skipWidth
    split
    · next fmt heq =>
      -- the star is neither a digit nor the first byte after the number
      cases w with
      | nil => exact absurd rfl (hr '*' (by rw [← nil_append r, heq]; rfl)).2
      | cons c w => cases (hw '*' (by cases heq; exact mem_cons_self)).symm.trans (by decide : Char.isDigit '*' = false)
    · exact dropWhile_append_stop hw fun c hc => (hr c hc).1

theorem modifier_head {m : List Char} (hm : m ∈ modifiers) :
    ∀ c ∈ m.head?, (c.isDigit = false ∧ c ≠ '*') ∧ c ≠ '.' ∧ isFlag c = false := by
  simp only [modifiers, mem_cons, not_mem_nil, or_false] at hm
  rcases hm with rfl | rfl | rfl | rfl | rfl | rfl | rfl <;> simp [isFlag]

theorem precision_head {p m : List Char} (hp : IsPrecision p) (hm : m ∈ modifiers) :
    ∀ c ∈ (p ++ m).head?, (c.isDigit = false ∧ c ≠ '*') ∧ isFlag c = false := by
  rcases hp with rfl | ⟨w, rfl, -⟩
  · exact fun c hc => ⟨(modifier_head hm c hc).1, (modifier_head hm c hc).2.2⟩
  · rintro c ⟨⟩
    decide

theorem skipPrec_append {p m : List Char} (hp : IsPrecision p) (hm : m ∈ modifiers) : skipPrec (p ++ m) = m := by
  rcases hp with rfl | ⟨w, rfl, hw⟩
  · unfold skipPrec
    split
    · next heq => exact absurd rfl (modifier_head hm '.' (by rw [← nil_append m, heq]; rfl)).2.1
    · rfl
  · exact skipWidth_append hw fun c hc => (modifier_head hm c hc).1

theorem width_head {w r : List Char} (hw : IsNumber w ∧ w.head? ≠ some '0') (hr : ∀ c ∈ r.head?, isFlag c = false) :
    ∀ c ∈ (w ++ r).head?, isFlag c = false := by
  cases w with
  | nil => exact hr
  | cons a w =>
    rintro c ⟨⟩
    rcases hw.1 with heq | hdig
    · cases heq
      decide
    · have ha := hdig a mem_cons_self
      have h0 : a ≠ '0' := fun h => hw.2 (h ▸ rfl)
      by_contra hflag
      have hzero : ∀ c ∈ ['-', '+', ' ', '0', '#'], c.isDigit = true → c = '0' := by simp
      exact h0 (hzero a (of_decide_eq_true (Bool.not_eq_false _ ▸ hflag)) ha)

theorem skipDirective_unfinished {d : List Char} (h : Unfinished d) : skipDirective d = [] := by
  obtain ⟨flags, width, precision, modifier, rfl, hf, hw, hp, hm⟩ := h
  have hflags : skipFlags (flags ++ (width ++ (precision ++ modifier))) = width ++ (precision ++ modifier) :=
    dropWhile_append_stop hf (width_head hw fun c hc => (precision_head hp hm c hc).2)
  have hlength : ∀ m ∈ modifiers, skipLength m = [] := by decide
  rw [skipDirective, hflags, skipWidth_append hw.1 fun c hc => (precision_head hp hm c hc).1, skipPrec_append hp hm]
  exact hlength modifier hm

theorem skipWidth_split (r : List Char) : ∃ w, r = w ++ skipWidth r ∧ IsNumber w := by
  unfold skipWidth
  split
  · exact ⟨['*'], rfl, .inl rfl⟩
  · exact ⟨r.takeWhile Char.isDigit, takeWhile_append_dropWhile.symm, .inr fun c hc => mem_takeWhile_imp hc⟩

theorem skipPrec_split (r : List Char) : ∃ p, r = p ++ skipPrec r ∧ IsPrecision p := by
  unfold skipPrec
  split
  · next fmt =>
    obtain ⟨w, hw, hnum⟩ := skipWidth_split fmt
    exact ⟨'.' :: w, congrArg (cons '.') hw, .inr ⟨w, rfl, hnum⟩⟩
  · exact ⟨[], rfl, .inl rfl⟩

theorem skipLength_split (r : List Char) : ∃ m, r = m ++ skipLength r ∧ m ∈ modifiers := by
  unfold skipLength
  split
  any_goals exact ⟨[_, _], rfl, by decide⟩
  any_goals exact ⟨[_], rfl, by decide⟩
  exact ⟨[], rfl, by decide⟩

/-- The flags end where a byte is no flag, so that the width after them does not start with `0`. -/
theorem skipFlags_head {d w r : List Char} (h : skipFlags d = w ++ r) : w.head? ≠ some '0' := by
  intro h0
  have hhead := head?_dropWhile_not (· ∈ ['-', '+', ' ', '0', '#']) d
  rw [show d.dropWhile (· ∈ ['-', '+', ' ', '0', '#']) = w ++ r from h, head?_append, h0] at hhead
  cases hhead

/-- What is skipped before the conversion. -/
theorem skipDirective_split (d : List Char) : ∃ pre, d = pre ++ skipDirective d ∧ Unfinished pre := by
  obtain ⟨w, hw, hnum⟩ := skipWidth_split (skipFlags d)
  obtain ⟨p, hp, hprec⟩ := skipPrec_split (skipWidth (skipFlags d))
  obtain ⟨m, hm, hmod⟩ := skipLength_split (skipPrec (skipWidth (skipFlags d)))
  refine ⟨d.takeWhile isFlag ++ (w ++ (p ++ m)), ?_, _, w, p, m, rfl, fun c hc => mem_takeWhile_imp hc,
    ⟨hnum, skipFlags_head hw⟩, hprec, hmod⟩
  rw [append_assoc, append_assoc, append_assoc, skipDirective, ← hm, ← hp, ← hw]
  exact takeWhile_append_dropWhile.symm

theorem skipDirective_eq_nil {d : List Char} : skipDirective d = [] ↔ Unfinished d := by
  refine ⟨fun h => ?_, skipDirective_unfinished⟩
  obtain ⟨pre, hd, hpre⟩ := skipDirective_split d
  rw [h, append_nil] at hd
  rwa [hd]

/-- A round stops before the NUL, if there is a conversion. -/
theorem nextFormat_some {c : Char} {fmt : List Char} (h : c = '%' → ¬ Unfinished fmt) :
    ∃ rest, nextFormat (c :: fmt) = some rest ∧ rest.length ≤ fmt.length := by
  by_cases hc : c = '%'
  · subst hc
    rw [nextFormat]
    obtain ⟨pre, hd, -⟩ := skipDirective_split fmt
    cases hs : skipDirective fmt with
    | nil => exact absurd (skipDirective_eq_nil.mp hs) (h rfl)
    | cons y rest =>
      refine ⟨rest, rfl, ?_⟩
      rw [hd, hs, length_append, length_cons]
      omega
  · refine ⟨fmt, ?_, Nat.le_refl _⟩
    unfold nextFormat
    split
    · simp_all
    · rfl

/-- The loop stops in at most as many rounds as there are bytes. -/
theorem scanFormat_length {fmt : List Char} (h : ∀ d, Reaches fmt ('%' :: d) → ¬ Unfinished d) :
    scanFormat fmt.length fmt = true := by
  generalize hn : fmt.length = n
  replace hn := Nat.le_of_eq hn
  induction n generalizing fmt with
  | zero =>
    cases fmt with
    | nil => rfl
    | cons c fmt => cases hn
  | succ n ih =>
    cases fmt with
    | nil => rfl
    | cons c fmt =>
      obtain ⟨rest, hnext, hlen⟩ := nextFormat_some (c := c) fun hc => h fmt (hc ▸ .refl)
      rw [scanFormat, hnext]
      exact ih (fun d hd => h d (.head ⟨cons_ne_nil _ _, hnext⟩ hd)) (Nat.le_trans hlen (Nat.le_of_succ_le_succ hn))

/-- A loop that stops goes on from each format that it reaches, and stops there too. -/
theorem scanFormat_reaches {fmt fmt' : List Char} (hr : Reaches fmt fmt') {n : Nat} (h : scanFormat n fmt = true) :
    ∃ n', scanFormat n' fmt' = true := by
  induction hr using Relation.ReflTransGen.head_induction_on generalizing n with
  | refl => exact ⟨n, h⟩
  | head hab _ ih =>
    next a b _ =>
    obtain ⟨hne, hnext⟩ := hab
    obtain ⟨c, rest, rfl⟩ := exists_cons_of_ne_nil hne
    cases n with
    | zero => cases h
    | succ n =>
      rw [scanFormat, hnext] at h
      exact ih h

end Printf

open Printf

/-- A format is read up to its NUL just when each of its directives has a conversion, and then in as many rounds as it has bytes. -/
theorem format_read (fmt : List Char) :
    ((∃ n, scanFormat n fmt = true) ↔ ∀ d, Reaches fmt ('%' :: d) → ¬ Unfinished d) ∧
      ((∃ n, scanFormat n fmt = true) → scanFormat fmt.length fmt = true) := by
  have hiff : (∃ n, scanFormat n fmt = true) ↔ ∀ d, Reaches fmt ('%' :: d) → ¬ Unfinished d := by
    refine ⟨fun ⟨n, hn⟩ d hd hun => ?_, fun h => ⟨_, scanFormat_length h⟩⟩
    obtain ⟨n', hn'⟩ := scanFormat_reaches hd hn
    cases n' with
    | zero => cases hn'
    | succ n' =>
      rw [scanFormat, nextFormat, skipDirective_unfinished hun] at hn'
      cases hn'
  exact ⟨hiff, fun h => scanFormat_length (hiff.mp h)⟩

/-- The format `%`. -/
theorem format_read_past : ¬ ∃ n, scanFormat n ['%'] = true := by
  rintro ⟨_ | n, hn⟩ <;> cases hn

end TsOs
