import Mathlib

/-!
# Computations with a trace

A computation here is the list of the events it causes and its result, or none if one of its events cuts it off. `Keeps P Q` is the
rule of such computations: all events are of the kind `P`, and it has a result for which `Q` holds.
-/

/-- The events of a computation, in order, and its result. -/
structure Traced (ε α : Type) where
  events : List ε
  result : Option α
  deriving DecidableEq

namespace Traced

variable {ε α β : Type} {P : ε → Prop} {Q : α → Prop} {R : β → Prop}

/-- The second computation goes on from the result of the first. -/
def bind (x : Traced ε α) (f : α → Traced ε β) : Traced ε β :=
  match x.result with
  | none => ⟨x.events, none⟩
  | some a => ⟨x.events ++ (f a).events, (f a).result⟩

instance : Monad (Traced ε) where
  pure a := ⟨[], some a⟩
  bind := bind

/-- All events are of the kind `P`, and there is a result, of the kind `Q`. -/
def Keeps (P : ε → Prop) (Q : α → Prop) (x : Traced ε α) : Prop := (∀ e ∈ x.events, P e) ∧ ∃ a, x.result = some a ∧ Q a

/-- Some event is not of the kind `P`. -/
def Breaks (P : ε → Prop) (x : Traced ε α) : Prop := ∃ e ∈ x.events, ¬ P e

theorem Keeps.pure {a : α} (h : Q a) : Keeps P Q (Pure.pure a : Traced ε α) := ⟨fun _ he => (nomatch he), a, rfl, h⟩

variable {x : Traced ε α}

/-- After a part that causes only events of the kind `P`, a computation goes on as the rest does from the result. -/
theorem Keeps.rest {a : α} (hx : Keeps P (· = a) x) (f : α → Traced ε β) :
    ((∀ e ∈ (x >>= f).events, P e) ↔ ∀ e ∈ (f a).events, P e) ∧ (x >>= f).result = (f a).result := by
  obtain ⟨hevents, a, hres, rfl⟩ := hx
  have hrun : x >>= f = ⟨x.events ++ (f a).events, (f a).result⟩ := by
    show Traced.bind x f = _
    unfold Traced.bind
    rw [hres]
  rw [hrun]
  exact ⟨List.forall_mem_append.trans (and_iff_right hevents), rfl⟩

theorem Keeps.bind_iff {a : α} (hx : Keeps P (· = a) x) {f : α → Traced ε β} : Keeps P R (x >>= f) ↔ Keeps P R (f a) := by
  unfold Keeps
  rw [(hx.rest f).1, (hx.rest f).2]

theorem Keeps.breaks_iff {a : α} (hx : Keeps P (· = a) x) {f : α → Traced ε β} : Breaks P (x >>= f) ↔ Breaks P (f a) := by
  have h := not_congr (hx.rest f).1
  simp only [not_forall] at h
  simpa only [Breaks, exists_prop] using h

theorem Breaks.bind_left (hx : Breaks P x) (f : α → Traced ε β) : Breaks P (x >>= f) := by
  obtain ⟨e, he, hne⟩ := hx
  refine ⟨e, ?_, hne⟩
  show e ∈ (Traced.bind x f).events
  unfold Traced.bind
  split
  · exact he
  · exact List.mem_append_left _ he

end Traced
