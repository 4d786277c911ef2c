import Mathlib

/-!
# State programs

Rules for programs of `StateM`: how they run, what holds after them (`Triple`), and when a program on a concrete state
simulates one on an abstract state (`Sim`).
-/

namespace StateProg

variable {σ τ α β : Type}

/-! ## Runs -/

theorem run_bind (p : StateM σ α) (q : α → StateM σ β) (s : σ) : (p >>= q).run s = (q (p.run s).1).run (p.run s).2 := rfl

variable {p : StateM σ α}

theorem bind_run {q : α → StateM σ β} {s s' : σ} {a : α} (h : p.run s = (a, s')) :
    (p >>= q).run s = (q a).run s' := by
  rw [run_bind, h]

theorem run_pure (a : α) (s : σ) : (pure a : StateM σ α).run s = (a, s) := rfl

theorem run_eq_of_fst {s : σ} {a : α} (h : (p.run s).1 = a) : p.run s = (a, (p.run s).2) := Prod.ext h rfl

theorem run_forM_cons (f : α → StateM σ Unit) (x : α) (xs : List α) (s : σ) :
    ((x :: xs).forM f).run s = (xs.forM f).run ((f x).run s).2 := rfl

/-! ## Triples -/

/-- From a state with `P` the program returns a value and ends in a state with `Q`. -/
def Triple (P : σ → Prop) (p : StateM σ α) (Q : α → σ → Prop) : Prop := ∀ s, P s → Q (p.run s).1 (p.run s).2

variable {P : σ → Prop}

theorem Triple.pure {a : α} {Q : α → σ → Prop} (h : ∀ s, P s → Q a s) : Triple P (pure a) Q := h

theorem Triple.bind {R : α → σ → Prop} {q : α → StateM σ β} {Q : β → σ → Prop}
    (h : Triple P p R) (h' : ∀ a, Triple (R a) (q a) Q) : Triple P (p >>= q) Q :=
  fun s hs => h' _ _ (h s hs)

theorem Triple.ite {q : StateM σ α} {Q : α → σ → Prop} {c : Prop} [Decidable c]
    (h : c → Triple P p Q) (h' : ¬ c → Triple P q Q) : Triple P (if c then p else q) Q := by
  split
  · next hc => exact h hc
  · next hc => exact h' hc

/-! ## Simulation -/

/-- The program `p` behaves, on the states that `f` shows, as `q`: the two return the same value and end in related states. -/
def Sim (f : σ → τ) (p : StateM σ α) (q : StateM τ α) : Prop := ∀ s, ((p.run s).1, f (p.run s).2) = q.run (f s)

variable {f : σ → τ}

variable {q : StateM τ α}

theorem Sim.fst (h : Sim f p q) (s : σ) : (p.run s).1 = (q.run (f s)).1 :=
  congrArg Prod.fst (h s)

theorem Sim.snd (h : Sim f p q) (s : σ) : f (p.run s).2 = (q.run (f s)).2 :=
  congrArg Prod.snd (h s)

theorem Sim.pure (a : α) : Sim f (pure a) (pure a) := fun _ => rfl

theorem Sim.bind {p' : α → StateM σ β} {q' : α → StateM τ β} (h : Sim f p q)
    (h' : ∀ a, Sim f (p' a) (q' a)) : Sim f (p >>= p') (q >>= q') := by
  intro s
  have hs : ((p' (p.run s).1).run (p.run s).2).1 = ((q' (q.run (f s)).1).run (q.run (f s)).2).1 := by
    rw [(h' _).fst, h.fst, h.snd]
  have ht : f ((p' (p.run s).1).run (p.run s).2).2 = ((q' (q.run (f s)).1).run (q.run (f s)).2).2 := by
    rw [(h' _).snd, h.fst, h.snd]
  exact Prod.ext hs ht

theorem Sim.ite {p' : StateM σ α} {q' : StateM τ α} {c : Prop} [Decidable c] (h : Sim f p q) (h' : Sim f p' q') :
    Sim f (if c then p else p') (if c then q else q') := by
  split
  · exact h
  · exact h'

end StateProg
