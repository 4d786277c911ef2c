import Mathlib

/-!
# Runs of a step function

A program whose calls are the actions `α` on a state `σ`; a call that does not return ends the run. `Each` says what holds of
every call of a run, and the rules derive it from an invariant of the states between the calls; `Returned` says so and that every
call returns.
-/

namespace Runs

open List

variable {σ α : Type*} {step : σ → α → Option σ}

/-- The calls of the list, one after the other. -/
def run (step : σ → α → Option σ) : σ → List α → Option σ
  | s, [] => some s
  | s, a :: as => (step s a).bind (fun s' => run step s' as)

/-- Every call of the run that returns has the property `P`, of the state before it, the call and the state after it. -/
def Each (step : σ → α → Option σ) (P : σ → α → σ → Prop) : σ → List α → Prop
  | _, [] => True
  | s, a :: as =>
    match step s a with
    | some s' => P s a s' ∧ Each step P s' as
    | none => True

variable {as : List α} {s : σ}

theorem run_cons_of_some {s' : σ} {a : α} (h : step s a = some s') : run step s (a :: as) = run step s' as := by
  rw [run, h, Option.bind_some]

variable {P : σ → α → σ → Prop}

theorem each_cons_some {s' : σ} {a : α} (h : step s a = some s') :
    Each step P s (a :: as) ↔ P s a s' ∧ Each step P s' as := by
  rw [Each, h]

theorem each_cons_none {a : α} (h : step s a = none) :
    Each step P s (a :: as) := by
  rw [Each, h]
  trivial

/-- A property that can be decided of each call can be decided of a run. -/
instance decidableEach (P : σ → α → σ → Prop) [∀ s a s', Decidable (P s a s')] :
    (s : σ) → (as : List α) → Decidable (Each step P s as)
  | _, [] => .isTrue trivial
  | s, a :: as =>
    match h : step s a with
    | none => .isTrue (each_cons_none h)
    | some s' =>
      have := decidableEach P s' as
      decidable_of_iff (P s a s' ∧ Each step P s' as) (each_cons_some h).symm

variable {I : σ → Prop}

/-- With an invariant that the calls with `C` keep, a run of calls with `C` is one of calls with `P`. -/
theorem Each.of_inv {C : σ → α → σ → Prop} (hstep : ∀ s a s', I s → step s a = some s' → C s a s' → I s' ∧ P s a s') :
    ∀ {as : List α} {s : σ}, I s → Each step C s as → Each step P s as := by
  intro as
  induction as with
  | nil => exact fun _ _ => trivial
  | cons a as ih =>
    intro s hI hC
    cases hs : step s a with
    | none => exact each_cons_none hs
    | some s' =>
      rw [each_cons_some hs] at hC ⊢
      obtain ⟨hI', hP⟩ := hstep s a s' hI hs hC.1
      exact ⟨hP, ih hI' hC.2⟩

/-- A property of the states that holds at the start and after every call holds at the end. -/
theorem Each.last {Q : σ → Prop} : ∀ {as : List α} {s s' : σ}, Each step (fun _ _ s => Q s) s as → Q s →
    run step s as = some s' → Q s' := by
  intro as
  induction as with
  | nil =>
    intro s s' _ hQ hrun
    cases hrun
    exact hQ
  | cons a as ih =>
    intro s s' hE hQ hrun
    cases hs : step s a with
    | none =>
      rw [run, hs] at hrun
      cases hrun
    | some s1 =>
      rw [each_cons_some hs] at hE
      rw [run_cons_of_some hs] at hrun
      exact ih hE.2 hE.1 hrun

/-- What holds of every call holds of the one that comes last. -/
theorem Each.of_snoc : ∀ {as : List α} {s s1 s2 : σ} {a : α}, Each step P s (as ++ [a]) →
    run step s as = some s1 → step s1 a = some s2 → P s1 a s2 := by
  intro as
  induction as with
  | nil =>
    intro s s1 s2 a hE hrun hs
    cases hrun
    rw [nil_append, each_cons_some hs] at hE
    exact hE.1
  | cons b as ih =>
    intro s s1 s2 a hE hrun hs
    obtain ⟨s', hs', hrest⟩ := Option.bind_eq_some_iff.mp hrun
    rw [cons_append, each_cons_some hs'] at hE
    exact ih hE.2 hrest hs

/-- What holds of the call behind every beginning of a run holds of every call. -/
theorem Each.of_take : ∀ {as : List α} {s : σ}, (∀ k (hk : k < as.length) s1 s2, run step s (as.take k) = some s1 →
    step s1 as[k] = some s2 → P s1 as[k] s2) → Each step P s as := by
  intro as
  induction as with
  | nil => exact fun _ => trivial
  | cons a as ih =>
    intro s h
    cases hs : step s a with
    | none => exact each_cons_none hs
    | some s' =>
      rw [each_cons_some hs]
      refine ⟨h 0 (Nat.succ_pos _) s s' rfl hs, ih fun k hk s1 s2 hrun hstep => ?_⟩
      refine h (k + 1) (Nat.succ_lt_succ hk) s1 s2 ?_ hstep
      rw [take_succ_cons, run_cons_of_some hs]
      exact hrun

/-- A property of the calls themselves. -/
theorem Each.of_mem : ∀ {as : List α} {s : σ}, (∀ a ∈ as, ∀ s s', P s a s') → Each step P s as := by
  intro as
  induction as with
  | nil => exact fun _ => trivial
  | cons a as ih =>
    intro s h
    cases hs : step s a with
    | none => exact each_cons_none hs
    | some s' =>
      rw [each_cons_some hs]
      exact ⟨h a mem_cons_self s s', ih (fun b hb => h b (mem_cons_of_mem a hb))⟩

/-- An invariant that every call keeps. -/
theorem Each.of_step (hstep : ∀ s a s', I s → step s a = some s' → I s' ∧ P s a s') (hI : I s) : Each step P s as :=
  Each.of_inv (C := fun _ _ _ => True) (fun s a s' hI hs _ => hstep s a s' hI hs) hI (Each.of_mem fun _ _ _ _ => trivial)

/-- A run is followed by another. -/
theorem Each.append {bs : List α} : ∀ {as : List α} {s : σ}, Each step P s as →
    (∀ s', run step s as = some s' → Each step P s' bs) → Each step P s (as ++ bs) := by
  intro as
  induction as with
  | nil => exact fun _ hbs => hbs _ rfl
  | cons a as ih =>
    intro s has hbs
    rw [cons_append]
    cases hs : step s a with
    | none => exact each_cons_none hs
    | some s' =>
      rw [each_cons_some hs] at has ⊢
      exact ⟨has.1, ih has.2 (fun s1 hrun => hbs s1 (by rw [run_cons_of_some hs]; exact hrun))⟩

theorem Each.mono {Q : σ → α → σ → Prop} (hPQ : ∀ s a s', P s a s' → Q s a s') :
    ∀ {as : List α} {s : σ}, Each step P s as → Each step Q s as := by
  intro as s hP
  exact Each.of_inv (I := fun _ => True) (fun s a s' _ _ h => ⟨trivial, hPQ s a s' h⟩) trivial hP

/-- A run that ends in a state without a property that every call should leave. -/
theorem not_each_of_run {β : Type*} {Q : σ → Prop} {f : σ → β} {b : β}
    (hPQ : ∀ s a s', P s a s' → Q s') (hs : Q s) (hrun : (run step s as).map f = some b) (hb : ∀ s', f s' = b → ¬ Q s') :
    ¬ Each step P s as := by
  intro h
  obtain ⟨s', hs', heq⟩ := Option.map_eq_some_iff.mp hrun
  exact hb s' heq ((h.mono hPQ).last hs hs')

theorem Each.and {Q : σ → α → σ → Prop} : ∀ {as : List α} {s : σ}, Each step P s as → Each step Q s as →
    Each step (fun s a s' => P s a s' ∧ Q s a s') s as := by
  intro as
  induction as with
  | nil => exact fun _ _ => trivial
  | cons a as ih =>
    intro s hP hQ
    cases hs : step s a with
    | none => exact each_cons_none hs
    | some s' =>
      rw [each_cons_some hs] at hP hQ ⊢
      exact ⟨⟨hP.1, hQ.1⟩, ih hP.2 hQ.2⟩

/-! ## Runs in which every call has to return -/

/-- Every call of the run is made in a state with the property `C`, which may depend on the call. -/
def Made (step : σ → α → Option σ) (C : σ → α → Prop) : σ → List α → Prop
  | _, [] => True
  | s, a :: as => C s a ∧ ∀ s', step s a = some s' → Made step C s' as

/-- A property that can be decided of each call can be decided of a run. -/
instance decidableMade (C : σ → α → Prop) [∀ s a, Decidable (C s a)] : (s : σ) → (as : List α) → Decidable (Made step C s as)
  | _, [] => .isTrue trivial
  | s, a :: as =>
    match h : step s a with
    | none => decidable_of_iff (C s a) ⟨fun hC => ⟨hC, fun s' hs => by simp [h] at hs⟩, fun hM => hM.1⟩
    | some s' =>
      have := decidableMade C s' as
      decidable_of_iff (C s a ∧ Made step C s' as)
        ⟨fun hC => ⟨hC.1, fun s₁ hs => by rw [h] at hs; cases hs; exact hC.2⟩, fun hM => ⟨hM.1, hM.2 s' h⟩⟩

/-- Every call of the run returns, with the property `P` of the state before it, the call and the state after it. -/
def Returned (step : σ → α → Option σ) (P : σ → α → σ → Prop) : σ → List α → Prop
  | _, [] => True
  | s, a :: as => ∃ s', step s a = some s' ∧ P s a s' ∧ Returned step P s' as

/-- With an invariant that the calls with `C` keep, such calls all return. -/
theorem Returned.of_inv {C : σ → α → Prop}
    (hstep : ∀ s a, I s → C s a → ∃ s', step s a = some s' ∧ I s' ∧ P s a s') (hI : I s)
    (hC : Made step C s as) : Returned step P s as := by
  induction as generalizing s with
  | nil => trivial
  | cons a as ih =>
    obtain ⟨s', hs, hI', hP⟩ := hstep s a hI hC.1
    exact ⟨s', hs, hP, ih hI' (hC.2 s' hs)⟩

/-- With an invariant that the calls with `P` keep, the calls all return with `P` exactly when each is made with `C`, provided that
this is so of one call. -/
theorem Returned.iff_made {C : σ → α → Prop} (hinv : ∀ s a s', I s → step s a = some s' → P s a s' → I s')
    (hstep : ∀ s a, I s → ((∃ s', step s a = some s' ∧ P s a s') ↔ C s a)) (hI : I s) :
    Returned step P s as ↔ Made step C s as := by
  constructor
  · intro h
    induction as generalizing s with
    | nil => trivial
    | cons a as ih =>
      obtain ⟨s', hs, hP, hrest⟩ := h
      refine ⟨(hstep s a hI).mp ⟨s', hs, hP⟩, fun s1 hs1 => ?_⟩
      cases hs.symm.trans hs1
      exact ih (hinv s a s' hI hs hP) hrest
  · refine Returned.of_inv (fun s a hI hC => ?_) hI
    obtain ⟨s', hs, hP⟩ := (hstep s a hI).mpr hC
    exact ⟨s', hs, hinv s a s' hI hs hP, hP⟩

end Runs
