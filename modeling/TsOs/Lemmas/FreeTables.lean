import TsOs.Lemmas.SpaceLife

/-!
# Freeing a tree of tables

`pt_free_recursive` frees exactly the tables below a table, and writes to no other frame than those and the table itself.
-/

namespace TsOs

open Radix StateProg PteAux TableAux VmmRun WalkAux LifeAux List Nat

/-- No table is reached from `t` by two walks of at most `L` steps. -/
def DistinctBelow (mem : Nat → Fin 512 → BitVec 64) (L t : Nat) : Prop :=
  ∀ p q f, p.length ≤ L → q.length ≤ L → tableAt mem t p = some f → tableAt mem t q = some f → p = q

/-- The tables below a table of level `level`, in the order in which `pt_free_recursive` frees them. -/
def tablesBelow (mem : Nat → Fin 512 → BitVec 64) : Nat → Nat → List Nat
  | 0, _ => []
  | level + 1, t =>
    allEntries.flatMap fun i =>
      match childOf (mem t i) with
      | none => []
      | some b => tablesBelow mem level b ++ [b]

namespace FreeTablesAux

variable {mem mem' : Nat → Fin 512 → BitVec 64} {L t : Nat}

variable {i : Fin 512}

theorem tableAt_child {b : Nat} (h : childOf (mem t i) = some b) (p : List (Fin 512)) :
    tableAt mem t (i :: p) = tableAt mem b p := by
  rw [tableAt, walk_cons, subTable, h]
  rfl

theorem entryAt_child {b : Nat} (h : childOf (mem t i) = some b) (p : List (Fin 512)) (j : Fin 512) :
    entryAt mem t (i :: p) j = entryAt mem b p j := by
  rw [entryAt, entryAt, tableAt_child h]

theorem tableAt_none (h : childOf (mem t i) = none) (p : List (Fin 512)) : tableAt mem t (i :: p) = none := by
  rw [tableAt, walk_cons, subTable, h]
  rfl

/-- What is seen along walks of at most `L` steps depends on the tables they reach. -/
theorem view_congr (h : ∀ q f, q.length ≤ L → tableAt mem t q = some f → mem' f = mem f) {p : List (Fin 512)}
    (hp : p.length ≤ L) : tableAt mem' t p = tableAt mem t p ∧ ∀ i, entryAt mem' t p i = entryAt mem t p i := by
  have htab : tableAt mem' t p = tableAt mem t p := by
    refine walk_congr fun q i f hpre hf => ?_
    have hlen := hpre.length_le
    rw [length_append] at hlen
    rw [subTable, subTable, h q f (by omega) hf]
  refine ⟨htab, fun i => ?_⟩
  cases hf : tableAt mem t p with
  | none => rw [entryAt_none hf, entryAt_none (htab.trans hf)]
  | some f => rw [entryAt_eq hf, entryAt_eq (htab.trans hf), h p f hp hf]

/-- What is seen below the entry `i` of `t` depends on the entry and on the tables it leads to. -/
theorem view_below (hrow : mem' t i = mem t i)
    (h : ∀ q f, q.length ≤ L → tableAt mem t (i :: q) = some f → mem' f = mem f) {p : List (Fin 512)} (hp : p.length ≤ L) :
    tableAt mem' t (i :: p) = tableAt mem t (i :: p) ∧ ∀ j, entryAt mem' t (i :: p) j = entryAt mem t (i :: p) j := by
  cases hb : childOf (mem t i) with
  | none =>
    have hb' : childOf (mem' t i) = none := by rw [hrow, hb]
    refine ⟨by rw [tableAt_none hb, tableAt_none hb'], fun j => ?_⟩
    rw [entryAt_none (tableAt_none hb p), entryAt_none (tableAt_none hb' p)]
  | some b =>
    have hb' : childOf (mem' t i) = some b := by rw [hrow, hb]
    have hview := view_congr (fun q f hq hf => h q f hq ((tableAt_child hb q).trans hf)) hp
    refine ⟨by rw [tableAt_child hb, tableAt_child hb', hview.1], fun j => ?_⟩
    rw [entryAt_child hb, entryAt_child hb', hview.2 j]

theorem tablesBelow_congr (h : ∀ q f, q.length < L → tableAt mem t q = some f → mem' f = mem f) :
    tablesBelow mem' L t = tablesBelow mem L t := by
  induction L generalizing t with
  | zero => rfl
  | succ L ih =>
    have ht : mem' t = mem t := h [] t (succ_pos L) rfl
    rw [tablesBelow, ht]
    refine congrArg allEntries.flatMap (funext fun i => ?_)
    cases hb : childOf (mem t i) with
    | none => rfl
    | some b =>
      have := ih (t := b) fun q f hq hf => h (i :: q) f (succ_lt_succ hq) ((tableAt_child hb q).trans hf)
      simp only [this]

theorem mem_tablesBelow (f : Nat) : f ∈ tablesBelow mem L t ↔ ∃ p, p ≠ [] ∧ p.length ≤ L ∧ tableAt mem t p = some f := by
  induction L generalizing t with
  | zero =>
    refine ⟨fun h => absurd h not_mem_nil, ?_⟩
    rintro ⟨p, hne, hlen, -⟩
    exact absurd (eq_nil_of_length_eq_zero (le_zero.mp hlen)) hne
  | succ L ih =>
    rw [tablesBelow, mem_flatMap]
    constructor
    · rintro ⟨i, -, hf⟩
      cases hb : childOf (mem t i) with
      | none =>
        rw [hb] at hf
        exact absurd hf not_mem_nil
      | some b =>
        rw [hb] at hf
        rcases mem_append.mp hf with hf | hf
        · obtain ⟨p, -, hlen, hp⟩ := ih.mp hf
          exact ⟨i :: p, cons_ne_nil i p, succ_le_succ hlen, (tableAt_child hb p).trans hp⟩
        · rw [mem_singleton] at hf
          exact ⟨[i], cons_ne_nil i [], succ_le_succ (zero_le L), (tableAt_child hb []).trans (by rw [hf]; rfl)⟩
    · rintro ⟨p, hne, hlen, hp⟩
      obtain ⟨i, p, rfl⟩ := exists_cons_of_ne_nil hne
      refine ⟨i, mem_finRange i, ?_⟩
      cases hb : childOf (mem t i) with
      | none =>
        rw [tableAt_none hb] at hp
        cases hp
      | some b =>
        rw [tableAt_child hb] at hp
        rw [mem_append, mem_singleton]
        by_cases hnil : p = []
        · subst hnil
          exact .inr (Option.some.inj hp).symm
        · exact .inl (ih.mpr ⟨p, hnil, le_of_succ_le_succ hlen, hp⟩)

/-- The frames freed for entry `i` of the table `t`. -/
def freedFor (mem : Nat → Fin 512 → BitVec 64) (L t : Nat) (i : Fin 512) : List Nat :=
  match childOf (mem t i) with
  | none => []
  | some b => tablesBelow mem L b ++ [b]

theorem mem_freedFor (f : Nat) :
    f ∈ freedFor mem L t i ↔ ∃ p, p.length ≤ L ∧ tableAt mem t (i :: p) = some f := by
  unfold freedFor
  cases hb : childOf (mem t i) with
  | none =>
    refine ⟨fun h => absurd h not_mem_nil, ?_⟩
    rintro ⟨p, -, hp⟩
    rw [tableAt_none hb] at hp
    cases hp
  | some b =>
    simp only [tableAt_child hb, mem_append, mem_singleton, mem_tablesBelow]
    constructor
    · rintro (⟨p, -, hlen, hp⟩ | rfl)
      · exact ⟨p, hlen, hp⟩
      · exact ⟨[], zero_le L, rfl⟩
    · rintro ⟨p, hlen, hp⟩
      by_cases hnil : p = []
      · subst hnil
        exact .inr (Option.some.inj hp).symm
      · exact .inl ⟨p, hnil, hlen, hp⟩

/-- The body of a loop that frees what an entry of `t` leads to, for entries of the kind `Q`: nothing for an entry without a
table; the tables below, then the table, then the entry is cleared. -/
def Frees (Q : BitVec 64 → Prop) (L t : Nat) (body : Fin 512 → VmmM Unit) : Prop :=
  ∀ i (m : Vmm), Q (m.mem t i) →
    (∀ b, childOf (m.mem t i) = some b → DistinctBelow m.mem L b ∧ ∀ p, p.length ≤ L → tableAt m.mem b p ≠ some t) →
    ∃ mem', (body i).run m = ((), { m with pmm := m.pmm.dropAll (freedFor m.mem L t i), mem := mem' }) ∧
      (mem' t i = 0#64 ∨ childOf (m.mem t i) = none ∧ mem' t i = m.mem t i) ∧ (∀ j, j ≠ i → mem' t j = m.mem t j) ∧
      ∀ f, f ≠ t → (∀ p, p.length ≤ L → tableAt m.mem t (i :: p) ≠ some f) → mem' f = m.mem f

/-- The table that an entry leads to is freed with the tables below it, and the entry is cleared. -/
theorem freeChild_run {m : Vmm} (hp : hasFlag (m.mem t i) ptePresent = true) (hs : hasFlag (m.mem t i) ptePs = false)
    (hroot : ∀ p, p.length ≤ L → tableAt m.mem (pteFrame (m.mem t i)) p ≠ some t) {mem2 : Nat → Fin 512 → BitVec 64}
    (hrun : (ptFreeRecursive L (pteFrame (m.mem t i))).run m =
      ((), { m with pmm := m.pmm.dropAll (tablesBelow m.mem L (pteFrame (m.mem t i))), mem := mem2 }))
    (hoff : ∀ f, (∀ p, p.length ≤ L → tableAt m.mem (pteFrame (m.mem t i)) p ≠ some f) → mem2 f = m.mem f) :
    ∃ mem', (do
        ptFreeRecursive L (frameOf (pteAddr (m.mem t i)))
        freeFrame (pteAddr (m.mem t i))
        writeEntry t i 0#64 : VmmM Unit).run m =
          ((), { m with pmm := m.pmm.dropAll (freedFor m.mem L t i), mem := mem' }) ∧
      (mem' t i = 0#64 ∨ childOf (m.mem t i) = none ∧ mem' t i = m.mem t i) ∧ (∀ j, j ≠ i → mem' t j = m.mem t j) ∧
      ∀ f, f ≠ t → (∀ p, p.length ≤ L → tableAt m.mem t (i :: p) ≠ some f) → mem' f = m.mem f := by
  have hchild := childOf_present hp hs
  have hframe : frameOf (pteAddr (m.mem t i)) = pteFrame (m.mem t i) := rfl
  rw [hframe, bind_run hrun, bind_run (freeFrame_pteAddr_run _ _), freedFor, hchild]
  rw [Pmm.dropAll_append]
  generalize tablesBelow m.mem L (pteFrame (m.mem t i)) = fs
  refine ⟨setEntry mem2 t i 0#64, rfl, .inl (setEntry_self _ _ _ _), fun j hj => ?_, fun f hf hout => ?_⟩
  · rw [setEntry_of_ne fun h => hj h.2, hoff t hroot]
  · rw [show setEntry mem2 t i 0#64 f = mem2 f from funext fun j => setEntry_of_ne fun h => hf h.1]
    refine hoff f fun p hp' hpf => hout p hp' ?_
    rw [tableAt_child hchild]
    exact hpf

/-- The tables that the entries `xs` of `t` lead to are distinct, and `t` is not one of them. -/
structure DistinctUnder (xs : List (Fin 512)) (mem : Nat → Fin 512 → BitVec 64) (L t : Nat) : Prop where
  paths : ∀ i ∈ xs, ∀ j ∈ xs, ∀ p q f, p.length ≤ L → q.length ≤ L → tableAt mem t (i :: p) = some f →
    tableAt mem t (j :: q) = some f → i :: p = j :: q
  root : ∀ i ∈ xs, ∀ p, p.length ≤ L → tableAt mem t (i :: p) ≠ some t

theorem DistinctBelow.under (h : DistinctBelow mem (L + 1) t) (xs : List (Fin 512)) : DistinctUnder xs mem L t where
  paths i _ j _ p q f hp hq hf hf' := h (i :: p) (j :: q) f (succ_le_succ hp) (succ_le_succ hq) hf hf'
  root i _ p hp hf := cons_ne_nil i p (h (i :: p) [] t (succ_le_succ hp) (zero_le _) hf (tableAt_nil t))

theorem DistinctUnder.tail {xs : List (Fin 512)} (h : DistinctUnder (i :: xs) mem L t) : DistinctUnder xs mem L t where
  paths j hj k hk := h.paths j (mem_cons_of_mem i hj) k (mem_cons_of_mem i hk)
  root j hj := h.root j (mem_cons_of_mem i hj)

/-- A loop of such a body over entries of `t`, in a state that agrees with `m` on what they lead to. -/
theorem Frees.loop {Q : BitVec 64 → Prop} {body : Fin 512 → VmmM Unit} (hbody : Frees Q L t body) {m : Vmm}
    (xs : List (Fin 512)) (hdist : DistinctUnder xs m.mem L t) (hQ : ∀ i ∈ xs, Q (m.mem t i)) (hnodup : xs.Nodup) (m1 : Vmm)
    (hentry : ∀ i ∈ xs, m1.mem t i = m.mem t i)
    (hview : ∀ i ∈ xs, ∀ p f, p.length ≤ L → tableAt m.mem t (i :: p) = some f → m1.mem f = m.mem f) :
    ∃ mem', (xs.forM body).run m1 = ((), { m1 with pmm := m1.pmm.dropAll (xs.flatMap (freedFor m.mem L t)), mem := mem' }) ∧
      (∀ i ∈ xs, mem' t i = 0#64 ∨ childOf (m.mem t i) = none ∧ mem' t i = m.mem t i) ∧
      (∀ j, j ∉ xs → mem' t j = m1.mem t j) ∧
      ∀ f, f ≠ t → (∀ i ∈ xs, ∀ p, p.length ≤ L → tableAt m.mem t (i :: p) ≠ some f) → mem' f = m1.mem f := by
  induction xs generalizing m1 with
  | nil => exact ⟨m1.mem, rfl, nofun, fun _ _ => rfl, fun _ _ _ => rfl⟩
  | cons i xs ih =>
    obtain ⟨hnot, hnodup'⟩ := nodup_cons.mp hnodup
    have hi := hentry i mem_cons_self
    -- the walks through entry `i` are those of `m`
    have hwalk : ∀ p, p.length ≤ L → tableAt m1.mem t (i :: p) = tableAt m.mem t (i :: p) :=
      fun p hp => (view_below hi (fun q f => hview i mem_cons_self q f) hp).1
    have hfreed : freedFor m1.mem L t i = freedFor m.mem L t i := by
      unfold freedFor
      rw [hi]
      cases hb : childOf (m.mem t i) with
      | none => rfl
      | some b =>
        have hsame : ∀ q f, q.length < L → tableAt m.mem b q = some f → m1.mem f = m.mem f :=
          fun q f hq hf => hview i mem_cons_self q f hq.le ((tableAt_child hb q).trans hf)
        simp only [tablesBelow_congr hsame]
    have hpre : ∀ b, childOf (m1.mem t i) = some b →
        DistinctBelow m1.mem L b ∧ ∀ p, p.length ≤ L → tableAt m1.mem b p ≠ some t := by
      intro b hb
      constructor
      · intro p q f hp hq hpf hqf
        rw [← tableAt_child hb, hwalk p hp] at hpf
        rw [← tableAt_child hb, hwalk q hq] at hqf
        exact (cons.inj (hdist.paths i mem_cons_self i mem_cons_self p q f hp hq hpf hqf)).2
      · intro p hp hpf
        rw [← tableAt_child hb, hwalk p hp] at hpf
        exact hdist.root i mem_cons_self p hp hpf
    obtain ⟨mem2, hrun, hself, hother, hoff⟩ := hbody i m1 (by rw [hi]; exact hQ i mem_cons_self) hpre
    rw [run_forM_cons, hrun, hfreed, flatMap_cons, Pmm.dropAll_append]
    have hne : ∀ j ∈ xs, j ≠ i := by
      rintro j hj rfl
      exact hnot hj
    obtain ⟨mem3, hrun3, hself3, hother3, hoff3⟩ := ih hdist.tail (fun j hj => hQ j (mem_cons_of_mem i hj)) hnodup'
      { m1 with pmm := m1.pmm.dropAll (freedFor m.mem L t i), mem := mem2 }
      (fun j hj => (hother j (hne j hj)).trans (hentry j (mem_cons_of_mem i hj))) (by
        intro j hj p f hp hf
        refine (hoff f ?_ ?_).trans (hview j (mem_cons_of_mem i hj) p f hp hf)
        · rintro rfl
          exact hdist.root j (mem_cons_of_mem i hj) p hp hf
        · intro q hq hqf
          rw [hwalk q hq] at hqf
          exact hne j hj (cons.inj
            (hdist.paths j (mem_cons_of_mem i hj) i mem_cons_self p q f hp hq hf hqf)).1)
    refine ⟨mem3, hrun3, fun j hj => ?_, ?_, ?_⟩
    · rcases mem_cons.mp hj with rfl | hj
      · rw [hother3 j hnot, ← hi]
        exact hself
      · exact hself3 j hj
    · intro j hj
      rw [mem_cons, not_or] at hj
      exact (hother3 j hj.2).trans (hother j hj.1)
    · intro f hf hout
      refine (hoff3 f hf fun j hj => hout j (mem_cons_of_mem i hj)).trans (hoff f hf fun p hp => ?_)
      rw [hwalk p hp]
      exact hout i mem_cons_self p hp

/-- The frames freed for the entries `xs`. -/
theorem mem_freed {xs : List (Fin 512)} (f : Nat) :
    f ∈ xs.flatMap (freedFor mem L t) ↔ ∃ i ∈ xs, ∃ p, p.length ≤ L ∧ tableAt mem t (i :: p) = some f := by
  rw [mem_flatMap]
  simp only [mem_freedFor]

end FreeTablesAux

open FreeTablesAux

/-- `pt_free_recursive` frees the tables below `t`, and writes only to them and to `t`. -/
theorem ptFreeRecursive_run (L t : Nat) (m : Vmm) (hdist : DistinctBelow m.mem L t) :
    ∃ mem', (ptFreeRecursive L t).run m = ((), { m with pmm := m.pmm.dropAll (tablesBelow m.mem L t), mem := mem' }) ∧
      ∀ f, (∀ p, p.length ≤ L → tableAt m.mem t p ≠ some f) → mem' f = m.mem f := by
  induction L generalizing t m with
  | zero => exact ⟨m.mem, rfl, fun _ _ => rfl⟩
  | succ L ih =>
    obtain ⟨body, hcall, hbody⟩ : ∃ body, ptFreeRecursive (L + 1) t = allEntries.forM body ∧ Frees (fun _ => True) L t body := by
      refine ⟨_, ptFreeRecursive.eq_2 t L, fun i m1 _ hpre => ?_⟩
      rw [bind_run (readEntry_run m1 t i)]
      cases hp : hasFlag (m1.mem t i) ptePresent with
      | false =>
        rw [freedFor, childOf_absent hp]
        exact ⟨m1.mem, rfl, .inr ⟨rfl, rfl⟩, fun _ _ => rfl, fun _ _ _ => rfl⟩
      | true =>
        cases hs : hasFlag (m1.mem t i) ptePs with
        | true =>
          have hnone : childOf (m1.mem t i) = none := by
            rw [childOf, hp, hs]
            rfl
          rw [freedFor, hnone]
          exact ⟨m1.mem, rfl, .inr ⟨rfl, rfl⟩, fun _ _ => rfl, fun _ _ _ => rfl⟩
        | false =>
          obtain ⟨hbelow, hroot⟩ := hpre _ (childOf_present hp hs)
          obtain ⟨mem2, hrun2, hoff2⟩ := ih (pteFrame (m1.mem t i)) m1 hbelow
          exact freeChild_run hp hs hroot hrun2 hoff2
    obtain ⟨mem', hrun, -, -, hoff⟩ := hbody.loop allEntries (DistinctBelow.under hdist _) (fun _ _ => trivial)
      (nodup_finRange 512) m (fun _ _ => rfl) (fun _ _ _ _ _ _ => rfl)
    refine ⟨mem', hcall ▸ hrun, fun f hf => hoff f ?_ fun i _ p hp => hf (i :: p) (succ_le_succ hp)⟩
    rintro rfl
    exact hf [] (zero_le _) rfl

end TsOs
