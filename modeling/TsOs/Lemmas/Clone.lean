import TsOs.Lemmas.CloneTree

/-!
# Cloning an address space

`vmm_clone_address_space` copies the trees of the user half one after the other; when frames run out, the entries of the destination
that were passed are freed. It keeps the invariant of the address spaces: the pages of the source stay mapped to the same frames,
and on success the destination maps the same frames, none of them writable.
-/

namespace TsOs

open Radix StateProg PteAux TableAux VmmRun WalkAux LifeAux FreeTablesAux CloneAux List BitVec

/-- The entries of the user half of a PML4. -/
def UserEntry (i : Fin 512) : Prop := i.val < 256

/-- Frame `f` is in use and is no table of the address space at `d`. -/
def Outside (d : Nat) (m : Vmm) (f : Nat) : Prop := m.pmm.isUsed f = true ∧ ∀ p, TablePath 256 p → tableAt m.mem d p ≠ some f

/-- The trees of `L` levels that the entries `U` of `t` lead to can be copied below `c`: their tables are distinct and in use,
there are no huge pages, and neither `t` nor `c` is one of them. -/
structure Source (U : Fin 512 → Prop) (L t c : Nat) (m : Vmm) : Prop where
  ready : m.pmm.initialized = true
  root : ¬ m.pmm.Free t
  parent : ¬ m.pmm.Free c
  apart : t ≠ c
  kept : ∀ i p f, U i → p.length ≤ L → tableAt m.mem t (i :: p) = some f → ¬ m.pmm.Free f ∧ f ≠ t ∧ f ≠ c
  link : ∀ i, U i → hasFlag (m.mem t i) ptePresent = true → hasFlag (m.mem t i) ptePs = false
  small : ∀ i p j, U i → p.length < L → hasFlag (entryAt m.mem t (i :: p) j) ptePresent = true →
    hasFlag (entryAt m.mem t (i :: p) j) ptePs = false
  distinct : ∀ i p j q f, U i → U j → p.length ≤ L → q.length ≤ L → tableAt m.mem t (i :: p) = some f →
    tableAt m.mem t (j :: q) = some f → i :: p = j :: q

/-- The number of tables below the entries `is` of `t`: a copy of them needs so many frames. -/
def tableCount (mem : Nat → Fin 512 → BitVec 64) (L t : Nat) (is : List (Fin 512)) : Nat := (is.flatMap (freedFor mem L t)).length

/-- The tables of the user half, in the order in which a clone copies them, with their levels: level 0 is a PT. -/
def userOrder (mem : Nat → Fin 512 → BitVec 64) (r : Nat) : List (Nat × Nat) := userEntries.flatMap (orderFor mem 2 r)

/-- The frames in use other than the PML4 of the destination. -/
abbrev SourceSide (m : Vmm) (d f : Nat) : Prop := ¬ m.pmm.Free f ∧ f ≠ d

/-- The entries among `xs` that are copied: those that are present in the source. -/
def Taken (r : Nat) (m : Vmm) (xs : List (Fin 512)) (i : Fin 512) : Prop := i ∈ xs ∧ hasFlag (m.mem r i) ptePresent = true

/-- A walk through one of them. -/
def Through (r : Nat) (m : Vmm) (xs : List (Fin 512)) (p : List (Fin 512)) : Prop :=
  ∃ i q, Taken r m xs i ∧ q.length ≤ 2 ∧ p = i :: q

/-- The loop has passed the entries `xs`, and the PTs `ts` were made copy-on-write. -/
structure Half (xs : List (Fin 512)) (ts : List Nat) (r d : Nat) (m m1 : Vmm) : Prop where
  passed : Passed (SourceSide m d) ts m m1
  built : Built (Through r m xs) d m m1
  link : ∀ i, Taken r m xs i → hasFlag (m1.mem d i) ptePs = false
  rest : ∀ i, ¬ Taken r m xs i → m1.mem d i = cowIf ts d (m.mem d i)

/-- What it has made are copies of the trees of the source, and `ts` are PTs of the source, with all that were copied. -/
structure Copied (xs : List (Fin 512)) (ts : List Nat) (r d : Nat) (m m1 : Vmm) : Prop extends Half xs ts r d m m1 where
  mirror : ∀ i, Taken r m xs i → MirrorEntry m.mem m1.mem 2 (m.mem r i) (m1.mem d i)
  pts : ∀ f ∈ ts, ∃ i p, UserEntry i ∧ p.length = 2 ∧ tableAt m.mem r (i :: p) = some f
  all : ∀ i p f, Taken r m xs i → p.length = 2 → tableAt m.mem r (i :: p) = some f → f ∈ ts

variable {p0 : Pmm} {live : List Nat} {m m' m1 m2 : Vmm} {r d : Nat} {xs : List (Fin 512)} {ts ts' : List Nat}

variable {p : List (Fin 512)} {i : Fin 512}

namespace CloneAux

/-- A walk of the user half is empty or goes on from an entry of the user half. -/
theorem tablePath_cons : TablePath 256 (i :: p) ↔ UserEntry i ∧ p.length ≤ 2 := by
  constructor
  · intro h
    exact ⟨h.2 i rfl, Nat.le_of_succ_le_succ h.1⟩
  · intro h
    exact user_path h.1 h.2

theorem leafPath_cons : LeafPath (i :: p) ↔ UserEntry i ∧ p.length = 2 := by
  unfold LeafPath
  rw [tablePath_cons, length_cons]
  constructor
  · intro h
    exact ⟨h.1.1, Nat.succ.inj h.2⟩
  · intro h
    exact ⟨⟨h.1, h.2.le⟩, by rw [h.2]⟩

theorem nodup_userEntries : userEntries.Nodup := (List.nodup_finRange 512).filter _

theorem through_prefix (p q : List (Fin 512)) (h : Through r m xs (p ++ q)) (hne : p ≠ []) : Through r m xs p := by
  obtain ⟨i, s, hi, hs, heq⟩ := h
  obtain ⟨j, p, rfl⟩ := exists_cons_of_ne_nil hne
  obtain ⟨rfl, rfl⟩ := cons.inj heq
  exact ⟨j, p, hi, length_prefix p q hs, rfl⟩

theorem taken_skip (h : hasFlag (m.mem r i) ptePresent = false) : Taken r m (xs ++ [i]) = Taken r m xs := by
  funext j
  by_cases hji : j = i
  · subst hji
    simp [Taken, h]
  · simp [Taken, hji]

theorem taken_snoc (h : hasFlag (m.mem r i) ptePresent = true) (j : Fin 512) :
    Taken r m (xs ++ [i]) j ↔ Taken r m xs j ∨ j = i := by
  by_cases hji : j = i
  · subst hji
    simp [Taken, h]
  · simp [Taken, hji]

/-! ## The tables that are copied -/

section

variable (mem : Nat → Fin 512 → BitVec 64) (L t : Nat)

theorem length_tableOrder :
    (tableOrder mem L t).length = (tablesBelow mem L t).length + 1 := by
  induction L generalizing t with
  | zero => rfl
  | succ L ih =>
    rw [tableOrder_succ, length_cons, tablesBelow, length_flatMap, length_flatMap]
    refine congrArg (· + 1) (congrArg sum (map_congr_left fun i _ => ?_))
    unfold orderFor
    cases childOf (mem t i) with
    | none => rfl
    | some b => rw [ih, length_append, length_singleton]

theorem tableCount_eq (is : List (Fin 512)) :
    tableCount mem L t is = (is.flatMap (orderFor mem L t)).length := by
  rw [tableCount, length_flatMap, length_flatMap]
  refine congrArg sum (map_congr_left fun i _ => ?_)
  unfold freedFor orderFor
  cases childOf (mem t i) with
  | none => rfl
  | some b => rw [length_tableOrder, length_append, length_singleton]

theorem tableCount_cons (i : Fin 512) (is : List (Fin 512)) :
    tableCount mem L t (i :: is) = (freedFor mem L t i).length + tableCount mem L t is := by
  rw [tableCount, flatMap_cons, length_append, tableCount]

theorem tableCount_append (is js : List (Fin 512)) :
    tableCount mem L t (is ++ js) = tableCount mem L t is + tableCount mem L t js := by
  rw [tableCount, flatMap_append, length_append, tableCount, tableCount]

end

/-- A frame in the order is a table of the user half. -/
theorem mem_userOrder {mem : Nat → Fin 512 → BitVec 64} (x : Nat × Nat) :
    x ∈ userOrder mem r ↔ ∃ i p, UserEntry i ∧ p.length + x.1 = 2 ∧ tableAt mem r (i :: p) = some x.2 := by
  rw [userOrder, mem_flatMap]
  constructor
  · rintro ⟨i, hi, hx⟩
    cases hb : childOf (mem r i) with
    | none =>
      rw [orderFor_of_none hb] at hx
      exact absurd hx not_mem_nil
    | some b =>
      rw [orderFor_of_child hb, mem_tableOrder] at hx
      obtain ⟨p, hlen, hp⟩ := hx
      exact ⟨i, p, (mem_userEntries i).mp hi, hlen, (tableAt_child hb p).trans hp⟩
  · rintro ⟨i, p, hi, hlen, hp⟩
    refine ⟨i, (mem_userEntries i).mpr hi, ?_⟩
    cases hb : childOf (mem r i) with
    | none =>
      rw [tableAt_none hb] at hp
      cases hp
    | some b =>
      rw [orderFor_of_child hb, mem_tableOrder]
      rw [tableAt_child hb] at hp
      exact ⟨p, hlen, hp⟩

/-! ## What a traversal leaves of a tree -/

section View

variable {t : Nat} (hpass : Passed (SourceSide m d) ts m m1)
  (hside : ∀ p f, TablePath 256 p → tableAt m.mem t p = some f → SourceSide m d f)

include hpass hside

/-- The tables of a tree in use stay where they are. -/
theorem pass_tableAt (hp : TablePath 256 p) : tableAt m1.mem t p = tableAt m.mem t p := by
  refine tableAt_shape fun q i f hq hf => hpass.childOf_eq ?_ i
  obtain ⟨s, rfl⟩ := hq
  exact hside q f hp.of_append.of_append hf

theorem pass_entryAt (hp : TablePath 256 p) (i : Fin 512) :
    entryAt m1.mem t p i = entryAt m.mem t p i ∨
      (∃ f ∈ ts, tableAt m.mem t p = some f) ∧ entryAt m1.mem t p i = srcLeaf (entryAt m.mem t p i) := by
  have htab := pass_tableAt hpass hside hp
  cases hf : tableAt m.mem t p with
  | none => exact .inl (by rw [entryAt_none hf, entryAt_none (htab.trans hf)])
  | some f =>
    rw [entryAt_eq hf, entryAt_eq (htab.trans hf), hpass.mem f (hside p f hp hf), cowIf]
    split
    · next hmem => exact .inr ⟨⟨f, hmem, rfl⟩, rfl⟩
    · exact .inl rfl

end View

end CloneAux

/-! ## The loop over the user half -/

theorem Half.refl (r d : Nat) (m : Vmm) : Half [] [] r d m m where
  passed := Passed.refl _ m
  built := by
    have hno : ∀ p, ¬ Through r m [] p := fun p ⟨i, _, hi, _⟩ => not_mem_nil hi.1
    refine ⟨fun p _ hp => absurd hp (hno p), fun p _ _ hp => absurd hp (hno p), fun f => ⟨.inl, ?_⟩⟩
    rintro (h | ⟨p, hp, -⟩)
    · exact h
    · exact absurd hp (hno p)
  link i hi := absurd hi.1 not_mem_nil
  rest i _ := (cowIf_nil d _).symm

theorem Copied.refl (r d : Nat) (m : Vmm) : Copied [] [] r d m m :=
  ⟨Half.refl r d m, fun _ hi => absurd hi.1 not_mem_nil, nofun, fun _ _ _ hi => absurd hi.1 not_mem_nil⟩

variable {j : Fin 512}

section Step

variable (hd : ¬ m.pmm.Free d) (hpass : Passed (fun f => ¬ m1.pmm.Free f) ts' m1 m2)

include hd hpass

/-- A copy that fails changes only leaves. -/
theorem Half.fail (h : Half xs ts r d m m1) (hused : ∀ f, m2.pmm.isUsed f = m1.pmm.isUsed f) : Half xs (ts ++ ts') r d m m2 := by
  have hd1 : ¬ m1.pmm.Free d := fun hf => hd (h.passed.free_of_free hf)
  refine ⟨h.passed.trans hpass fun f hf hfree => hf.1 (h.passed.free_of_free hfree),
    h.built.passed through_prefix hd1 hpass hused, fun i hi => ?_, fun i hi => ?_⟩
  · rw [hpass.mem d hd1, cowIf_ps]
    exact h.link i hi
  · rw [hpass.mem d hd1, h.rest i hi, cowIf_cowIf]

/-- One more tree is copied and linked. -/
theorem Half.attach (h : Half xs ts r d m m1) {b : Nat} (hb : Built (fun p => p.length ≤ 2) b m1 m2)
    (hj : j ∉ xs) (hp : hasFlag (m.mem r j) ptePresent = true) {e : BitVec 64} (he : childOf e = some b) :
    Half (xs ++ [j]) (ts ++ ts') r d m (m2.store d j e) := by
  have hd1 : ¬ m1.pmm.Free d := fun hf => hd (h.passed.free_of_free hf)
  have hother : ∀ i, i ≠ j → (m2.store d j e).mem d i = m2.mem d i := fun i hi => setEntry_of_ne fun h => hi h.2
  refine ⟨(h.passed.trans hpass fun f hf hfree => hf.1 (h.passed.free_of_free hfree)).store (fun hc => hc.2 rfl) j e,
    h.built.link through_prefix (fun f => h.passed.free_of_free) hd1 (fun p hp _ hf => hd (h.built.fresh p d hp hf)) hpass hb
      (fun p => ?_) (fun q hq => ?_) he, fun i hi => ?_, fun i hi => ?_⟩
  · simp [Through, taken_snoc hp, or_and_right, exists_or]
  · obtain ⟨i, q', hi, -, heq⟩ := hq
    exact absurd ((cons.inj heq).1 ▸ hi.1) hj
  · by_cases hij : i = j
    · subst hij
      rw [show (m2.store d i e).mem d i = e from setEntry_self _ _ _ _]
      exact (childOf_some he).2.1
    · rw [hother i hij, hpass.mem d hd1, cowIf_ps]
      exact h.link i (((taken_snoc hp i).mp hi).resolve_right hij)
  · have hij : i ≠ j := fun hij => hi ((taken_snoc hp i).mpr (.inr hij))
    rw [hother i hij, hpass.mem d hd1, h.rest i fun ht => hi ((taken_snoc hp i).mpr (.inl ht)), cowIf_cowIf]

variable (hts : ∀ f ∈ ts', SourceSide m d f ∧ ∃ i p, UserEntry i ∧ p.length = 2 ∧ tableAt m.mem r (i :: p) = some f)

include hts

theorem Copied.fail (h : Copied xs ts r d m m1) (hused : ∀ f, m2.pmm.isUsed f = m1.pmm.isUsed f) :
    Copied xs (ts ++ ts') r d m m2 where
  toHalf := h.toHalf.fail hd hpass hused
  mirror i hi := ((h.mirror i hi).keep h.built (fun hf => hd (h.passed.free_of_free hf)) hpass (fun f hf => (hts f hf).1)
    fun p hp => ⟨i, p, hi, hp, rfl⟩).2
  pts f hf := (mem_append.mp hf).elim (h.pts f) fun hf => (hts f hf).2
  all i p f hi hp hf := mem_append_left _ (h.all i p f hi hp hf)

theorem Copied.attach (h : Copied xs ts r d m m1) {b c : Nat} (hb : Built (fun p => p.length ≤ 2) b m1 m2)
    (hj : j ∉ xs) (hc : childOf (m.mem r j) = some c) {e : BitVec 64} (he : childOf e = some b) (hm : Mirror m.mem m2.mem 2 c b)
    (hall : ∀ p f, p.length = 2 → tableAt m.mem r (j :: p) = some f → f ∈ ts') :
    Copied (xs ++ [j]) (ts ++ ts') r d m (m2.store d j e) := by
  have hp := (childOf_some hc).1
  have hd1 : ¬ m1.pmm.Free d := fun hf => hd (h.passed.free_of_free hf)
  refine ⟨h.toHalf.attach hd hpass hb hj hp he, fun i hi => ?_, fun f hf => ?_, fun i p f hi hlen hf => ?_⟩
  · by_cases hij : i = j
    · subst hij
      rw [show (m2.store d i e).mem d i = e from setEntry_self _ _ _ _]
      refine .of_child hc he (hm.target fun p f hp hf => funext fun k => setEntry_of_ne ?_)
      rintro ⟨rfl, -⟩
      exact hd1 (hb.fresh p f hp hf)
    · have ht := ((taken_snoc hp i).mp hi).resolve_right hij
      exact (h.mirror i ht).keep_store h.built hd1 hpass (fun f hf => (hts f hf).1) (fun p hp => ⟨i, p, ht, hp, rfl⟩)
        through_prefix (fun p hp _ hf => hd (h.built.fresh p d hp hf)) hij e
  · exact (mem_append.mp hf).elim (h.pts f) fun hf => (hts f hf).2
  · rcases (taken_snoc hp i).mp hi with ht | rfl
    · exact mem_append_left _ (h.all i p f ht hlen hf)
    · exact mem_append_right _ (hall p f hlen hf)

end Step

/-- How the loop over the user half of the PML4 ends: everything is copied, or frames ran out after the entries `xs` and the cleanup
ran from `m2`. -/
structure Pml4End (r d : Nat) (m : Vmm) (st : VmmStatus) (m' : Vmm) (xs ys : List (Fin 512)) (ts : List Nat) (m2 : Vmm) : Prop where
  split : userEntries = xs ++ ys
  half : Half xs ts r d m m2
  result : st = .ok ∧ ys = [] ∧ m' = m2 ∨ st = .noMem ∧ ys ≠ [] ∧ (cloneCleanup d xs).run m2 = ((), m')
  copied : (∀ x ∈ userOrder m.mem r, SourceSide m d x.2) → Copied xs ts r d m m2 ∧
    Reached (userOrder m.mem r) ts (decide (st = .ok)) m m' ∧ tableCount m.mem 2 r xs ≤ m.pmm.freeCount ∧
    ∀ i zs, ys = i :: zs → m.pmm.freeCount < tableCount m.mem 2 r (xs ++ [i])

theorem clonePml4_run (hi : m.pmm.initialized = true) (hr : ¬ m.pmm.Free r) (hd : ¬ m.pmm.Free d) (hne : r ≠ d)
    (hsmall : ∀ i, UserEntry i → hasFlag (m.mem r i) ptePresent = true → hasFlag (m.mem r i) ptePs = false)
    (is : List (Fin 512)) :
    ∀ done m1 ts1, userEntries = done ++ is → Half done ts1 r d m m1 →
      ((∀ x ∈ userOrder m.mem r, SourceSide m d x.2) →
        Copied done ts1 r d m m1 ∧ Reached (done.flatMap (orderFor m.mem 2 r)) ts1 true m m1) →
      ∃ st m' xs ys ts m2, (clonePml4 r d done is).run m1 = (st, m') ∧ Pml4End r d m st m' xs ys ts m2 := by
  induction is with
  | nil =>
    intro done m1 ts1 hall hhalf hcopy
    have horder : userOrder m.mem r = done.flatMap (orderFor m.mem 2 r) := by rw [userOrder, hall, append_nil]
    refine ⟨.ok, m1, done, [], ts1, m1, rfl, hall, hhalf, .inl ⟨rfl, rfl, rfl⟩, fun hin => ?_⟩
    obtain ⟨hc, hreach⟩ := hcopy hin
    refine ⟨hc, ?_, ?_, nofun⟩
    · rw [horder]
      exact hreach
    · have := hreach.enough rfl
      rw [tableCount_eq]
      omega
  | cons i is ih =>
    intro done m1 ts1 hall hhalf hcopy
    have hUi : UserEntry i := (mem_userEntries i).mp (hall ▸ mem_append_right _ mem_cons_self)
    have hnot : i ∉ done := fun h => (nodup_append.mp (hall ▸ nodup_userEntries)).2.2 i h i mem_cons_self rfl
    have hall' : userEntries = done ++ [i] ++ is := by rw [List.append_assoc, hall]; rfl
    have horder : userOrder m.mem r = done.flatMap (orderFor m.mem 2 r) ++ (orderFor m.mem 2 r i ++ is.flatMap (orderFor m.mem 2 r)) := by
      rw [userOrder, hall, flatMap_append, flatMap_cons]
    have hsnoc : (done ++ [i]).flatMap (orderFor m.mem 2 r) = done.flatMap (orderFor m.mem 2 r) ++ orderFor m.mem 2 r i := by
      rw [flatMap_append, flatMap_singleton]
    have hpass := hhalf.passed
    have hsrc := hpass.mem r ⟨hr, hne⟩ i
    rw [clonePml4, bind_run (readEntry_run m1 r i)]
    cases hp : hasFlag (m1.mem r i) ptePresent with
    | false =>
      rw [hsrc, cowIf_present] at hp
      have hskip : Half (done ++ [i]) ts1 r d m m1 := by
        have hthrough : Through r m (done ++ [i]) = Through r m done := by
          funext p
          simp only [Through, taken_skip hp]
        refine ⟨hpass, hthrough ▸ hhalf.built, ?_, ?_⟩
        · rw [taken_skip hp]
          exact hhalf.link
        · rw [taken_skip hp]
          exact hhalf.rest
      refine ih (done ++ [i]) m1 ts1 hall' hskip fun hin => ?_
      obtain ⟨hc, hreach⟩ := hcopy hin
      refine ⟨⟨hskip, ?_, hc.pts, ?_⟩, ?_⟩
      · rw [taken_skip hp]
        exact hc.mirror
      · rw [taken_skip hp]
        exact hc.all
      · rw [hsnoc, orderFor_of_none (childOf_absent hp), append_nil]
        exact hreach
    | true =>
      rw [if_neg (by simp)]
      have hp0 : hasFlag (m.mem r i) ptePresent = true := by rw [hsrc, cowIf_present] at hp; exact hp
      have hs : hasFlag (m1.mem r i) ptePs = false := by
        rw [hsrc, cowIf_ps]
        exact hsmall i hUi hp0
      have hchild : childOf (m.mem r i) = some (pteFrame (m1.mem r i)) := by
        rw [← hpass.childOf_eq ⟨hr, hne⟩]
        exact childOf_present hp hs
      obtain ⟨o, m2, ts', hrun, hpass', hres, hreach'⟩ := cloneTable_pass 2 (pteFrame (m1.mem r i)) m1
        (hpass.upkeep.pmmInit.trans hi)
      -- the tables to come are those that are found at the start
      have hnext : (∀ x ∈ userOrder m.mem r, SourceSide m d x.2) → Reached (orderFor m.mem 2 r i) ts' o.isSome m1 m2 ∧
          (∀ f ∈ ts', SourceSide m d f ∧ ∃ i p, UserEntry i ∧ p.length = 2 ∧ tableAt m.mem r (i :: p) = some f) ∧
          ∀ b, o = some b → Mirror m.mem m2.mem 2 (pteFrame (m1.mem r i)) b := by
        intro hin
        have hside : ∀ x ∈ tableOrder m.mem 2 (pteFrame (m1.mem r i)), SourceSide m d x.2 := by
          intro x hx
          rw [← orderFor_of_child hchild] at hx
          exact hin x (horder ▸ mem_append_right _ (mem_append_left _ hx))
        obtain ⟨heq, hsub⟩ := TreeInUse.passed (fun x hx => (hside x hx).1) hpass hside
        obtain ⟨hr', hmirror⟩ := hreach' hsub
        rw [heq, ← orderFor_of_child hchild] at hr'
        refine ⟨hr', fun f hf => ?_, fun b hb => (hmirror b hb).source fun x hx i => hpass.mem x.2 (hside x hx) i⟩
        have hmem := hr'.mem hf
        rw [orderFor_of_child hchild] at hmem
        obtain ⟨p, hlen, htab⟩ := (mem_tableOrder (0, f)).mp hmem
        exact ⟨hside _ hmem, i, p, hUi, hlen, (tableAt_child hchild p).trans htab⟩
      rw [bind_run (show (cloneTable 2 (frameOf (pteAddr (m1.mem r i)))).run m1 = (o.map frameAddr, m2) from hrun)]
      rcases hres with ⟨rfl, hused⟩ | ⟨b, rfl, hbm, hbuilt⟩
      · refine ⟨.noMem, ((cloneCleanup d done).run m2).2, done, i :: is, ts1 ++ ts', m2, rfl, hall, hhalf.fail hd hpass' hused,
          .inr ⟨rfl, cons_ne_nil i is, rfl⟩, fun hin => ?_⟩
        obtain ⟨hc, hreach⟩ := hcopy hin
        obtain ⟨hr', hts, -⟩ := hnext hin
        have henough := hreach.enough rfl
        have hshort := hr'.short rfl
        refine ⟨hc.fail hd hpass' hts hused, ?_, ?_, ?_⟩
        · rw [horder, ← List.append_assoc]
          exact (hreach.append hr' rfl).stop _ _
        · rw [tableCount_eq]
          omega
        · rintro _ _ ⟨⟩
          rw [tableCount_eq, hsnoc, length_append]
          omega
      · obtain ⟨-, -, hentry⟩ := copyEntry hp hs (lt_of_free hbm)
        dsimp only [Option.map_some]
        generalize pteMake (frameAddr b) (pteFlags (m1.mem r i)) = e at hentry
        refine ih (done ++ [i]) (m2.store d i e) (ts1 ++ ts') hall' (hhalf.attach hd hpass' hbuilt hnot hp0 hentry) fun hin => ?_
        obtain ⟨hc, hreach⟩ := hcopy hin
        obtain ⟨hr', hts, hmirror⟩ := hnext hin
        have hwhole : Reached ((done ++ [i]).flatMap (orderFor m.mem 2 r)) (ts1 ++ ts') true m m2 := by
          rw [hsnoc]
          exact hreach.append hr' rfl
        refine ⟨hc.attach hd hpass' hts hbuilt hnot hchild hentry (hmirror b rfl) fun p f hlen hf => ?_,
          hwhole.pts, hwhole.enough, hwhole.short⟩
        have henough := hr'.enough rfl
        rw [hr'.pts, take_of_length_le (by omega), orderFor_of_child hchild, mem_tableOrder]
        exact ⟨p, hlen, (tableAt_child hchild p).symm.trans hf⟩

/-- `vmm_clone_address_space` on any source. -/
theorem cloneSpace_run {src dst : AddressSpace} (hinit : m.initialized = true) (hsrc : src.pml4 = some r)
    (hdst : dst.pml4 = some d) (hi : m.pmm.initialized = true) (hr : ¬ m.pmm.Free r) (hd : ¬ m.pmm.Free d) (hne : r ≠ d)
    (hsmall : ∀ i, UserEntry i → hasFlag (m.mem r i) ptePresent = true → hasFlag (m.mem r i) ptePs = false) :
    ∃ st m' xs ys ts m2, (vmmCloneAddressSpace src dst).run m = (st, m') ∧ Pml4End r d m st m' xs ys ts m2 := by
  rw [vmmCloneAddressSpace, bind_run (get_run m), hinit, if_neg (by simp), hsrc, hdst]
  exact clonePml4_run hi hr hd hne hsmall userEntries [] m [] (nil_append _).symm (Half.refl r d m)
    fun _ => ⟨Copied.refl r d m, Reached.nil rfl⟩

/-! ## Copies of a well-formed source -/

/-- An address space can be copied to another one. -/
theorem Spaces.source (h : Spaces p0 live m) (hr : r ∈ live) (hd : d ∈ live) (hne : r ≠ d) : Source UserEntry 2 r d m where
  ready := h.pmmInit
  root := h.kept r hr [] r (.nil 256) rfl
  parent := h.kept d hd [] d (.nil 256) rfl
  apart := hne
  kept i p f hi hp hf := by
    have hpath : TablePath 256 (i :: p) := tablePath_cons.mpr ⟨hi, hp⟩
    refine ⟨h.kept r hr _ f hpath hf, ?_, ?_⟩
    · rintro rfl
      exact cons_ne_nil i p (h.root_unique hr hpath hr hf).2
    · rintro rfl
      exact hne (h.root_unique hr hpath hd hf).1
  link i hi := h.small r hr [] i (tablePath_cons.mpr ⟨hi, Nat.zero_le 2⟩)
  small i p j hi hp := h.small r hr (i :: p) j (tablePath_cons.mpr ⟨hi, by simp; omega⟩)
  distinct i p j q f hi hj hp hq hf hf' := (h.tables.distinct _ _ _ _ _ ⟨hr, tablePath_cons.mpr ⟨hi, hp⟩⟩
    ⟨hr, tablePath_cons.mpr ⟨hj, hq⟩⟩ hf hf').2

variable {f : Nat}

section Source

variable (hs : Source UserEntry 2 r d m)

include hs

theorem Source.side (hp : TablePath 256 p) (hf : tableAt m.mem r p = some f) : SourceSide m d f := by
  cases p with
  | nil =>
    cases hf
    exact ⟨hs.root, hs.apart⟩
  | cons i p =>
    obtain ⟨hi, hp⟩ := tablePath_cons.mp hp
    exact ⟨(hs.kept i p f hi hp hf).1, (hs.kept i p f hi hp hf).2.2⟩

theorem Source.order_side : ∀ x ∈ userOrder m.mem r, SourceSide m d x.2 := by
  intro x hx
  obtain ⟨i, p, hi, hlen, hf⟩ := (mem_userOrder x).mp hx
  exact hs.side (tablePath_cons.mpr ⟨hi, by omega⟩) hf

theorem Source.clone_run {src dst : AddressSpace} (hinit : m.initialized = true) (hsrc : src.pml4 = some r)
    (hdst : dst.pml4 = some d) :
    ∃ st m' xs ys ts m2, (vmmCloneAddressSpace src dst).run m = (st, m') ∧ Pml4End r d m st m' xs ys ts m2 :=
  cloneSpace_run hinit hsrc hdst hs.ready hs.root hs.parent hs.apart hs.link

namespace Copied

variable (h : Copied xs ts r d m m1)

include h

/-- An entry of the destination that was not copied is as before. -/
theorem parent (hi : ¬ Taken r m xs i) : m1.mem d i = m.mem d i := by
  rw [h.rest i hi, cowIf, if_neg]
  intro hmem
  obtain ⟨j, p, hj, hp, hf⟩ := h.pts d hmem
  exact (hs.kept j p d hj hp.le hf).2.2 rfl

/-- The tree below an entry that was copied. -/
theorem tree (hi : Taken r m xs i) (hu : UserEntry i) :
    ∃ b b', childOf (m.mem r i) = some b ∧ childOf (m1.mem d i) = some b' ∧ Mirror m.mem m1.mem 2 b b' := by
  have hb := childOf_present hi.2 (hs.link i hu hi.2)
  obtain ⟨b', hb', hm⟩ := (h.mirror i hi).child hb
  exact ⟨_, b', hb, hb', hm⟩

theorem leaf (hi : Taken r m xs i) (hu : UserEntry i) (hp : p.length = 2) (j : Fin 512) :
    entryAt m1.mem d (i :: p) j = cloneLeaf (entryAt m.mem r (i :: p) j) := by
  obtain ⟨b, b', hb, hb', hm⟩ := h.tree hs hi hu
  rw [entryAt_child hb, entryAt_child hb']
  exact hm.leaf hp j

theorem small (hi : Taken r m xs i) (hu : UserEntry i) (hp : p.length < 2)
    (hpres : hasFlag (entryAt m1.mem d (i :: p) j) ptePresent = true) : hasFlag (entryAt m1.mem d (i :: p) j) ptePs = false := by
  obtain ⟨b, b', hb, hb', hm⟩ := h.tree hs hi hu
  rw [entryAt_child hb'] at hpres ⊢
  refine hm.small (fun q k hq => ?_) hp hpres
  rw [← entryAt_child hb]
  exact hs.small i q k hu hq

omit hs in
theorem fresh (hi : Taken r m xs i) (hp : p.length ≤ 2)
    (hf : tableAt m1.mem d (i :: p) = some f) : m.pmm.Free f := h.built.fresh _ f ⟨i, p, hi, hp, rfl⟩ hf

end Copied

end Source

/-! ## The address spaces during a clone -/

variable {r' : Nat}

section Spaces

variable (h : Spaces p0 live m) (hr : r ∈ live) (hd : d ∈ live) (hne : r ≠ d) (hb : Copied xs ts r d m m1)
  (hxs : ∀ i ∈ xs, UserEntry i)

include h hr hd hne hb

namespace CloneAux

omit hb hr hne in
theorem live_side (hr' : r' ∈ live) (hrd : r' ≠ d) (p : List (Fin 512)) (f : Nat) (hp : TablePath 256 p)
    (hf : tableAt m.mem r' p = some f) : SourceSide m d f := by
  refine ⟨h.kept r' hr' p f hp hf, ?_⟩
  rintro rfl
  exact hrd (h.root_unique hr' hp hd hf).1

omit hd hne in
/-- The tables that were made copy-on-write are PTs of the source. -/
theorem copied_pt (hmem : f ∈ ts) (hr' : r' ∈ live) (hp : TablePath 256 p)
    (hf : tableAt m.mem r' p = some f) : r' = r ∧ p.length = 3 := by
  obtain ⟨j, q, hj, hq, hqf⟩ := hb.pts f hmem
  obtain ⟨hrr, hpq⟩ := h.tables.distinct _ _ _ _ _ ⟨hr', hp⟩ ⟨hr, tablePath_cons.mpr ⟨hj, hq.le⟩⟩ hf hqf
  rw [hpq, length_cons, hq]
  exact ⟨hrr, rfl⟩

omit hr hne in
/-- The other address spaces have the same tables. -/
theorem copied_tableAt (hr' : r' ∈ live) (hrd : r' ≠ d) (hp : TablePath 256 p) :
    tableAt m1.mem r' p = tableAt m.mem r' p := pass_tableAt hb.passed (live_side h hd hr' hrd) hp

omit hne in
/-- The entries of the other address spaces: only leaves of the source have changed. -/
theorem copied_entryAt (hr' : r' ∈ live) (hrd : r' ≠ d) (hp : TablePath 256 p) (i : Fin 512) :
    entryAt m1.mem r' p i = entryAt m.mem r' p i ∨
      (r' = r ∧ p.length = 3) ∧ entryAt m1.mem r' p i = srcLeaf (entryAt m.mem r' p i) :=
  (pass_entryAt hb.passed (live_side h hd hr' hrd) hp i).imp id fun ⟨⟨_, hmem, hf⟩, heq⟩ => ⟨copied_pt h hr hb hmem hr' hp hf, heq⟩

/-- Below the entries of the destination that were not copied everything is as before. -/
theorem copied_dst (hi : UserEntry i) (hDi : ¬ Taken r m xs i) (hp : p.length ≤ 2) :
    tableAt m1.mem d (i :: p) = tableAt m.mem d (i :: p) ∧ ∀ j, entryAt m1.mem d (i :: p) j = entryAt m.mem d (i :: p) j := by
  refine view_below (hb.parent (h.source hr hd hne) hDi) (fun q f hq hf => funext fun j => ?_) hp
  have hpath : TablePath 256 (i :: q) := tablePath_cons.mpr ⟨hi, hq⟩
  have hfd : f ≠ d := by
    rintro rfl
    exact cons_ne_nil i q (h.root_unique hd hpath hd hf).2
  rw [hb.passed.mem f ⟨h.kept d hd _ f hpath hf, hfd⟩, cowIf, if_neg]
  exact fun hmem => hne (copied_pt h hr hb hmem hd hpath hf).1.symm

/-- A table after the copies was one before, or was free and belongs to a copy. -/
theorem copied_table_cases (hr' : r' ∈ live) (hp : TablePath 256 p) (hf : tableAt m1.mem r' p = some f) :
    tableAt m.mem r' p = some f ∨
      r' = d ∧ m.pmm.Free f ∧ ∃ i q, Taken r m xs i ∧ p = i :: q ∧ q.length ≤ 2 := by
  by_cases hrd : r' = d
  · subst hrd
    cases p with
    | nil => exact .inl hf
    | cons i q =>
      obtain ⟨hi, hq⟩ := tablePath_cons.mp hp
      by_cases hDi : Taken r m xs i
      · exact .inr ⟨rfl, hb.fresh hDi hq hf, i, q, hDi, rfl, hq⟩
      · exact .inl ((copied_dst h hr hd hne hb hi hDi hq).1.symm.trans hf)
  · exact .inl ((copied_tableAt h hd hb hr' hrd hp).symm.trans hf)

/-- The leaves of the destination are copies, or as before. -/
theorem copied_leaf (hp : LeafPath (i :: p)) (j : Fin 512) :
    Taken r m xs i ∧ entryAt m1.mem d (i :: p) j = cloneLeaf (entryAt m.mem r (i :: p) j) ∨
    ¬ Taken r m xs i ∧ entryAt m1.mem d (i :: p) j = entryAt m.mem d (i :: p) j := by
  obtain ⟨hi, hlen⟩ := leafPath_cons.mp hp
  by_cases hDi : Taken r m xs i
  · exact .inl ⟨hDi, hb.leaf (h.source hr hd hne) hDi hi hlen j⟩
  · exact .inr ⟨hDi, (copied_dst h hr hd hne hb hi hDi hlen.le).2 j⟩

/-- The leaves of the source below an entry that was copied. -/
theorem copied_src (hp : LeafPath (i :: p)) (hi : Taken r m xs i) (j : Fin 512) :
    entryAt m1.mem r (i :: p) j = srcLeaf (entryAt m.mem r (i :: p) j) := by
  have htab := copied_tableAt h hd hb hr hne hp.1
  cases hf : tableAt m.mem r (i :: p) with
  | none => rw [entryAt_none hf, entryAt_none (htab.trans hf), srcLeaf_zero]
  | some f =>
    rw [entryAt_eq hf, entryAt_eq (htab.trans hf), hb.passed.mem f (live_side h hd hr hne _ f hp.1 hf), cowIf,
      if_pos (hb.all i p f hi (leafPath_cons.mp hp).2 hf)]

/-- Where a mapping comes from: the mappings of a destination that mapped nothing are those of the source. -/
theorem copied_maps (hempty : ∀ p i f, ¬ Maps m.mem d p i f) (hr' : r' ∈ live) (hm : Maps m1.mem r' p j f) :
    (r' ≠ d ∧ Maps m.mem r' p j f) ∨ r' = d ∧ Maps m.mem r p j f ∧ ∃ i q, Taken r m xs i ∧ p = i :: q := by
  obtain ⟨hp, hpres, hframe⟩ := hm
  by_cases hrd : r' = d
  · subst hrd
    obtain ⟨i, q, rfl⟩ := exists_cons_of_length_eq_add_one hp.2
    rcases copied_leaf h hr hd hne hb hp j with ⟨hi, heq⟩ | ⟨-, heq⟩
    · rw [heq, cloneLeaf_present] at hpres
      rw [heq, cloneLeaf_of_present hpres, srcLeaf_frame] at hframe
      exact .inr ⟨rfl, ⟨hp, hpres, hframe⟩, i, q, hi, rfl⟩
    · rw [heq] at hpres hframe
      exact absurd ⟨hp, hpres, hframe⟩ (hempty (i :: q) j f)
  · refine .inl ⟨hrd, hp, ?_⟩
    rcases copied_entryAt h hr hd hb hr' hrd hp.1 j with heq | ⟨-, heq⟩
    · rw [← heq]
      exact ⟨hpres, hframe⟩
    · rw [heq, srcLeaf_present] at hpres
      rw [heq, srcLeaf_frame] at hframe
      exact ⟨hpres, hframe⟩

end CloneAux

include hxs in
/-- The tables that an entry of the destination led to before its copy was linked are not reached any more. -/
theorem Copied.outside_iff (f : Nat) :
    Outside d m1 f ↔ Outside d m f ∨ ∃ i p, Taken r m xs i ∧ p.length ≤ 2 ∧ tableAt m.mem d (i :: p) = some f := by
  constructor
  · rintro ⟨hused, hout⟩
    have hold : m.pmm.isUsed f = true := by
      rcases (hb.built.used f).mp hused with hu | ⟨_, ⟨i, p, hi, hp, rfl⟩, hf⟩
      · exact hu
      · exact absurd hf (hout _ (tablePath_cons.mpr ⟨hxs i hi.1, hp⟩))
    by_cases hlost : ∃ i p, Taken r m xs i ∧ p.length ≤ 2 ∧ tableAt m.mem d (i :: p) = some f
    · exact .inr hlost
    refine .inl ⟨hold, fun p hp hf => ?_⟩
    cases p with
    | nil => exact hout [] hp hf
    | cons i p =>
      obtain ⟨hi, hlen⟩ := tablePath_cons.mp hp
      by_cases hDi : Taken r m xs i
      · exact hlost ⟨i, p, hDi, hlen, hf⟩
      · exact hout _ hp ((copied_dst h hr hd hne hb hi hDi hlen).1.trans hf)
  · rintro (⟨hused, hout⟩ | ⟨i, p, hi, hp, hf⟩)
    · refine ⟨hb.passed.grows f hused, fun p hp hf => ?_⟩
      rcases copied_table_cases h hr hd hne hb hd hp hf with hold | ⟨-, hfree, -⟩
      · exact hout p hp hold
      · exact Spaces.not_free_of_used hused hfree
    · have hpath : TablePath 256 (i :: p) := tablePath_cons.mpr ⟨hxs i hi.1, hp⟩
      have hused := (h.owned f ⟨d, hd, i :: p, hpath, hf⟩).2
      refine ⟨hb.passed.grows f hused, fun q hq hqf => ?_⟩
      have hcopy : ∀ q', q = i :: q' → q'.length ≤ 2 → False := by
        rintro q' rfl hlen
        exact Spaces.not_free_of_used hused (hb.fresh hi hlen hqf)
      rcases copied_table_cases h hr hd hne hb hd hq hqf with hold | ⟨-, hfree, -⟩
      · obtain rfl := (h.tables.distinct _ _ _ _ _ ⟨hd, hpath⟩ ⟨hd, hq⟩ hf hold).2
        exact hcopy p rfl hp
      · exact Spaces.not_free_of_used hused hfree

omit h hne in
/-- The frames of the kernel's PML4 and of mapped pages are as before. -/
theorem Copied.mem_eq (hfree : ¬ m.pmm.Free f) (hnt : ¬ IsTable live m.mem f) : m1.mem f = m.mem f := by
  funext i
  have hfd : f ≠ d := by
    rintro rfl
    exact hnt ⟨f, hd, [], .nil 256, rfl⟩
  rw [hb.passed.mem f ⟨hfree, hfd⟩, cowIf, if_neg]
  intro hmem
  obtain ⟨j, p, hj, hp, hf⟩ := hb.pts f hmem
  exact hnt ⟨r, hr, j :: p, tablePath_cons.mpr ⟨hj, hp.le⟩, hf⟩

/-- The copies made so far keep the invariant. -/
theorem Copied.spaces (hempty : ∀ p i f, ¬ Maps m.mem d p i f) : Spaces p0 live m1 := by
  have hs := h.source hr hd hne
  have hsteady : Steady m m1 := ⟨hb.passed.upkeep.init, hb.passed.upkeep.pmmInit, hb.passed.upkeep.total, hb.passed.upkeep.drift,
    hb.passed.upkeep.kernel, hb.mem_eq hr hd h.kernel_not_free h.kernel_not_table⟩
  have htable : ∀ f, IsTable live m1.mem f → IsTable live m.mem f ∨ m.pmm.Free f := by
    rintro f ⟨r', hr', p, hp, hf⟩
    rcases copied_table_cases h hr hd hne hb hr' hp hf with hold | ⟨-, hfree, -⟩
    · exact .inl ⟨r', hr', p, hp, hold⟩
    · exact .inr hfree
  refine h.of_maps (h.toGround.steady hsteady fun f hf => hb.passed.grows f (h.base f hf)) ?_ ?_ ?_ ?_ ?_
    (fun r' => if r' = d then r else r') ?_ ?_
  · refine tables_of_distinct fun r1 hr1 r2 hr2 p q f hp hq hf hf' => ?_
    rcases copied_table_cases h hr hd hne hb hr1 hp hf with hold | ⟨rfl, hfree, i, p, hi, rfl, hlen⟩
    · rcases copied_table_cases h hr hd hne hb hr2 hq hf' with hold' | ⟨-, hfree', -⟩
      · exact h.tables.distinct _ _ _ _ _ ⟨hr1, hp⟩ ⟨hr2, hq⟩ hold hold'
      · exact absurd hfree' (h.kept r1 hr1 p f hp hold)
    · rcases copied_table_cases h hr hd hne hb hr2 hq hf' with hold' | ⟨rfl, -, j, q, hj, rfl, hlen'⟩
      · exact absurd hfree (h.kept r2 hr2 q f hq hold')
      · exact ⟨rfl, hb.built.distinct _ _ f ⟨i, p, hi, hlen, rfl⟩ ⟨j, q, hj, hlen', rfl⟩ hf hf'⟩
  · rintro f ⟨r', hr', p, hp, hf⟩
    rcases copied_table_cases h hr hd hne hb hr' hp hf with hold | ⟨rfl, hfree, i, p, hi, rfl, hlen⟩
    · obtain ⟨hown, hu⟩ := h.owned f ⟨r', hr', p, hp, hold⟩
      exact ⟨hown, hb.passed.grows f hu⟩
    · exact ⟨h.free_of_free hfree, (hb.built.used f).mpr (.inr ⟨_, ⟨i, p, hi, hlen, rfl⟩, hf⟩)⟩
  · intro r' hr' p i hp
    by_cases hrd : r' = d
    · subst hrd
      cases p with
      | nil =>
        by_cases hDi : Taken r m xs i
        · exact fun _ => hb.link i hDi
        · rw [show entryAt m1.mem r' [] i = m.mem r' i from hb.parent hs hDi]
          exact h.small r' hr' [] i hp
      | cons j p =>
        have hj : UserEntry j := (tablePath_cons.mp hp).1
        have hlen := hp.1
        rw [length_append, length_singleton, length_cons] at hlen
        by_cases hDj : Taken r m xs j
        · exact hb.small hs hDj hj (by omega)
        · rw [(copied_dst h hr hd hne hb hj hDj (by omega)).2 i]
          exact h.small r' hr' (j :: p) i hp
    · have hlen := hp.1
      rw [length_append, length_singleton] at hlen
      rw [(copied_entryAt h hr hd hb hr' hrd hp.of_append i).resolve_right fun hc => by omega]
      exact h.small r' hr' p i hp
  · intro r' hr' p i hp
    by_cases hrd : r' = d
    · subst hrd
      obtain ⟨j, p, rfl⟩ := exists_cons_of_length_eq_add_one hp.2
      rcases copied_leaf h hr hd hne hb hp i with ⟨-, heq⟩ | ⟨-, heq⟩
      · rw [heq]
        exact cloneLeaf_ok (h.leaf r hr _ i hp)
      · rw [heq]
        exact h.leaf r' hr' _ i hp
    · rcases copied_entryAt h hr hd hb hr' hrd hp.1 i with heq | ⟨-, heq⟩
      · rw [heq]
        exact h.leaf r' hr' p i hp
      · rw [heq]
        exact srcLeaf_ok (h.leaf r' hr' p i hp)
  · intro f hold _
    obtain ⟨-, hu, hnt⟩ := h.mapped f hold
    refine ⟨hb.passed.grows f hu, fun ht => ?_⟩
    rcases htable f ht with ht | hfree
    · exact hnt ht
    · exact Spaces.not_free_of_used hu hfree
  · intro r' hr' p i f hm
    rcases copied_maps h hr hd hne hb hempty hr' hm with ⟨hrd, hm⟩ | ⟨hrd, hm, -⟩
    · rw [if_neg hrd]
      exact ⟨hr', hm⟩
    · rw [if_pos hrd]
      exact ⟨hr, hm⟩
  · intro r' hr' p i f hm hw
    rcases copied_maps h hr hd hne hb hempty hr' hm with ⟨hrd, hm0⟩ | ⟨rfl, hm0, j, q, hj, rfl⟩
    · rcases copied_entryAt h hr hd hb hr' hrd hm.1.1 i with heq | ⟨-, heq⟩
      · rw [if_neg hrd, ← heq]
        refine ⟨hw, fun r'' hr'' hm' horig => ?_⟩
        obtain ⟨p', i', hm'⟩ := hm'
        rcases copied_maps h hr hd hne hb hempty hr'' hm' with ⟨hrd', -⟩ | ⟨rfl, hm1, j, q, hj, rfl⟩
        · rw [if_neg hrd'] at horig
          exact horig
        · -- a frame that is mapped in a copy is not mapped writable by the source
          rw [if_pos rfl] at horig
          subst horig
          obtain ⟨rfl, rfl⟩ := h.inj r hr _ _ _ _ f hm0 hm1
          rw [copied_src h hr hd hne hb hm.1 hj i, srcLeaf_readOnly (h.leaf r hr _ i hm.1) hm0.2.1] at hw
          cases hw
      · rw [heq, srcLeaf_readOnly (h.leaf r' hr' p i hm.1) hm0.2.1] at hw
        cases hw
    · rw [hb.leaf hs hj (leafPath_cons.mp hm.1).1 (leafPath_cons.mp hm.1).2, cloneLeaf_of_present hm0.2.1,
        srcLeaf_readOnly (h.leaf r hr _ i hm.1) hm0.2.1] at hw
      cases hw

end Spaces

/-! ## The cleanup -/

section Cleanup

variable (h : Spaces p0 live m) (hd : d ∈ live) (hxs : ∀ i ∈ xs, UserEntry i)

include h hd hxs

omit h hd hxs in
/-- What `cloneCleanup` does: the tables below the entries `xs` of the destination are freed, and the entries are empty. -/
theorem cloneCleanup_frees (hdist : DistinctUnder xs m.mem 2 d)
    (hlink : ∀ i ∈ xs, hasFlag (m.mem d i) ptePresent = true → hasFlag (m.mem d i) ptePs = false) (hnodup : xs.Nodup) :
    ∃ mem', (cloneCleanup d xs).run m = ((), { m with pmm := m.pmm.dropAll (xs.flatMap (freedFor m.mem 2 d)), mem := mem' }) ∧
      (∀ i ∈ xs, hasFlag (mem' d i) ptePresent = false) ∧ (∀ i, i ∉ xs → mem' d i = m.mem d i) ∧
      ∀ f, f ≠ d → (∀ i ∈ xs, ∀ p, p.length ≤ 2 → tableAt m.mem d (i :: p) ≠ some f) → mem' f = m.mem f := by
  obtain ⟨body, hcall, hbody⟩ : ∃ body, cloneCleanup d xs = xs.forM body ∧
      Frees (fun e => hasFlag e ptePresent = true → hasFlag e ptePs = false) 2 d body := by
    refine ⟨_, cloneCleanup.eq_1 d xs, fun i m1 hsmall hpre => ?_⟩
    rw [bind_run (readEntry_run m1 d i)]
    cases hp : hasFlag (m1.mem d i) ptePresent with
    | false =>
      rw [freedFor, childOf_absent hp]
      exact ⟨m1.mem, rfl, .inr ⟨rfl, rfl⟩, fun _ _ => rfl, fun _ _ _ => rfl⟩
    | true =>
      obtain ⟨hbelow, hroot⟩ := hpre _ (childOf_present hp (hsmall hp))
      obtain ⟨mem2, hrun2, hoff2⟩ := ptFreeRecursive_run 2 (pteFrame (m1.mem d i)) m1 hbelow
      exact freeChild_run hp (hsmall hp) hroot hrun2 hoff2
  obtain ⟨mem', hrun, hself, hother, hoff⟩ := hbody.loop xs hdist hlink hnodup m (fun _ _ => rfl) (fun _ _ _ _ _ _ => rfl)
  refine ⟨mem', hcall ▸ hrun, fun i hi => ?_, hother, hoff⟩
  rcases hself i hi with hzero | ⟨hnone, hsame⟩
  · rw [hzero, hasFlag_zero]
  · rw [hsame, ← Bool.not_eq_true]
    intro hp
    rw [childOf_present hp (hlink i hi hp)] at hnone
    cases hnone

theorem cloneCleanup_run (hnodup : xs.Nodup) :
    ∃ mem', (cloneCleanup d xs).run m = ((), { m with pmm := m.pmm.dropAll (xs.flatMap (freedFor m.mem 2 d)), mem := mem' }) ∧
      (∀ i ∈ xs, hasFlag (mem' d i) ptePresent = false) ∧ (∀ i, i ∉ xs → mem' d i = m.mem d i) ∧
      ∀ f, f ≠ d → (∀ i ∈ xs, ∀ p, p.length ≤ 2 → tableAt m.mem d (i :: p) ≠ some f) → mem' f = m.mem f := by
  have hpath : ∀ i ∈ xs, ∀ p : List (Fin 512), p.length ≤ 2 → TablePath 256 (i :: p) :=
    fun i hi p hp => tablePath_cons.mpr ⟨hxs i hi, hp⟩
  have hdist : DistinctUnder xs m.mem 2 d := by
    constructor
    · intro i hi j hj p q f hp hq hf hf'
      exact (h.tables.distinct _ _ _ _ _ ⟨hd, hpath i hi p hp⟩ ⟨hd, hpath j hj q hq⟩ hf hf').2
    · intro i hi p hp hf
      exact cons_ne_nil i p (h.root_unique hd (hpath i hi p hp) hd hf).2
  exact cloneCleanup_frees hdist (fun i hi => h.small d hd [] i (hpath i hi [] (Nat.zero_le 2))) hnodup

namespace CloneAux

variable {mem' : Nat → Fin 512 → BitVec 64} (hself : ∀ i ∈ xs, hasFlag (mem' d i) ptePresent = false)
  (hother : ∀ i, i ∉ xs → mem' d i = m.mem d i)
  (hoff : ∀ f, f ≠ d → (∀ i ∈ xs, ∀ p, p.length ≤ 2 → tableAt m.mem d (i :: p) ≠ some f) → mem' f = m.mem f)

include hoff

/-- The tables of the other address spaces are as before. -/
theorem cleanup_other (hr' : r' ∈ live) (hrd : r' ≠ d) (hp : TablePath 256 p) :
    tableAt mem' r' p = tableAt m.mem r' p ∧ ∀ i, entryAt mem' r' p i = entryAt m.mem r' p i := by
  have hsame : ∀ f, IsTable [r'] m.mem f → ({ m with mem := mem' } : Vmm).mem f = m.mem f := by
    intro f hf
    obtain ⟨r1, hr1, q, hq, hf⟩ := hf
    rw [mem_singleton] at hr1
    subst hr1
    refine hoff f ?_ fun i hi p hp hf' => hrd ?_
    · rintro rfl
      exact hrd (h.root_unique hr' hq hd hf).1
    · exact (h.tables.distinct _ _ _ _ _ ⟨hr', hq⟩ ⟨hd, tablePath_cons.mpr ⟨hxs i hi, hp⟩⟩ hf hf').1
  exact Spaces.same_view hsame mem_cons_self hp

include hself hother

/-- The destination has lost what the entries `xs` led to. -/
theorem cleanup_dst (hi : UserEntry i) (hp : p.length ≤ 2) :
    (i ∈ xs ∧ tableAt mem' d (i :: p) = none) ∨
    i ∉ xs ∧ tableAt mem' d (i :: p) = tableAt m.mem d (i :: p) ∧ ∀ j, entryAt mem' d (i :: p) j = entryAt m.mem d (i :: p) j := by
  by_cases hmem : i ∈ xs
  · exact .inl ⟨hmem, tableAt_none (childOf_absent (hself i hmem)) p⟩
  refine .inr ⟨hmem, view_below (hother i hmem) (fun q f hq hf => ?_) hp⟩
  have hpath : TablePath 256 (i :: q) := tablePath_cons.mpr ⟨hi, hq⟩
  refine hoff f ?_ fun j hj p hp hf' => hmem ?_
  · rintro rfl
    exact cons_ne_nil i q (h.root_unique hd hpath hd hf).2
  · have := (h.tables.distinct _ _ _ _ _ ⟨hd, hpath⟩ ⟨hd, tablePath_cons.mpr ⟨hxs j hj, hp⟩⟩ hf hf').2
    rw [(cons.inj this).1]
    exact hj

/-- An entry is as before, or gone. -/
theorem cleanup_entry (hr' : r' ∈ live) (hp : TablePath 256 p) (i : Fin 512) :
    entryAt mem' r' p i = entryAt m.mem r' p i ∨
    hasFlag (entryAt mem' r' p i) ptePresent = false ∧ (p.length = 3 → entryAt mem' r' p i = 0#64) := by
  by_cases hrd : r' = d
  · subst hrd
    cases p with
    | nil =>
      by_cases hmem : i ∈ xs
      · exact .inr ⟨hself i hmem, nofun⟩
      · exact .inl (hother i hmem)
    | cons j q =>
      obtain ⟨hj, hlen⟩ := tablePath_cons.mp hp
      rcases cleanup_dst h hd hxs hself hother hoff hj hlen with ⟨-, hnone⟩ | ⟨-, -, hent⟩
      · rw [entryAt_none hnone]
        exact .inr ⟨hasFlag_zero _, fun _ => rfl⟩
      · exact .inl (hent i)
  · exact .inl ((cleanup_other h hd hxs hoff hr' hrd hp).2 i)

/-- The mappings that are left were there before. -/
theorem cleanup_maps (hr' : r' ∈ live) (hm : Maps mem' r' p j f) :
    Maps m.mem r' p j f ∧ entryAt mem' r' p j = entryAt m.mem r' p j ∧ (r' = d → ∀ i q, p = i :: q → i ∉ xs) := by
  obtain ⟨hp, hpres, hframe⟩ := hm
  by_cases hrd : r' = d
  · subst hrd
    obtain ⟨i, q, rfl⟩ := exists_cons_of_length_eq_add_one hp.2
    obtain ⟨hi, hlen⟩ := leafPath_cons.mp hp
    rcases cleanup_dst h hd hxs hself hother hoff hi hlen.le with ⟨-, hnone⟩ | ⟨hmem, -, hent⟩
    · rw [entryAt_none hnone] at hpres
      cases hpres
    · rw [hent j] at hpres hframe
      refine ⟨⟨hp, hpres, hframe⟩, hent j, fun _ i' q' hiq => ?_⟩
      rw [← (cons.inj hiq).1]
      exact hmem
  · have hent := (cleanup_other h hd hxs hoff hr' hrd hp.1).2 j
    rw [hent] at hpres hframe
    exact ⟨⟨hp, hpres, hframe⟩, hent, fun hc => absurd hc hrd⟩

/-- The tables that are left were there before, and none of them is freed. -/
theorem cleanup_tables (hr' : r' ∈ live) (hp : TablePath 256 p) (hf : tableAt mem' r' p = some f) :
    tableAt m.mem r' p = some f ∧ f ∉ xs.flatMap (freedFor m.mem 2 d) := by
  have key : tableAt m.mem r' p = some f ∧ (r' = d → ∀ i q, p = i :: q → i ∉ xs) := by
    by_cases hrd : r' = d
    · subst hrd
      cases p with
      | nil => exact ⟨hf, fun _ _ _ hc => absurd hc.symm (cons_ne_nil _ _)⟩
      | cons i q =>
        obtain ⟨hi, hlen⟩ := tablePath_cons.mp hp
        rcases cleanup_dst h hd hxs hself hother hoff hi hlen with ⟨-, hnone⟩ | ⟨hmem, htab, -⟩
        · rw [hnone] at hf
          cases hf
        · refine ⟨htab.symm.trans hf, fun _ i' q' hiq => ?_⟩
          rw [← (cons.inj hiq).1]
          exact hmem
    · exact ⟨(cleanup_other h hd hxs hoff hr' hrd hp).1.symm.trans hf, fun hc => absurd hc hrd⟩
  refine ⟨key.1, fun hfree => ?_⟩
  obtain ⟨i, hi, q, hq, hqf⟩ := (mem_freed f).mp hfree
  obtain ⟨hrd, hpq⟩ := h.tables.distinct _ _ _ _ _ ⟨hr', hp⟩ ⟨hd, tablePath_cons.mpr ⟨hxs i hi, hq⟩⟩ key.1 hqf
  exact key.2 hrd i q hpq hi

end CloneAux

/-- The cleanup keeps the invariant, and the other address spaces as they are. -/
theorem cloneCleanup_spaces (hnodup : xs.Nodup) :
    ∃ m', (cloneCleanup d xs).run m = ((), m') ∧ Spaces p0 live m' ∧
      (∀ r' ∈ live, r' ≠ d → ∀ p i, TablePath 256 p → entryAt m'.mem r' p i = entryAt m.mem r' p i) ∧
      (∀ p j f, Maps m'.mem d p j f → Maps m.mem d p j f ∧ ∀ i q, p = i :: q → i ∉ xs) ∧
      (∀ f, ¬ IsTable live m.mem f → m'.mem f = m.mem f) ∧ ∀ f, Outside d m' f ↔ Outside d m f := by
  obtain ⟨mem', hrun, hself, hother, hoff⟩ := cloneCleanup_run h hd hxs hnodup
  have htabs := fun {r' : Nat} (hr' : r' ∈ live) {p : List (Fin 512)} (hp : TablePath 256 p) {f : Nat} =>
    cleanup_tables h hd hxs hself hother hoff hr' hp (f := f)
  have hmaps := fun {r' : Nat} (hr' : r' ∈ live) {p : List (Fin 512)} {j : Fin 512} {f : Nat} =>
    cleanup_maps h hd hxs hself hother hoff hr' (p := p) (j := j) (f := f)
  have htable : ∀ f ∈ xs.flatMap (freedFor m.mem 2 d), IsTable live m.mem f := by
    intro f hf
    obtain ⟨i, hi, p, hp, hpf⟩ := (mem_freed f).mp hf
    exact ⟨d, hd, i :: p, tablePath_cons.mpr ⟨hxs i hi, hp⟩, hpf⟩
  have hdata : ∀ f, ¬ IsTable live m.mem f → mem' f = m.mem f := by
    intro f hf
    refine hoff f ?_ fun i hi p hp hpf => hf ⟨d, hd, i :: p, tablePath_cons.mpr ⟨hxs i hi, hp⟩, hpf⟩
    rintro rfl
    exact hf ⟨f, hd, [], .nil 256, rfl⟩
  obtain ⟨hinit, htotal, hused⟩ := Pmm.dropAll_spec h.pmmInit (xs.flatMap (freedFor m.mem 2 d)) (by
    intro f hf
    have hown := (h.owned f (htable f hf)).1
    exact ⟨hown.1, h.total ▸ hown.2.1⟩)
  have hdrift := Pmm.drift_dropAll m.pmm (xs.flatMap (freedFor m.mem 2 d))
  refine ⟨_, hrun, ?_, ?_, ?_, hdata, fun f => ⟨fun hout => ?_, fun hout => ⟨(hused f).mpr ⟨hout.1, fun hf => ?_⟩, fun p hp hf => ?_⟩⟩⟩
  · generalize xs.flatMap (freedFor m.mem 2 d) = fs at *
    have hsteady : Steady m { m with pmm := m.pmm.dropAll fs, mem := mem' } :=
      ⟨rfl, hinit.trans h.pmmInit.symm, htotal, hdrift, rfl, hdata _ h.kernel_not_table⟩
    refine h.of_maps (h.toGround.steady hsteady fun f hu => (hused f).mpr ⟨h.base f hu, fun hf => ?_⟩) ?_ ?_ ?_ ?_ ?_ id ?_ ?_
    · have := (h.owned f (htable f hf)).1.2.2
      rw [hu] at this
      cases this
    · exact tables_of_sub h.tables fun r' hr' p f hp hf => ⟨hr', (htabs hr' hp hf).1⟩
    · rintro f ⟨r', hr', p, hp, hf⟩
      obtain ⟨hold, hnot⟩ := htabs hr' hp hf
      obtain ⟨hown, hu⟩ := h.owned f ⟨r', hr', p, hp, hold⟩
      exact ⟨hown, (hused f).mpr ⟨hu, hnot⟩⟩
    · intro r' hr' p i hp
      rcases cleanup_entry h hd hxs hself hother hoff hr' hp.of_append i with heq | ⟨hno, -⟩
      · rw [show entryAt _ r' p i = _ from heq]
        exact h.small r' hr' p i hp
      · rw [show hasFlag (entryAt _ r' p i) ptePresent = _ from hno]
        exact nofun
    · intro r' hr' p i hp
      rcases cleanup_entry h hd hxs hself hother hoff hr' hp.1 i with heq | ⟨-, hzero⟩
      · rw [show entryAt _ r' p i = _ from heq]
        exact h.leaf r' hr' p i hp
      · rw [show entryAt _ r' p i = _ from hzero hp.2]
        exact LeafOk.zero
    · intro f hold _
      obtain ⟨-, hu, hnt⟩ := h.mapped f hold
      refine ⟨(hused f).mpr ⟨hu, fun hf => hnt (htable f hf)⟩, ?_⟩
      rintro ⟨r', hr', p, hp, hf⟩
      exact hnt ⟨r', hr', p, hp, (htabs hr' hp hf).1⟩
    · intro r' hr' p i f hm
      exact ⟨hr', (hmaps hr' hm).1⟩
    · intro r' hr' p i f hm hw
      have heq := (hmaps hr' hm).2.1
      rw [show entryAt _ r' p i = _ from heq] at hw
      exact ⟨hw, fun _ _ _ horig => horig⟩
  · intro r' hr' hrd p i hp
    exact (cleanup_other h hd hxs hoff hr' hrd hp).2 i
  · intro p j f hm
    obtain ⟨hm0, -, hout⟩ := hmaps hd hm
    exact ⟨hm0, hout rfl⟩
  · obtain ⟨hu, hnot⟩ := (hused f).mp hout.1
    refine ⟨hu, fun p hp hf => ?_⟩
    cases p with
    | nil => exact hout.2 [] hp hf
    | cons i p =>
      obtain ⟨hi, hlen⟩ := tablePath_cons.mp hp
      rcases cleanup_dst h hd hxs hself hother hoff hi hlen with ⟨hmem, -⟩ | ⟨-, htab, -⟩
      · exact hnot ((mem_freed f).mpr ⟨i, hmem, p, hlen, hf⟩)
      · exact hout.2 _ hp (htab.trans hf)
  · obtain ⟨i, hi, p, hp, hpf⟩ := (mem_freed f).mp hf
    exact hout.2 _ (tablePath_cons.mpr ⟨hxs i hi, hp⟩) hpf
  · exact hout.2 p hp (htabs hd hp hf).1

end Cleanup

/-! ## The whole call -/

/-- What `vmm_clone_address_space` does to the address spaces: only leaves of the source change, and the destination maps what the
source maps, or nothing. The entries `xs` of `left` are those that there are frames for. -/
structure Cloned (p0 : Pmm) (live : List Nat) (r d : Nat) (st : VmmStatus) (m m' : Vmm) : Prop where
  spaces : Spaces p0 live m'
  leaf : ∀ r' ∈ live, r' ≠ d → ∀ p i, LeafPath p → entryAt m'.mem r' p i = entryAt m.mem r' p i ∨
    r' = r ∧ entryAt m'.mem r' p i = srcLeaf (entryAt m.mem r' p i)
  copy : st = .ok → ∀ p j f, Maps m'.mem d p j f ↔ Maps m.mem r p j f
  empty : st ≠ .ok → ∀ p j f, ¬ Maps m'.mem d p j f
  left : ∃ xs ys, userEntries = xs ++ ys ∧ (st = .ok ↔ ys = []) ∧ tableCount m.mem 2 r xs ≤ m.pmm.freeCount ∧
    (∀ i zs, ys = i :: zs → m.pmm.freeCount < tableCount m.mem 2 r (xs ++ [i])) ∧
    ∀ f, Outside d m' f ↔ Outside d m f ∨
      ∃ i p, (i ∈ xs ∧ hasFlag (m.mem r i) ptePresent = true) ∧ p.length ≤ 2 ∧ tableAt m.mem d (i :: p) = some f
  src : st = .ok → ∀ p i, LeafPath p → entryAt m'.mem r p i = srcLeaf (entryAt m.mem r p i)
  data : ∀ f, ¬ m.pmm.Free f → ¬ IsTable live m.mem f → m'.mem f = m.mem f

/-- `vmm_clone_address_space` into an address space that maps nothing. -/
theorem cloneSpace_spaces (h : Spaces p0 live m) (hr : r ∈ live) (hd : d ∈ live) (hne : r ≠ d)
    (hempty : ∀ p i f, ¬ Maps m.mem d p i f) :
    ∃ st m', (vmmCloneAddressSpace (.ofRoot r) (.ofRoot d)).run m = (st, m') ∧ Cloned p0 live r d st m m' := by
  have hs := h.source hr hd hne
  obtain ⟨st, m', xs, ys, ts, m2, hrun, hend⟩ := hs.clone_run h.init (AddressSpace.ofRoot_pml4 r) (AddressSpace.ofRoot_pml4 d)
  obtain ⟨hb, -, henough, hshort⟩ := hend.copied hs.order_side
  have hxs : ∀ i ∈ xs, UserEntry i := fun i hi => (mem_userEntries i).mp (hend.split ▸ mem_append_left _ hi)
  have h2 := hb.spaces h hr hd hne hempty
  refine ⟨st, m', hrun, ?_⟩
  rcases hend.result with ⟨rfl, rfl, rfl⟩ | ⟨rfl, hys, hclean⟩
  · obtain rfl : userEntries = xs := hend.split.trans (append_nil xs)
    refine ⟨h2, fun r' hr' hrd p i hp => ?_, fun _ p j f => ⟨fun hm => ?_, fun hm => ?_⟩,
      fun hst => absurd rfl hst, ⟨userEntries, [], hend.split, iff_of_true rfl rfl, henough, hshort,
        fun f => hb.outside_iff h hr hd hne hxs f⟩, fun _ p i hp => ?_, fun f hfree hnt => hb.mem_eq hr hd hfree hnt⟩
    · exact (copied_entryAt h hr hd hb hr' hrd hp.1 i).imp id fun hc => ⟨hc.1.1, hc.2⟩
    · rcases copied_maps h hr hd hne hb hempty hd hm with ⟨hc, -⟩ | ⟨-, hm0, -⟩
      · exact absurd rfl hc
      · exact hm0
    · obtain ⟨hp, hpres, hframe⟩ := hm
      obtain ⟨i, q, rfl⟩ := exists_cons_of_length_eq_add_one hp.2
      obtain ⟨hi, hlen⟩ := leafPath_cons.mp hp
      have hleaf := hb.leaf hs ⟨(mem_userEntries i).mpr hi, (present_of_entryAt hpres).1⟩ hi hlen j
      refine ⟨hp, ?_⟩
      rw [hleaf, cloneLeaf_present, cloneLeaf_of_present hpres, srcLeaf_frame]
      exact ⟨hpres, hframe⟩
    · obtain ⟨j, q, rfl⟩ := exists_cons_of_length_eq_add_one hp.2
      cases hpres : hasFlag (m.mem r j) ptePresent with
      | true => exact copied_src h hr hd hne hb hp ⟨(mem_userEntries j).mpr (leafPath_cons.mp hp).1, hpres⟩ i
      | false =>
        have hnone := tableAt_none (childOf_absent hpres) q
        rw [entryAt_none hnone, entryAt_none ((copied_tableAt h hd hb hr hne hp.1).trans hnone), srcLeaf_zero]
  · have hnodup : xs.Nodup := (nodup_append.mp (hend.split ▸ nodup_userEntries)).1
    obtain ⟨m3, hclean', h3, hother, hdst, hdata, hout⟩ := cloneCleanup_spaces h2 hd hxs hnodup
    obtain rfl : m3 = m' := (Prod.mk.inj (hclean'.symm.trans hclean)).2
    refine ⟨h3, fun r' hr' hrd p i hp => ?_, (nomatch ·), fun _ p j f hm => ?_, ⟨xs, ys, hend.split,
      ⟨(nomatch ·), fun he => absurd he hys⟩, henough, hshort, fun f => ?_⟩, (nomatch ·), fun f hfree hnt => ?_⟩
    · rw [hother r' hr' hrd p i hp.1]
      exact (copied_entryAt h hr hd hb hr' hrd hp.1 i).imp id fun hc => ⟨hc.1.1, hc.2⟩
    · obtain ⟨hm2, hnotIn⟩ := hdst p j f hm
      rcases copied_maps h hr hd hne hb hempty hd hm2 with ⟨hc, -⟩ | ⟨-, -, i, q, hi, hpq⟩
      · exact hc rfl
      · exact hnotIn i q hpq hi.1
    · rw [hout f, hb.outside_iff h hr hd hne hxs f]
      rfl
    · rw [hdata f, hb.mem_eq hr hd hfree hnt]
      rintro ⟨r', hr', p, hp, hf⟩
      rcases copied_table_cases h hr hd hne hb hr' hp hf with hold | ⟨-, hfree', -⟩
      · exact hnt ⟨r', hr', p, hp, hold⟩
      · exact hfree hfree'

/-- A clone fails when there are fewer free frames than tables in the source. -/
theorem Cloned.short {st : VmmStatus} {m' : Vmm} (h : Cloned p0 live r d st m m') :
    st ≠ .ok ↔ m.pmm.freeCount < tableCount m.mem 2 r userEntries := by
  obtain ⟨xs, ys, hall, hst, henough, hshort, -⟩ := h.left
  rw [hall]
  cases ys with
  | nil =>
    rw [append_nil]
    exact ⟨fun hne => absurd (hst.mpr rfl) hne, fun hlt => absurd hlt (Nat.not_lt.mpr henough)⟩
  | cons i ys =>
    refine ⟨fun _ => ?_, fun _ hok => cons_ne_nil i ys (hst.mp hok)⟩
    have hlt := hshort i ys rfl
    rw [tableCount_append, tableCount_cons] at hlt ⊢
    have : tableCount m.mem 2 r [] = 0 := rfl
    omega

end TsOs
