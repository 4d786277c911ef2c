import TsOs.Lemmas.Pmm

/-!
# The account of the frames

Every call of the physical memory manager takes free frames, releases used ones, or does nothing; so the count of free frames stays
right, and a frame is handed out again only after it was released.
-/

namespace TsOs

open PmmAux List

/-- The calls that change the bitmap. -/
inductive PmmOp where
  | allocFrame
  | allocFrames (count : Nat)
  | freeFrame (addr : Nat)
  | markUsed (addr : Nat)
  | markFree (addr : Nat)
  deriving DecidableEq, Repr

/-- The state after a call. -/
def PmmOp.apply (p : Pmm) : PmmOp → Pmm
  | .allocFrame => (pmmAllocFrame p).1
  | .allocFrames count => (pmmAllocFrames p count).1
  | .freeFrame addr => (pmmFreeFrame p addr).1
  | .markUsed addr => pmmMarkUsed p addr
  | .markFree addr => pmmMarkFree p addr

/-- The frames that a call returns: those from the address on, unless it is 0. -/
def PmmOp.returned (p : Pmm) : PmmOp → List Nat
  | .allocFrame => if (pmmAllocFrame p).2 = 0 then [] else [(pmmAllocFrame p).2 / 4096]
  | .allocFrames count => if (pmmAllocFrames p count).2 = 0 then [] else List.range' ((pmmAllocFrames p count).2 / 4096) count
  | _ => []

/-- The state after a sequence of calls. -/
def runPmm (p : Pmm) (ops : List PmmOp) : Pmm := ops.foldl PmmOp.apply p

/-- The `count` frames from `r` on can all be returned. -/
def Pmm.FreeRun (p : Pmm) (r count : Nat) : Prop := ∀ f ∈ List.range' r count, p.Free f

/-- The call frees frame `f`, which was used. -/
def PmmOp.Frees (p : Pmm) (op : PmmOp) (f : Nat) : Prop :=
  (op = .freeFrame (f * 4096) ∨ op = .markFree (f * 4096)) ∧ p.isUsed f = true ∧ (op.apply p).isUsed f = false

namespace PmmRunAux

variable {p : Pmm}

/-- The state after the frames `fs` were taken. -/
def takeAll (p : Pmm) (fs : List Nat) : Pmm := fs.foldl Pmm.take p

theorem takeAll_spec (fs : List Nat) (hnodup : fs.Nodup) (hfree : ∀ f ∈ fs, p.Free f) :
    (takeAll p fs).totalFrames = p.totalFrames ∧ (takeAll p fs).drift = p.drift ∧
    ∀ n, (takeAll p fs).isUsed n = true ↔ n ∈ fs ∨ p.isUsed n = true := by
  induction fs generalizing p with
  | nil => exact ⟨rfl, rfl, fun n => by simp [takeAll]⟩
  | cons f fs ih =>
    obtain ⟨hnot, hnodup'⟩ := nodup_cons.mp hnodup
    have hf := hfree f mem_cons_self
    have hrest : ∀ g ∈ fs, (p.take f).Free g := by
      intro g hg
      obtain ⟨h0, hlt, hclear⟩ := hfree g (mem_cons_of_mem f hg)
      have hne : g ≠ f := fun h => hnot (h ▸ hg)
      exact ⟨h0, hlt, by rw [Pmm.isUsed_take, decide_eq_false hne, Bool.false_or, hclear]⟩
    obtain ⟨htotal, hdrift, hused⟩ := ih hnodup' hrest
    refine ⟨htotal, hdrift.trans (Pmm.drift_take hf.2.1 hf.2.2), fun n => ?_⟩
    rw [show takeAll p (f :: fs) = takeAll (p.take f) fs from rfl, hused n, Pmm.isUsed_take, Bool.or_eq_true,
      decide_eq_true_eq, mem_cons]
    tauto

/-- The search, when the `len` frames before `s` are clear and no run of `count` clear frames starts before them: it returns the
start of the lowest run, if there is one. -/
theorem findRun_spec {count start len s k : Nat} (hstart : len ≠ 0 → start + len = s) (hlt : len < count) (hpos : len < s)
    (hclear : ∀ f < s, s ≤ f + len → p.isUsed f = false)
    (hlow : ∀ r, 0 < r → r + len < s → ∃ f ∈ List.range' r count, p.isUsed f = true) :
    (findRun p count (List.range' s k) start len = none ∧
      ∀ r, 0 < r → r + count ≤ s + k → ∃ f ∈ List.range' r count, p.isUsed f = true) ∨
    ∃ r, findRun p count (List.range' s k) start len = some r ∧ 0 < r ∧ r + count ≤ s + k ∧
      (∀ f ∈ List.range' r count, p.isUsed f = false) ∧
      ∀ r' < r, 0 < r' → ∃ f ∈ List.range' r' count, p.isUsed f = true := by
  induction k generalizing s start len with
  | zero => exact .inl ⟨rfl, fun r h0 hle => hlow r h0 (by omega)⟩
  | succ k ih =>
    rw [range'_succ, findRun, ← Nat.add_assoc, Nat.add_right_comm]
    cases hu : p.isUsed s with
    | true =>
      refine ih (fun h => absurd rfl h) (by omega) (by omega) (fun f h1 h2 => absurd h2 (by omega)) (fun r h0 hr => ?_)
      -- a run that starts in the frames passed reaches past this one
      by_cases hbefore : r + len < s
      · exact hlow r h0 hbefore
      · exact ⟨s, mem_range'_1.mpr ⟨by omega, by omega⟩, hu⟩
    | false =>
      have hrun : ∀ f < s + 1, s + 1 ≤ f + (len + 1) → p.isUsed f = false := by
        intro f h1 h2
        rcases Nat.lt_succ_iff_lt_or_eq.mp h1 with h1 | h1
        · exact hclear f h1 (by omega)
        · rw [h1, hu]
      have hend : (if len = 0 then s else start) + len = s := by
        split
        · omega
        · next hl => exact hstart hl
      by_cases hc : len + 1 = count
      · rw [if_pos hc]
        refine .inr ⟨_, rfl, by omega, by omega, fun f hf => ?_, fun r h1 h0 => hlow r h0 (by omega)⟩
        rw [mem_range'_1] at hf
        exact hrun f (by omega) (by omega)
      · rw [if_neg hc]
        exact ih (fun _ => by omega) (by omega) (by omega) hrun (fun r h0 hr => hlow r h0 (by omega))

/-- What a call can do: take free frames, the returned ones among them, or release one used frame. -/
inductive Effect (p : Pmm) (op : PmmOp) : Prop where
  | takes (fs : List Nat) (nodup : fs.Nodup) (free : ∀ f ∈ fs, p.Free f) (state : op.apply p = takeAll p fs)
      (returned : op.returned p = [] ∨ op.returned p = fs)
  | releases (f : Nat) (pos : 0 < f) (lt : f < p.totalFrames) (used : p.isUsed f = true) (state : op.apply p = p.release f)
      (call : op = .freeFrame (f * 4096) ∨ op = .markFree (f * 4096)) (returned : op.returned p = [])

theorem Effect.nothing {op : PmmOp} (hstate : op.apply p = p) (hret : op.returned p = []) : Effect p op :=
  .takes [] nodup_nil (fun _ hf => absurd hf not_mem_nil) hstate (.inl hret)

/-- A run of free frames is no longer than the number of clear bits. -/
theorem FreeRun.le_clearCount {r count : Nat} (h : p.FreeRun r count) : count ≤ p.clearCount := by
  have hsub : range' r count ⊆ (range p.totalFrames).filter (fun f => !p.isUsed f) := by
    intro f hf
    obtain ⟨_, hlt, hclear⟩ := h f hf
    simp [hlt, hclear]
  have := (nodup_range' ..).length_le_of_subset hsub
  rwa [length_range', ← countP_eq_length_filter] at this

/-- `pmm_alloc_frames` takes the lowest run of free frames; it returns 0 when there is none, when it is asked for no frame, and
when the count of free frames is too small. -/
theorem pmmAllocFrames_spec (p : Pmm) (count : Nat) :
    (pmmAllocFrames p count = (p, 0) ∧ (p.initialized = true → 0 < count →
      p.freeFrames.toNat < count ∨ ∀ r, ¬ p.FreeRun r count)) ∨
    ∃ r, 0 < r ∧ p.FreeRun r count ∧ (∀ r' < r, ¬ p.FreeRun r' count) ∧
      pmmAllocFrames p count = (takeAll p (List.range' r count), r * 4096) := by
  have hone : ∀ f, p.FreeRun f 1 ↔ p.Free f := fun f => by simp [Pmm.FreeRun]
  rw [pmmAllocFrames]
  by_cases hc : (!p.initialized || count == 0) = true
  · refine .inl ⟨if_pos hc, fun hi h0 => ?_⟩
    rw [hi, Bool.not_true, Bool.false_or, beq_iff_eq] at hc
    omega
  rw [if_neg hc]
  rw [Bool.or_eq_true, beq_iff_eq, not_or] at hc
  by_cases h1 : count = 1
  · subst h1
    simp only [if_true, hone]
    rcases pmmAllocFrame_spec p with ⟨h, hnone⟩ | ⟨f, hf, hlow, _, h⟩
    · exact .inl ⟨h, fun hi _ => .inr (hnone hi)⟩
    · exact .inr ⟨f, hf.1, hf, hlow, h⟩
  rw [if_neg h1]
  by_cases hfew : count > p.freeFrames.toNat
  · exact .inl ⟨if_pos hfew, fun _ _ => .inl hfew⟩
  rw [if_neg hfew]
  -- a run of free frames starts after frame 0 and ends before the total
  have hrange : ∀ r, p.FreeRun r count → 0 < r ∧ r + count ≤ 1 + (p.totalFrames - 1) := by
    intro r hr
    have hfirst := hr r (mem_range'_1.mpr ⟨by omega, by omega⟩)
    have hlast := hr (r + count - 1) (mem_range'_1.mpr ⟨by omega, by omega⟩)
    have := hfirst.1
    have := hlast.2.1
    omega
  have hused : ∀ r, (∃ f ∈ range' r count, p.isUsed f = true) → ¬ p.FreeRun r count := by
    rintro r ⟨f, hf, hu⟩ hr
    have := (hr f hf).2.2
    rw [hu] at this
    exact absurd this (by decide)
  rcases @findRun_spec p count 0 0 1 (p.totalFrames - 1) (fun h => absurd rfl h) (Nat.pos_of_ne_zero hc.2)
    Nat.one_pos (fun f h2 h3 => absurd h3 (by omega)) (fun r h0 hr => absurd hr (by omega))
    with ⟨hrun, hnone⟩ | ⟨r, hrun, hr, hle, hclear, hlow⟩
  · rw [hrun]
    exact .inl ⟨rfl, fun _ _ => .inr (fun r hr => hused r (hnone r (hrange r hr).1 (hrange r hr).2) hr)⟩
  · rw [hrun]
    refine .inr ⟨r, hr, fun f hf => ⟨?_, ?_, hclear f hf⟩, fun r' hr' hfree => ?_, rfl⟩
    · exact Nat.lt_of_lt_of_le hr (mem_range'_1.mp hf).1
    · have := (mem_range'_1.mp hf).2
      omega
    · exact hused r' (hlow r' hr' (hrange r' hfree).1) hfree

/-- A search that returns the address of the lowest frame with a property, or 0 when no frame has it. -/
theorem lowest_iff {C : Nat → Prop} {a : Nat}
    (h : (a = 0 ∧ ∀ r, ¬ C r) ∨ ∃ r, 0 < r ∧ C r ∧ (∀ r' < r, ¬ C r') ∧ a = r * 4096) :
    (a = 0 ↔ ∀ r, ¬ C r) ∧ ∀ r, 0 < r → (a = r * 4096 ↔ C r ∧ ∀ r' < r, ¬ C r') := by
  rcases h with ⟨ha, hnone⟩ | ⟨r, hr, hC, hlow, ha⟩
  · refine ⟨⟨fun _ => hnone, fun _ => ha⟩, fun r hr => ⟨fun h => ?_, fun h => absurd h.1 (hnone r)⟩⟩
    omega
  · refine ⟨⟨fun h => ?_, fun h => absurd hC (h r)⟩, fun q _ => ⟨fun h => ?_, fun h => ?_⟩⟩
    · omega
    · obtain rfl : q = r := by omega
      exact ⟨hC, hlow⟩
    · rcases Nat.lt_trichotomy q r with hlt | heq | hgt
      · exact absurd h.1 (hlow q hlt)
      · rw [heq, ha]
      · exact absurd hC (h.2 r hgt)

/-- The effect of each call, while frame 0 is used. -/
theorem effect (h0 : p.isUsed 0 = true) (op : PmmOp) : Effect p op := by
  cases op with
  | allocFrame =>
    rcases pmmAllocFrame_spec p with ⟨h, _⟩ | ⟨f, hf, _, _, h⟩
    · exact .nothing (by simp only [PmmOp.apply, h]) (by simp only [PmmOp.returned, h, if_true])
    · refine .takes [f] (pairwise_singleton _ f) (fun g hg => by rwa [mem_singleton.mp hg]) ?_ (.inr ?_)
      · simp only [PmmOp.apply, h]
        rfl
      have hpos := hf.1
      have hne : ¬ f * 4096 = 0 := by omega
      have hdiv : f * 4096 / 4096 = f := by omega
      simp only [PmmOp.returned, h, if_neg hne, hdiv]
  | allocFrames count =>
    rcases pmmAllocFrames_spec p count with ⟨h, _⟩ | ⟨r, hr, hfree, _, h⟩
    · exact .nothing (by simp only [PmmOp.apply, h]) (by simp only [PmmOp.returned, h, if_true])
    · refine .takes _ (nodup_range' ..) hfree (by simp only [PmmOp.apply, h]) (.inr ?_)
      have hne : ¬ r * 4096 = 0 := by omega
      have hdiv : r * 4096 / 4096 = r := by omega
      simp only [PmmOp.returned, h, if_neg hne, hdiv]
  | freeFrame addr =>
    by_cases hal : addr % 4096 = 0
    · obtain ⟨f, rfl⟩ : ∃ f, addr = f * 4096 := ⟨addr / 4096, by omega⟩
      have hstate : PmmOp.apply p (.freeFrame (f * 4096)) = p.drop f := pmmFreeFrame_eq p f
      rw [Pmm.drop] at hstate
      split at hstate
      · next h => exact .releases f h.2.1 h.2.2.1 h.2.2.2 hstate (.inl rfl) rfl
      · exact .nothing hstate rfl
    · refine .nothing ?_ rfl
      cases hi : p.initialized <;> simp [PmmOp.apply, pmmFreeFrame, hi, hal]
  | markUsed addr =>
    by_cases hal : addr % 4096 = 0
    · by_cases hlt : addr / 4096 ≥ p.totalFrames
      · exact .nothing (by simp [PmmOp.apply, pmmMarkUsed, hal, hlt]) rfl
      · cases hu : p.isUsed (addr / 4096) with
        | true => exact .nothing (by simp [PmmOp.apply, pmmMarkUsed, hal, hlt, hu]) rfl
        | false =>
          have hne : addr / 4096 ≠ 0 := fun h => by rw [h, h0] at hu; exact absurd hu (by decide)
          refine .takes [addr / 4096] (pairwise_singleton _ _) (fun g hg => ?_) ?_ (.inl rfl)
          · rw [mem_singleton.mp hg]
            exact ⟨by omega, by omega, hu⟩
          · simp only [PmmOp.apply, pmmMarkUsed, hal, hlt, hu, ne_eq, not_true_eq_false, if_false, Bool.not_false, if_true]
            rfl
    · exact .nothing (by simp [PmmOp.apply, pmmMarkUsed, hal]) rfl
  | markFree addr =>
    by_cases hal : addr % 4096 = 0
    · obtain ⟨f, rfl⟩ : ∃ f, addr = f * 4096 := ⟨addr / 4096, by omega⟩
      have hdiv : f * 4096 / 4096 = f := by omega
      by_cases hf0 : f = 0
      · exact .nothing (by simp [PmmOp.apply, pmmMarkFree, hf0]) rfl
      · by_cases hlt : f ≥ p.totalFrames
        · exact .nothing (by simp [PmmOp.apply, pmmMarkFree, hlt]) rfl
        · cases hu : p.isUsed f with
          | false => exact .nothing (by simp [PmmOp.apply, pmmMarkFree, hu]) rfl
          | true =>
            refine .releases f (by omega) (by omega) hu ?_ (.inr rfl) rfl
            simp only [PmmOp.apply, pmmMarkFree, hal, hdiv, hf0, hlt, hu, ne_eq, not_true_eq_false, if_false, if_true]
            rfl
    · exact .nothing (by simp [PmmOp.apply, pmmMarkFree, hal]) rfl

/-! ## Runs -/

/-- The state of which the account is right. -/
structure Exact (p : Pmm) : Prop where
  drift : p.drift = 0#64
  zero : p.isUsed 0 = true

/-- A call keeps the account, the total and the bits past it. -/
theorem Exact.step (h : Exact p) (op : PmmOp) :
    Exact (op.apply p) ∧ (op.apply p).totalFrames = p.totalFrames ∧
    ∀ n ≥ p.totalFrames, (op.apply p).isUsed n = p.isUsed n := by
  cases effect h.zero op with
  | takes fs hnodup hfree hstate _ =>
    obtain ⟨htotal, hdrift, hused⟩ := takeAll_spec fs hnodup hfree
    rw [hstate]
    refine ⟨⟨hdrift.trans h.drift, (hused 0).mpr (.inr h.zero)⟩, htotal, fun n hn => ?_⟩
    have hnot : n ∉ fs := fun hmem => absurd (hfree n hmem).2.1 (by omega)
    rw [Bool.eq_iff_iff, hused n]
    exact ⟨fun hor => hor.resolve_left hnot, .inr⟩
  | releases f hpos hlt hu hstate _ _ =>
    rw [hstate]
    refine ⟨⟨(Pmm.drift_release hlt hu).trans h.drift, ?_⟩, rfl, fun n hn => ?_⟩
    · rw [Pmm.isUsed_release, h.zero, decide_eq_false (by omega), Bool.not_false, Bool.true_and]
    · rw [Pmm.isUsed_release, decide_eq_false (by omega), Bool.not_false, Bool.true_and]

theorem Exact.run (h : Exact p) (ops : List PmmOp) :
    Exact (runPmm p ops) ∧ (runPmm p ops).totalFrames = p.totalFrames ∧
    ∀ n ≥ p.totalFrames, (runPmm p ops).isUsed n = p.isUsed n := by
  induction ops generalizing p with
  | nil => exact ⟨h, rfl, fun n _ => rfl⟩
  | cons op ops ih =>
    obtain ⟨h1, ht1, hu1⟩ := h.step op
    obtain ⟨h2, ht2, hu2⟩ := ih h1
    exact ⟨h2, ht2.trans ht1, fun n hn => (hu2 n (ht1.symm ▸ hn)).trans (hu1 n hn)⟩

/-- A returned frame is one that was free, and it is used afterwards. -/
theorem returned_spec (h0 : p.isUsed 0 = true) {op : PmmOp} {f : Nat} (hf : f ∈ op.returned p) :
    p.Free f ∧ (op.apply p).isUsed f = true := by
  cases effect h0 op with
  | takes fs hnodup hfree hstate hret =>
    rcases hret with hret | hret
    · rw [hret] at hf
      exact absurd hf not_mem_nil
    · rw [hret] at hf
      refine ⟨hfree f hf, ?_⟩
      rw [hstate]
      exact ((takeAll_spec fs hnodup hfree).2.2 f).mpr (.inl hf)
  | releases _ _ _ _ _ _ hret =>
    rw [hret] at hf
    exact absurd hf not_mem_nil

/-- A used frame stays used unless the call frees it. -/
theorem used_step (h0 : p.isUsed 0 = true) {f : Nat} (hu : p.isUsed f = true) (op : PmmOp) :
    (op.apply p).isUsed f = true ∨ op.Frees p f := by
  cases effect h0 op with
  | takes fs hnodup hfree hstate _ =>
    left
    rw [hstate]
    exact ((takeAll_spec fs hnodup hfree).2.2 f).mpr (.inr hu)
  | releases g _ _ _ hstate hcall _ =>
    by_cases hfg : f = g
    · right
      subst hfg
      refine ⟨hcall, hu, ?_⟩
      rw [hstate, Pmm.isUsed_release, decide_eq_true rfl, Bool.not_true, Bool.false_and]
    · left
      rw [hstate, Pmm.isUsed_release, decide_eq_false hfg, Bool.not_false, Bool.true_and, hu]

/-- When a used frame is clear at the end of a run, some call of the run freed it. -/
theorem freed_between (h : Exact p) {f : Nat} (hu : p.isUsed f = true) (ops : List PmmOp)
    (hclear : (runPmm p ops).isUsed f = false) : ∃ pre op post, ops = pre ++ op :: post ∧ op.Frees (runPmm p pre) f := by
  induction ops generalizing p with
  | nil =>
    rw [runPmm, foldl_nil, hu] at hclear
    exact absurd hclear (by decide)
  | cons op ops ih =>
    rcases used_step h.zero hu op with hu' | hfrees
    · obtain ⟨pre, o, post, rfl, hfrees⟩ := ih (h.step op).1 hu' hclear
      exact ⟨op :: pre, o, post, rfl, hfrees⟩
    · exact ⟨[], op, ops, rfl, hfrees⟩

end PmmRunAux

open PmmRunAux

/-- From a state whose count is right and whose frame 0 is used, whatever calls follow: the count is the number of clear bits below
the total, frame 0 is used and is neither returned nor freed, the bits past the total do not change, and between two calls that
return the same frame a call freed it. -/
theorem pmm_account_run (p : Pmm) (hcount : p.freeFrames.toNat = p.clearCount) (hzero : p.isUsed 0 = true) (ops : List PmmOp) :
    (runPmm p ops).freeFrames.toNat = (runPmm p ops).clearCount ∧ (runPmm p ops).totalFrames = p.totalFrames ∧
    (runPmm p ops).isUsed 0 = true ∧ (∀ n ≥ p.totalFrames, (runPmm p ops).isUsed n = p.isUsed n) ∧
    (∀ pre op post, ops = pre ++ op :: post → 0 ∉ op.returned (runPmm p pre) ∧ ¬ op.Frees (runPmm p pre) 0) ∧
    ∀ pre op mid op' post f, ops = pre ++ op :: (mid ++ op' :: post) → f ∈ op.returned (runPmm p pre) →
      f ∈ op'.returned (runPmm p (pre ++ op :: mid)) →
      ∃ mid₁ free mid₂, mid = mid₁ ++ free :: mid₂ ∧ free.Frees (runPmm p (pre ++ op :: mid₁)) f := by
  have hexact : Exact p := ⟨(Pmm.drift_eq_zero p).mpr hcount, hzero⟩
  obtain ⟨hend, htotal, hbits⟩ := hexact.run ops
  refine ⟨(Pmm.drift_eq_zero _).mp hend.drift, htotal, hend.zero, hbits, ?_, ?_⟩
  · intro pre op post _
    have hpre := (hexact.run pre).1
    refine ⟨fun hmem => ?_, fun hfrees => ?_⟩
    · exact absurd (returned_spec hpre.zero hmem).1.1 (by omega)
    · have := hfrees.2.2
      rw [(hpre.step op).1.zero] at this
      exact absurd this (by decide)
  · intro pre op mid op' post f _ hf hf'
    have hpre := (hexact.run pre).1
    have hused := (returned_spec hpre.zero hf).2
    have hmid := (hpre.step op).1
    have hrun : ∀ l, runPmm p (pre ++ op :: l) = runPmm (op.apply (runPmm p pre)) l := by
      intro l
      rw [runPmm, foldl_append]
      rfl
    rw [hrun] at hf'
    have hclear := (returned_spec (hmid.run mid).1.zero hf').1.2.2
    obtain ⟨mid₁, free, mid₂, hsplit, hfrees⟩ := freed_between hmid hused mid hclear
    exact ⟨mid₁, free, mid₂, hsplit, by rwa [hrun]⟩

/-- Eight frames, of which frame 0 is used. -/
def eightFrames : Pmm := ⟨fun w => if w = 0 then 1#64 else BitVec.allOnes 64, 8, 7#64, true, by decide⟩

theorem pmm_account_run_eight :
    (runPmm eightFrames [.allocFrames 3, .markUsed 0x7000, .freeFrame 0x2000, .allocFrame, .markFree 0]).freeFrames.toNat =
      (runPmm eightFrames [.allocFrames 3, .markUsed 0x7000, .freeFrame 0x2000, .allocFrame, .markFree 0]).clearCount :=
  (pmm_account_run eightFrames (by decide) (by decide) _).1

/-- While the count of free frames is right, `pmm_alloc_frame` returns the lowest free frame and `pmm_alloc_frames` of at least
one frame the start of the lowest run of free frames; each returns 0 exactly when there is none, and then changes nothing. -/
theorem pmmAlloc_lowest (p : Pmm) (hi : p.initialized = true) (hcount : p.freeFrames.toNat = p.clearCount) :
    ((pmmAllocFrame p).2 = 0 ↔ ∀ f, ¬ p.Free f) ∧
    (∀ f, 0 < f → ((pmmAllocFrame p).2 = f * 4096 ↔ p.Free f ∧ ∀ g < f, ¬ p.Free g)) ∧
    ∀ count, 0 < count →
      ((pmmAllocFrames p count).2 = 0 ↔ ∀ r, ¬ p.FreeRun r count) ∧
      (∀ r, 0 < r → ((pmmAllocFrames p count).2 = r * 4096 ↔ p.FreeRun r count ∧ ∀ r' < r, ¬ p.FreeRun r' count)) ∧
      ((pmmAllocFrames p count).2 = 0 → (pmmAllocFrames p count).1 = p) := by
  have hframe : ((pmmAllocFrame p).2 = 0 ↔ ∀ f, ¬ p.Free f) ∧
      ∀ f, 0 < f → ((pmmAllocFrame p).2 = f * 4096 ↔ p.Free f ∧ ∀ g < f, ¬ p.Free g) := by
    refine lowest_iff ?_
    rcases pmmAllocFrame_spec p with ⟨h, hnone⟩ | ⟨f, hf, hlow, _, h⟩
    · exact .inl ⟨by rw [h], hnone hi⟩
    · exact .inr ⟨f, hf.1, hf, hlow, by rw [h]⟩
  refine ⟨hframe.1, hframe.2, fun count h0 => ?_⟩
  rcases pmmAllocFrames_spec p count with ⟨h, hnone⟩ | ⟨r, hr, hfree, hlow, h⟩
  · -- the early exit on the count is right: a run has at least `count` clear bits
    have hnorun : ∀ r, ¬ p.FreeRun r count := by
      rcases hnone hi h0 with hfew | hnorun
      · intro r hr
        have hle := FreeRun.le_clearCount hr
        omega
      · exact hnorun
    obtain ⟨hzero, hlowest⟩ := lowest_iff (.inl ⟨rfl, hnorun⟩)
    rw [h]
    exact ⟨hzero, hlowest, fun _ => rfl⟩
  · obtain ⟨hzero, hlowest⟩ := lowest_iff (.inr ⟨r, hr, hfree, hlow, rfl⟩)
    rw [h]
    exact ⟨hzero, hlowest, fun h => absurd h (by dsimp only; omega)⟩

theorem pmmAlloc_lowest_eight : (pmmAllocFrames eightFrames 7).2 = 1 * 4096 :=
  (((pmmAlloc_lowest eightFrames rfl (by decide)).2.2 7 (by decide)).2.1 1 (by decide)).2
    (by unfold Pmm.FreeRun Pmm.Free; decide)

/-- No frame is asked for: the call returns 0, although every start begins a run of no frames. -/
theorem pmmAllocFrames_zero_eight : (pmmAllocFrames eightFrames 0).2 = 0 ∧ eightFrames.FreeRun 1 0 := by
  unfold Pmm.FreeRun Pmm.Free
  decide

end TsOs
