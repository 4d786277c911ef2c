import TsOs.Lemmas.BcacheSteps

/-!
# The buffer cache under several callers, over whole runs

The references that `bcache_get` returned are good in every interleaving in which no call takes a buffer that another one has in
transit, and not in general.
-/

namespace TsOs

open LinkedList BcacheAux BcacheStepsAux

section Runs

variable {ι : Type} [DecidableEq ι]

/-- A sequence of steps, one after the other. -/
def runSteps (s : BcacheSys ι) : List (BcacheStep ι) → Option (BcacheSys ι)
  | [] => some s
  | a :: steps => (s.step a).bind (fun s => runSteps s steps)

/-- Every step of the run satisfies `P` in the state it is taken in. -/
def EachStep (P : BcacheSys ι → BcacheStep ι → Prop) (s : BcacheSys ι) : List (BcacheStep ι) → Prop
  | [] => True
  | a :: steps => P s a ∧
    match s.step a with
    | some s => EachStep P s steps
    | none => True

/-- A call of `bcache_get` that does not meet another one: no buffer in transit is the one for the sector, or would be chosen for
it when no buffer holds the sector; and the count of references does not wrap. -/
def BcacheStep.Apart (s : BcacheSys ι) : BcacheStep ι → Prop
  | .get _ k =>
    (∀ b, InTransit s b → (s.cache.bufs b).key ≠ k) ∧
    ((∀ b, (s.cache.bufs b).valid = true → (s.cache.bufs b).key ≠ k) →
      ∀ b, InTransit s b → findEvictable s.cache ≠ some (some b)) ∧
    ∀ b, (s.cache.bufs b).key = k → (s.cache.bufs b).refCount + 1 < 2 ^ 32
  | _ => True

omit [DecidableEq ι] in
/-- What a reference is good for: its buffer has its key, at least as many references as are held to it, and data that was read
from the sector or written to it. -/
def RefsGood (s : BcacheSys ι) : Prop :=
  ∀ r ∈ s.held, (s.cache.bufs r.buf).key = r.key ∧
    s.held.countP (fun r' => r'.buf == r.buf) ≤ (s.cache.bufs r.buf).refCount ∧ (r.key, (s.cache.bufs r.buf).data) ∈ s.log

variable {s : BcacheSys ι}

omit [DecidableEq ι] in
theorem SysInv.refsGood (h : SysInv s) : RefsGood s := by
  intro r hr
  obtain ⟨hv, hk⟩ := h.held r hr
  refine ⟨hk, h.count r.buf, ?_⟩
  rw [← hk]
  exact h.data r.buf hv

omit [DecidableEq ι] in
theorem sysInv_start (disk : SectorKey → Sector) : SysInv (sysStart disk : BcacheSys ι) where
  order := by
    obtain ⟨xs, ho, hall, _⟩ := (shaped_init disk).order
    exact ⟨xs, ho, hall⟩
  hashed := by
    refine (shaped_init disk).hashed.congr (fun _ _ => rfl) (fun b => ⟨fun h => h.resolve_right ?_, .inl⟩)
    rintro ⟨i, hi⟩
    cases hi
  unique _ _ _ h := by cases h
  calls _ := trivial
  held _ h := by cases h
  count _ := Nat.zero_le _
  data _ h := by cases h

theorem idle_of_isIdle {pc : CallerPc} (h : pc.isIdle = true) : pc = .idle := by
  cases pc <;> first | rfl | cases h

/-- One step that can be taken and meets the condition. -/
theorem SysInv.step (h : SysInv s) {a : BcacheStep ι} (he : s.Enabled a) (ha : a.Apart s) :
    ∃ s', s.step a = some s' ∧ SysInv s' := by
  cases a with
  | get i k => exact h.getSection (idle_of_isIdle he) ha.1 ha.2.1 ha.2.2
  | put i r => exact h.putSection (idle_of_isIdle he.1) he.2
  | flush i sel =>
    obtain ⟨ht, hf, hok⟩ := flushSection_transit s.cache sel (List.finRange 128)
    have hi := idle_of_isIdle he
    exact ⟨_, rfl, h.goto (by rw [hi]; exact ht) (by rw [hi]; exact hf) (hok _ _)⟩
  | transfer i ok => exact h.transferStep he ok
  | resume i => exact h.resumeStep he
  | store i r x => exact h.storeStep (idle_of_isIdle he.1) he.2 x
  | dirty i r => exact ⟨_, rfl, h.setDirty r.buf true⟩

/-- A run of such steps. -/
theorem SysInv.run {steps : List (BcacheStep ι)} : ∀ {s : BcacheSys ι}, SysInv s → EachStep BcacheSys.Enabled s steps →
    EachStep (fun s a => a.Apart s) s steps → ∃ s', runSteps s steps = some s' ∧ SysInv s' := by
  induction steps with
  | nil => exact fun h _ _ => ⟨_, rfl, h⟩
  | cons a steps ih =>
    intro s h he ha
    obtain ⟨he, hes⟩ := he
    obtain ⟨ha, has⟩ := ha
    obtain ⟨s1, hs1, h1⟩ := h.step he ha
    rw [hs1] at hes has
    obtain ⟨s', hrun, h'⟩ := ih h1 hes has
    exact ⟨s', by rw [runSteps, hs1, Option.bind_some, hrun], h'⟩

/-- In every interleaving in which each call of `bcache_get` stays apart from those under way, every section returns and the
references are good. -/
theorem bcache_refs_good (disk : SectorKey → Sector) (steps : List (BcacheStep ι))
    (he : EachStep BcacheSys.Enabled (sysStart disk) steps) (ha : EachStep (fun s a => a.Apart s) (sysStart disk) steps) :
    ∃ s, runSteps (sysStart disk) steps = some s ∧ RefsGood s := by
  obtain ⟨s, hrun, h⟩ := (sysInv_start disk).run he ha
  exact ⟨s, hrun, h.refsGood⟩

end Runs

/-! ## Runs of two callers -/

instance decidableInTransit (s : BcacheSys (Fin 2)) (b : BufPtr) : Decidable (InTransit s b) :=
  inferInstanceAs (Decidable (∃ i, (s.pc i).transit = some b))

instance decidableApart (s : BcacheSys (Fin 2)) (a : BcacheStep (Fin 2)) : Decidable (a.Apart s) := by
  cases a <;> unfold BcacheStep.Apart <;> infer_instance

instance decidableEnabled (s : BcacheSys (Fin 2)) (a : BcacheStep (Fin 2)) : Decidable (s.Enabled a) := by
  cases a <;> unfold BcacheSys.Enabled <;> infer_instance

instance decidableEachStep (P : BcacheSys (Fin 2) → BcacheStep (Fin 2) → Prop) [∀ s a, Decidable (P s a)] :
    (s : BcacheSys (Fin 2)) → (steps : List (BcacheStep (Fin 2))) → Decidable (EachStep P s steps)
  | _, [] => .isTrue trivial
  | s, a :: steps =>
    @instDecidableAnd (P s a) _ _ (match s.step a with
      | some s => decidableEachStep P s steps
      | none => .isTrue trivial)

/-- Two callers read two sectors at the same time; one read fails, and the other sector is modified and put back. -/
def twoReads : List (BcacheStep (Fin 2)) :=
  [.get 0 ⟨0#8, 1#32⟩, .get 1 ⟨0#8, 2#32⟩, .transfer 1 false, .transfer 0 true, .resume 0, .resume 1, .get 1 ⟨0#8, 1#32⟩,
    .store 1 ⟨127, ⟨0#8, 1#32⟩⟩ (fun _ => 7#8), .dirty 1 ⟨127, ⟨0#8, 1#32⟩⟩, .put 1 ⟨127, ⟨0#8, 1#32⟩⟩]

theorem bcache_refs_good_two_reads : ∃ s, runSteps (sysStart (fun _ _ => 0#8)) twoReads = some s ∧ RefsGood s :=
  bcache_refs_good (fun _ _ => 0#8) twoReads (by decide +kernel) (by decide +kernel)

/-- Two callers get the same sector, and the read of the first one fails. -/
def oneSector : List (BcacheStep (Fin 2)) := [.get 0 ⟨0#8, 1#32⟩, .get 1 ⟨0#8, 1#32⟩, .transfer 0 false, .resume 0]

/-- The second caller is given the buffer before the sector is in it, and keeps it when the read fails: the buffer counts no
reference, and has no data of the sector. -/
theorem bcache_ref_without_data :
    EachStep BcacheSys.Enabled (sysStart (fun _ _ => 1#8)) oneSector ∧
      ∃ s, runSteps (sysStart (fun _ _ => 1#8)) oneSector = some s ∧ s.held = [⟨127, ⟨0#8, 1#32⟩⟩] ∧
        (s.cache.bufs 127).refCount = 0 ∧ (⟨0#8, 1#32⟩, (s.cache.bufs 127).data) ∉ s.log := by
  have hend : (runSteps (sysStart (fun _ _ => 1#8)) oneSector).any (fun s =>
      s.held == [⟨127, ⟨0#8, 1#32⟩⟩] && (s.cache.bufs 127).refCount == 0 && s.log.isEmpty) = true := by decide +kernel
  rw [Option.any_eq_true] at hend
  obtain ⟨s, hrun, hend⟩ := hend
  rw [Bool.and_eq_true, Bool.and_eq_true, beq_iff_eq, beq_iff_eq, List.isEmpty_iff] at hend
  obtain ⟨⟨hheld, hcount⟩, hlog⟩ := hend
  refine ⟨by decide +kernel, s, hrun, hheld, hcount, ?_⟩
  rw [hlog]
  exact List.not_mem_nil

end TsOs
