import TsOs.BcacheSteps
import TsOs.Lemmas.BcacheShape

/-!
# What the steps of the buffer cache keep

A call of `bcache_get` has a buffer in transit from the moment it has chosen it until the sector is read into it. `SysInv` says
what is true of the buffers in transit and of the others; it is kept as long as no other call takes a buffer in transit.
-/

namespace TsOs

open LinkedList BcacheAux Function List Option

/-- The buffer that a call of `bcache_get` has in transit. -/
def CallerPc.transit : CallerPc → Option BufPtr
  | .evicting b _ => some b
  | .evicted b _ => some b
  | .reading b _ => some b
  | .filled b _ _ => some b
  | _ => none

/-- The buffer that a call of `bcache_get` reads a sector into. -/
def CallerPc.filling : CallerPc → Option BufPtr
  | .reading b _ => some b
  | .filled b _ _ => some b
  | _ => none

/-- What a call of `bcache_get` knows of its buffer: nobody has a reference to the buffer to evict, and the buffer to fill has the
new key and the reference of the call. -/
def PcOk {σ : Type} (c : Bcache σ) (log : List (SectorKey × Sector)) : CallerPc → Prop
  | .evicting b _ => (c.bufs b).refCount = 0 ∧ (c.bufs b).valid = true
  | .evicted b _ => (c.bufs b).refCount = 0 ∧ (c.bufs b).valid = true
  | .reading b k => (c.bufs b).key = k ∧ (c.bufs b).valid = false ∧ (c.bufs b).refCount = 1
  | .filled b k ok => ((c.bufs b).key = k ∧ (c.bufs b).valid = false ∧ (c.bufs b).refCount = 1) ∧
    (ok = true → (k, (c.bufs b).data) ∈ log)
  | _ => True

section Invariant

variable {ι : Type}

/-- Some call has the buffer in transit. -/
def InTransit (s : BcacheSys ι) (b : BufPtr) : Prop := ∃ i, (s.pc i).transit = some b

/-- Some call reads a sector into the buffer. -/
def Filling (s : BcacheSys ι) (b : BufPtr) : Prop := ∃ i, (s.pc i).filling = some b

/-- The invariant: the chains hold the valid buffers and those being filled, no two calls have one buffer in transit, and a valid
buffer has data of its sector and at least as many references as are held. -/
structure SysInv (s : BcacheSys ι) : Prop where
  order : ∃ xs, Order s.cache.lru xs ∧ ∀ b, b ∈ xs
  hashed : Hashed s.cache.hash (fun b => (s.cache.bufs b).key) (fun b => (s.cache.bufs b).valid = true ∨ Filling s b)
  unique : ∀ i j b, (s.pc i).transit = some b → (s.pc j).transit = some b → i = j
  calls : ∀ i, PcOk s.cache s.log (s.pc i)
  held : ∀ r ∈ s.held, (s.cache.bufs r.buf).valid = true ∧ (s.cache.bufs r.buf).key = r.key
  count : ∀ b, s.held.countP (fun r => r.buf == b) ≤ (s.cache.bufs b).refCount
  data : ∀ b, (s.cache.bufs b).valid = true → ((s.cache.bufs b).key, (s.cache.bufs b).data) ∈ s.log

variable {b : BufPtr} {pc : CallerPc} {σ : Type}

namespace BcacheStepsAux

theorem filling_transit (h : pc.filling = some b) : pc.transit = some b := by
  cases pc <;> first | exact h | cases h

/-- A buffer in transit is unreferenced, or invalid. -/
theorem transit_cases {c : Bcache σ} {log : List (SectorKey × Sector)}
    (h : PcOk c log pc) (ht : pc.transit = some b) :
    (c.bufs b).refCount = 0 ∨ (c.bufs b).valid = false := by
  cases pc with
  | evicting b' k | evicted b' k => cases ht; exact .inl h.1
  | reading b' k => cases ht; exact .inr h.2.1
  | filled b' k ok => cases ht; exact .inr h.1.2.1
  | _ => cases ht

end BcacheStepsAux

open BcacheStepsAux

/-- What a call knows of its buffer depends on that buffer only, and not on its dirty flag. -/
theorem PcOk.congr {c c' : Bcache σ} {log log' : List (SectorKey × Sector)} (h : PcOk c log pc)
    (hb : ∀ b, pc.transit = some b → { c'.bufs b with dirty := false } = { c.bufs b with dirty := false })
    (hlog : ∀ x ∈ log, x ∈ log') : PcOk c' log' pc := by
  have hfields : ∀ b, pc.transit = some b → (c'.bufs b).key = (c.bufs b).key ∧ (c'.bufs b).valid = (c.bufs b).valid ∧
      (c'.bufs b).refCount = (c.bufs b).refCount ∧ (c'.bufs b).data = (c.bufs b).data := by
    intro b ht
    have he := hb b ht
    rw [Buf.mk.injEq] at he
    exact ⟨he.2.1, he.2.2.1, he.2.2.2.2, he.1⟩
  cases pc with
  | evicting b k | evicted b k =>
    obtain ⟨_, hv, hr, _⟩ := hfields b rfl
    rwa [PcOk, hv, hr]
  | reading b k =>
    obtain ⟨hk, hv, hr, _⟩ := hfields b rfl
    rwa [PcOk, hk, hv, hr]
  | filled b k ok =>
    obtain ⟨hk, hv, hr, hd⟩ := hfields b rfl
    rw [PcOk, hk, hv, hr, hd]
    exact ⟨h.1, fun hok => hlog _ (h.2 hok)⟩
  | _ => trivial

variable {s : BcacheSys ι}

variable {r : BufRef}

theorem SysInv.count_pos (hr : r ∈ s.held) : 0 < s.held.countP (fun r' => r'.buf == r.buf) :=
  countP_pos_iff.2 ⟨r, hr, beq_self_eq_true _⟩

theorem SysInv.not_held (h : SysInv s) (hb : (s.cache.bufs b).refCount = 0 ∨ (s.cache.bufs b).valid = false) :
    ∀ r ∈ s.held, r.buf ≠ b := by
  rintro r hr rfl
  have hpos := SysInv.count_pos hr
  have hle := h.count r.buf
  rcases hb with h0 | h0
  · omega
  · rw [(h.held r hr).1] at h0
    cases h0

theorem SysInv.not_transit (h : SysInv s) (hr : r ∈ s.held) : ¬ InTransit s r.buf := by
  rintro ⟨i, hi⟩
  exact h.not_held (transit_cases (h.calls i) hi) r hr rfl

theorem countP_eq_zero_of_ne {held : List BufRef} (h : ∀ r ∈ held, r.buf ≠ b) :
    held.countP (fun r => r.buf == b) = 0 := by
  rw [countP_eq_zero]
  intro r hr
  rw [beq_iff_eq]
  exact h r hr

/-- The invariant is about the positions, the lists, the log and the fields of the buffers other than `dirty`. -/
theorem SysInv.of_same {s' : BcacheSys ι} (h : SysInv s) (hpc : s'.pc = s.pc) (hheld : s'.held = s.held)
    (hlru : s'.cache.lru = s.cache.lru) (hhash : s'.cache.hash = s.cache.hash)
    (hb : ∀ b, { s'.cache.bufs b with dirty := false } = { s.cache.bufs b with dirty := false })
    (hlog : ∀ x ∈ s.log, x ∈ s'.log) : SysInv s' := by
  have hkey : ∀ b, (s'.cache.bufs b).key = (s.cache.bufs b).key := fun b => congrArg (fun x => x.key) (hb b)
  have hvalid : ∀ b, (s'.cache.bufs b).valid = (s.cache.bufs b).valid := fun b => congrArg (fun x => x.valid) (hb b)
  have href : ∀ b, (s'.cache.bufs b).refCount = (s.cache.bufs b).refCount := fun b => congrArg (fun x => x.refCount) (hb b)
  have hdata : ∀ b, (s'.cache.bufs b).data = (s.cache.bufs b).data := fun b => congrArg (fun x => x.data) (hb b)
  refine ⟨by rw [hlru]; exact h.order, ?_, by rw [hpc]; exact h.unique, fun i => ?_, fun r hr => ?_, fun b => ?_, fun b hv => ?_⟩
  · rw [hhash]
    refine h.hashed.congr (fun b _ => hkey b) (fun b => ?_)
    rw [hvalid, Filling, Filling, hpc]
  · rw [hpc]
    exact (h.calls i).congr (fun b _ => hb b) hlog
  · rw [hheld] at hr
    rw [hvalid, hkey]
    exact h.held r hr
  · rw [hheld, href]
    exact h.count b
  · rw [hvalid] at hv
    rw [hkey, hdata]
    exact hlog _ (h.data b hv)

theorem SysInv.writeSector (h : SysInv s) (k : SectorKey) (x : Sector) (ok : Bool) : SysInv (s.writeSector k x ok) := by
  unfold BcacheSys.writeSector
  split
  · exact h.of_same rfl rfl rfl rfl (fun _ => rfl) (fun _ hx => mem_cons_of_mem _ hx)
  · exact h

theorem writeSector_pc (s : BcacheSys ι) (k : SectorKey) (x : Sector) (ok : Bool) : (s.writeSector k x ok).pc = s.pc := by
  rw [BcacheSys.writeSector]
  split <;> rfl

variable (h : SysInv s)
include h

theorem SysInv.setDirty (b : BufPtr) (d : Bool) :
    SysInv { s with cache := s.cache.modify b (fun buf => { buf with dirty := d }) } := by
  refine h.of_same rfl rfl rfl rfl (fun b' => ?_) (fun _ hx => hx)
  by_cases e : b' = b
  · subst e
    simp [Bcache.modify]
  · simp only [Bcache.modify, update_of_ne e]

variable {i : ι}

/-- No other call has a buffer in transit that caller `i` has. -/
theorem SysInv.transit_of_ne (hi : (s.pc i).transit = some b) :
    ∀ j, j ≠ i → (s.pc j).transit ≠ some b :=
  fun j hj ht => hj (h.unique j i b ht hi)

omit h in
theorem transit_of_not_inTransit (h : ¬ InTransit s b) (i : ι) : ∀ j, j ≠ i → (s.pc j).transit ≠ some b :=
  fun j _ ht => h ⟨j, ht⟩

variable {x : Buf}

/-- The references held after a section that adds none to `b` and takes none away from the others. -/
theorem SysInv.held_same (hx : x.valid = (s.cache.bufs b).valid) (hk : x.key = (s.cache.bufs b).key) :
    ∀ r ∈ s.held, (r.buf = b → x.valid = true ∧ x.key = r.key) ∧ (r.buf ≠ b → r ∈ s.held) := by
  intro r hr
  refine ⟨fun e => ?_, fun _ => hr⟩
  rw [hx, hk, ← e]
  exact h.held r hr

theorem SysInv.count_same (hle : (s.cache.bufs b).refCount ≤ x.refCount) :
    ∀ b', s.held.countP (fun r => r.buf == b') ≤ if b' = b then x.refCount else (s.cache.bufs b').refCount := by
  intro b'
  have := h.count b'
  by_cases e : b' = b
  · subst e
    rw [if_pos rfl]
    omega
  · rwa [if_neg e]

theorem SysInv.count_free (hb : ∀ r ∈ s.held, r.buf ≠ b) (n : Nat) :
    ∀ b', s.held.countP (fun r => r.buf == b') ≤ if b' = b then n else (s.cache.bufs b').refCount := by
  intro b'
  by_cases e : b' = b
  · subst e
    rw [countP_eq_zero_of_ne hb]
    exact Nat.zero_le _
  · rw [if_neg e]
    exact h.count b'

/-- A change to the other fields leaves the chains as they are. -/
theorem SysInv.hashed_same (hk : x.key = (s.cache.bufs b).key) {p : Prop}
    (hp : p ↔ ((s.cache.bufs b).valid = true ∨ Filling s b)) :
    Hashed s.cache.hash (update (fun b => (s.cache.bufs b).key) b x.key)
      (fun b' => if b' = b then p else (s.cache.bufs b').valid = true ∨ Filling s b') := by
  refine h.hashed.congr (fun b' _ => ?_) (fun b' => ?_)
  · by_cases e : b' = b
    · subst e
      rw [update_self, hk]
    · rw [update_of_ne e]
  · by_cases e : b' = b
    · subst e
      rw [if_pos rfl, hp]
    · rw [if_neg e]

variable [DecidableEq ι]

/-- A caller moves on with the buffer it has in transit, if any. -/
theorem SysInv.goto {pc' : CallerPc} (ht : pc'.transit = (s.pc i).transit)
    (hf : pc'.filling = (s.pc i).filling) (hok : PcOk s.cache s.log pc') : SysInv (s.goto i pc') := by
  have htransit : ∀ j, (update s.pc i pc' j).transit = (s.pc j).transit := by
    intro j
    by_cases e : j = i
    · subst e; rw [update_self, ht]
    · rw [update_of_ne e]
  have hfilling : ∀ j, (update s.pc i pc' j).filling = (s.pc j).filling := by
    intro j
    by_cases e : j = i
    · subst e; rw [update_self, hf]
    · rw [update_of_ne e]
  refine ⟨h.order, h.hashed.congr (fun _ _ => rfl) (fun b => ?_), fun j j' b hj hj' => ?_, fun j => ?_, h.held, h.count, h.data⟩
  · simp only [Filling, BcacheSys.goto, hfilling]
  · rw [BcacheSys.goto, htransit] at hj hj'
    exact h.unique j j' b hj hj'
  · by_cases e : j = i
    · subst e
      simp only [BcacheSys.goto, update_self]
      exact hok
    · simp only [BcacheSys.goto, update_of_ne e]
      exact h.calls j

omit h in
theorem order_touch {l : LruList} (h : ∃ xs, Order l xs ∧ ∀ b, b ∈ xs) (b : BufPtr) :
    ∃ xs, Order (lruTouch l b) xs ∧ ∀ b, b ∈ xs := by
  obtain ⟨xs, ho, hall⟩ := h
  exact ⟨_, lruTouch_spec ho (hall b), mem_touched hall b⟩

omit h in
theorem countP_cons_ref (r : BufRef) (held : List BufRef) (b : BufPtr) :
    (r :: held).countP (fun r => r.buf == b) = held.countP (fun r => r.buf == b) + if b = r.buf then 1 else 0 := by
  rw [countP_cons]
  by_cases e : b = r.buf
  · rw [if_pos e, if_pos (by rw [e, beq_self_eq_true])]
  · rw [if_neg e, if_neg (by rw [beq_iff_eq]; exact fun he => e he.symm)]

/-- The invariant after a change to a buffer that no call but that of caller `i` has in transit, which leaves the caller at
`pc'`. -/
theorem SysInv.set {s' : BcacheSys ι} {pc' : CallerPc}
    (hb : s'.cache.bufs = update s.cache.bufs b x) (hpc : s'.pc = update s.pc i pc')
    (hother : ∀ j, j ≠ i → (s.pc j).transit ≠ some b) (ht : ∀ b', pc'.transit = some b' → b' = b)
    (hfrom : ∀ b', (s.pc i).filling = some b' → b' = b) (hok : PcOk s'.cache s'.log pc')
    (horder : ∃ xs, Order s'.cache.lru xs ∧ ∀ b, b ∈ xs)
    (hhash : Hashed s'.cache.hash (update (fun b => (s.cache.bufs b).key) b x.key)
      (fun b' => if b' = b then x.valid = true ∨ pc'.filling = some b else (s.cache.bufs b').valid = true ∨ Filling s b'))
    (hheld : ∀ r ∈ s'.held, (r.buf = b → x.valid = true ∧ x.key = r.key) ∧ (r.buf ≠ b → r ∈ s.held))
    (hcount : ∀ b', s'.held.countP (fun r => r.buf == b') ≤ if b' = b then x.refCount else (s.cache.bufs b').refCount)
    (hlog : ∀ y ∈ s.log, y ∈ s'.log) (hdata : x.valid = true → (x.key, x.data) ∈ s'.log) : SysInv s' := by
  have hself : s'.cache.bufs b = x := by rw [hb, update_self]
  have hne : ∀ {b'}, b' ≠ b → s'.cache.bufs b' = s.cache.bufs b' := fun e => by rw [hb, update_of_ne e]
  have hpcSelf : s'.pc i = pc' := by rw [hpc, update_self]
  have hpcNe : ∀ {j}, j ≠ i → s'.pc j = s.pc j := fun e => by rw [hpc, update_of_ne e]
  -- the buffers being filled
  have hfill : ∀ b', Filling s' b' ↔ if b' = b then pc'.filling = some b else Filling s b' := by
    intro b'
    by_cases e : b' = b
    · subst e
      rw [if_pos rfl]
      constructor
      · rintro ⟨j, hj⟩
        by_cases ej : j = i
        · subst ej
          rwa [hpcSelf] at hj
        · rw [hpcNe ej] at hj
          exact absurd (filling_transit hj) (hother j ej)
      · exact fun hf => ⟨i, by rw [hpcSelf]; exact hf⟩
    · rw [if_neg e]
      constructor
      · rintro ⟨j, hj⟩
        by_cases ej : j = i
        · subst ej
          rw [hpcSelf] at hj
          exact absurd (ht b' (filling_transit hj)) e
        · exact ⟨j, by rwa [hpcNe ej] at hj⟩
      · rintro ⟨j, hj⟩
        by_cases ej : j = i
        · subst ej
          exact absurd (hfrom b' hj) e
        · exact ⟨j, by rwa [hpcNe ej]⟩
  refine ⟨horder, hhash.congr (fun b' _ => ?_) (fun b' => ?_), fun j j' b' hj hj' => ?_, fun j => ?_, fun r hr => ?_, fun b' => ?_,
    fun b' hv => ?_⟩
  · by_cases e : b' = b
    · subst e; rw [hself, update_self]
    · rw [hne e, update_of_ne e]
  · rw [hfill]
    by_cases e : b' = b
    · subst e; rw [if_pos rfl, if_pos rfl, hself]
    · rw [if_neg e, if_neg e, hne e]
  · by_cases ej : j = i
    · by_cases ej' : j' = i
      · rw [ej, ej']
      · rw [ej, hpcSelf] at hj
        rw [hpcNe ej', ht b' hj] at hj'
        exact absurd hj' (hother j' ej')
    · by_cases ej' : j' = i
      · rw [ej', hpcSelf] at hj'
        rw [hpcNe ej, ht b' hj'] at hj
        exact absurd hj (hother j ej)
      · rw [hpcNe ej] at hj
        rw [hpcNe ej'] at hj'
        exact h.unique j j' b' hj hj'
  · by_cases ej : j = i
    · subst ej
      rwa [hpcSelf]
    · rw [hpcNe ej]
      refine (h.calls j).congr (fun b' hb' => ?_) hlog
      rw [hne (fun e => hother j ej (e ▸ hb'))]
  · by_cases e : r.buf = b
    · rw [e, hself]
      exact (hheld r hr).1 e
    · rw [hne e]
      exact h.held r ((hheld r hr).2 e)
  · have hle := hcount b'
    by_cases e : b' = b
    · subst e; rw [if_pos rfl] at hle; rwa [hself]
    · rw [if_neg e] at hle; rwa [hne e]
  · by_cases e : b' = b
    · subst e; rw [hself] at hv ⊢; exact hdata hv
    · rw [hne e] at hv ⊢; exact hlog _ (h.data b' hv)

/-! ## The sections -/

/-- Steps 4 and 5 of `bcache_get`, for an unreferenced buffer that no other call has in transit. -/
theorem SysInv.rekey (h0 : (s.cache.bufs b).refCount = 0) (hother : ∀ j, j ≠ i → (s.pc j).transit ≠ some b)
    (hi : (s.pc i).filling = none) (k : SectorKey) :
    ∃ c', TsOs.rekey s.cache b k = some c' ∧ SysInv ({ s with cache := c' }.goto i (.reading b k)) := by
  have hnf : ¬ Filling s b := by
    rintro ⟨j, hj⟩
    by_cases e : j = i
    · rw [e, hi] at hj
      cases hj
    · exact hother j e (filling_transit hj)
  obtain ⟨c', hrekey, -, hlru, hbufs, hhash⟩ := rekey_spec (c := s.cache) (b := b) h.hashed
    ⟨fun ho => ho.resolve_right hnf, .inl⟩ k
  have hnh := h.not_held (.inl h0)
  refine ⟨c', hrekey, ?_⟩
  refine h.set (b := b) (i := i) hbufs rfl hother (fun b' hb' => (some.inj hb').symm) (fun b' hb' => ?_)
    ?_ ?_ ?_ (fun r hr => ⟨fun e => absurd e (hnh r hr), fun _ => hr⟩) (h.count_free hnh _) (fun _ hy => hy)
    (fun hv => by cases hv)
  · rw [hi] at hb'
    cases hb'
  · simp [PcOk, BcacheSys.goto, hbufs, and_self]
  · simp only [BcacheSys.goto, hlru]
    exact order_touch h.order b
  · refine hhash.congr (fun _ _ => rfl) (fun b' => ?_)
    by_cases e : b' = b
    · simp [e, CallerPc.filling]
    · simp [e]

/-- The first section of `bcache_get` in a state in which it takes no buffer in transit. -/
theorem SysInv.getSection {k : SectorKey} (hi : s.pc i = .idle)
    (hkey : ∀ b, InTransit s b → (s.cache.bufs b).key ≠ k)
    (hfree : (∀ b, (s.cache.bufs b).valid = true → (s.cache.bufs b).key ≠ k) →
      ∀ b, InTransit s b → findEvictable s.cache ≠ some (some b))
    (hlt : ∀ b, (s.cache.bufs b).key = k → (s.cache.bufs b).refCount + 1 < 2 ^ 32) :
    ∃ s', s.step (.get i k) = some s' ∧ SysInv s' := by
  have hidle : ∀ b', (s.pc i).filling = some b' → False := by
    intro b' hb'
    rw [hi] at hb'
    cases hb'
  rcases hashFind_cases h.hashed k with ⟨hfind, hmiss⟩ | ⟨b, hfind, hon, hk⟩
  · have hvict : ∃ r, findEvictable s.cache = some r ∧ ∀ b, r = some b → (s.cache.bufs b).refCount = 0 := by
      obtain ⟨xs, ho, _⟩ := h.order
      refine ⟨_, findEvictable_eq ho, fun b hb => ?_⟩
      have := find?_some hb
      rwa [beq_iff_eq] at this
    obtain ⟨r, hevict, hzero⟩ := hvict
    cases r with
    | none =>
      refine ⟨_, by simp only [BcacheSys.step, TsOs.getSection, hfind, hevict, map_some]; rfl, ?_⟩
      exact SysInv.goto h (by rw [hi]) (by rw [hi]) trivial
    | some b =>
      have h0 := hzero b rfl
      have hnt : ¬ InTransit s b := fun ht => hfree (fun b' hv => hmiss b' (.inl hv)) b ht hevict
      by_cases hd : ((s.cache.bufs b).valid && (s.cache.bufs b).dirty) = true
      · -- the buffer is to be written back first
        refine ⟨_, by simp only [BcacheSys.step, TsOs.getSection, hfind, hevict, hd, if_true, map_some]; rfl, ?_⟩
        have hv : (s.cache.bufs b).valid = true := (Bool.and_eq_true_iff.1 hd).1
        refine h.set (b := b) (x := s.cache.bufs b) (i := i) (update_eq_self _ _).symm rfl
          (transit_of_not_inTransit hnt i) (fun b' hb' => (some.inj hb').symm) (fun b' hb' => (hidle b' hb').elim)
          ⟨h0, hv⟩ h.order (h.hashed_same rfl ?_) (h.held_same rfl rfl) (h.count_same (Nat.le_refl _)) (fun _ hy => hy)
          (h.data b)
        simp [hv]
      · obtain ⟨c', hrekey, h'⟩ := h.rekey h0 (transit_of_not_inTransit hnt i) (by rw [hi]; rfl) k
        exact ⟨_, by simp only [BcacheSys.step, TsOs.getSection, hfind, hevict, hd, if_false, hrekey, map_some,
          Bool.false_eq_true]; rfl, h'⟩
  · -- a hit
    have hnt : ¬ InTransit s b := fun ht => hkey b ht hk
    have hv : (s.cache.bufs b).valid = true := hon.resolve_right (fun ⟨j, hj⟩ => hnt ⟨j, filling_transit hj⟩)
    have hmod : ((s.cache.bufs b).refCount + 1) % 2 ^ 32 = (s.cache.bufs b).refCount + 1 := Nat.mod_eq_of_lt (hlt b hk)
    refine ⟨_, by simp only [BcacheSys.step, TsOs.getSection, hfind, map_some]; rfl, ?_⟩
    refine h.set (b := b) (i := i) rfl rfl (transit_of_not_inTransit hnt i) (fun b' hb' => by cases hb')
      (fun b' hb' => (hidle b' hb').elim) trivial (order_touch h.order b) (h.hashed_same rfl ?_) ?_ ?_ (fun _ hy => hy)
      (h.data b)
    · simp [hv]
    · refine forall_mem_cons.2 ⟨⟨fun _ => ⟨hv, hk⟩, fun e => absurd rfl e⟩, h.held_same rfl rfl⟩
    · intro b'
      have hc := h.count b'
      simp only [BcacheSys.goto, toList, singleton_append]
      rw [countP_cons_ref]
      by_cases e : b' = b
      · subst e
        simp only [if_true, hmod]
        omega
      · rw [if_neg e, if_neg e]
        exact hc

theorem SysInv.putSection (hi : s.pc i = .idle) (hr : r ∈ s.held) :
    ∃ s', s.step (.put i r) = some s' ∧ SysInv s' := by
  have hpos := SysInv.count_pos hr
  have hle := h.count r.buf
  have hnt := h.not_transit hr
  have hbufs : ∀ {c pc}, TsOs.putSection s.cache r.buf = (c, pc) → c.lru = s.cache.lru ∧ c.hash = s.cache.hash ∧
      c.bufs = update s.cache.bufs r.buf { s.cache.bufs r.buf with refCount := (s.cache.bufs r.buf).refCount - 1 } ∧
      pc.transit = none ∧ PcOk c s.log pc := by
    intro c pc hput
    have hgt : (s.cache.bufs r.buf).refCount > 0 := by omega
    simp only [TsOs.putSection, if_pos hgt] at hput
    split at hput <;> cases hput <;> exact ⟨rfl, rfl, rfl, rfl, trivial⟩
  obtain ⟨c, pc, hput⟩ : ∃ c pc, TsOs.putSection s.cache r.buf = (c, pc) := ⟨_, _, rfl⟩
  obtain ⟨hlru, hhash, hb, ht, hok⟩ := hbufs hput
  refine ⟨_, by rw [BcacheSys.step, hput], ?_⟩
  refine h.set (b := r.buf) (i := i) hb rfl (transit_of_not_inTransit hnt i) (fun b' hb' => ?_) (fun b' hb' => ?_) hok ?_ ?_ ?_ ?_
    (fun _ hy => hy) (h.data r.buf)
  · rw [ht] at hb'
    cases hb'
  · rw [hi] at hb'
    cases hb'
  · simp only [BcacheSys.goto, hlru]
    exact h.order
  · simp only [BcacheSys.goto, hhash]
    refine h.hashed_same rfl ?_
    have hv := (h.held r hr).1
    simp [hv]
  · intro r' hr'
    exact h.held_same rfl rfl r' (mem_of_mem_erase hr')
  · intro b'
    have hcount : s.held.countP (fun r => r.buf == b') =
        (s.held.erase r).countP (fun r => r.buf == b') + if b' = r.buf then 1 else 0 := by
      rw [← countP_cons_ref]
      exact (perm_cons_erase hr).countP_eq _
    have hc := h.count b'
    simp only [BcacheSys.goto]
    by_cases e : b' = r.buf
    · subst e
      rw [if_pos rfl] at hcount ⊢
      omega
    · rw [if_neg e] at hcount ⊢
      omega

omit h in
/-- The scan of the flush functions leaves no buffer in transit. -/
theorem flushSection_transit (c : Bcache σ) (sel : Option (BitVec 8)) (bs : List BufPtr) :
    (flushSection c sel bs).transit = none ∧ (flushSection c sel bs).filling = none ∧
      ∀ (c' : Bcache σ) log, PcOk c' log (flushSection c sel bs) := by
  induction bs with
  | nil => exact ⟨rfl, rfl, fun _ _ => trivial⟩
  | cons b bs ih =>
    rw [flushSection]
    split
    · exact ⟨rfl, rfl, fun _ _ => trivial⟩
    · exact ih

theorem SysInv.transferStep (hi : (s.pc i).beforeTransfer = true) (ok : Bool) :
    ∃ s', s.step (.transfer i ok) = some s' ∧ SysInv s' := by
  have hcall := h.calls i
  cases hp : s.pc i with
  | evicting b k =>
    refine ⟨_, by rw [BcacheSys.step, BcacheSys.transfer, hp], ?_⟩
    have hw := h.writeSector (s.cache.bufs b).key (s.cache.bufs b).data ok
    have hok := hw.calls i
    rw [writeSector_pc, hp] at hok
    exact hw.goto (by rw [writeSector_pc, hp]; rfl) (by rw [writeSector_pc, hp]; rfl) hok
  | reading b k =>
    rw [hp] at hcall
    cases ok with
    | false =>
      refine ⟨_, by rw [BcacheSys.step, BcacheSys.transfer, hp]; rfl, ?_⟩
      exact h.goto (by rw [hp]; rfl) (by rw [hp]; rfl) ⟨hcall, fun hok => by cases hok⟩
    | true =>
      refine ⟨_, by rw [BcacheSys.step, BcacheSys.transfer, hp]; rfl, ?_⟩
      have ht : (s.pc i).transit = some b := by rw [hp]; rfl
      refine h.set (b := b) (i := i) rfl rfl (h.transit_of_ne ht) (fun b' hb' => (some.inj hb').symm) (fun b' hb' => ?_)
        ?_ h.order (h.hashed_same rfl ?_) (h.held_same rfl rfl) (h.count_same (Nat.le_refl _))
        (fun _ hy => mem_cons_of_mem _ hy) (fun hv => ?_)
      · rw [hp] at hb'
        exact (some.inj hb').symm
      · obtain ⟨hk, hv, hc⟩ := hcall
        simp only [PcOk, Bcache.modify, update_self]
        exact ⟨⟨hk, hv, hc⟩, fun _ => mem_cons_self⟩
      · have hf : Filling s b := ⟨i, by rw [hp]; rfl⟩
        simp [hf, CallerPc.filling]
      · rw [hcall.2.1] at hv
        cases hv
  | putting b k copy =>
    refine ⟨_, by rw [BcacheSys.step, BcacheSys.transfer, hp], ?_⟩
    cases ok <;>
      exact (h.writeSector k copy _).goto (by rw [writeSector_pc, hp]; rfl) (by rw [writeSector_pc, hp]; rfl) trivial
  | flushing sel b k rest =>
    refine ⟨_, by rw [BcacheSys.step, BcacheSys.transfer, hp], ?_⟩
    cases ok <;>
      exact (h.writeSector k _ _).goto (by rw [writeSector_pc, hp]; rfl) (by rw [writeSector_pc, hp]; rfl) trivial
  | _ => rw [hp] at hi; cases hi

theorem SysInv.resumeStep (hi : (s.pc i).afterTransfer = true) :
    ∃ s', s.step (.resume i) = some s' ∧ SysInv s' := by
  have hcall := h.calls i
  cases hp : s.pc i with
  | evicted b k =>
    rw [hp] at hcall
    have ht : (s.pc i).transit = some b := by rw [hp]; rfl
    obtain ⟨c', hrekey, h'⟩ := h.rekey hcall.1 (h.transit_of_ne ht) (by rw [hp]; rfl) k
    exact ⟨_, by rw [BcacheSys.step, BcacheSys.resume, hp]; simp only [hrekey, map_some], h'⟩
  | filled b k ok =>
    rw [hp] at hcall
    obtain ⟨⟨hk, hv, hc⟩, hdata⟩ := hcall
    have ht : (s.pc i).transit = some b := by rw [hp]; rfl
    have hf : Filling s b := ⟨i, by rw [hp]; rfl⟩
    have hnh := h.not_held (.inr hv)
    have hfrom : ∀ b', (s.pc i).filling = some b' → b' = b := by
      intro b' hb'
      rw [hp] at hb'
      exact (some.inj hb').symm
    cases ok with
    | true =>
      refine ⟨_, by rw [BcacheSys.step, BcacheSys.resume, hp]; rfl, ?_⟩
      refine h.set (b := b) (i := i) rfl rfl (h.transit_of_ne ht) (fun b' hb' => by cases hb') hfrom trivial h.order
        (h.hashed_same rfl ?_) ?_ ?_ (fun _ hy => hy) (fun _ => ?_)
      · simp [hf]
      · exact forall_mem_cons.2 ⟨⟨fun _ => ⟨rfl, hk⟩, fun e => absurd rfl e⟩,
          fun r hr => ⟨fun e => absurd e (hnh r hr), fun _ => hr⟩⟩
      · intro b'
        have hcount := h.count_free hnh 0 b'
        simp only [BcacheSys.goto, if_true]
        rw [countP_cons_ref]
        by_cases e : b' = b
        · subst e
          rw [if_pos rfl] at hcount
          simp only [if_true, hc]
          omega
        · rw [if_neg e] at hcount ⊢
          rw [if_neg e]
          exact hcount
      · rw [← hk] at hdata
        exact hdata rfl
    | false =>
      obtain ⟨hash, hrm, hhash⟩ := hashRemove_spec h.hashed (b := b) (.inr hf)
      refine ⟨_, by rw [BcacheSys.step, BcacheSys.resume, hp]; simp only [fillSection, hrm, map_some,
        Bool.false_eq_true, if_false]; rfl, ?_⟩
      refine h.set (b := b) (i := i) rfl rfl (h.transit_of_ne ht) (fun b' hb' => by cases hb') hfrom trivial
        (order_touch h.order b) ?_ (fun r hr => ⟨fun e => absurd e (hnh r hr), fun _ => hr⟩) (h.count_free hnh _)
        (fun _ hy => hy) (fun hv => by cases hv)
      refine hhash.congr (fun b' hb' => ?_) (fun b' => ?_)
      · rw [update_of_ne hb'.1]
      · by_cases e : b' = b
        · simp [e, CallerPc.filling]
        · simp [e]
  | written b =>
    refine ⟨_, by rw [BcacheSys.step, BcacheSys.resume, hp], ?_⟩
    exact (h.setDirty b false).goto (by simp only [hp]; rfl) (by simp only [hp]; rfl) trivial
  | flushed sel b rest =>
    obtain ⟨ht, hf, hok⟩ := flushSection_transit (s.cache.modify b (fun buf => { buf with dirty := false })) sel rest
    refine ⟨_, by rw [BcacheSys.step, BcacheSys.resume, hp], ?_⟩
    exact (h.setDirty b false).goto (by simp only [hp]; exact ht) (by simp only [hp]; exact hf) (hok _ _)
  | _ => rw [hp] at hi; cases hi

theorem SysInv.storeStep (hi : s.pc i = .idle) (hr : r ∈ s.held) (x : Sector) :
    ∃ s', s.step (.store i r x) = some s' ∧ SysInv s' := by
  have hnt := h.not_transit hr
  obtain ⟨hv, hk⟩ := h.held r hr
  refine ⟨_, rfl, ?_⟩
  refine h.set (b := r.buf) (i := i) rfl (update_eq_self _ _).symm (transit_of_not_inTransit hnt i)
    (fun b' hb' => ?_) (fun b' hb' => ?_) ?_ h.order (h.hashed_same rfl ?_) (h.held_same rfl rfl) (h.count_same (Nat.le_refl _))
    (fun _ hy => mem_cons_of_mem _ hy) (fun _ => ?_)
  · rw [hi] at hb'
    cases hb'
  · rw [hi] at hb'
    cases hb'
  · rw [hi]
    trivial
  · simp [hv]
  · rw [← hk]
    exact mem_cons_self

end Invariant

end TsOs
