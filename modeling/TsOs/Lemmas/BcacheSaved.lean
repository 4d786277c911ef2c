import TsOs.Lemmas.BcacheShape

/-!
# The buffer cache over a device whose writes may fail

The device keeps, beside its own state, the data that was marked dirty and has not been written successfully since. `Retained` says
that the valid buffers hold the latest bytes of their sectors, that the dirty ones are exactly those with such data, and that
the device has the latest bytes of every other sector. Every call keeps it, up to the write-back of a buffer that is evicted.
-/

namespace TsOs

open BcacheAux Recency Function Option Bool Nat

/-- For each sector, the bytes marked dirty and not written since. -/
abbrev Unsaved : Type := SectorKey → Option Sector

section Saved

variable {σ : Type}

/-- The device with the record of what is not written yet: a write that succeeds settles its sector. -/
def recordDev (dev : BlockDev σ) : BlockDev (σ × Unsaved) where
  read d k := ((((dev.read d.1 k).1), d.2), (dev.read d.1 k).2)
  write d k x := (((dev.write d.1 k x).1, if (dev.write d.1 k x).2 then Function.update d.2 k none else d.2),
    (dev.write d.1 k x).2)

/-- The buffers, the device and the record of what is not written yet agree on the latest bytes of the sectors. -/
structure Retained (dev : FlakyDev σ) (c : Bcache (σ × Unsaved)) (latest : SectorKey → Sector) : Prop where
  shaped : ∃ hist, Shaped c hist
  data : ∀ b, (c.bufs b).valid = true → (c.bufs b).data = latest (c.bufs b).key
  unsaved : ∀ b, (c.bufs b).valid = true →
    c.disk.2 (c.bufs b).key = if (c.bufs b).dirty then some (c.bufs b).data else none
  uncached : ∀ k, (∀ b, (c.bufs b).valid = true → (c.bufs b).key ≠ k) → c.disk.2 k = none
  saved : ∀ k, c.disk.2 k = none → dev.sectors c.disk.1 k = latest k

variable {dev : FlakyDev σ} {c : Bcache (σ × Unsaved)} {latest : SectorKey → Sector}

theorem retained_init (dev : FlakyDev σ) (disk : σ) : Retained dev (bcacheInit (disk, fun _ => none)) (dev.sectors disk) where
  shaped := ⟨_, shaped_init _⟩
  data _ h := by simp [bcacheInit] at h
  unsaved _ h := by simp [bcacheInit] at h
  uncached _ _ := rfl
  saved _ _ := rfl

variable {k : SectorKey} {b : BufPtr}

section

variable (h : Retained dev c latest)
include h

/-- Data not written yet is in a dirty buffer of its sector. -/
theorem Retained.in_cache {x : Sector} (hx : c.disk.2 k = some x) :
    ∃ b, (c.bufs b).valid = true ∧ (c.bufs b).dirty = true ∧ (c.bufs b).key = k ∧ (c.bufs b).data = x := by
  by_cases hk : ∃ b, (c.bufs b).valid = true ∧ (c.bufs b).key = k
  · obtain ⟨b, hv, rfl⟩ := hk
    have hu := h.unsaved b hv
    rw [hx] at hu
    split at hu
    · rename_i hd
      exact ⟨b, hv, hd, rfl, (some.inj hu).symm⟩
    · cases hu
  · rw [h.uncached k (fun b hv e => hk ⟨b, hv, e⟩)] at hx
    cases hx

/-- A state in which one buffer has changed, with its key and valid flag as before: the device, the record and the bytes change
at most at its sector. -/
theorem Retained.updateBuf {c' : Bcache (σ × Unsaved)} {latest' : SectorKey → Sector} {x : Buf}
    (hshape : ∃ hist, Shaped c' hist) (hb : c'.bufs = update c.bufs b x)
    (hk : x.key = (c.bufs b).key) (hv : x.valid = (c.bufs b).valid)
    (hself : (c.bufs b).valid = true → x.data = latest' (c.bufs b).key ∧
      c'.disk.2 (c.bufs b).key = (if x.dirty then some x.data else none) ∧
      (c'.disk.2 (c.bufs b).key = none → dev.sectors c'.disk.1 (c.bufs b).key = latest' (c.bufs b).key))
    (hsame : ∀ k, ((c.bufs b).valid = true → k ≠ (c.bufs b).key) →
      c'.disk.2 k = c.disk.2 k ∧ dev.sectors c'.disk.1 k = dev.sectors c.disk.1 k ∧ latest' k = latest k) :
    Retained dev c' latest' := by
  obtain ⟨hist, hs⟩ := h.shaped
  have hx : c'.bufs b = x := by rw [hb, update_self]
  have hother : ∀ b', b' ≠ b → c'.bufs b' = c.bufs b' := fun b' hb' => by rw [hb, update_of_ne hb']
  -- the sector of another valid buffer is not that of `b`
  have hne : ∀ b', b' ≠ b → (c.bufs b').valid = true → (c.bufs b).valid = true → (c.bufs b').key ≠ (c.bufs b).key :=
    fun b' e hv' hvb he => e (hs.inj b' b hv' hvb he)
  refine ⟨hshape, fun b' hv' => ?_, fun b' hv' => ?_, fun k hk' => ?_, fun k hn => ?_⟩
  · by_cases e : b' = b
    · subst e
      rw [hx, hv] at hv'
      rw [hx, hk, (hself hv').1]
    · rw [hother b' e] at hv' ⊢
      rw [(hsame _ (hne b' e hv')).2.2]
      exact h.data b' hv'
  · by_cases e : b' = b
    · subst e
      rw [hx, hv] at hv'
      rw [hx, hk, (hself hv').2.1]
    · rw [hother b' e] at hv' ⊢
      rw [(hsame _ (hne b' e hv')).1]
      exact h.unsaved b' hv'
  · have hfree : ∀ b', (c.bufs b').valid = true → (c.bufs b').key ≠ k := by
      intro b' hv'
      by_cases e : b' = b
      · subst e
        have := hk' b' (by rw [hx, hv]; exact hv')
        rwa [hx, hk] at this
      · have := hk' b' (by rw [hother b' e]; exact hv')
        rwa [hother b' e] at this
    rw [(hsame k (fun hvb e => hfree b hvb e.symm)).1]
    exact h.uncached k hfree
  · by_cases hb : (c.bufs b).valid = true ∧ k = (c.bufs b).key
    · obtain ⟨hvb, rfl⟩ := hb
      exact (hself hvb).2.2 hn
    · obtain ⟨h1, h2, h3⟩ := hsame k (fun hvb e => hb ⟨hvb, e⟩)
      rw [h1] at hn
      rw [h2, h3]
      exact h.saved k hn

/-- Writing the data of a valid dirty buffer. When it succeeds the buffer may be made clean; when it fails it has to stay
dirty. -/
theorem Retained.write (hv : (c.bufs b).valid = true) (hd : (c.bufs b).dirty = true)
    {disk : σ × Unsaved} {ok : Bool}
    (hw : (recordDev dev.toBlockDev).write c.disk (c.bufs b).key (c.bufs b).data = (disk, ok)) :
    Retained dev { c.modify b (fun buf => { buf with dirty := !ok }) with disk := disk } latest := by
  obtain ⟨hist, hs⟩ := h.shaped
  have hd1 : disk.1 = (dev.write c.disk.1 (c.bufs b).key (c.bufs b).data).1 :=
    (congrArg (fun r => r.1.1) hw).symm
  have hok : ok = (dev.write c.disk.1 (c.bufs b).key (c.bufs b).data).2 := (congrArg Prod.snd hw).symm
  have hd2 : disk.2 = if ok then update c.disk.2 (c.bufs b).key none else c.disk.2 := by
    rw [hok]
    exact (congrArg (fun r => r.1.2) hw).symm
  have hu := h.unsaved b hv
  rw [hd] at hu
  refine h.updateBuf ⟨hist, (sameShape_modify c b (fun buf => { buf with dirty := !ok }) disk (fun _ => ⟨rfl, rfl⟩)).shaped hs⟩ rfl rfl rfl
    (fun _ => ⟨h.data b hv, ?_, fun hn => ?_⟩) (fun k hk => ⟨?_, ?_, rfl⟩)
  · simp only [hd2]
    cases ok with
    | true => simp only [if_true, update_self, Bool.not_true, Bool.false_eq_true, if_false]
    | false => simpa only [Bool.false_eq_true, if_false, Bool.not_false, if_true] using hu
  · simp only [hd2] at hn
    cases ok with
    | true => rw [hd1, dev.write_ok _ _ _ hok.symm, h.data b hv]
    | false =>
      rw [if_neg (by decide), hu] at hn
      cases hn
  · simp only [hd2]
    split
    · rw [update_of_ne (hk hv)]
    · rfl
  · rw [hd1, dev.write_other _ _ _ _ (hk hv)]

/-- In-place modification of a valid buffer, then `bcache_dirty`: the data is now to be written. -/
theorem Retained.modifyDirty (hv : (c.bufs b).valid = true) (x : Sector) :
    Retained dev { bcacheDirty (c.modify b (fun buf => { buf with data := x })) b with
        disk := (c.disk.1, update c.disk.2 (c.bufs b).key (some x)) }
      (update latest (c.bufs b).key x) := by
  obtain ⟨hist, hs⟩ := h.shaped
  have hb : (bcacheDirty (c.modify b (fun buf => { buf with data := x })) b).bufs =
      update c.bufs b { c.bufs b with data := x, dirty := true } := by
    simp only [bcacheDirty, Bcache.modify, update_self, update_idem]
  refine h.updateBuf ⟨hist, SameShape.shaped ?_ hs⟩ hb rfl rfl (fun _ => ⟨?_, ?_, fun hn => ?_⟩) (fun k hk => ⟨?_, rfl, ?_⟩)
  · exact (sameShape_modify c b (fun buf => { buf with data := x }) c.disk (fun _ => ⟨rfl, rfl⟩)).trans
      (sameShape_modify _ b (fun buf => { buf with dirty := true }) _ (fun _ => ⟨rfl, rfl⟩))
  · rw [update_self]
  · simp only [update_self, if_true]
  · simp only [update_self] at hn
    cases hn
  · exact update_of_ne (hk hv) _ _
  · exact update_of_ne (hk hv) _ _

/-- A change of the reference count of a buffer. -/
theorem Retained.recount (b : BufPtr) (f : Nat → Nat) :
    Retained dev (c.modify b (fun buf => { buf with refCount := f buf.refCount })) latest := by
  obtain ⟨hist, hs⟩ := h.shaped
  refine h.updateBuf ⟨hist, (sameShape_modify c b (fun buf => { buf with refCount := f buf.refCount }) c.disk (fun _ => ⟨rfl, rfl⟩)).shaped hs⟩ rfl rfl rfl
    (fun hv => ⟨h.data b hv, h.unsaved b hv, h.saved _⟩) (fun k _ => ⟨rfl, rfl, rfl⟩)

/-- `bcache_put` keeps the data, whether or not its write fails. -/
theorem Retained.put (b : BufPtr) : Retained dev (bcachePut (recordDev dev.toBlockDev) c b) latest := by
  have h1 : Retained dev (if (c.bufs b).refCount > 0 then c.modify b (fun buf => { buf with refCount := buf.refCount - 1 }) else c)
      latest := by
    split
    · exact h.recount b (fun n => n - 1)
    · exact h
  unfold bcachePut
  generalize (if (c.bufs b).refCount > 0 then c.modify b (fun buf => { buf with refCount := buf.refCount - 1 }) else c) = c1
    at h1 ⊢
  simp only
  split
  · rename_i hcond
    obtain ⟨_, hv, hd⟩ := hcond
    rcases hw : (recordDev dev.toBlockDev).write c1.disk (c1.bufs b).key (c1.bufs b).data with ⟨disk, _ | _⟩
    · have := h1.write hv hd hw
      have hself : ({ c1.bufs b with dirty := !false } : Buf) = c1.bufs b := by rw [Bool.not_false, ← hd]
      simpa only [Bcache.modify, hself, update_eq_self] using this
    · exact h1.write hv hd hw
  · exact h1

end

/-- The flush loop keeps the data, whether or not a write fails. -/
theorem Retained.flushLoop (sel : Buf → Bool) (bs : List BufPtr) : ∀ {c : Bcache (σ × Unsaved)}, Retained dev c latest →
    Retained dev (flushLoop (recordDev dev.toBlockDev) sel bs c).1 latest := by
  induction bs with
  | nil => exact fun h => h
  | cons b bs ih =>
    intro c h
    rw [TsOs.flushLoop]
    split
    · rename_i hcond
      rw [and_eq_true, and_eq_true] at hcond
      obtain ⟨⟨_, hv⟩, hd⟩ := hcond
      rcases hw : (recordDev dev.toBlockDev).write c.disk (c.bufs b).key (c.bufs b).data with ⟨disk, _ | _⟩
      · have := h.write hv hd hw
        have hself : ({ c.bufs b with dirty := !false } : Buf) = c.bufs b := by rw [Bool.not_false, ← hd]
        simpa only [Bcache.modify, hself, update_eq_self] using this
      · exact ih (h.write hv hd hw)
    · exact ih h

/-! ## Getting a sector -/

/-- When `bcache_get` of `k` has to evict a dirty buffer, the device accepts its data. -/
def VictimSaved (dev : BlockDev σ) (c : Bcache (σ × Unsaved)) (k : SectorKey) : Prop :=
  (∀ b, (c.bufs b).valid = true → (c.bufs b).key ≠ k) → ∀ b, findEvictable c = some (some b) →
    (c.bufs b).valid = true → (c.bufs b).dirty = true → (dev.write c.disk.1 (c.bufs b).key (c.bufs b).data).2 = true

/-- The state when the buffer to evict has been written back: it is as if it had been made clean. -/
theorem Retained.evicted (h : Retained dev c latest)
    (hok : (c.bufs b).valid = true → (c.bufs b).dirty = true → (dev.write c.disk.1 (c.bufs b).key (c.bufs b).data).2 = true) :
    ∃ x, Retained dev { c with bufs := update c.bufs b x
                               disk := (evictWrite (recordDev dev.toBlockDev) c b).disk } latest ∧
      (x.valid = true → x.dirty = false) ∧ x.key = (c.bufs b).key ∧ x.valid = (c.bufs b).valid := by
  by_cases hcond : ((c.bufs b).valid && (c.bufs b).dirty) = true
  · obtain ⟨hv, hd⟩ := and_eq_true_iff.1 hcond
    have hw : (recordDev dev.toBlockDev).write c.disk (c.bufs b).key (c.bufs b).data =
        (((recordDev dev.toBlockDev).write c.disk (c.bufs b).key (c.bufs b).data).1, true) := Prod.ext rfl (hok hv hd)
    refine ⟨{ c.bufs b with dirty := false }, ?_, fun _ => rfl, rfl, rfl⟩
    rw [evictWrite, if_pos hcond]
    exact h.write hv hd hw
  · refine ⟨c.bufs b, ?_, fun hv => ?_, rfl, rfl⟩
    · rw [evictWrite, if_neg hcond, update_eq_self]
      exact h
    · simpa [hv] using hcond

/-- A clean or invalid buffer that now holds the latest bytes of a sector no other one is for. -/
theorem Retained.refill {c' : Bcache (σ × Unsaved)} (h : Retained dev c latest)
    (hclean : (c.bufs b).valid = true → (c.bufs b).dirty = false)
    (hmiss : ∀ b, (c.bufs b).valid = true → (c.bufs b).key ≠ k) (hshape : ∃ hist, Shaped c' hist)
    (hb : c'.bufs = update c.bufs b (filled (c.bufs b) k (some (latest k))))
    (hu : c'.disk.2 = c.disk.2) (hd : dev.sectors c'.disk.1 = dev.sectors c.disk.1) : Retained dev c' latest := by
  have hx : c'.bufs b = filled (c.bufs b) k (some (latest k)) := by rw [hb, update_self]
  have hother : ∀ b', b' ≠ b → c'.bufs b' = c.bufs b' := fun b' hb' => by rw [hb, update_of_ne hb']
  refine ⟨hshape, fun b' hv' => ?_, fun b' hv' => ?_, fun k' hk' => ?_, fun k' hn => ?_⟩
  · by_cases e : b' = b
    · subst e; rw [hx]; rfl
    · rw [hother b' e] at hv' ⊢
      exact h.data b' hv'
  · rw [hu]
    by_cases e : b' = b
    · subst e
      rw [hx]
      exact h.uncached k hmiss
    · rw [hother b' e] at hv' ⊢
      exact h.unsaved b' hv'
  · rw [hu]
    by_cases hvb : (c.bufs b).valid = true ∧ (c.bufs b).key = k'
    · rw [← hvb.2, h.unsaved b hvb.1, hclean hvb.1]
      rfl
    · refine h.uncached k' (fun b' hv e => ?_)
      by_cases eb : b' = b
      · subst eb; exact hvb ⟨hv, e⟩
      · exact hk' b' (by rw [hother b' eb]; exact hv) (by rw [hother b' eb]; exact e)
  · rw [hu] at hn
    rw [hd]
    exact h.saved k' hn

/-- The write of step 3 of `bcache_get` leaves a sector that is not cached as it is. -/
theorem evictWrite_uncached (dev : FlakyDev σ) (c : Bcache (σ × Unsaved)) (b : BufPtr)
    (hmiss : ∀ b, (c.bufs b).valid = true → (c.bufs b).key ≠ k) :
    dev.sectors (evictWrite (recordDev dev.toBlockDev) c b).disk.1 k = dev.sectors c.disk.1 k := by
  unfold evictWrite
  split
  · rename_i hcond
    exact dev.write_other _ _ _ _ (hmiss b (and_eq_true_iff.1 hcond).1).symm
  · rfl

/-- `bcache_get` returns a valid buffer with the latest bytes, if it returns one, and makes no valid buffer invalid; it keeps the
data that is not written yet, unless it evicts it and the device refuses it. -/
theorem Retained.get (h : Retained dev c latest) (k : SectorKey) :
    ∃ c' r, bcacheGet (recordDev dev.toBlockDev) c k = some (c', r) ∧
      (∀ b, r = some b → (c'.bufs b).valid = true ∧ (c'.bufs b).key = k ∧ (c'.bufs b).data = latest k) ∧
      (∀ b, (c.bufs b).valid = true → (c'.bufs b).valid = true) ∧
      (VictimSaved dev.toBlockDev c k → Retained dev c' latest) := by
  obtain ⟨hist, hs⟩ := h.shaped
  obtain ⟨c', r, hist', hget, hend, hs'⟩ := hs.get (recordDev dev.toBlockDev) k
  refine ⟨c', r, hget, ?_⟩
  cases hend with
  | @hit _ b hv hk hb hd =>
    subst hk
    have hx : c'.bufs b = { c.bufs b with refCount := ((c.bufs b).refCount + 1) % 2 ^ 32 } := by rw [hb, update_self]
    refine ⟨fun b' hb' => ?_, fun b' hv' => ?_, fun _ => ?_⟩
    · cases hb'
      rw [hx]
      exact ⟨hv, rfl, h.data b hv⟩
    · by_cases e : b' = b
      · subst e; rw [hx]; exact hv'
      · rw [hb, update_of_ne e]; exact hv'
    · refine h.updateBuf ⟨_, hs'⟩ hb rfl rfl (fun _ => ?_) (fun _ _ => by rw [hd]; exact ⟨rfl, rfl, rfl⟩)
      rw [hd]
      exact ⟨h.data b hv, h.unsaved b hv, h.saved _⟩
  | full => exact ⟨fun b hb => (by cases hb), fun _ hv => hv, fun _ => h⟩
  | @evict _ b hmiss he _ data hread hb =>
    have hread1 : c'.disk = ((dev.read (evictWrite (recordDev dev.toBlockDev) c b).disk.1 k).1,
        (evictWrite (recordDev dev.toBlockDev) c b).disk.2) := (congrArg Prod.fst hread).symm
    have hsec : dev.sectors c'.disk.1 = dev.sectors (evictWrite (recordDev dev.toBlockDev) c b).disk.1 := by
      rw [hread1, dev.read_sectors]
    obtain rfl : data = some (latest k) := by
      rw [← h.saved k (h.uncached k hmiss), ← evictWrite_uncached dev c b hmiss, ← dev.read_ok]
      exact (congrArg Prod.snd hread).symm
    refine ⟨fun b' hb' => ?_, fun b' hv' => ?_, fun hsaved => ?_⟩
    · cases hb'
      rw [hb, update_self]
      exact ⟨rfl, rfl, rfl⟩
    · by_cases e : b' = b
      · subst e; rw [hb, update_self]; rfl
      · rw [hb, update_of_ne e]; exact hv'
    · obtain ⟨x, h1, hclean, hkx, hvx⟩ := h.evicted (hsaved hmiss b he)
      refine h1.refill (b := b) (k := k) ?_ (fun b' hv' => ?_) ⟨_, hs'⟩ ?_ (by rw [hread1]) hsec
      · simpa only [update_self] using hclean
      · by_cases e : b' = b
        · subst e
          simp only [update_self] at hv' ⊢
          rw [hkx]
          exact hmiss b' (hvx ▸ hv')
        · simp only [update_of_ne e] at hv' ⊢
          exact hmiss b' hv'
      · simp only [update_self, update_idem]
        rw [hb]
        rfl

end Saved

end TsOs
