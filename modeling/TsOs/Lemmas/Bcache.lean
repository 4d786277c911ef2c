import TsOs.Lemmas.BcacheShape

/-!
# The buffer cache as an array of sectors

`Cached` says what a state of the cache stands for: the list in order of last use holds every buffer, the chains hold the
valid ones by key, and the buffers and the device together hold the contents `spec` of all sectors: a valid buffer has the
bytes of its sector, and the device has them unless a valid buffer is dirty. Each call is shown to keep this relation.
-/

namespace TsOs

open LinkedList Function List

open BcacheAux

/-! ## What the cache stands for -/

/-- The cache and the device under it hold the contents `spec` of the sectors. -/
structure Cached {σ : Type} (dev : StoreDev σ) (c : Bcache σ) (spec : SectorKey → Sector) : Prop where
  order : ∃ xs, Order c.lru xs ∧ ∀ b, b ∈ xs
  hashed : Hashed c.hash (fun b => (c.bufs b).key) (fun b => (c.bufs b).valid = true)
  inj : ∀ b b', (c.bufs b).valid = true → (c.bufs b').valid = true → (c.bufs b).key = (c.bufs b').key → b = b'
  data : ∀ b, (c.bufs b).valid = true → (c.bufs b).data = spec (c.bufs b).key
  clean : ∀ b, (c.bufs b).valid = true → (c.bufs b).dirty = false →
    dev.sectors c.disk (c.bufs b).key = spec (c.bufs b).key
  uncached : ∀ k, (∀ b, (c.bufs b).valid = true → (c.bufs b).key ≠ k) → dev.sectors c.disk k = spec k

section Calls

variable {σ : Type} {dev : StoreDev σ} {c : Bcache σ} {spec : SectorKey → Sector} {b : BufPtr}

/-- A state in which one buffer has changed, with its key and valid flag as before: the device and the contents change at most
at its sector. -/
theorem Cached.updateBuf {c' : Bcache σ} {spec' : SectorKey → Sector} (h : Cached dev c spec) {x : Buf}
    (hb : c'.bufs = update c.bufs b x) (ho : ∃ xs, Order c'.lru xs ∧ ∀ b, b ∈ xs) (hh : c'.hash = c.hash)
    (hk : x.key = (c.bufs b).key) (hv : x.valid = (c.bufs b).valid)
    (hd : (c.bufs b).valid = true → x.data = spec' (c.bufs b).key)
    (hc : (c.bufs b).valid = true → x.dirty = false → dev.sectors c'.disk (c.bufs b).key = spec' (c.bufs b).key)
    (hsame : ∀ k, ((c.bufs b).valid = true → k ≠ (c.bufs b).key) →
      dev.sectors c'.disk k = dev.sectors c.disk k ∧ spec' k = spec k) :
    Cached dev c' spec' := by
  have hself : c'.bufs b = x := by rw [hb, update_self]
  have hother : ∀ b', b' ≠ b → c'.bufs b' = c.bufs b' := fun b' hb' => by rw [hb, update_of_ne hb']
  have hkey : ∀ b', (c'.bufs b').key = (c.bufs b').key := by
    intro b'
    by_cases e : b' = b
    · subst e; rw [hself, hk]
    · rw [hother b' e]
  have hvalid : ∀ b', (c'.bufs b').valid = (c.bufs b').valid := by
    intro b'
    by_cases e : b' = b
    · subst e; rw [hself, hv]
    · rw [hother b' e]
  -- the sector of another valid buffer is not that of `b`
  have hne : ∀ b', b' ≠ b → (c.bufs b').valid = true → (c.bufs b).valid = true → (c.bufs b').key ≠ (c.bufs b).key :=
    fun b' e hv' hvb he => e (h.inj b' b hv' hvb he)
  refine ⟨ho, ?_, fun b1 b2 h1 h2 he => ?_, fun b' hv' => ?_, fun b' hv' hd' => ?_, fun k hk' => ?_⟩
  · rw [hh]
    exact h.hashed.congr (fun b' _ => hkey b') (fun b' => by rw [hvalid b'])
  · rw [hvalid] at h1 h2
    rw [hkey, hkey] at he
    exact h.inj b1 b2 h1 h2 he
  · rw [hvalid] at hv'
    rw [hkey]
    by_cases e : b' = b
    · subst e; rw [hself]; exact hd hv'
    · rw [hother b' e, (hsame _ (hne b' e hv')).2]
      exact h.data b' hv'
  · rw [hvalid] at hv'
    rw [hkey]
    by_cases e : b' = b
    · subst e; rw [hself] at hd'; exact hc hv' hd'
    · rw [hother b' e] at hd'
      rw [(hsame _ (hne b' e hv')).1, (hsame _ (hne b' e hv')).2]
      exact h.clean b' hv' hd'
  · have hk'' : ∀ b', (c.bufs b').valid = true → (c.bufs b').key ≠ k := fun b' hv' => hkey b' ▸ hk' b' (by rw [hvalid]; exact hv')
    have hs := hsame k (fun hvb e => hk'' b hvb e.symm)
    rw [hs.1, hs.2]
    exact h.uncached k hk''

/-- The list and the chains of a cache, in the order of some touches. -/
theorem Cached.shaped (h : Cached dev c spec) : ∃ hist, Shaped c hist := by
  obtain ⟨xs, ho, hall⟩ := h.order
  have hrec := Recency.ordered_reverse (nodup_reverse.2 ho.fwd.nodup)
  rw [reverse_reverse] at hrec
  exact ⟨xs.reverse, ⟨xs, ho, hall, hrec⟩, h.hashed, h.inj⟩

/-- The contents, put together from the shape and from what the buffers and the device hold. -/
theorem Shaped.cached {hist : List BufPtr} (h : Shaped c hist)
    (hdata : ∀ b, (c.bufs b).valid = true → (c.bufs b).data = spec (c.bufs b).key)
    (hclean : ∀ b, (c.bufs b).valid = true → (c.bufs b).dirty = false →
      dev.sectors c.disk (c.bufs b).key = spec (c.bufs b).key)
    (huncached : ∀ k, (∀ b, (c.bufs b).valid = true → (c.bufs b).key ≠ k) → dev.sectors c.disk k = spec k) :
    Cached dev c spec := by
  obtain ⟨xs, ho, hall, _⟩ := h.order
  exact ⟨⟨xs, ho, hall⟩, h.hashed, h.inj, hdata, hclean, huncached⟩

/-- After `bcache_init` the contents are those of the device. -/
theorem cached_init (dev : StoreDev σ) (disk : σ) : Cached dev (bcacheInit disk) (dev.sectors disk) :=
  (shaped_init disk).cached (fun _ h => by simp [bcacheInit] at h) (fun _ h => by simp [bcacheInit] at h) (fun _ _ => rfl)

section

variable (h : Cached dev c spec)
include h

/-- `bcache_get` of a sector that is cached takes a reference to its buffer. -/
theorem Cached.get_hit (hb : (c.bufs b).valid = true) :
    ∃ c', bcacheGet dev.toBlockDev c (c.bufs b).key = some (c', some b) ∧ Cached dev c' spec ∧
      c'.bufs = update c.bufs b { c.bufs b with refCount := ((c.bufs b).refCount + 1) % 2 ^ 32 } := by
  obtain ⟨hist, hs⟩ := h.shaped
  obtain ⟨xs, ho, hall, _⟩ := ordered_touch hs.order b
  refine ⟨{ c.modify b (fun buf => { buf with refCount := (buf.refCount + 1) % 2 ^ 32 }) with lru := lruTouch c.lru b },
    by simp only [bcacheGet, hashFind_some h.hashed h.inj hb], ?_, rfl⟩
  exact h.updateBuf rfl ⟨xs, ho, hall⟩ rfl rfl rfl (h.data b) (h.clean b) (fun _ _ => ⟨rfl, rfl⟩)

/-- The device after the write of step 3 of `bcache_get`: it has the sector of the evicted buffer, and the others as before. -/
theorem Cached.evictWrite_sectors (b : BufPtr) :
    ((c.bufs b).valid = true → dev.sectors (evictWrite dev.toBlockDev c b).disk (c.bufs b).key = spec (c.bufs b).key) ∧
      ∀ k, ((c.bufs b).valid = true → k ≠ (c.bufs b).key) →
        dev.sectors (evictWrite dev.toBlockDev c b).disk k = dev.sectors c.disk k := by
  unfold evictWrite
  split
  · rename_i hw
    rw [Bool.and_eq_true] at hw
    refine ⟨fun hv => ?_, fun k hk => ?_⟩
    · simp only [dev.write_sectors, update_self]
      exact h.data b hv
    · simp only [dev.write_sectors, update_of_ne (hk hw.1)]
  · rename_i hw
    rw [Bool.and_eq_true, not_and, Bool.not_eq_true] at hw
    exact ⟨fun hv => h.clean b hv (hw hv), fun _ _ => rfl⟩

/-- `bcache_get` of a sector that is not cached reads it into an unreferenced buffer, if there is one. -/
theorem Cached.get_miss {k : SectorKey} (hk : ∀ b, (c.bufs b).valid = true → (c.bufs b).key ≠ k) :
    (bcacheGet dev.toBlockDev c k = some (c, none) ∧ ∀ b, (c.bufs b).refCount ≠ 0) ∨
      ∃ c' b, bcacheGet dev.toBlockDev c k = some (c', some b) ∧ (c.bufs b).refCount = 0 ∧ Cached dev c' spec ∧
        c'.bufs = update c.bufs b { data := spec k, key := k, valid := true, dirty := false, refCount := 1 } := by
  obtain ⟨hist, hs⟩ := h.shaped
  obtain ⟨c', r, hist', hget, hend, hs'⟩ := hs.get dev.toBlockDev k
  cases hend with
  | hit hv hkey => exact absurd hkey (hk _ hv)
  | full _ hall => exact Or.inl ⟨hget, hall⟩
  | @evict _ b _ _ hold data hread hb =>
    obtain ⟨hwritten, hsame⟩ := h.evictWrite_sectors b
    -- the read returns the contents of the sector, which the device has since the sector is not cached
    have hkeep : dev.sectors (evictWrite dev.toBlockDev c b).disk k = spec k := by
      rw [hsame k (fun hv e => hk b hv e.symm)]
      exact h.uncached k hk
    have hdata : data = some (spec k) := by
      rw [← hkeep, ← dev.read_ok, hread]
    have hdisk : dev.sectors c'.disk = dev.sectors (evictWrite dev.toBlockDev c b).disk := by
      have := dev.read_sectors (evictWrite dev.toBlockDev c b).disk k
      rwa [hread] at this
    subst hdata
    have hself : c'.bufs b = { data := spec k, key := k, valid := true, dirty := false, refCount := 1 } := by
      rw [hb, update_self, filled]
    have hother : ∀ b', b' ≠ b → c'.bufs b' = c.bufs b' := fun b' hb' => by rw [hb, update_of_ne hb']
    refine Or.inr ⟨c', b, hget, hold.1, hs'.cached (fun b' hv => ?_) (fun b' hv hd => ?_) (fun k' hk' => ?_), hb⟩
    · by_cases e : b' = b
      · subst e; rw [hself]
      · rw [hother b' e] at hv ⊢
        exact h.data b' hv
    · rw [hdisk]
      by_cases e : b' = b
      · subst e; rw [hself]; exact hkeep
      · rw [hother b' e] at hv hd ⊢
        rw [hsame _ (fun hvb heq => e (h.inj b' b hv hvb heq))]
        exact h.clean b' hv hd
    · rw [hdisk]
      by_cases hvb : (c.bufs b).valid = true ∧ (c.bufs b).key = k'
      · rw [← hvb.2]
        exact hwritten hvb.1
      · rw [hsame k' (fun hv e => hvb ⟨hv, e.symm⟩)]
        refine h.uncached k' (fun b' hv e => ?_)
        by_cases eb : b' = b
        · subst eb; exact hvb ⟨hv, e⟩
        · exact hk' b' (by rw [hother b' eb]; exact hv) (by rw [hother b' eb]; exact e)

/-- Writing the sector of a valid buffer and clearing its dirty flag, as `bcache_put` and the flush loops do. -/
theorem Cached.writeBack (hv : (c.bufs b).valid = true) :
    ∃ disk, dev.write c.disk (c.bufs b).key (c.bufs b).data = (disk, true) ∧
      Cached dev { c.modify b (fun buf => { buf with dirty := false }) with disk := disk } spec := by
  refine ⟨(dev.write c.disk (c.bufs b).key (c.bufs b).data).1, Prod.ext rfl (dev.write_ok _ _ _), ?_⟩
  have hsec := dev.write_sectors c.disk (c.bufs b).key (c.bufs b).data
  refine h.updateBuf rfl h.order rfl rfl rfl (h.data b) (fun _ _ => ?_) (fun k hk => ⟨?_, rfl⟩)
  · rw [hsec, update_self]
    exact h.data b hv
  · rw [hsec, update_of_ne (hk hv)]

/-- In-place modification of a valid buffer, then `bcache_dirty`. -/
theorem Cached.modifyDirty (hv : (c.bufs b).valid = true) (x : Sector) :
    Cached dev (bcacheDirty (c.modify b (fun buf => { buf with data := x })) b) (update spec (c.bufs b).key x) := by
  have hb : (bcacheDirty (c.modify b (fun buf => { buf with data := x })) b).bufs =
      update c.bufs b { c.bufs b with data := x, dirty := true } := by
    simp [bcacheDirty, Bcache.modify]
  refine h.updateBuf hb h.order rfl rfl rfl (fun _ => by rw [update_self]) (fun _ hd => by cases hd)
    (fun k hk => ⟨rfl, update_of_ne (hk hv) _ _⟩)

end

/-- Two states of the cache with the same keys, valid flags and reference counts. -/
def SameRefs (c c' : Bcache σ) : Prop :=
  ∀ b, (c'.bufs b).key = (c.bufs b).key ∧ (c'.bufs b).valid = (c.bufs b).valid ∧ (c'.bufs b).refCount = (c.bufs b).refCount

theorem SameRefs.trans {c c' c'' : Bcache σ} (h : SameRefs c c') (h' : SameRefs c' c'') : SameRefs c c'' :=
  fun b => ⟨(h' b).1.trans (h b).1, (h' b).2.1.trans (h b).2.1, (h' b).2.2.trans (h b).2.2⟩

/-- A buffer changed in its data and dirty flag only. -/
theorem sameRefs_modify (c : Bcache σ) (b : BufPtr) {f : Buf → Buf} (disk : σ)
    (hf : ∀ x, (f x).key = x.key ∧ (f x).valid = x.valid ∧ (f x).refCount = x.refCount) :
    SameRefs c { c.modify b f with disk := disk } := by
  intro b'
  by_cases e : b' = b
  · subst e; simpa only [Bcache.modify, update_self] using hf (c.bufs b')
  · simp [Bcache.modify, update_of_ne e]

/-- `bcache_put` gives back one reference. -/
theorem Cached.put (h : Cached dev c spec) (b : BufPtr) : Cached dev (bcachePut dev.toBlockDev c b) spec ∧
    SameRefs (c.modify b (fun buf => { buf with refCount := buf.refCount - 1 })) (bcachePut dev.toBlockDev c b) := by
  set c1 := c.modify b (fun buf => { buf with refCount := buf.refCount - 1 }) with hc1
  have hdec : (if (c.bufs b).refCount > 0 then c1 else c) = c1 := by
    split
    · rfl
    · rename_i hz
      have hself : ({ c.bufs b with refCount := (c.bufs b).refCount - 1 } : Buf) = c.bufs b := by
        rw [show (c.bufs b).refCount - 1 = (c.bufs b).refCount by omega]
      simp [hc1, Bcache.modify, hself]
  have h1 : Cached dev c1 spec :=
    h.updateBuf rfl h.order rfl rfl rfl (h.data b) (h.clean b) (fun _ _ => ⟨rfl, rfl⟩)
  unfold bcachePut
  rw [hdec]
  clear_value c1
  simp only
  split
  · rename_i hw
    obtain ⟨disk, hwrite, h2⟩ := h1.writeBack hw.2.1
    simp only [hwrite]
    exact ⟨h2, sameRefs_modify c1 b disk (fun _ => ⟨rfl, rfl, rfl⟩)⟩
  · exact ⟨h1, fun _ => ⟨rfl, rfl, rfl⟩⟩

/-- The flush loop writes every dirty buffer it selects and cleans it. -/
theorem Cached.flushLoop {sel : Buf → Bool} (hsel : ∀ x y : Buf, x.key = y.key → sel x = sel y) {bs : List BufPtr} :
    ∀ {c : Bcache σ}, Cached dev c spec → ∃ c', flushLoop dev.toBlockDev sel bs c = (c', true) ∧ Cached dev c' spec ∧
      SameRefs c c' ∧ (∀ b, (c.bufs b).dirty = false → (c'.bufs b).dirty = false) ∧
      ∀ b ∈ bs, sel (c.bufs b) = true → (c.bufs b).valid = true → (c'.bufs b).dirty = false := by
  induction bs with
  | nil => exact fun {c} h => ⟨c, rfl, h, fun _ => ⟨rfl, rfl, rfl⟩, fun _ hd => hd, by simp⟩
  | cons b bs ih =>
    intro c h
    rw [TsOs.flushLoop]
    split
    · rename_i hw
      rw [Bool.and_eq_true, Bool.and_eq_true] at hw
      obtain ⟨disk, hwrite, h1⟩ := h.writeBack hw.1.2
      rw [hwrite]
      have hs1 : SameRefs c { c.modify b (fun buf => { buf with dirty := false }) with disk := disk } :=
        sameRefs_modify c b disk (fun _ => ⟨rfl, rfl, rfl⟩)
      have hd1 : ∀ b', (c.bufs b').dirty = false ∨ b' = b →
          ((c.modify b (fun buf => { buf with dirty := false })).bufs b').dirty = false := by
        intro b' hb'
        by_cases e : b' = b
        · subst e; simp only [Bcache.modify, update_self]
        · simpa only [Bcache.modify, update_of_ne e] using hb'.resolve_right e
      obtain ⟨c', hf, h', hs, hd, hclean⟩ := ih h1
      refine ⟨c', hf, h', hs1.trans hs, fun b' hb' => hd b' (hd1 b' (Or.inl hb')), fun b' hb' hsl hv => ?_⟩
      rcases mem_cons.1 hb' with rfl | hb'
      · exact hd b' (hd1 b' (Or.inr rfl))
      · exact hclean b' hb' ((hsel _ _ (hs1 b').1).trans hsl) ((hs1 b').2.1.trans hv)
    · rename_i hw
      obtain ⟨c', hf, h', hs, hd, hclean⟩ := ih h
      refine ⟨c', hf, h', hs, hd, fun b' hb' hsl hv => ?_⟩
      rcases mem_cons.1 hb' with rfl | hb'
      · rw [hsl, hv, Bool.and_self, Bool.true_and, Bool.not_eq_true] at hw
        exact hd b' hw
      · exact hclean b' hb' hsl hv

/-- `bcache_flush_dev` succeeds and changes no contents. -/
theorem Cached.flushDev (h : Cached dev c spec) (d : BitVec 8) : ∃ c', bcacheFlushDev dev.toBlockDev c d = (c', true) ∧
    Cached dev c' spec ∧ SameRefs c c' := by
  obtain ⟨c', hf, h', hs, _⟩ := Cached.flushLoop (fun x y e => show (x.key.dev == d) = (y.key.dev == d) by rw [e]) h
  exact ⟨c', hf, h', hs⟩

/-- `bcache_flush_all` succeeds, changes no contents, and leaves them all on the device. -/
theorem Cached.flushAll (h : Cached dev c spec) : ∃ c', bcacheFlushAll dev.toBlockDev c = (c', true) ∧
    Cached dev c' spec ∧ SameRefs c c' ∧ dev.sectors c'.disk = spec := by
  obtain ⟨c', hf, h', hs, _, hclean⟩ := Cached.flushLoop (fun _ _ _ => (rfl : true = true)) h
  refine ⟨c', hf, h', hs, funext fun k => ?_⟩
  by_cases hk : ∃ b, (c'.bufs b).valid = true ∧ (c'.bufs b).key = k
  · obtain ⟨b, hv, rfl⟩ := hk
    exact h'.clean b hv (hclean b (mem_finRange b) rfl ((hs b).2.1.symm.trans hv))
  · exact h'.uncached k (fun b hv e => hk ⟨b, hv, e⟩)

end Calls

end TsOs
