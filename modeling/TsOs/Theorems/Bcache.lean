import TsOs.Lemmas.Bcache

/-!
# The buffer cache over whole runs

Runs of `bcache_get`, in-place modification of a held buffer, `bcache_put` and the flush calls, over any device that behaves as
an array of sectors. A caller holds the references it got and has not put back; the contents of the sectors are those of the
device at the start, with each modification applied to the sector the reference was got for.
-/

namespace TsOs

open BcacheAux Function List Option

/-- The cache with the references held and the contents of the sectors as the callers wrote them. -/
structure BcacheRun (σ : Type) where
  cache : Bcache σ
  held : List BufRef
  spec : SectorKey → Sector

/-- The calls. `modify` stands for the writes of a holder to the data of its buffer, and the `bcache_dirty` after them. -/
inductive BcacheOp where
  | get (k : SectorKey)
  | modify (r : BufRef) (x : Sector)
  | put (r : BufRef)
  | flushDev (devId : BitVec 8)
  | flushAll

variable {σ : Type}

/-- One call. -/
def BcacheOp.run (dev : BlockDev σ) (s : BcacheRun σ) : BcacheOp → Option (BcacheRun σ)
  | .get k => (bcacheGet dev s.cache k).map fun
    | (c, some b) => { s with cache := c, held := ⟨b, k⟩ :: s.held }
    | (c, none) => { s with cache := c }
  | .modify r x =>
    some { s with
      cache := bcacheDirty (s.cache.modify r.buf (fun buf => { buf with data := x })) r.buf
      spec := Function.update s.spec r.key x }
  | .put r => some { s with cache := bcachePut dev s.cache r.buf, held := s.held.erase r }
  | .flushDev d => some { s with cache := (bcacheFlushDev dev s.cache d).1 }
  | .flushAll => some { s with cache := (bcacheFlushAll dev s.cache).1 }

/-- A sequence of calls, one after the other. -/
def runBcache (dev : BlockDev σ) (s : BcacheRun σ) : List BcacheOp → Option (BcacheRun σ)
  | [] => some s
  | op :: ops => (op.run dev s).bind (fun s' => runBcache dev s' ops)

/-- The state after `bcache_init`. -/
def bcacheStart (dev : StoreDev σ) (disk : σ) : BcacheRun σ :=
  { cache := bcacheInit disk, held := [], spec := dev.sectors disk }

/-- The calls a caller may make: it modifies and puts back only references it holds. -/
def BcacheOp.OnHeld (s : BcacheRun σ) : BcacheOp → Prop
  | .modify r _ => r ∈ s.held
  | .put r => r ∈ s.held
  | _ => True

/-- A call after which fewer than `2 ^ 32` references to any one sector are held. -/
def BcacheOp.Bounded (s : BcacheRun σ) : BcacheOp → Prop
  | .get k => s.held.countP (fun r => r.key == k) + 1 < 2 ^ 32
  | _ => True

/-- A run each call of which satisfies `P` in the state it is made in. -/
def EachCall (dev : BlockDev σ) (P : BcacheRun σ → BcacheOp → Prop) : BcacheRun σ → List BcacheOp → Prop
  | _, [] => True
  | s, op :: ops => P s op ∧ ∀ s', op.run dev s = some s' → EachCall dev P s' ops

/-- The invariant of a run: the cache holds the contents, and a held reference pins the buffer of its sector, which counts
every reference to it. -/
structure BcacheInv (dev : StoreDev σ) (s : BcacheRun σ) : Prop where
  cached : Cached dev s.cache s.spec
  pinned : ∀ r ∈ s.held, (s.cache.bufs r.buf).valid = true ∧ (s.cache.bufs r.buf).key = r.key
  counted : ∀ b, (s.cache.bufs b).refCount = s.held.countP (fun r => r.buf == b)

variable {dev : StoreDev σ} {s : BcacheRun σ} {b : BufPtr} {spec : SectorKey → Sector}

/-- The references to a cached sector are those to its buffer. -/
theorem BcacheInv.countP_key (h : BcacheInv dev s)
    (hv : (s.cache.bufs b).valid = true) :
    s.held.countP (fun r => r.key == (s.cache.bufs b).key) = s.held.countP (fun r => r.buf == b) := by
  refine countP_congr (fun r hr => ?_)
  obtain ⟨hvr, hkr⟩ := h.pinned r hr
  rw [beq_iff_eq, beq_iff_eq, ← hkr]
  exact ⟨fun e => h.cached.inj r.buf b hvr hv e, fun e => by rw [e]⟩

/-- The invariant after a call that changes no key, no valid flag and no reference count. -/
theorem BcacheInv.congr {s s' : BcacheRun σ} (h : BcacheInv dev s) (hc : Cached dev s'.cache s'.spec)
    (hs : SameRefs s.cache s'.cache) (hh : s'.held = s.held) : BcacheInv dev s' where
  cached := hc
  pinned r hr := by
    rw [hh] at hr
    rw [(hs r.buf).1, (hs r.buf).2.1]
    exact h.pinned r hr
  counted b := by rw [(hs b).2.2, hh]; exact h.counted b

/-- What `bcache_get` returns for a sector is a buffer with its key and its contents, or nothing. -/
theorem Cached.get {c : Bcache σ} (h : Cached dev c spec) (k : SectorKey) :
    ∃ c' r, bcacheGet dev.toBlockDev c k = some (c', r) ∧ Cached dev c' spec ∧
      ∀ b, r = some b → (c'.bufs b).key = k ∧ (c'.bufs b).data = spec k := by
  by_cases hk : ∃ b, (c.bufs b).valid = true ∧ (c.bufs b).key = k
  · obtain ⟨b, hv, rfl⟩ := hk
    obtain ⟨c', hget, hc, hb⟩ := h.get_hit hv
    refine ⟨c', some b, hget, hc, fun b' e => ?_⟩
    cases e
    rw [hb, update_self]
    exact ⟨rfl, h.data b hv⟩
  · rcases h.get_miss (fun b hv e => hk ⟨b, hv, e⟩) with ⟨hget, _⟩ | ⟨c', b, hget, _, hc, hb⟩
    · exact ⟨c, none, hget, h, by simp⟩
    · refine ⟨c', some b, hget, hc, fun b' e => ?_⟩
      cases e
      rw [hb, update_self]
      exact ⟨rfl, rfl⟩

theorem Cached.of_get {c c' : Bcache σ} {k : SectorKey} {r : Option BufPtr}
    (h : Cached dev c spec) (hget : bcacheGet dev.toBlockDev c k = some (c', r)) : Cached dev c' spec := by
  obtain ⟨c'', r', hget', h', _⟩ := h.get k
  rw [hget] at hget'
  obtain ⟨rfl, rfl⟩ := Prod.mk.injEq .. ▸ some.inj hget'
  exact h'

/-- `bcache_get` keeps the invariant while fewer than `2 ^ 32` references to the sector are held. -/
theorem BcacheInv.get (h : BcacheInv dev s) {k : SectorKey}
    (hlt : s.held.countP (fun r => r.key == k) + 1 < 2 ^ 32) :
    ∃ s', BcacheOp.run dev.toBlockDev s (.get k) = some s' ∧ BcacheInv dev s' := by
  by_cases hk : ∃ b, (s.cache.bufs b).valid = true ∧ (s.cache.bufs b).key = k
  · obtain ⟨b, hv, rfl⟩ := hk
    obtain ⟨c', hget, hc, hb⟩ := h.cached.get_hit hv
    rw [h.countP_key hv] at hlt
    refine ⟨_, by rw [BcacheOp.run, hget, map_some], hc, fun r hr => ?_, fun b' => ?_⟩
    · have hpin : (s.cache.bufs r.buf).valid = true ∧ (s.cache.bufs r.buf).key = r.key := by
        rcases mem_cons.1 hr with rfl | hr
        · exact ⟨hv, rfl⟩
        · exact h.pinned r hr
      simp only [hb]
      by_cases e : r.buf = b
      · rw [e, update_self, ← e]; exact hpin
      · rw [update_of_ne e]; exact hpin
    · simp only [hb, countP_cons]
      by_cases e : b' = b
      · subst e
        simp only [update_self, beq_self_eq_true, if_true, h.counted b']
        exact Nat.mod_eq_of_lt hlt
      · have hne : (b == b') = false := by rw [beq_eq_false_iff_ne]; exact fun he => e he.symm
        simp [update_of_ne e, hne, h.counted b']
  · rcases h.cached.get_miss (fun b hv e => hk ⟨b, hv, e⟩) with ⟨hget, _⟩ | ⟨c', b, hget, href, hc, hb⟩
    · exact ⟨s, by rw [BcacheOp.run, hget, map_some], h⟩
    -- the buffer taken has no reference, so no held one is to it
    have hfree : ∀ r ∈ s.held, r.buf ≠ b := by
      intro r hr e
      rw [h.counted b, countP_eq_zero] at href
      exact href r hr (by rw [e, beq_self_eq_true])
    refine ⟨_, by rw [BcacheOp.run, hget, map_some], hc, fun r hr => ?_, fun b' => ?_⟩
    · simp only [hb]
      rcases mem_cons.1 hr with rfl | hr
      · simp
      · rw [update_of_ne (hfree r hr)]; exact h.pinned r hr
    · simp only [hb, countP_cons]
      by_cases e : b' = b
      · subst e
        rw [h.counted b'] at href
        simp [href]
      · have hne : (b == b') = false := by rw [beq_eq_false_iff_ne]; exact fun he => e he.symm
        simp [update_of_ne e, hne, h.counted b']

theorem BcacheInv.put (h : BcacheInv dev s) {r : BufRef} (hr : r ∈ s.held) :
    BcacheInv dev { s with cache := bcachePut dev.toBlockDev s.cache r.buf, held := s.held.erase r } := by
  obtain ⟨hc, hs⟩ := h.cached.put r.buf
  set c := s.cache.modify r.buf (fun buf => { buf with refCount := buf.refCount - 1 }) with hcache
  have hself : ∀ b, (c.bufs b).key = (s.cache.bufs b).key ∧ (c.bufs b).valid = (s.cache.bufs b).valid ∧
      (c.bufs b).refCount = if b = r.buf then (s.cache.bufs b).refCount - 1 else (s.cache.bufs b).refCount := by
    intro b
    by_cases e : b = r.buf
    · subst e; simp [hcache, Bcache.modify]
    · simp [hcache, Bcache.modify, e]
  refine ⟨hc, fun q hq => ?_, fun b => ?_⟩
  · rw [(hs q.buf).1, (hs q.buf).2.1, (hself q.buf).1, (hself q.buf).2.1]
    exact h.pinned q (mem_of_mem_erase hq)
  · have hcount := (perm_cons_erase hr).countP_eq (fun q => q.buf == b)
    rw [countP_cons] at hcount
    rw [(hs b).2.2, (hself b).2.2, h.counted b, hcount]
    by_cases e : b = r.buf
    · subst e; simp
    · have hne : (r.buf == b) = false := by rw [beq_eq_false_iff_ne]; exact fun he => e he.symm
      simp [e, hne]

theorem BcacheInv.step (h : BcacheInv dev s) {op : BcacheOp} (hh : op.OnHeld s)
    (hb : op.Bounded s) : ∃ s', op.run dev.toBlockDev s = some s' ∧ BcacheInv dev s' := by
  cases op with
  | get k => exact h.get hb
  | modify r x =>
    obtain ⟨hv, hk⟩ := h.pinned r hh
    have hc := h.cached.modifyDirty hv x
    rw [hk] at hc
    refine ⟨_, rfl, h.congr hc (fun b => ?_) rfl⟩
    by_cases e : b = r.buf
    · subst e; simp [bcacheDirty, Bcache.modify]
    · simp [bcacheDirty, Bcache.modify, update_of_ne e]
  | put r => exact ⟨_, rfl, h.put hh⟩
  | flushDev d =>
    obtain ⟨c', hf, hc, hs⟩ := h.cached.flushDev d
    exact ⟨_, rfl, h.congr (by rw [hf]; exact hc) (by rw [hf]; exact hs) rfl⟩
  | flushAll =>
    obtain ⟨c', hf, hc, hs, _⟩ := h.cached.flushAll
    exact ⟨_, rfl, h.congr (by rw [hf]; exact hc) (by rw [hf]; exact hs) rfl⟩

theorem BcacheInv.run {ops : List BcacheOp} : ∀ {s : BcacheRun σ}, BcacheInv dev s →
    EachCall dev.toBlockDev (fun s op => op.OnHeld s ∧ op.Bounded s) s ops →
    ∃ s', runBcache dev.toBlockDev s ops = some s' ∧ BcacheInv dev s' := by
  induction ops with
  | nil => exact fun {s} h _ => ⟨s, rfl, h⟩
  | cons op ops ih =>
    intro s h ha
    obtain ⟨s1, hs, h1⟩ := h.step ha.1.1 ha.1.2
    obtain ⟨s', hr, h'⟩ := ih h1 (ha.2 s1 hs)
    exact ⟨s', by rw [runBcache, hs]; exact hr, h'⟩

/-- After `bcache_init` and any run that modifies and puts back held references only, and holds fewer than `2 ^ 32` references
to any one sector at a time, every buffer `bcache_get` returns has the contents of its sector, as last written or as on the
device at the start, and `bcache_flush_all` succeeds and leaves those contents on the device. -/
theorem bcache_refines_array (dev : StoreDev σ) (disk : σ) (ops : List BcacheOp)
    (ha : EachCall dev.toBlockDev (fun s op => op.OnHeld s ∧ op.Bounded s) (bcacheStart dev disk) ops) :
    ∃ s, runBcache dev.toBlockDev (bcacheStart dev disk) ops = some s ∧
      (∀ k, ∃ c r, bcacheGet dev.toBlockDev s.cache k = some (c, r) ∧
        ∀ b, r = some b → (c.bufs b).key = k ∧ (c.bufs b).data = s.spec k) ∧
      (bcacheFlushAll dev.toBlockDev s.cache).2 = true ∧
      dev.sectors (bcacheFlushAll dev.toBlockDev s.cache).1.disk = s.spec := by
  have h0 : BcacheInv dev (bcacheStart dev disk) :=
    ⟨cached_init dev disk, by simp [bcacheStart], fun b => by simp [bcacheStart, bcacheInit]⟩
  obtain ⟨s, hr, h⟩ := h0.run ha
  obtain ⟨c', hf, _, _, hd⟩ := h.cached.flushAll
  refine ⟨s, hr, fun k => ?_, by rw [hf], by rw [hf]; exact hd⟩
  obtain ⟨c, r, hget, _, hdata⟩ := h.cached.get k
  exact ⟨c, r, hget, hdata⟩

/-- A run that gets a sector, modifies it, puts it back and flushes. -/
theorem bcache_refines_array_one_sector :
    ∃ b s, runBcache arrayDev.toBlockDev (bcacheStart arrayDev (fun _ _ => 0#8))
        [.get ⟨0#8, 7#32⟩, .modify ⟨b, ⟨0#8, 7#32⟩⟩ (fun _ => 1#8), .put ⟨b, ⟨0#8, 7#32⟩⟩, .flushAll] = some s ∧
      (∀ k, ∃ c r, bcacheGet arrayDev.toBlockDev s.cache k = some (c, r) ∧
        ∀ b, r = some b → (c.bufs b).key = k ∧ (c.bufs b).data = s.spec k) ∧
      (bcacheFlushAll arrayDev.toBlockDev s.cache).2 = true ∧
      arrayDev.sectors (bcacheFlushAll arrayDev.toBlockDev s.cache).1.disk = s.spec := by
  have hheld : ∀ s ∈ BcacheOp.run arrayDev.toBlockDev (bcacheStart arrayDev (fun _ _ => 0#8)) (.get ⟨0#8, 7#32⟩),
      ⟨127, ⟨0#8, 7#32⟩⟩ ∈ s.held := by decide +kernel
  refine ⟨127, bcache_refines_array arrayDev _ _ ⟨⟨trivial, by simp [BcacheOp.Bounded, bcacheStart]⟩, fun s1 h1 => ?_⟩⟩
  refine ⟨⟨hheld s1 h1, trivial⟩, fun s2 h2 => ?_⟩
  cases h2
  exact ⟨⟨hheld s1 h1, trivial⟩, fun _ _ => ⟨⟨trivial, trivial⟩, fun _ _ => trivial⟩⟩

/-! ## References that wrap around -/

theorem runBcache_append (dev : BlockDev σ) (s : BcacheRun σ) (ops ops' : List BcacheOp) :
    runBcache dev s (ops ++ ops') = (runBcache dev s ops).bind (fun s' => runBcache dev s' ops') := by
  induction ops generalizing s with
  | nil => rfl
  | cons op ops ih =>
    simp only [cons_append, runBcache, bind_assoc]
    congr 1
    funext s'
    exact ih s'

theorem eachCall_append {dev : BlockDev σ} {P : BcacheRun σ → BcacheOp → Prop} {ops ops' : List BcacheOp}
    (h : EachCall dev P s ops) (h' : ∀ s', runBcache dev s ops = some s' → EachCall dev P s' ops') :
    EachCall dev P s (ops ++ ops') := by
  induction ops generalizing s with
  | nil => exact h' s rfl
  | cons op ops ih =>
    refine ⟨h.1, fun s' hs => ih (h.2 s' hs) (fun s'' hr => h' s'' ?_)⟩
    rw [runBcache, hs]
    exact hr

theorem eachCall_gets (dev : BlockDev σ) (s : BcacheRun σ) (ks : List SectorKey) :
    EachCall dev (fun s op => op.OnHeld s) s (ks.map BcacheOp.get) := by
  induction ks generalizing s with
  | nil => trivial
  | cons k ks ih => exact ⟨trivial, fun s' _ => ih s'⟩

/-- Further gets of a cached sector only count up its buffer, modulo `2 ^ 32`. -/
theorem Cached.gets {c : Bcache σ} (h : Cached dev c spec)
    (hv : (c.bufs b).valid = true) (held : List BufRef) (n : Nat) (hlt : (c.bufs b).refCount < 2 ^ 32) :
    ∃ c' held', runBcache dev.toBlockDev ⟨c, held, spec⟩ ((List.replicate n (c.bufs b).key).map BcacheOp.get) =
        some ⟨c', held', spec⟩ ∧ Cached dev c' spec ∧ (∀ r ∈ held, r ∈ held') ∧
      c'.bufs = update c.bufs b { c.bufs b with refCount := ((c.bufs b).refCount + n) % 2 ^ 32 } := by
  induction n with
  | zero =>
    refine ⟨c, held, rfl, h, fun _ hr => hr, ?_⟩
    rw [Nat.add_zero, Nat.mod_eq_of_lt hlt, update_eq_self_iff.2 rfl]
  | succ n ih =>
    obtain ⟨c1, held1, hr, h1, hsub, hb1⟩ := ih
    have hself : c1.bufs b = { c.bufs b with refCount := ((c.bufs b).refCount + n) % 2 ^ 32 } := by
      rw [hb1, update_self]
    obtain ⟨c2, hget, h2, hb2⟩ := h1.get_hit (b := b) (by rw [hself]; exact hv)
    have hkey : (c1.bufs b).key = (c.bufs b).key := by rw [hself]
    rw [hkey] at hget
    refine ⟨c2, ⟨b, (c.bufs b).key⟩ :: held1, ?_, h2, fun r hr => mem_cons_of_mem _ (hsub r hr), ?_⟩
    · rw [replicate_succ', map_append, runBcache_append, hr, bind_some]
      simp [map_cons, map_nil, runBcache, BcacheOp.run, hget, map_some]
    · rw [hb2, hself, hb1, update_idem]
      simp [Nat.add_assoc]

theorem Cached.of_gets {ks : List SectorKey} {s s' : BcacheRun σ} (h : Cached dev s.cache s.spec)
    (hrun : runBcache dev.toBlockDev s (ks.map BcacheOp.get) = some s') : Cached dev s'.cache s'.spec := by
  induction ks generalizing s with
  | nil =>
    cases hrun
    exact h
  | cons k ks ih =>
    obtain ⟨s1, hget, hrun⟩ := bind_eq_some_iff.1 hrun
    obtain ⟨⟨c, r⟩, hc, rfl⟩ := map_eq_some_iff.1 hget
    refine ih ?_ hrun
    cases r <;> exact h.of_get hc

/-- One sector for each buffer. -/
def fillKeys : List SectorKey := (range 128).map fun i => ⟨0#8, BitVec.ofNat 32 i⟩

/-- When as many sectors have been got as there are buffers, all buffers are held. -/
theorem fillKeys_end : ∃ s ∈ runBcache arrayDev.toBlockDev (bcacheStart arrayDev (fun _ _ => 0#8)) (fillKeys.map BcacheOp.get),
    ⟨0, ⟨0#8, 127#32⟩⟩ ∈ s.held ∧ (s.cache.bufs 0).valid = true ∧
    (∀ b, (s.cache.bufs b).refCount = 1 ∧ (s.cache.bufs b).key ≠ ⟨0#8, 128#32⟩) ∧ s.spec ⟨0#8, 128#32⟩ 0 = 0#8 := by
  decide +kernel

/-- `2 ^ 32` references to one sector make its buffer look unreferenced: it is given to another sector while they are held, and
a write through one of them is then read back from that other sector. -/
theorem bcache_ref_count_wraps :
    ∃ (ops : List BcacheOp) (s : BcacheRun (SectorKey → Sector)) (k : SectorKey) (c : Bcache (SectorKey → Sector)) (b : BufPtr),
      EachCall arrayDev.toBlockDev (fun s op => op.OnHeld s) (bcacheStart arrayDev (fun _ _ => 0#8)) ops ∧
      runBcache arrayDev.toBlockDev (bcacheStart arrayDev (fun _ _ => 0#8)) ops = some s ∧
      bcacheGet arrayDev.toBlockDev s.cache k = some (c, some b) ∧ (c.bufs b).data ≠ s.spec k := by
  obtain ⟨s1, hrun1, hheld1, hv1, hbufs1, hspec⟩ := fillKeys_end
  have h1 : Cached arrayDev s1.cache s1.spec := (cached_init arrayDev (fun _ _ => 0#8)).of_gets hrun1
  -- the references to the last sector are counted up to `2 ^ 32`, so to 0
  obtain ⟨n, hn⟩ : ∃ n, (1 + n) % 2 ^ 32 = 0 := ⟨2 ^ 32 - 1, by decide⟩
  obtain ⟨c2, held2, hrun2, h2, hsub2, hb2⟩ := h1.gets hv1 s1.held n (by rw [(hbufs1 0).1]; decide)
  rw [(hbufs1 0).1, hn] at hb2
  have hother2 : ∀ b, b ≠ 0 → c2.bufs b = s1.cache.bufs b := fun b e => by rw [hb2, update_of_ne e]
  have hself2 : c2.bufs 0 = { s1.cache.bufs 0 with refCount := 0 } := by rw [hb2, update_self]
  -- its buffer is the only one for another sector
  obtain ⟨c3, b, hget3, hfree, h3, hb3⟩ := (h2.get_miss (k := ⟨0#8, 128#32⟩) (fun b _ => by
    by_cases e : b = 0
    · subst e
      rw [hself2]
      exact (hbufs1 0).2
    · rw [hother2 b e]
      exact (hbufs1 b).2)).resolve_left (fun hfull => hfull.2 0 (by rw [hself2]))
  obtain rfl : b = 0 := by
    by_contra e
    rw [hother2 b e, (hbufs1 b).1] at hfree
    cases hfree
  have hself3 : c3.bufs 0 = { data := s1.spec ⟨0#8, 128#32⟩, key := ⟨0#8, 128#32⟩, valid := true, dirty := false, refCount := 1 } := by
    rw [hb3, update_self]
  -- a write through the first reference changes that sector
  have h4 := h3.modifyDirty (b := 0) (by rw [hself3]) (fun _ => 1#8)
  obtain ⟨c5, hget5, _, hb5⟩ := h4.get_hit (b := 0) (by simp [bcacheDirty, Bcache.modify, hself3])
  obtain ⟨ks, hgets⟩ : ∃ ks, runBcache arrayDev.toBlockDev (bcacheStart arrayDev (fun _ _ => 0#8)) (map BcacheOp.get ks) =
      some ⟨c3, ⟨0, ⟨0#8, 128#32⟩⟩ :: held2, s1.spec⟩ := by
    refine ⟨fillKeys ++ (replicate n (s1.cache.bufs 0).key ++ [⟨0#8, 128#32⟩]), ?_⟩
    rw [map_append, runBcache_append, hrun1, bind_some, map_append, runBcache_append, hrun2, bind_some]
    simp [runBcache, BcacheOp.run, hget3]
  refine ⟨ks.map BcacheOp.get ++ [.modify ⟨0, ⟨0#8, 127#32⟩⟩ (fun _ => 1#8)],
    ⟨bcacheDirty (c3.modify 0 (fun buf => { buf with data := fun _ => 1#8 })) 0, ⟨0, ⟨0#8, 128#32⟩⟩ :: held2,
      update s1.spec ⟨0#8, 127#32⟩ (fun _ => 1#8)⟩, ⟨0#8, 128#32⟩, c5, 0, ?_, ?_, ?_, ?_⟩
  · refine eachCall_append (eachCall_gets _ _ _) (fun s hs => ⟨?_, fun _ _ => trivial⟩)
    cases hgets.symm.trans hs
    exact mem_cons_of_mem _ (hsub2 _ hheld1)
  · rw [runBcache_append, hgets]
    rfl
  · simpa [bcacheDirty, Bcache.modify, hself3] using hget5
  · intro e
    have := congrFun e 0
    simp [hb5, bcacheDirty, Bcache.modify, hspec] at this

end TsOs
