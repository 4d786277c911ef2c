import TsOs.Lemmas.BcacheSaved
import TsOs.Theorems.Bcache

/-!
# Dirty data over whole runs

Runs of the buffer cache over a device any write of which may fail. The data a caller marks dirty is recorded, with the key its
buffer has, until the device has accepted it.
-/

namespace TsOs

open Function List

variable {k : SectorKey} {b : BufPtr} {ops : List BcacheOp}

section Runs

variable {σ : Type}

/-- One call, with the record of the data that is not written yet. -/
def BcacheOp.runSaved (dev : BlockDev σ) (s : BcacheRun (σ × Unsaved)) : BcacheOp → Option (BcacheRun (σ × Unsaved))
  | .modify r x =>
    let k := (s.cache.bufs r.buf).key
    some { s with
      cache := { bcacheDirty (s.cache.modify r.buf (fun buf => { buf with data := x })) r.buf with
        disk := (s.cache.disk.1, Function.update s.cache.disk.2 k (some x)) }
      spec := Function.update s.spec k x }
  | op => op.run (recordDev dev) s

/-- A sequence of calls, one after the other. -/
def runSaved (dev : BlockDev σ) (s : BcacheRun (σ × Unsaved)) : List BcacheOp → Option (BcacheRun (σ × Unsaved))
  | [] => some s
  | op :: ops => (op.runSaved dev s).bind (fun s' => runSaved dev s' ops)

/-- The state after `bcache_init`: nothing is left to write. -/
def savedStart (dev : FlakyDev σ) (disk : σ) : BcacheRun (σ × Unsaved) :=
  { cache := bcacheInit (disk, fun _ => none), held := [], spec := dev.sectors disk }

/-- The device accepts the data of the buffer the call evicts, if it is dirty. -/
def BcacheOp.VictimSaved (dev : BlockDev σ) (s : BcacheRun (σ × Unsaved)) : BcacheOp → Prop
  | .get k => TsOs.VictimSaved dev s.cache k
  | _ => True

/-- A run each call of which satisfies `P` in the state it is made in. -/
def EachSaved (dev : BlockDev σ) (P : BcacheRun (σ × Unsaved) → BcacheOp → Prop) :
    BcacheRun (σ × Unsaved) → List BcacheOp → Prop
  | _, [] => True
  | s, op :: ops => P s op ∧ ∀ s', op.runSaved dev s = some s' → EachSaved dev P s' ops

/-- The invariant of a run: the dirty data is in the cache, and the buffers held are valid. -/
structure SavedInv (dev : FlakyDev σ) (s : BcacheRun (σ × Unsaved)) : Prop where
  retained : Retained dev s.cache s.spec
  valid : ∀ r ∈ s.held, (s.cache.bufs r.buf).valid = true

namespace BcacheSavedAux

variable {s : BcacheRun (σ × Unsaved)}

theorem runSaved_get_some {dev : BlockDev σ} {c : Bcache (σ × Unsaved)}
    (hget : bcacheGet (recordDev dev) s.cache k = some (c, some b)) :
    BcacheOp.runSaved dev s (.get k) = some { s with cache := c, held := ⟨b, k⟩ :: s.held } := by
  rw [BcacheOp.runSaved, BcacheOp.run, hget, Option.map_some]
  rintro _ _ ⟨⟩

theorem runSaved_get_none {dev : BlockDev σ} {c : Bcache (σ × Unsaved)}
    (hget : bcacheGet (recordDev dev) s.cache k = some (c, none)) :
    BcacheOp.runSaved dev s (.get k) = some { s with cache := c } := by
  rw [BcacheOp.runSaved, BcacheOp.run, hget, Option.map_some]
  rintro _ _ ⟨⟩

/-- One call keeps the invariant. -/
theorem SavedInv.step {dev : FlakyDev σ} (h : SavedInv dev s) {op : BcacheOp} (hh : op.OnHeld s)
    (hs : op.VictimSaved dev.toBlockDev s) : ∃ s', op.runSaved dev.toBlockDev s = some s' ∧ SavedInv dev s' := by
  have hkeep : ∀ {c' : Bcache (σ × Unsaved)}, SameShape s.cache c' → ∀ r ∈ s.held, (c'.bufs r.buf).valid = true := by
    intro c' hsame r hr
    rw [(hsame.2.2 r.buf).2]
    exact h.valid r hr
  cases op with
  | get k =>
    obtain ⟨c', r, hget, hr, hv, hret⟩ := h.retained.get k
    cases r with
    | none => exact ⟨_, runSaved_get_none hget, hret hs, fun q hq => hv _ (h.valid q hq)⟩
    | some b =>
      refine ⟨_, runSaved_get_some hget, hret hs, fun q hq => ?_⟩
      rcases mem_cons.1 hq with rfl | hq
      · exact (hr b rfl).1
      · exact hv _ (h.valid q hq)
  | modify r x =>
    refine ⟨_, rfl, h.retained.modifyDirty (h.valid r hh) x, fun q hq => ?_⟩
    have hval := h.valid q hq
    by_cases e : q.buf = r.buf
    · rw [e] at hval
      simp [bcacheDirty, Bcache.modify, e, hval]
    · simp [bcacheDirty, Bcache.modify, e, hval]
  | put r =>
    exact ⟨_, rfl, h.retained.put r.buf, fun q hq => hkeep (sameShape_put _ _ _) q (mem_of_mem_erase hq)⟩
  | flushDev | flushAll => exact ⟨_, rfl, h.retained.flushLoop _ _, hkeep (sameShape_flushLoop _ _ _ _)⟩

/-- A run keeps the invariant. -/
theorem SavedInv.run {dev : FlakyDev σ} : ∀ {s : BcacheRun (σ × Unsaved)}, SavedInv dev s →
    EachSaved dev.toBlockDev (fun s op => op.OnHeld s ∧ op.VictimSaved dev.toBlockDev s) s ops →
    ∃ s', runSaved dev.toBlockDev s ops = some s' ∧ SavedInv dev s' := by
  induction ops with
  | nil => exact fun {s} h _ => ⟨s, rfl, h⟩
  | cons op ops ih =>
    intro s h ha
    obtain ⟨s1, hs, h1⟩ := SavedInv.step h ha.1.1 ha.1.2
    obtain ⟨s', hr, h'⟩ := ih h1 (ha.2 s1 hs)
    exact ⟨s', by rw [runSaved, hs]; exact hr, h'⟩

end BcacheSavedAux

open BcacheSavedAux

/-- After `bcache_init` and any run over a device whose writes may fail, in which callers modify and put back buffers they hold,
and in which no write of a buffer that is being evicted fails: data marked dirty and not written successfully since is in the
cache, in a dirty buffer of its key, and `bcache_get` of any key returns the latest bytes, if it returns a buffer. -/
theorem dirty_data_kept (dev : FlakyDev σ) (disk : σ) (ops : List BcacheOp)
    (ha : EachSaved dev.toBlockDev (fun s op => op.OnHeld s ∧ op.VictimSaved dev.toBlockDev s) (savedStart dev disk) ops) :
    ∃ s, runSaved dev.toBlockDev (savedStart dev disk) ops = some s ∧
      (∀ k x, s.cache.disk.2 k = some x → ∃ b, (s.cache.bufs b).valid = true ∧ (s.cache.bufs b).dirty = true ∧
        (s.cache.bufs b).key = k ∧ (s.cache.bufs b).data = x) ∧
      ∀ k, ∃ c r, bcacheGet (recordDev dev.toBlockDev) s.cache k = some (c, r) ∧
        ∀ b, r = some b → (c.bufs b).key = k ∧ (c.bufs b).data = s.spec k := by
  obtain ⟨s, hr, h⟩ := SavedInv.run (s := savedStart dev disk) ⟨retained_init dev disk, by simp [savedStart]⟩ ha
  refine ⟨s, hr, fun k x hx => h.retained.in_cache hx, fun k => ?_⟩
  obtain ⟨c, r, hget, hdata, _⟩ := h.retained.get k
  exact ⟨c, r, hget, fun b hb => (hdata b hb).2⟩

end Runs

open BcacheSavedAux

/-- On a device that refuses every write, a sector that is got, modified, put back and flushed stays in the cache. -/
theorem dirty_data_kept_read_only :
    ∃ b s, runSaved readOnlyDev.toBlockDev (savedStart readOnlyDev (fun _ _ => 0#8))
        [.get ⟨0#8, 7#32⟩, .modify ⟨b, ⟨0#8, 7#32⟩⟩ (fun _ => 1#8), .put ⟨b, ⟨0#8, 7#32⟩⟩, .flushAll] = some s ∧
      (∀ k x, s.cache.disk.2 k = some x → ∃ b, (s.cache.bufs b).valid = true ∧ (s.cache.bufs b).dirty = true ∧
        (s.cache.bufs b).key = k ∧ (s.cache.bufs b).data = x) ∧
      ∀ k, ∃ c r, bcacheGet (recordDev readOnlyDev.toBlockDev) s.cache k = some (c, r) ∧
        ∀ b, r = some b → (c.bufs b).key = k ∧ (c.bufs b).data = s.spec k := by
  have hheld : ∀ s ∈ BcacheOp.runSaved readOnlyDev.toBlockDev (savedStart readOnlyDev (fun _ _ => 0#8)) (.get ⟨0#8, 7#32⟩),
      ⟨127, ⟨0#8, 7#32⟩⟩ ∈ s.held := by decide +kernel
  refine ⟨127, dirty_data_kept readOnlyDev _ _ ⟨⟨trivial, fun _ b' _ hv => by cases hv⟩, fun s1 h1 => ?_⟩⟩
  refine ⟨⟨hheld s1 h1, trivial⟩, fun s2 h2 => ?_⟩
  cases h2
  exact ⟨⟨hheld s1 h1, trivial⟩, fun _ _ => ⟨⟨trivial, trivial⟩, fun _ _ => trivial⟩⟩

/-! ## Evicting what the device refuses -/

/-- A sector is got, modified and put back, and then as many other sectors are got as there are buffers. -/
def droppedRun : List BcacheOp :=
  [.get ⟨0#8, 0#32⟩, .modify ⟨Fin.last 127, ⟨0#8, 0#32⟩⟩ (fun _ => 1#8), .put ⟨Fin.last 127, ⟨0#8, 0#32⟩⟩] ++
    ((range 128).map fun i => ⟨0#8, BitVec.ofNat 32 (i + 1)⟩).map BcacheOp.get

namespace BcacheSavedAux

section Dropped

variable {dev : BlockDev (SectorKey → Sector)} {s s1 s2 : BcacheRun ((SectorKey → Sector) × Unsaved)}

theorem eachSaved_gets (ks : List SectorKey) : EachSaved dev (fun s op => op.OnHeld s) s (ks.map BcacheOp.get) := by
  induction ks generalizing s with
  | nil => trivial
  | cons k ks ih => exact ⟨trivial, fun s' _ => ih⟩

/-- A run with one more call at its end. -/
theorem runSaved_snoc {P : BcacheRun ((SectorKey → Sector) × Unsaved) → BcacheOp → Prop} (op : BcacheOp)
    (heach : EachSaved dev P s ops) (hrun : runSaved dev s ops = some s1) (hP : P s1 op) (hop : op.runSaved dev s1 = some s2) :
    EachSaved dev P s (ops ++ [op]) ∧ runSaved dev s (ops ++ [op]) = some s2 := by
  induction ops generalizing s with
  | nil =>
    cases hrun
    exact ⟨⟨hP, fun _ _ => trivial⟩, by simp [runSaved, hop]⟩
  | cons o ops ih =>
    obtain ⟨s', ho, hrun⟩ := Option.bind_eq_some_iff.1 hrun
    obtain ⟨heach', hrun'⟩ := ih (heach.2 s' ho) hrun
    refine ⟨⟨heach.1, fun t ht => ?_⟩, by simp [runSaved, ho, hrun']⟩
    cases ho.symm.trans ht
    exact heach'

end Dropped

/-- The buffer of the sector goes to the last of the others, and when that is put back the sector is read from the device again. -/
theorem droppedRun_end : ∃ s ∈ runSaved readOnlyDev.toBlockDev (savedStart readOnlyDev (fun _ _ => 0#8)) droppedRun,
    ⟨127, ⟨0#8, 128#32⟩⟩ ∈ s.held ∧ ∃ s' ∈ (BcacheOp.put ⟨127, ⟨0#8, 128#32⟩⟩).runSaved readOnlyDev.toBlockDev s,
    s'.cache.disk.2 ⟨0#8, 0#32⟩ = some (fun _ => 1#8) ∧ (∀ b, (s'.cache.bufs b).valid = true → (s'.cache.bufs b).key ≠ ⟨0#8, 0#32⟩) ∧
    ∃ c ∈ bcacheGet (recordDev readOnlyDev.toBlockDev) s'.cache ⟨0#8, 0#32⟩, ∃ b ∈ c.2,
      (c.1.bufs b).data 0 ≠ s'.spec ⟨0#8, 0#32⟩ 0 := by
  decide +kernel

end BcacheSavedAux

/-- A device that refuses writes: the data of a buffer that was put back dirty is gone once the buffer is needed for another
sector, and `bcache_get` returns the bytes from before it was modified. -/
theorem dirty_data_dropped :
    ∃ (ops : List BcacheOp) (s : BcacheRun ((SectorKey → Sector) × Unsaved)) (c : Bcache ((SectorKey → Sector) × Unsaved))
      (k : SectorKey) (b : BufPtr),
      EachSaved readOnlyDev.toBlockDev (fun s op => op.OnHeld s) (savedStart readOnlyDev (fun _ _ => 0#8)) ops ∧
      runSaved readOnlyDev.toBlockDev (savedStart readOnlyDev (fun _ _ => 0#8)) ops = some s ∧
      s.cache.disk.2 k = some (fun _ => 1#8) ∧ (∀ b, (s.cache.bufs b).valid = true → (s.cache.bufs b).key ≠ k) ∧
      bcacheGet (recordDev readOnlyDev.toBlockDev) s.cache k = some (c, some b) ∧ (c.bufs b).data ≠ s.spec k := by
  obtain ⟨s, hs, hheld, s', hput, hdisk, hmiss, ⟨c, r⟩, hget, b, hb, hdata⟩ := droppedRun_end
  have heach : EachSaved readOnlyDev.toBlockDev (fun s op => op.OnHeld s) (savedStart readOnlyDev (fun _ _ => 0#8)) droppedRun := by
    have hfirst : ∀ s1 ∈ (BcacheOp.get ⟨0#8, 0#32⟩).runSaved readOnlyDev.toBlockDev (savedStart readOnlyDev (fun _ _ => 0#8)),
        ⟨127, ⟨0#8, 0#32⟩⟩ ∈ s1.held := by
      decide +kernel
    refine ⟨trivial, fun s1 h1 => ⟨hfirst s1 h1, fun s2 h2 => ⟨?_, fun s3 _ => eachSaved_gets _⟩⟩⟩
    cases h2
    exact hfirst s1 h1
  obtain ⟨heach', hrun⟩ := runSaved_snoc (.put ⟨127, ⟨0#8, 128#32⟩⟩) heach hs hheld hput
  cases hb
  exact ⟨_, s', c, ⟨0#8, 0#32⟩, b, heach', hrun, hdisk, hmiss, hget, fun e => hdata (congrFun e 0)⟩

end TsOs
