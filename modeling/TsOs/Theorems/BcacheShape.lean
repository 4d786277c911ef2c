import TsOs.Theorems.Bcache

/-!
# The structure of the buffer cache over whole runs

The list in order of last use, the chains and the choice of the buffer to evict, after any calls on a device that behaves as an
array of sectors. The calls need not be on references that are held.
-/

namespace TsOs

open BcacheAux Recency LinkedList List BitVec

section Runs

variable {σ : Type}

/-- The buffers a call touches: the one that `bcache_get` returns. -/
def BcacheOp.touches (dev : BlockDev σ) (s : BcacheRun σ) : BcacheOp → List BufPtr
  | .get k => ((bcacheGet dev s.cache k).bind Prod.snd).toList
  | _ => []

/-- The buffers touched in a run, in order. -/
def touchLog (dev : BlockDev σ) (s : BcacheRun σ) : List BcacheOp → List BufPtr
  | [] => []
  | op :: ops => op.touches dev s ++ ((op.run dev s).map (fun s' => touchLog dev s' ops)).getD []

/-- Every buffer is on the list in order of last use, once. -/
def LruPermutes (l : LruList) : Prop := ∃ xs, Order l xs ∧ xs.Perm (List.finRange 128)

/-- Every valid buffer is on one chain, that of its key, and once; no two have the same key. -/
def ChainsExact (c : Bcache σ) : Prop :=
  (∃ chains : Fin 16 → List BufPtr, (∀ i, Linked c.hash.next (c.hash.head i) (chains i) ∧ (chains i).Nodup) ∧
    ∀ b, (c.bufs b).valid = true → ∀ i, b ∈ chains i ↔ i = bcacheHash (c.bufs b).key) ∧
  ∀ b b', (c.bufs b).valid = true → (c.bufs b').valid = true → (c.bufs b).key = (c.bufs b').key → b = b'

/-- `bcache_get` of a key that no valid buffer has, when it returns a buffer: the one to evict. -/
def Evicts (dev : BlockDev σ) (c : Bcache σ) (k : SectorKey) (b : BufPtr) : Prop :=
  (∀ b, (c.bufs b).valid = true → (c.bufs b).key ≠ k) ∧ ∃ c', bcacheGet dev c k = some (c', some b)

namespace BcacheShapeAux

variable {hist : List BufPtr}

theorem Shaped.lruPermutes {c : Bcache σ} (h : Shaped c hist) : LruPermutes c.lru := by
  obtain ⟨xs, ho, hall, _⟩ := h.order
  refine ⟨xs, ho, (perm_ext_iff_of_nodup ho.fwd.nodup (nodup_finRange 128)).2 (fun b => ?_)⟩
  exact ⟨fun _ => mem_finRange b, fun _ => hall b⟩

theorem Shaped.chainsExact {c : Bcache σ} (h : Shaped c hist) : ChainsExact c := by
  obtain ⟨chains, hf, hbucket, hon⟩ := h.hashed
  refine ⟨⟨chains, fun i => ⟨hf.linked i, (hf.linked i).nodup⟩, fun b hv i => ⟨fun hm => (hbucket i b hm).symm, ?_⟩⟩, h.inj⟩
  rintro rfl
  obtain ⟨j, hj⟩ := (hon b).1 hv
  rw [hbucket j b hj]
  exact hj

/-- One call on a device that does not fail: it returns, keeps the shape, and gives no other key to a referenced buffer. -/
theorem Shaped.step (dev : StoreDev σ) {s : BcacheRun σ} (h : Shaped s.cache hist) (op : BcacheOp) :
    ∃ s', op.run dev.toBlockDev s = some s' ∧ Shaped s'.cache (hist ++ op.touches dev.toBlockDev s) ∧
      ∀ b, (s.cache.bufs b).refCount > 0 → (s'.cache.bufs b).key = (s.cache.bufs b).key := by
  -- all calls but `bcache_get` keep the lists and the keys
  have hsame : ∀ {s' : BcacheRun σ}, op.run dev.toBlockDev s = some s' → op.touches dev.toBlockDev s = [] →
      SameShape s.cache s'.cache → ∃ s', op.run dev.toBlockDev s = some s' ∧
        Shaped s'.cache (hist ++ op.touches dev.toBlockDev s) ∧
        ∀ b, (s.cache.bufs b).refCount > 0 → (s'.cache.bufs b).key = (s.cache.bufs b).key := by
    intro s' hrun ht hs
    rw [ht, append_nil]
    exact ⟨s', hrun, hs.shaped h, fun b _ => (hs.2.2 b).1⟩
  cases op with
  | get k =>
    obtain ⟨c', r, hist', hget, hend, h'⟩ := h.get dev.toBlockDev k
    have ht : BcacheOp.touches dev.toBlockDev s (.get k) = r.toList := by rw [BcacheOp.touches, hget]; rfl
    have hrun : ∃ s', BcacheOp.run dev.toBlockDev s (.get k) = some s' ∧ s'.cache = c' := by
      cases r <;> exact ⟨_, by rw [BcacheOp.run, hget, Option.map_some], rfl⟩
    obtain ⟨s', hs', hc⟩ := hrun
    refine ⟨s', hs', ?_⟩
    rw [ht, hc]
    cases hend with
    | @hit _ b _ _ hb =>
      refine ⟨h', fun b' _ => ?_⟩
      by_cases e : b' = b
      · subst e; rw [hb, Function.update_self]
      · rw [hb, Function.update_of_ne e]
    | full => exact ⟨by simpa using h', fun _ _ => rfl⟩
    | @evict _ b _ _ hold data hread hb =>
      obtain ⟨x, rfl⟩ : ∃ x, data = some x := ⟨_, by rw [← dev.read_ok, hread]⟩
      refine ⟨h', fun b' hpos => ?_⟩
      have e : b' ≠ b := by
        rintro rfl
        exact absurd hold.1 (by omega)
      rw [hb, Function.update_of_ne e]
  | modify r x =>
    refine hsame rfl rfl ?_
    exact (sameShape_modify s.cache r.buf (fun buf => { buf with data := x }) s.cache.disk (fun _ => ⟨rfl, rfl⟩)).trans
      (sameShape_modify _ r.buf (fun buf => { buf with dirty := true }) s.cache.disk (fun _ => ⟨rfl, rfl⟩))
  | put r => exact hsame rfl rfl (sameShape_put _ _ _)
  | flushDev | flushAll => exact hsame rfl rfl (sameShape_flushLoop _ _ _ _)

/-- A run returns and keeps the shape, with the touches it made. -/
theorem Shaped.run (dev : StoreDev σ) (ops : List BcacheOp) : ∀ {s : BcacheRun σ} {hist : List BufPtr}, Shaped s.cache hist →
    ∃ s', runBcache dev.toBlockDev s ops = some s' ∧ Shaped s'.cache (hist ++ touchLog dev.toBlockDev s ops) := by
  induction ops with
  | nil => exact fun {s hist} h => ⟨s, rfl, by rw [touchLog, append_nil]; exact h⟩
  | cons op ops ih =>
    intro s hist h
    obtain ⟨s1, hrun, h1, _⟩ := Shaped.step dev h op
    obtain ⟨s', hrun', h'⟩ := ih h1
    refine ⟨s', by rw [runBcache, hrun]; exact hrun', ?_⟩
    rw [touchLog, hrun, Option.map_some, ← List.append_assoc]
    exact h'

end BcacheShapeAux

open BcacheShapeAux

/-- After `bcache_init` and any calls on a device that does not fail, the list in order of last use holds every buffer once, and
the chains hold the valid buffers, each on that of its key and with no key twice; the next call, whatever it is, changes the key
of no referenced buffer, and when it evicts a buffer, that is the least recently touched of the unreferenced ones. -/
theorem bcache_structure (dev : StoreDev σ) (disk : σ) (ops : List BcacheOp) :
    ∃ s, runBcache dev.toBlockDev (bcacheStart dev disk) ops = some s ∧
      LruPermutes s.cache.lru ∧ ChainsExact s.cache ∧
      (∀ op s', BcacheOp.run dev.toBlockDev s op = some s' →
        ∀ b, (s.cache.bufs b).refCount > 0 → (s'.cache.bufs b).key = (s.cache.bufs b).key) ∧
      ∀ k b, Evicts dev.toBlockDev s.cache k b → (s.cache.bufs b).refCount = 0 ∧
        ∀ b', (s.cache.bufs b').refCount = 0 → b' ≠ b →
          After (initTouches ++ touchLog dev.toBlockDev (bcacheStart dev disk) ops) b' b := by
  obtain ⟨s, hrun, h⟩ := Shaped.run dev ops (s := bcacheStart dev disk) (shaped_init disk)
  refine ⟨s, hrun, Shaped.lruPermutes h, Shaped.chainsExact h, fun op s' hs' => ?_, fun k b hev => ?_⟩
  · obtain ⟨s'', hs'', _, hkey⟩ := Shaped.step dev h op
    rw [hs'] at hs''
    cases hs''
    exact hkey
  · obtain ⟨hmiss, c', hget⟩ := hev
    obtain ⟨c'', r, hist', hget', hend, _⟩ := h.get dev.toBlockDev k
    rw [hget] at hget'
    obtain ⟨rfl, rfl⟩ := Prod.mk.injEq .. ▸ Option.some.inj hget'
    generalize hr : some b = r at hend
    cases hend with
    | hit hv hk => exact absurd hk (hmiss _ hv)
    | full => cases hr
    | @evict _ b' _ _ hold data =>
      cases data with
      | none => cases hr
      | some x =>
        cases hr
        exact hold

end Runs

end TsOs
