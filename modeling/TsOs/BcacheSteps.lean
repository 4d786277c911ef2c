import TsOs.Bcache

/-!
# The buffer cache under several callers

`fs/bcache.c` releases its lock around the transfers, so the calls of several callers interleave. A step is one section that a
call runs with the lock held, one transfer between two such sections, or a write of a holder to the data of its buffer. The
devices are an array of sectors; each transfer succeeds or fails.
-/

namespace TsOs

/-- Where a caller stands: outside the calls, or between two sections of one. -/
inductive CallerPc where
  | idle
  /-- Step 3 of `bcache_get` for sector `k`, before the write of the buffer to evict. -/
  | evicting (b : BufPtr) (k : SectorKey)
  /-- Step 3 of `bcache_get`, after the write. -/
  | evicted (b : BufPtr) (k : SectorKey)
  /-- Step 6 of `bcache_get`, before the read. -/
  | reading (b : BufPtr) (k : SectorKey)
  /-- Step 6 of `bcache_get`, after the read, which succeeded or failed. -/
  | filled (b : BufPtr) (k : SectorKey) (ok : Bool)
  /-- `bcache_put`, before the write of the copy. -/
  | putting (b : BufPtr) (k : SectorKey) (copy : Sector)
  /-- `bcache_put`, after a write that succeeded. -/
  | written (b : BufPtr)
  /-- The loop of `bcache_flush_dev` (`sel` is the device) or `bcache_flush_all`, before the write of a buffer to `k`, with the
  buffers after it. -/
  | flushing (sel : Option (BitVec 8)) (b : BufPtr) (k : SectorKey) (rest : List BufPtr)
  /-- The loop, after a write that succeeded. -/
  | flushed (sel : Option (BitVec 8)) (b : BufPtr) (rest : List BufPtr)

/-- The caller is in no call. -/
def CallerPc.isIdle : CallerPc → Bool
  | .idle => true
  | _ => false

/-- The caller is about to make a transfer. -/
def CallerPc.beforeTransfer : CallerPc → Bool
  | .evicting _ _ => true
  | .reading _ _ => true
  | .putting _ _ _ => true
  | .flushing _ _ _ _ => true
  | _ => false

/-- The caller has made its transfer. -/
def CallerPc.afterTransfer : CallerPc → Bool
  | .evicted _ _ => true
  | .filled _ _ _ => true
  | .written _ => true
  | .flushed _ _ _ => true
  | _ => false

/-- The cache with the position of each caller, the references held, and every pair of a sector and data that was read from it
or written to it, by a transfer or by a holder. -/
structure BcacheSys (ι : Type) where
  cache : Bcache (SectorKey → Sector)
  pc : ι → CallerPc
  held : List BufRef
  log : List (SectorKey × Sector)

/-- The steps. `get`, `put` and `flush` run the first section of a call, `transfer` the transfer a caller is about to make, and
`resume` the section after it; `store` and `dirty` are the writes of a holder and `bcache_dirty`. -/
inductive BcacheStep (ι : Type) where
  | get (i : ι) (k : SectorKey)
  | put (i : ι) (r : BufRef)
  | flush (i : ι) (sel : Option (BitVec 8))
  | transfer (i : ι) (ok : Bool)
  | resume (i : ι)
  | store (i : ι) (r : BufRef) (x : Sector)
  | dirty (i : ι) (r : BufRef)

section Sections

variable {σ : Type}

/-- The first section of `bcache_get`: steps 1 and 2, and steps 4 and 5 when there is nothing to write back. The result is the
position the caller is left at, and the buffer when the call returns one. -/
def getSection (c : Bcache σ) (k : SectorKey) : Option (Bcache σ × CallerPc × Option BufPtr) :=
  match hashFind c.hash c.bufs k with
  | none => none
  | some (some b) =>
    some ({ c.modify b (fun buf => { buf with refCount := (buf.refCount + 1) % 2 ^ 32 }) with lru := lruTouch c.lru b }, .idle,
      some b)
  | some none =>
    match findEvictable c with
    | none => none
    | some none => some (c, .idle, none)
    | some (some b) =>
      if (c.bufs b).valid && (c.bufs b).dirty then some (c, .evicting b k, none)
      else (rekey c b k).map (fun c => (c, .reading b k, none))

/-- The last section of `bcache_get`, after the read. -/
def fillSection (c : Bcache σ) (b : BufPtr) (ok : Bool) : Option (Bcache σ) :=
  if ok then some (c.modify b (fun buf => { buf with valid := true }))
  else
    (hashRemove c.hash b (c.bufs b).key).map fun hash =>
      { c.modify b (fun buf => { buf with valid := false, dirty := false, refCount := 0 }) with
        hash := hash
        lru := lruTouch c.lru b }

/-- The first section of `bcache_put`. -/
def putSection (c : Bcache σ) (b : BufPtr) : Bcache σ × CallerPc :=
  let c := if (c.bufs b).refCount > 0 then c.modify b (fun buf => { buf with refCount := buf.refCount - 1 }) else c
  if (c.bufs b).refCount = 0 ∧ (c.bufs b).valid ∧ (c.bufs b).dirty then (c, .putting b (c.bufs b).key (c.bufs b).data)
  else (c, .idle)

/-- The loop of the flush functions up to the next buffer to write. -/
def flushSection (c : Bcache σ) (sel : Option (BitVec 8)) : List BufPtr → CallerPc
  | [] => .idle
  | b :: bs =>
    if sel.all (fun d => (c.bufs b).key.dev == d) && (c.bufs b).valid && (c.bufs b).dirty then
      .flushing sel b (c.bufs b).key bs
    else flushSection c sel bs

end Sections

section Steps

variable {ι : Type} [DecidableEq ι]

/-- A transfer of data `x` to sector `k`. -/
def BcacheSys.writeSector (s : BcacheSys ι) (k : SectorKey) (x : Sector) (ok : Bool) : BcacheSys ι :=
  if ok then
    { s with cache := { s.cache with disk := Function.update s.cache.disk k x }, log := (k, x) :: s.log }
  else s

/-- A caller moves on. -/
def BcacheSys.goto (s : BcacheSys ι) (i : ι) (pc : CallerPc) : BcacheSys ι := { s with pc := Function.update s.pc i pc }

/-- The transfer that caller `i` is about to make. -/
def BcacheSys.transfer (s : BcacheSys ι) (i : ι) (ok : Bool) : Option (BcacheSys ι) :=
  match s.pc i with
  | .evicting b k =>
    -- the status is ignored
    some ((s.writeSector (s.cache.bufs b).key (s.cache.bufs b).data ok).goto i (.evicted b k))
  | .reading b k =>
    if ok then
      some { s with
        cache := s.cache.modify b (fun buf => { buf with data := s.cache.disk k })
        log := (k, s.cache.disk k) :: s.log
        pc := Function.update s.pc i (.filled b k true) }
    else some (s.goto i (.filled b k false))
  | .putting b k copy => some ((s.writeSector k copy ok).goto i (if ok then .written b else .idle))
  | .flushing sel b k rest =>
    some ((s.writeSector k (s.cache.bufs b).data ok).goto i (if ok then .flushed sel b rest else .idle))
  | _ => none

/-- The section after a transfer. -/
def BcacheSys.resume (s : BcacheSys ι) (i : ι) : Option (BcacheSys ι) :=
  match s.pc i with
  | .evicted b k => (rekey s.cache b k).map (fun c => { s with cache := c }.goto i (.reading b k))
  | .filled b k ok =>
    (fillSection s.cache b ok).map fun c =>
      { s with cache := c, held := if ok then ⟨b, k⟩ :: s.held else s.held }.goto i .idle
  | .written b => some ({ s with cache := s.cache.modify b (fun buf => { buf with dirty := false }) }.goto i .idle)
  | .flushed sel b rest =>
    let c := s.cache.modify b (fun buf => { buf with dirty := false })
    some ({ s with cache := c }.goto i (flushSection c sel rest))
  | _ => none

/-- The steps that can be taken: a caller in no call starts one, with references that are held, or writes the data of one; a
caller in a call makes its transfer or runs the section after it. -/
def BcacheSys.Enabled (s : BcacheSys ι) : BcacheStep ι → Prop
  | .get i _ => (s.pc i).isIdle = true
  | .put i r => (s.pc i).isIdle = true ∧ r ∈ s.held
  | .flush i _ => (s.pc i).isIdle = true
  | .transfer i _ => (s.pc i).beforeTransfer = true
  | .resume i => (s.pc i).afterTransfer = true
  | .store i r _ => (s.pc i).isIdle = true ∧ r ∈ s.held
  | .dirty i r => (s.pc i).isIdle = true ∧ r ∈ s.held

/-- One step that can be taken. -/
def BcacheSys.step (s : BcacheSys ι) : BcacheStep ι → Option (BcacheSys ι)
  | .get i k => (getSection s.cache k).map fun (c, pc, r) =>
    { s with cache := c, held := (r.map (fun b => BufRef.mk b k)).toList ++ s.held }.goto i pc
  | .put i r =>
    let (c, pc) := putSection s.cache r.buf
    some ({ s with cache := c, held := s.held.erase r }.goto i pc)
  | .flush i sel => some (s.goto i (flushSection s.cache sel (List.finRange 128)))
  | .transfer i ok => s.transfer i ok
  | .resume i => s.resume i
  | .store _ r x =>
    some { s with cache := s.cache.modify r.buf (fun buf => { buf with data := x }), log := (r.key, x) :: s.log }
  | .dirty _ r => some { s with cache := bcacheDirty s.cache r.buf }

/-- After `bcache_init`. -/
def sysStart (disk : SectorKey → Sector) : BcacheSys ι :=
  { cache := bcacheInit disk, pc := fun _ => .idle, held := [], log := [] }

end Steps

end TsOs
