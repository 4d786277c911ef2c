import TsOs.BlockDev
import TsOs.Lib.Chains

/-!
# The buffer cache

`fs/bcache.c`: a pool of 128 sector buffers, a hash table with 16 chains and a doubly linked list in order of last use. The
link fields of a `buf_t` are kept with the structure they belong to, `LruList` and `HashTable`. The calls run one after the
other, so the lock is not part of the state; nor are the statistics, which only `bcache_get_stats` reads.
-/

namespace TsOs

open LinkedList

/-- A pointer to a `buf_t` of `g_pool`, of `BCACHE_NBUFS` entries. -/
abbrev BufPtr : Type := Fin 128

/-- More iterations than a list of distinct buffers has. -/
def bufFuel : Nat := 129

/-- `buf_t` without its links: the data, the key (`dev_id` and `block_num`), the flags `BCACHE_FLAG_VALID` and
`BCACHE_FLAG_DIRTY`, and `ref_count`, a `uint32_t`. -/
structure Buf where
  data : Sector
  key : SectorKey
  valid : Bool
  dirty : Bool
  refCount : Nat

/-- The list in order of last use: `lru_prev` and `lru_next` of the buffers, `g_lru_head` and `g_lru_tail`. -/
structure LruList where
  prev : BufPtr → Option BufPtr
  next : BufPtr → Option BufPtr
  head : Option BufPtr
  tail : Option BufPtr

/-- The hash table: `hash_next` of the buffers and `g_hash`, of `BCACHE_HASH_SIZE` entries. -/
structure HashTable where
  next : BufPtr → Option BufPtr
  head : Fin 16 → Option BufPtr

/-- The static state of `bcache.c`, and the devices under it. -/
structure Bcache (σ : Type) where
  bufs : BufPtr → Buf
  lru : LruList
  hash : HashTable
  disk : σ

/-- A reference that `bcache_get` returned: the buffer, and the sector it was asked for. -/
structure BufRef where
  buf : BufPtr
  key : SectorKey
  deriving DecidableEq, Repr

/-- `bcache_hash`. -/
def bcacheHash (k : SectorKey) : Fin 16 :=
  let key : BitVec 64 := (k.dev.setWidth 64 <<< 32) ||| k.blk.setWidth 64
  let key := (key * 2654435761#64) >>> 48
  Fin.ofNat 16 (key &&& 15#64).toNat

/-- `lru_remove`. -/
def lruRemove (l : LruList) (b : BufPtr) : LruList :=
  let l := match l.prev b with
    | some p => { l with next := Function.update l.next p (l.next b) }
    | none => { l with head := l.next b }
  let l := match l.next b with
    | some n => { l with prev := Function.update l.prev n (l.prev b) }
    | none => { l with tail := l.prev b }
  { l with prev := Function.update l.prev b none, next := Function.update l.next b none }

/-- `lru_push_front`. -/
def lruPushFront (l : LruList) (b : BufPtr) : LruList :=
  let l := { l with prev := Function.update l.prev b none, next := Function.update l.next b l.head }
  let l := match l.head with
    | some h => { l with prev := Function.update l.prev h (some b) }
    | none => { l with tail := some b }
  { l with head := some b }

/-- `lru_touch`. -/
def lruTouch (l : LruList) (b : BufPtr) : LruList := lruPushFront (lruRemove l b) b

/-- `hash_find`. -/
def hashFind (h : HashTable) (bufs : BufPtr → Buf) (k : SectorKey) : Option (Option BufPtr) :=
  findNode h.next (fun b => (bufs b).key == k) bufFuel (h.head (bcacheHash k))

/-- `hash_insert` of a buffer with key `k`. -/
def hashInsert (h : HashTable) (b : BufPtr) (k : SectorKey) : HashTable :=
  { next := Function.update h.next b (h.head (bcacheHash k))
    head := Function.update h.head (bcacheHash k) (some b) }

/-- `hash_remove` of a buffer with key `k`. -/
def hashRemove (h : HashTable) (b : BufPtr) (k : SectorKey) : Option HashTable :=
  let bucket := bcacheHash k
  match findLink h.next (fun c => c == b) bufFuel .head (h.head bucket) with
  | none => none
  | some none => some h
  | some (some (pp, _)) =>
    some { next := Function.update (pp.writeNext h.next (h.next b)) b none
           head := Function.update h.head bucket (pp.writeHead (h.head bucket) (h.next b)) }

/-- `bcache_init`. The loop pushes the buffers to the front, from the last to the first. -/
def bcacheInit {σ : Type} (disk : σ) : Bcache σ :=
  let lru : LruList := { prev := fun _ => none, next := fun _ => none, head := none, tail := none }
  { bufs := fun _ => { data := fun _ => 0#8, key := ⟨0#8, 0#32⟩, valid := false, dirty := false, refCount := 0 }
    lru := (List.finRange 128).reverse.foldl lruPushFront lru
    hash := { next := fun _ => none, head := fun _ => none }
    disk := disk }

/-- `find_evictable`. -/
def findEvictable {σ : Type} (c : Bcache σ) : Option (Option BufPtr) :=
  findNode c.lru.prev (fun b => (c.bufs b).refCount == 0) bufFuel c.lru.tail

section Calls

variable {σ : Type} (dev : BlockDev σ)

/-- A write to the fields of one buffer. -/
def Bcache.modify (c : Bcache σ) (b : BufPtr) (f : Buf → Buf) : Bcache σ :=
  { c with bufs := Function.update c.bufs b (f (c.bufs b)) }

/-- Step 3 of `bcache_get`: the buffer to evict is written back when it is dirty; the status of the write is ignored. -/
def evictWrite (c : Bcache σ) (b : BufPtr) : Bcache σ :=
  if (c.bufs b).valid && (c.bufs b).dirty then { c with disk := (dev.write c.disk (c.bufs b).key (c.bufs b).data).1 } else c

/-- Steps 4 and 5 of `bcache_get`: the buffer leaves its chain and gets the new key. -/
def rekey (c : Bcache σ) (b : BufPtr) (k : SectorKey) : Option (Bcache σ) :=
  (if (c.bufs b).valid then hashRemove c.hash b (c.bufs b).key else some c.hash).map fun hash =>
    { c.modify b (fun buf => { buf with key := k, valid := false, dirty := false, refCount := 1 }) with
      hash := hashInsert hash b k
      lru := lruTouch c.lru b }

/-- Step 6 of `bcache_get`: the sector is read into the buffer; when the read fails the buffer is given up. -/
def fill (c : Bcache σ) (b : BufPtr) (k : SectorKey) : Option (Bcache σ × Option BufPtr) :=
  match dev.read c.disk k with
  | (disk, some data) =>
    some ({ c.modify b (fun buf => { buf with data := data, valid := true }) with disk := disk }, some b)
  | (disk, none) =>
    (hashRemove c.hash b k).map fun hash =>
      ({ c.modify b (fun buf => { buf with valid := false, dirty := false, refCount := 0 }) with
          disk := disk
          hash := hash
          lru := lruTouch c.lru b }, none)

/-- `bcache_get`. The result is the buffer, or a null pointer. -/
def bcacheGet (c : Bcache σ) (k : SectorKey) : Option (Bcache σ × Option BufPtr) :=
  match hashFind c.hash c.bufs k with
  | none => none
  | some (some b) =>
    some ({ c.modify b (fun buf => { buf with refCount := (buf.refCount + 1) % 2 ^ 32 }) with lru := lruTouch c.lru b }, some b)
  | some none =>
    match findEvictable c with
    | none => none
    | some none => some (c, none)
    | some (some b) => (rekey (evictWrite dev c b) b k).bind (fun c => fill dev c b k)

/-- `bcache_put` of a buffer that is not null. -/
def bcachePut (c : Bcache σ) (b : BufPtr) : Bcache σ :=
  let c := if (c.bufs b).refCount > 0 then c.modify b (fun buf => { buf with refCount := buf.refCount - 1 }) else c
  if (c.bufs b).refCount = 0 ∧ (c.bufs b).valid ∧ (c.bufs b).dirty then
    match dev.write c.disk (c.bufs b).key (c.bufs b).data with
    | (disk, true) => { c.modify b (fun buf => { buf with dirty := false }) with disk := disk }
    | (disk, false) => { c with disk := disk }
  else c

/-- `bcache_dirty` of a buffer that is not null. -/
def bcacheDirty (c : Bcache σ) (b : BufPtr) : Bcache σ := c.modify b (fun buf => { buf with dirty := true })

/-- The loop of `bcache_flush_dev` and `bcache_flush_all`: write the dirty buffers that `sel` selects, in the order of the
pool. The result is `false` for `BCACHE_ERR_IO`. -/
def flushLoop (sel : Buf → Bool) : List BufPtr → Bcache σ → Bcache σ × Bool
  | [], c => (c, true)
  | b :: bs, c =>
    if sel (c.bufs b) && (c.bufs b).valid && (c.bufs b).dirty then
      match dev.write c.disk (c.bufs b).key (c.bufs b).data with
      | (disk, true) => flushLoop sel bs { c.modify b (fun buf => { buf with dirty := false }) with disk := disk }
      | (disk, false) => ({ c with disk := disk }, false)
    else flushLoop sel bs c

/-- `bcache_flush_dev`. -/
def bcacheFlushDev (c : Bcache σ) (devId : BitVec 8) : Bcache σ × Bool :=
  flushLoop dev (fun buf => buf.key.dev == devId) (List.finRange 128) c

/-- `bcache_flush_all`. -/
def bcacheFlushAll (c : Bcache σ) : Bcache σ × Bool := flushLoop dev (fun _ => true) (List.finRange 128) c

end Calls

end TsOs
