import TsOs.Bcache
import TsOs.Lib.Recency

/-!
# The shape of the buffer cache

The list in order of last use and the hash table, and what every call leaves of them, whatever the device does: the list holds
every buffer in the order of the touches, and the chains hold the valid buffers, which have different keys. `GetEnd` says how
`bcache_get` ends from a state of this shape.
-/

namespace TsOs

open LinkedList List

open Function (update update_self update_of_ne update_idem)

variable {xs : List BufPtr} {b : BufPtr} {l : LruList} {on : BufPtr → Prop}

namespace BcacheAux

/-! ## The list in order of last use -/

/-- The order a list of buffers stands for. -/
def Order (l : LruList) (xs : List BufPtr) : Prop := DLinked l.next l.prev l.head l.tail xs

/-- The buffers of a list are fewer than the fuel of a walk over it. -/
theorem length_lt_bufFuel (h : xs.Nodup) : xs.length < bufFuel := by
  have hle : xs.length ≤ (finRange 128).length := h.length_le_of_subset (fun x _ => mem_finRange x)
  rw [length_finRange] at hle
  simp only [bufFuel]
  omega

theorem notMem_of_nodup {xs ys : List BufPtr} (h : (xs ++ b :: ys).Nodup) : b ∉ xs ++ ys :=
  (nodup_cons.1 (nodup_middle.1 h)).1

/-- `lru_remove` takes the buffer out of the list. -/
theorem lruRemove_spec {xs ys : List BufPtr} (h : Order l (xs ++ b :: ys)) :
    Order (lruRemove l b) (xs ++ ys) := by
  have hrev : DLinked l.prev l.next l.tail l.head (ys.reverse ++ b :: xs.reverse) := by
    have := DLinked.reverse h
    rwa [reverse_append, reverse_cons, append_assoc, singleton_append] at this
  have hb := notMem_of_nodup h.fwd.nodup
  have hr := DLinked.remove h
  rw [linkOf_eq h, linkOf_eq hrev] at hr
  -- the links of the buffer itself are cleared, which the rest of the list does not see
  have hclear : ∀ {next prev : BufPtr → Option BufPtr} {hd tl : Option BufPtr}, DLinked next prev hd tl (xs ++ ys) →
      DLinked (update next b none) (update prev b none) hd tl (xs ++ ys) := by
    intro next prev hd tl hdl
    have hne : ∀ x ∈ xs ++ ys, x ≠ b := by
      rintro x hx rfl
      exact hb hx
    exact hdl.congr (fun x hx => update_of_ne (hne x hx) _ _) (fun x hx => update_of_ne (hne x hx) _ _)
  have hprev : ∀ p, l.prev b = some p → p ≠ b := by
    rintro p hp rfl
    have := hrev.fwd.next_of_append.head_eq
    rw [hp, head?_reverse] at this
    exact hb (mem_append_left ys (mem_of_getLast? this.symm))
  unfold lruRemove Order
  cases hp : l.prev b with
  | none =>
    cases hn : l.next b with
    | none =>
      simpa only [hp, hn, Link.writeNext, Link.writeHead] using hclear hr
    | some n =>
      simpa only [hp, hn, Link.writeNext, Link.writeHead] using hclear hr
  | some p =>
    have hbn : update l.next p (l.next b) b = l.next b := update_of_ne (hprev p hp).symm _ _
    cases hn : l.next b with
    | none =>
      rw [hn] at hbn hr
      simpa only [hp, hbn, Link.writeNext, Link.writeHead] using hclear hr
    | some n =>
      rw [hn] at hbn hr
      simpa only [hp, hbn, Link.writeNext, Link.writeHead] using hclear hr

/-- `lru_push_front` puts the buffer in front. -/
theorem lruPushFront_spec (h : Order l xs) (hb : b ∉ xs) :
    Order (lruPushFront l b) (b :: xs) := by
  have hhead := h.fwd.head_eq
  unfold Order lruPushFront
  cases xs with
  | nil =>
    simp only [hhead]
    exact DLinked.singleton (update_self _ _ _) (update_self _ _ _)
  | cons y xs =>
    simp only [hhead]
    have hp := DLinked.push h hb
    rwa [hhead] at hp

/-- `lru_touch` moves the buffer to the front. -/
theorem lruTouch_spec (h : Order l xs) (hb : b ∈ xs) :
    Order (lruTouch l b) (b :: xs.erase b) := by
  obtain ⟨as, bs, rfl⟩ := append_of_mem hb
  have hb := notMem_of_nodup h.fwd.nodup
  rw [erase_append_right _ (fun has => hb (mem_append_left bs has)), erase_cons_head]
  exact lruPushFront_spec (lruRemove_spec h) hb

theorem mem_touched (hall : ∀ b, b ∈ xs) (b x : BufPtr) : x ∈ b :: xs.erase b := by
  by_cases e : x = b
  · simp [e]
  · exact mem_cons_of_mem _ ((mem_erase_of_ne e).2 (hall x))

/-- Pushing distinct buffers one by one. -/
theorem foldl_lruPushFront {bs : List BufPtr} : ∀ {l : LruList} {xs : List BufPtr}, Order l xs → bs.Nodup →
    (∀ b ∈ bs, b ∉ xs) → Order (bs.foldl lruPushFront l) (bs.reverse ++ xs) := by
  induction bs with
  | nil => exact fun h _ _ => h
  | cons b bs ih =>
    intro l xs h hnd hd
    obtain ⟨hb, hnd⟩ := nodup_cons.1 hnd
    rw [reverse_cons, append_assoc]
    refine ih (lruPushFront_spec h (hd b (by simp))) hnd (fun c hc hm => ?_)
    rcases mem_cons.1 hm with rfl | hm
    · exact hb hc
    · exact hd c (by simp [hc]) hm

/-! ## The hash table -/

/-- The chains hold exactly the buffers `on`, each in the chain of its key. -/
def Hashed (h : HashTable) (key : BufPtr → SectorKey) (on : BufPtr → Prop) : Prop :=
  ∃ chains : Fin 16 → List BufPtr, Family h.next h.head chains ∧ (∀ i, ∀ b ∈ chains i, bcacheHash (key b) = i) ∧
    ∀ b, on b ↔ ∃ i, b ∈ chains i

variable {h : HashTable}

theorem Hashed.congr {key key' : BufPtr → SectorKey} {on on' : BufPtr → Prop} (hh : Hashed h key on)
    (hk : ∀ b, on b → key' b = key b) (ho : ∀ b, on' b ↔ on b) : Hashed h key' on' := by
  obtain ⟨chains, hf, hb, hon⟩ := hh
  refine ⟨chains, hf, fun i b hm => ?_, fun b => (ho b).trans (hon b)⟩
  rw [hk b ((hon b).2 ⟨i, hm⟩)]
  exact hb i b hm

/-- `hash_find` returns a buffer of the chains with the key, or nothing. -/
theorem hashFind_cases {bufs : BufPtr → Buf}
    (hh : Hashed h (fun b => (bufs b).key) on) (k : SectorKey) :
    (hashFind h bufs k = some none ∧ ∀ b, on b → (bufs b).key ≠ k) ∨
      ∃ b, hashFind h bufs k = some (some b) ∧ on b ∧ (bufs b).key = k := by
  obtain ⟨chains, hf, hbucket, hon⟩ := hh
  have hfind : hashFind h bufs k = some ((chains (bcacheHash k)).find? (fun b => (bufs b).key == k)) :=
    findNode_eq (hf.linked _) (length_lt_bufFuel (hf.linked _).nodup)
  rw [hfind]
  cases hr : (chains (bcacheHash k)).find? (fun b => (bufs b).key == k) with
  | none =>
    refine .inl ⟨rfl, fun b hb e => ?_⟩
    obtain ⟨i, hi⟩ := (hon b).1 hb
    have hbi : bcacheHash (bufs b).key = i := hbucket i b hi
    rw [e] at hbi
    rw [← hbi] at hi
    have := find?_eq_none.1 hr b hi
    rw [beq_iff_eq] at this
    exact this e
  | some b =>
    have hkey := find?_some hr
    rw [beq_iff_eq] at hkey
    exact .inr ⟨b, rfl, (hon b).2 ⟨_, mem_of_find?_eq_some hr⟩, hkey⟩

/-- `hash_find` finds the buffer with the key. -/
theorem hashFind_some {bufs : BufPtr → Buf} (hh : Hashed h (fun b => (bufs b).key) on)
    (inj : ∀ b c, on b → on c → (bufs b).key = (bufs c).key → b = c) (hb : on b) :
    hashFind h bufs (bufs b).key = some (some b) := by
  rcases hashFind_cases hh (bufs b).key with ⟨_, hnone⟩ | ⟨c, hfind, hc, hkey⟩
  · exact absurd rfl (hnone b hb)
  · rw [hfind, inj c b hc hb hkey]

/-- `hash_insert` of a buffer on no chain. -/
theorem hashInsert_spec {key : BufPtr → SectorKey} (hh : Hashed h key on) {b : BufPtr}
    (hb : ¬on b) (k : SectorKey) :
    Hashed (hashInsert h b k) (update key b k) (fun c => c = b ∨ on c) := by
  obtain ⟨chains, hf, hbucket, hon⟩ := hh
  have hfresh : ∀ i, b ∉ chains i := fun i hm => hb ((hon b).2 ⟨i, hm⟩)
  refine ⟨_, hf.push (bcacheHash k) hfresh, fun i c hc => ?_, fun c => ?_⟩
  · by_cases e : c = b
    · subst e
      rw [update_self]
      by_cases ei : i = bcacheHash k
      · exact ei.symm
      · rw [update_of_ne ei] at hc
        exact absurd hc (hfresh i)
    · rw [update_of_ne e]
      by_cases ei : i = bcacheHash k
      · subst ei
        rw [update_self] at hc
        exact hbucket _ c ((mem_cons.1 hc).resolve_left e)
      · rw [update_of_ne ei] at hc
        exact hbucket i c hc
  · simp only [hon c]
    constructor
    · rintro (rfl | ⟨i, hi⟩)
      · exact ⟨bcacheHash k, by simp⟩
      · by_cases ei : i = bcacheHash k
        · subst ei; exact ⟨bcacheHash k, by simp [hi]⟩
        · exact ⟨i, by rwa [update_of_ne ei]⟩
    · rintro ⟨i, hi⟩
      by_cases ei : i = bcacheHash k
      · subst ei
        rw [update_self] at hi
        exact (mem_cons.1 hi).imp_right (fun hm => ⟨_, hm⟩)
      · rw [update_of_ne ei] at hi
        exact Or.inr ⟨i, hi⟩

/-- `hash_remove` of a buffer on a chain. -/
theorem hashRemove_spec {key : BufPtr → SectorKey} (hh : Hashed h key on) {b : BufPtr}
    (hb : on b) : ∃ h', hashRemove h b (key b) = some h' ∧ Hashed h' key (fun c => c ≠ b ∧ on c) := by
  obtain ⟨chains, hf, hbucket, hon⟩ := hh
  obtain ⟨i, hi⟩ := (hon b).1 hb
  obtain ⟨xs, ys, hq⟩ := append_of_mem hi
  have hbi := hbucket i b hi
  have hlink := hf.linked i
  have hlen := length_lt_bufFuel hlink.nodup
  rw [hq] at hlink hlen
  have hnot := notMem_of_nodup hlink.nodup
  have hfind : findLink h.next (fun c => c == b) bufFuel .head (h.head i) = some (some (linkOf .head xs, b)) := by
    rw [length_append] at hlen
    refine findLink_some hlink (by simp) (fun c hc => ?_) (by omega) .head
    rw [beq_eq_false_iff_ne]
    rintro rfl
    exact hnot (mem_append_left ys hc)
  have hmem : ∀ j c, c ∈ update chains i (xs ++ ys) j ↔ c ≠ b ∧ c ∈ chains j := by
    intro j c
    by_cases e : j = i
    · subst e
      rw [update_self, hq]
      constructor
      · intro hc
        have hne : c ≠ b := fun e => hnot (e ▸ hc)
        exact ⟨hne, by simpa [hne] using hc⟩
      · rintro ⟨hne, hc⟩
        simpa [hne] using hc
    · rw [update_of_ne e]
      refine ⟨fun hc => ⟨?_, hc⟩, fun hc => hc.2⟩
      rintro rfl
      exact e (hf.disjoint j i c hc hi)
  refine ⟨_, by simp only [hashRemove, hbi, hfind]; rfl, update chains i (xs ++ ys), ?_, fun j c hc => ?_, fun c => ?_⟩
  · refine (hf.unlink hq).congr (fun j c hc => update_of_ne ((hmem j c).1 hc).1 _ _)
  · exact hbucket j c ((hmem j c).1 hc).2
  · simp only [hon c, hmem]
    constructor
    · rintro ⟨hne, j, hj⟩
      exact ⟨j, hne, hj⟩
    · rintro ⟨j, hne, hj⟩
      exact ⟨hne, j, hj⟩

end BcacheAux

open BcacheAux Recency

/-! ## The shape and how it is kept -/

/-- The list in order of last use holds every buffer, in the order of the touches `hist`, and the chains hold the valid buffers,
which have different keys. -/
structure Shaped {σ : Type} (c : Bcache σ) (hist : List BufPtr) : Prop where
  order : ∃ xs, Order c.lru xs ∧ (∀ b, b ∈ xs) ∧ Ordered hist xs
  hashed : Hashed c.hash (fun b => (c.bufs b).key) (fun b => (c.bufs b).valid = true)
  inj : ∀ b b', (c.bufs b).valid = true → (c.bufs b').valid = true → (c.bufs b).key = (c.bufs b').key → b = b'

/-- An unreferenced buffer, touched before all the others. -/
def OldestFree {σ : Type} (c : Bcache σ) (hist : List BufPtr) (b : BufPtr) : Prop :=
  (c.bufs b).refCount = 0 ∧ ∀ b', (c.bufs b').refCount = 0 → b' ≠ b → After hist b' b

section Calls

variable {σ : Type} {c : Bcache σ} {hist : List BufPtr}

/-- The buffers that `bcache_init` touches, in order. -/
def initTouches : List BufPtr := (List.finRange 128).reverse

theorem shaped_init (disk : σ) : Shaped (bcacheInit disk) initTouches where
  order := by
    have hnd : initTouches.Nodup := nodup_reverse.2 (nodup_finRange 128)
    have ho : Order (bcacheInit disk).lru (initTouches.reverse ++ []) :=
      foldl_lruPushFront ⟨rfl, rfl⟩ hnd (by simp)
    exact ⟨_, ho, fun b => by simp [initTouches, mem_finRange], ordered_reverse hnd⟩
  hashed := ⟨fun _ => [], ⟨fun _ => rfl, by simp⟩, by simp, by simp [bcacheInit]⟩
  inj _ _ h := by simp [bcacheInit] at h

/-- `lru_touch` records the touch. -/
theorem ordered_touch (h : ∃ xs, Order l xs ∧ (∀ b, b ∈ xs) ∧ Ordered hist xs) (b : BufPtr) :
    ∃ xs, Order (lruTouch l b) xs ∧ (∀ b, b ∈ xs) ∧ Ordered (hist ++ [b]) xs := by
  obtain ⟨xs, ho, hall, hrec⟩ := h
  exact ⟨_, lruTouch_spec ho (hall b), mem_touched hall b, hrec.touch ho.fwd.nodup b⟩

variable {c' : Bcache σ} {hist' : List BufPtr}

/-- A state with the same chains, keys and valid flags. -/
theorem Shaped.congr (h : Shaped c hist) (hh : c'.hash = c.hash)
    (hb : ∀ b, (c'.bufs b).key = (c.bufs b).key ∧ (c'.bufs b).valid = (c.bufs b).valid)
    (ho : ∃ xs, Order c'.lru xs ∧ (∀ b, b ∈ xs) ∧ Ordered hist' xs) : Shaped c' hist' where
  order := ho
  hashed := by
    rw [hh]
    exact h.hashed.congr (fun b _ => (hb b).1) (fun b => by rw [(hb b).2])
  inj b b' hv hv' he := by
    rw [(hb b).2] at hv
    rw [(hb b').2] at hv'
    rw [(hb b).1, (hb b').1] at he
    exact h.inj b b' hv hv' he

/-- The shape after an invalid buffer got a key no valid one has, and was made valid. -/
theorem Shaped.rekeyed {x : Buf} (h : Shaped c hist)
    (hmiss : ∀ b, (c.bufs b).valid = true → (c.bufs b).key ≠ x.key) (hb : c'.bufs = update c.bufs b x)
    (hv : x.valid = true)
    (hh : Hashed c'.hash (update (fun b => (c.bufs b).key) b x.key)
      (fun b' => b' = b ∨ b' ≠ b ∧ (c.bufs b').valid = true))
    (ho : ∃ xs, Order c'.lru xs ∧ (∀ b, b ∈ xs) ∧ Ordered hist' xs) : Shaped c' hist' := by
  have hself : c'.bufs b = x := by rw [hb, update_self]
  have hother : ∀ b', b' ≠ b → c'.bufs b' = c.bufs b' := fun b' hb' => by rw [hb, update_of_ne hb']
  refine ⟨ho, hh.congr (fun b' _ => ?_) (fun b' => ?_), fun b' b'' hv' hv'' heq => ?_⟩
  · by_cases e : b' = b
    · subst e; rw [hself, update_self]
    · rw [hother b' e, update_of_ne e]
  · by_cases e : b' = b
    · subst e; simp [hself, hv]
    · simp [hother b' e, e]
  · by_cases e' : b' = b <;> by_cases e'' : b'' = b
    · rw [e', e'']
    · subst e'
      rw [hself, hother b'' e''] at heq
      rw [hother b'' e''] at hv''
      exact absurd heq.symm (hmiss b'' hv'')
    · subst e''
      rw [hself, hother b' e'] at heq
      rw [hother b' e'] at hv'
      exact absurd heq (hmiss b' hv')
    · rw [hother b' e'] at hv' heq
      rw [hother b'' e''] at hv'' heq
      exact h.inj b' b'' hv' hv'' heq

/-- The shape after a buffer was taken off the chains. -/
theorem Shaped.dropped {x : Buf} (h : Shaped c hist)
    (hb : c'.bufs = update c.bufs b x) (hv : x.valid = false)
    (hh : Hashed c'.hash (update (fun b => (c.bufs b).key) b x.key) (fun b' => b' ≠ b ∧ (c.bufs b').valid = true))
    (ho : ∃ xs, Order c'.lru xs ∧ (∀ b, b ∈ xs) ∧ Ordered hist' xs) : Shaped c' hist' := by
  have hself : c'.bufs b = x := by rw [hb, update_self]
  have hother : ∀ b', b' ≠ b → c'.bufs b' = c.bufs b' := fun b' hb' => by rw [hb, update_of_ne hb']
  have hne : ∀ b', (c'.bufs b').valid = true → b' ≠ b := by
    rintro b' hv' rfl
    rw [hself, hv] at hv'
    cases hv'
  refine ⟨ho, hh.congr (fun b' hb' => ?_) (fun b' => ?_), fun b' b'' hv' hv'' heq => ?_⟩
  · rw [hother b' hb'.1, update_of_ne hb'.1]
  · refine ⟨fun hv' => ⟨hne b' hv', ?_⟩, fun hv' => ?_⟩
    · rw [hother b' (hne b' hv')] at hv'; exact hv'
    · rw [hother b' hv'.1]; exact hv'.2
  · have e' := hother b' (hne b' hv')
    have e'' := hother b'' (hne b'' hv'')
    rw [e'] at hv' heq
    rw [e''] at hv'' heq
    exact h.inj b' b'' hv' hv'' heq

theorem findEvictable_eq (ho : Order c.lru xs) :
    findEvictable c = some (xs.reverse.find? (fun b => (c.bufs b).refCount == 0)) :=
  findNode_eq ho.bwd (length_lt_bufFuel ho.bwd.nodup)

/-- `find_evictable` returns the unreferenced buffer touched before the others, if there is one. -/
theorem Shaped.findEvictable (h : Shaped c hist) :
    (findEvictable c = some none ∧ ∀ b, (c.bufs b).refCount ≠ 0) ∨
      ∃ b, findEvictable c = some (some b) ∧ OldestFree c hist b := by
  obtain ⟨xs, ho, hall, hrec⟩ := h.order
  have hf := findEvictable_eq ho
  cases hr : xs.reverse.find? (fun b => (c.bufs b).refCount == 0) with
  | none =>
    refine Or.inl ⟨by rw [hf, hr], fun b => ?_⟩
    have := find?_eq_none.1 hr b (mem_reverse.2 (hall b))
    simpa using this
  | some b =>
    have hz := find?_some hr
    rw [beq_iff_eq] at hz
    refine Or.inr ⟨b, by rw [hf, hr], hz, fun b' hz' hne => ?_⟩
    exact hrec.find?_reverse hr (hall b') (by rw [beq_iff_eq]; exact hz') hne

/-- The chains after steps 4 and 5 of `bcache_get` for a buffer that is on its chain exactly when it is valid. -/
theorem rekey_spec (hh : Hashed c.hash (fun b => (c.bufs b).key) on)
    (hb : on b ↔ (c.bufs b).valid = true) (k : SectorKey) :
    ∃ c', rekey c b k = some c' ∧ c'.disk = c.disk ∧ c'.lru = lruTouch c.lru b ∧
      c'.bufs = update c.bufs b { c.bufs b with key := k, valid := false, dirty := false, refCount := 1 } ∧
      Hashed c'.hash (update (fun b => (c.bufs b).key) b k) (fun b' => b' = b ∨ b' ≠ b ∧ on b') := by
  obtain ⟨h', hr, hh'⟩ : ∃ h', (if (c.bufs b).valid then hashRemove c.hash b (c.bufs b).key else some c.hash) = some h' ∧
      Hashed h' (fun b => (c.bufs b).key) (fun b' => b' ≠ b ∧ on b') := by
    by_cases hv : (c.bufs b).valid = true
    · rw [if_pos hv]
      exact hashRemove_spec hh (hb.2 hv)
    · rw [if_neg hv]
      refine ⟨c.hash, rfl, hh.congr (fun _ _ => rfl) (fun b' => ⟨fun ho => ho.2, fun ho => ⟨?_, ho⟩⟩)⟩
      rintro rfl
      exact hv (hb.1 ho)
  refine ⟨{ c.modify b (fun buf => { buf with key := k, valid := false, dirty := false, refCount := 1 }) with
      hash := hashInsert h' b k
      lru := lruTouch c.lru b }, by rw [rekey, hr, Option.map_some], rfl, rfl, rfl, ?_⟩
  exact hashInsert_spec hh' (by simp) k

/-! ## How a call of `bcache_get` ends -/

/-- The buffer in step 5 of `bcache_get`, after the outcome of the read. -/
def filled (old : Buf) (k : SectorKey) : Option Sector → Buf
  | some data => { data := data, key := k, valid := true, dirty := false, refCount := 1 }
  | none => { data := old.data, key := k, valid := false, dirty := false, refCount := 0 }

/-- How `bcache_get` of `k` ends, from a state whose touches were `hist`: a hit, no unreferenced buffer, or the sector read into
the unreferenced buffer touched before the others, which is written back first; a failed read touches it once more. -/
inductive GetEnd (dev : BlockDev σ) (c : Bcache σ) (hist : List BufPtr) (k : SectorKey) :
    Bcache σ → Option BufPtr → List BufPtr → Prop
  | hit {c' : Bcache σ} {b : BufPtr} (hv : (c.bufs b).valid = true) (hk : (c.bufs b).key = k)
      (hb : c'.bufs = Function.update c.bufs b { c.bufs b with refCount := ((c.bufs b).refCount + 1) % 2 ^ 32 })
      (hd : c'.disk = c.disk) : GetEnd dev c hist k c' (some b) (hist ++ [b])
  | full (hmiss : ∀ b, (c.bufs b).valid = true → (c.bufs b).key ≠ k) (hall : ∀ b, (c.bufs b).refCount ≠ 0) :
      GetEnd dev c hist k c none hist
  | evict {c' : Bcache σ} {b : BufPtr} (hmiss : ∀ b, (c.bufs b).valid = true → (c.bufs b).key ≠ k)
      (he : findEvictable c = some (some b)) (hold : OldestFree c hist b) (data : Option Sector)
      (hread : dev.read (evictWrite dev c b).disk k = (c'.disk, data))
      (hb : c'.bufs = Function.update c.bufs b (filled (c.bufs b) k data)) :
      GetEnd dev c hist k c' (data.map (fun _ => b)) (hist ++ b :: if data.isSome then [] else [b])

/-- The write of step 3 of `bcache_get` changes the device only. -/
theorem evictWrite_eq (dev : BlockDev σ) (c : Bcache σ) (b : BufPtr) :
    evictWrite dev c b = { c with disk := (evictWrite dev c b).disk } := by
  unfold evictWrite
  split <;> rfl

/-- Step 6 of `bcache_get` keeps the shape, after steps 4 and 5. -/
theorem Shaped.fill (dev : BlockDev σ) {c c2 : Bcache σ} {k : SectorKey} (h : Shaped c hist)
    (hmiss : ∀ b, (c.bufs b).valid = true → (c.bufs b).key ≠ k) (hlru : c2.lru = lruTouch c.lru b)
    (hbufs : c2.bufs = update c.bufs b { c.bufs b with key := k, valid := false, dirty := false, refCount := 1 })
    (hhash : Hashed c2.hash (update (fun b => (c.bufs b).key) b k)
      (fun b' => b' = b ∨ b' ≠ b ∧ (c.bufs b').valid = true)) :
    ∃ c' data, fill dev c2 b k = some (c', data.map (fun _ => b)) ∧ dev.read c2.disk k = (c'.disk, data) ∧
      c'.bufs = update c.bufs b (filled (c.bufs b) k data) ∧
      Shaped c' (hist ++ b :: if data.isSome then [] else [b]) := by
  have ho := ordered_touch h.order b
  rcases hr : dev.read c2.disk k with ⟨disk, _ | data⟩
  · obtain ⟨hash, hrm, hhash'⟩ := hashRemove_spec hhash (b := b) (Or.inl rfl)
    rw [update_self] at hrm
    refine ⟨{ c2.modify b (fun buf => { buf with valid := false, dirty := false, refCount := 0 }) with
        disk := disk, hash := hash, lru := lruTouch c2.lru b }, none, ?_, rfl, ?_, ?_⟩
    · simp only [TsOs.fill, hr, hrm, Option.map_some, Option.map_none]
    · simp only [Bcache.modify, hbufs, update_self, update_idem, filled]
    · have ho2 := ordered_touch ho b
      rw [← hlru, append_assoc] at ho2
      refine h.dropped (b := b) (x := filled (c.bufs b) k none) ?_ rfl ?_ ho2
      · simp only [Bcache.modify, hbufs, update_self, update_idem, filled]
      · refine hhash'.congr (fun _ _ => rfl) (fun b' => ?_)
        constructor
        · exact fun hb' => ⟨hb'.1, Or.inr hb'⟩
        · exact fun hb' => hb'.2.resolve_left hb'.1
  · refine ⟨{ c2.modify b (fun buf => { buf with data := data, valid := true }) with disk := disk }, some data, ?_, rfl, ?_, ?_⟩
    · simp only [TsOs.fill, hr, Option.map_some]
    · simp only [Bcache.modify, hbufs, update_self, update_idem, filled]
    · refine h.rekeyed (b := b) (x := filled (c.bufs b) k (some data)) hmiss ?_ rfl hhash ?_
      · simp only [Bcache.modify, hbufs, update_self, update_idem, filled]
      · simp only [Bcache.modify, hlru]
        exact ho

/-- `bcache_get` returns, in one of the ways of `GetEnd`, and keeps the shape. -/
theorem Shaped.get (dev : BlockDev σ) (h : Shaped c hist) (k : SectorKey) :
    ∃ c' r hist', bcacheGet dev c k = some (c', r) ∧ GetEnd dev c hist k c' r hist' ∧ Shaped c' hist' := by
  rcases hashFind_cases h.hashed k with ⟨hfind, hmiss⟩ | ⟨b, hfind, hv, hk⟩
  rotate_left
  · refine ⟨{ c.modify b (fun buf => { buf with refCount := (buf.refCount + 1) % 2 ^ 32 }) with lru := lruTouch c.lru b },
      some b, hist ++ [b], by simp only [bcacheGet, hfind], .hit hv hk rfl rfl, ?_⟩
    refine h.congr rfl (fun b' => ?_) (ordered_touch h.order b)
    by_cases e : b' = b
    · subst e; simp [Bcache.modify]
    · simp [Bcache.modify, e]
  rcases h.findEvictable with ⟨he, hall⟩ | ⟨b, he, hold⟩
  · exact ⟨c, none, hist, by simp only [bcacheGet, hfind, he], .full hmiss hall, h⟩
  have hev := evictWrite_eq dev c b
  have hget : bcacheGet dev c k = (rekey (evictWrite dev c b) b k).bind (fun c => TsOs.fill dev c b k) := by
    simp only [bcacheGet, hfind, he]
  obtain ⟨c2, hrekey, hdisk, hlru, hbufs, hhash⟩ := rekey_spec (c := evictWrite dev c b) (b := b)
    (by rw [hev]; exact h.hashed) (by rw [hev]) k
  have hbufs1 : (evictWrite dev c b).bufs = c.bufs := by rw [hev]
  have hlru1 : (evictWrite dev c b).lru = c.lru := by rw [hev]
  rw [hbufs1] at hbufs hhash
  rw [hlru1] at hlru
  obtain ⟨c', data, hfill, hread, hb, h'⟩ := h.fill dev hmiss hlru hbufs hhash
  rw [hdisk] at hread
  exact ⟨c', _, _, by rw [hget, hrekey, Option.bind_some, hfill], .evict hmiss he hold data hread hb, h'⟩

/-! ## The other calls -/

/-- Two states with the same lists, keys and valid flags. -/
def SameShape (c c' : Bcache σ) : Prop :=
  c'.lru = c.lru ∧ c'.hash = c.hash ∧ ∀ b, (c'.bufs b).key = (c.bufs b).key ∧ (c'.bufs b).valid = (c.bufs b).valid

theorem SameShape.trans {c c' c'' : Bcache σ} (h : SameShape c c') (h' : SameShape c' c'') : SameShape c c'' :=
  ⟨h'.1.trans h.1, h'.2.1.trans h.2.1, fun b => ⟨(h'.2.2 b).1.trans (h.2.2 b).1, (h'.2.2 b).2.trans (h.2.2 b).2⟩⟩

theorem SameShape.shaped {c c' : Bcache σ} (hs : SameShape c c') (h : Shaped c hist) : Shaped c' hist :=
  h.congr hs.2.1 hs.2.2 (by rw [hs.1]; exact h.order)

/-- A write to the other fields of a buffer. -/
theorem sameShape_modify (c : Bcache σ) (b : BufPtr) (f : Buf → Buf) (disk : σ)
    (hf : ∀ x, (f x).key = x.key ∧ (f x).valid = x.valid) : SameShape c { c.modify b f with disk := disk } := by
  refine ⟨rfl, rfl, fun b' => ?_⟩
  by_cases e : b' = b
  · subst e; simpa only [Bcache.modify, update_self] using hf (c.bufs b')
  · simp only [Bcache.modify, update_of_ne e, and_self]

theorem sameShape_put (dev : BlockDev σ) (c : Bcache σ) (b : BufPtr) : SameShape c (bcachePut dev c b) := by
  have h1 : SameShape c (if (c.bufs b).refCount > 0 then c.modify b (fun buf => { buf with refCount := buf.refCount - 1 })
      else c) := by
    split
    · exact sameShape_modify c b (fun buf => { buf with refCount := buf.refCount - 1 }) c.disk (fun _ => ⟨rfl, rfl⟩)
    · exact ⟨rfl, rfl, fun _ => ⟨rfl, rfl⟩⟩
  unfold bcachePut
  refine h1.trans ?_
  generalize (if (c.bufs b).refCount > 0 then c.modify b (fun buf => { buf with refCount := buf.refCount - 1 }) else c) = c1
  simp only
  split
  · rcases dev.write c1.disk (c1.bufs b).key (c1.bufs b).data with ⟨disk, _ | _⟩
    · exact ⟨rfl, rfl, fun _ => ⟨rfl, rfl⟩⟩
    · exact sameShape_modify c1 b (fun buf => { buf with dirty := false }) disk (fun _ => ⟨rfl, rfl⟩)
  · exact ⟨rfl, rfl, fun _ => ⟨rfl, rfl⟩⟩

theorem sameShape_flushLoop (dev : BlockDev σ) (sel : Buf → Bool) (bs : List BufPtr) (c : Bcache σ) :
    SameShape c (flushLoop dev sel bs c).1 := by
  induction bs generalizing c with
  | nil => exact ⟨rfl, rfl, fun _ => ⟨rfl, rfl⟩⟩
  | cons b bs ih =>
    rw [flushLoop]
    split
    · rcases dev.write c.disk (c.bufs b).key (c.bufs b).data with ⟨disk, _ | _⟩
      · exact ⟨rfl, rfl, fun _ => ⟨rfl, rfl⟩⟩
      · exact (sameShape_modify c b (fun buf => { buf with dirty := false }) disk (fun _ => ⟨rfl, rfl⟩)).trans (ih _)
    · exact ih c

end Calls

end TsOs
