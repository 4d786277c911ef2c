import TsOs.Lemmas.PmmBuddy
import TsOs.Lib.Runs

/-!
# The orders of the free lists

A block of a list has at most 1024 frames, while requests go up to 2048, and two blocks of the highest order are joined to one that
has no list. As long as neither happens no index passes the end of the lists, and an allocation has the frames that it was asked for,
where the block that it takes from a list is free in the bitmap.
-/

namespace TsOs

open Runs PmmRunAux PmmBuddyAux List

/-- A call that gives out frames has set the bit of every frame that it was asked for. -/
def Owns (s s' : FrameOwners) : Prop :=
  ∀ r, s'.live = r :: s.live → ∀ f ∈ r.frames, s.mem.pmm.isUsed f = false ∧ s'.mem.pmm.isUsed f = true

/-- What the bits of the bitmap and the lists show after a call; the free lists were not written past their end. -/
structure OrdersOk (s s' : FrameOwners) : Prop where
  enough : Owns s s'
  inBounds : s'.mem.overrun = false

/-- A block of a list is not asked for more than 1024 pages, and no two blocks of the highest order are joined. -/
def FrameOp.Ordered (s : FrameOwners) : FrameOp → Prop
  | .allocPages count => 2 ≤ count → (s.mem.firstBlock (orderForPages count)).isSome = true → count ≤ 1024
  | .freePages addr count => 2 ≤ count → ∀ b k, s.mem.Joins addr (orderForPages count) b k → k + 1 < pmmBuddyMaxOrder
  | _ => True

/-- The block that is taken from a list is free in the bitmap. -/
def FrameOp.FindsFree (s : FrameOwners) : FrameOp → Prop
  | .allocPages count => 2 ≤ count → ∀ addr, s.mem.firstBlock (orderForPages count) = some addr →
    s.mem.Clear addr (orderForPages count)
  | _ => True

variable {s : FrameOwners}

namespace PmmBuddyAux

variable {addr count : Nat} {b m : PmmBuddy}

/-- `pmm_buddy_alloc_pages` gives nothing, asks `pmm.c`, or takes the first block of the lists. -/
theorem pmmBuddyAllocPages_cases (ha : Aligned b) (hm : pmmBuddyAllocPages b count = some (m, addr)) :
    m = b ∧ addr = 0 ∨ count = 1 ∧ m = { b with pmm := (pmmAllocFrame b.pmm).1 } ∧ addr = (pmmAllocFrame b.pmm).2 ∨
    2 ≤ count ∧ ∃ b', Relisted b b' ∧
      (b.firstBlock (orderForPages count) = none ∧ m = { b' with pmm := (pmmAllocFrames b.pmm count).1 } ∧
        addr = (pmmAllocFrames b.pmm count).2 ∨
       b.firstBlock (orderForPages count) = some addr ∧ addr ≠ 0 ∧ 4096 ∣ addr ∧
        m = b'.markBlock pmmMarkUsed addr (orderForPages count)) := by
  unfold pmmBuddyAllocPages at hm
  split at hm
  · cases hm
    exact .inl ⟨rfl, rfl⟩
  rename_i hinit
  by_cases hone : count = 1
  · subst hone
    cases hm
    exact .inr (.inl ⟨rfl, rfl, rfl⟩)
  rw [if_neg hone] at hm
  split at hm
  · cases hm
    exact .inl ⟨rfl, rfl⟩
  have htwo : 2 ≤ count := by
    simp only [Bool.or_eq_true, beq_iff_eq, not_or] at hinit
    omega
  refine .inr (.inr ⟨htwo, ?_⟩)
  dsimp only at hm
  generalize hpop : popFirst b (range' (orderForPages count) (pmmBuddyMaxOrder - orderForPages count)) = popped at hm
  obtain ⟨b1, found⟩ := popped
  obtain ⟨hre, hfirst, hmem⟩ := popFirst_spec nodup_range' hpop
  change found.map Prod.snd = b.firstBlock (orderForPages count) at hfirst
  rw [← hfirst]
  cases found with
  | none =>
    cases hm
    rw [hre.pmm]
    exact ⟨b1, hre, .inl ⟨rfl, rfl, rfl⟩⟩
  | some block =>
    obtain ⟨allocOrder, addr'⟩ := block
    obtain ⟨b2, hsplit, heq⟩ := Option.map_eq_some_iff.1 hm
    obtain ⟨rfl, rfl⟩ := Prod.mk.inj heq
    obtain ⟨horder, hz, hin⟩ := hmem _ _ rfl
    rw [mem_range'_1] at horder
    have hdvd := ha _ _ hin
    exact ⟨b2, hre.trans (splitDown_spec hsplit (by omega) hdvd), .inr ⟨rfl, hz, hdvd, rfl⟩⟩

/-- `pmm_buddy_free_pages` does nothing, asks `pmm.c`, or puts a block into the lists that the pages were joined to. -/
theorem pmmBuddyFreePages_cases (hdvd : 4096 ∣ addr)
    (hjoins : 2 ≤ count → ∀ a k, b.Joins addr (orderForPages count) a k → k + 1 < pmmBuddyMaxOrder)
    (hm : pmmBuddyFreePages b addr count = some m) :
    m = b ∨ count = 1 ∧ m = { b with pmm := (pmmFreeFrame b.pmm addr).1 } ∨
    2 ≤ count ∧ ∃ b' addr' order', Relisted b b' ∧ m = b'.markBlock pmmMarkFree addr' order' := by
  unfold pmmBuddyFreePages at hm
  split at hm
  · cases hm
    exact .inl rfl
  rename_i hinit
  by_cases hone : count = 1
  · rw [if_pos hone] at hm
    cases hm
    exact .inr (.inl ⟨hone, rfl⟩)
  rw [if_neg hone] at hm
  have htwo : 2 ≤ count := by
    simp only [Bool.or_eq_true, beq_iff_eq, not_or] at hinit
    omega
  have hlt := orderForPages_lt count
  dsimp only at hm
  generalize hco : coalesce (pmmBuddyMaxOrder - orderForPages count) b addr (orderForPages count) = co at hm
  obtain ⟨b1, addr', order'⟩ := co
  obtain ⟨hre, hdvd', horder⟩ := coalesce_spec (by omega) hdvd hco
  have hlt' : order' < pmmBuddyMaxOrder := by
    rcases horder with rfl | ⟨a, k, hjoin, rfl⟩
    · exact hlt
    · exact hjoins htwo a k hjoin
  obtain ⟨b2, hpush, rfl⟩ := Option.map_eq_some_iff.1 hm
  exact .inr (.inr ⟨htwo, b2, addr', order', hre.trans (relisted_push hpush hlt' hdvd'), rfl⟩)

theorem step_freePages {s' : FrameOwners} (hs : (FrameOp.freePages addr count).step s = some s') :
    ∃ r ∈ s.live, r.addr = addr ∧ r.count = count ∧
      ∃ m, pmmBuddyFreePages s.mem addr count = some m ∧ s' = ⟨m, s.live.erase r⟩ := by
  rw [FrameOp.step] at hs
  split at hs
  case h_1 => cases hs
  rename_i r hfind
  have hmatch := find?_some hfind
  simp only [decide_eq_true_eq] at hmatch
  obtain ⟨m, hm, rfl⟩ := Option.map_eq_some_iff.1 hs
  exact ⟨r, mem_of_find?_eq_some hfind, hmatch.1, hmatch.2, m, hm, rfl⟩

/-- The bitmap after the frames `fs`, which were free, were taken. -/
structure Taken (p p' : Pmm) (fs : List Nat) : Prop where
  free : ∀ f ∈ fs, p.isUsed f = false
  used : ∀ f, p'.isUsed f = true ↔ f ∈ fs ∨ p.isUsed f = true

theorem taken_nil (p : Pmm) : Taken p p [] := ⟨fun f hf => absurd hf List.not_mem_nil, fun f => by simp⟩

theorem taken_takeAll {p : Pmm} {fs : List Nat} (hnd : fs.Nodup) (hfree : ∀ f ∈ fs, p.Free f) : Taken p (takeAll p fs) fs :=
  ⟨fun f hf => (hfree f hf).2.2, (takeAll_spec fs hnd hfree).2.2⟩

/-- The lists are within their bounds, and the addresses are those of frames. -/
structure OrdersInv (s : FrameOwners) : Prop where
  inBounds : s.mem.overrun = false
  aligned : Aligned s.mem
  addrs : ∀ r ∈ s.live, 4096 ∣ r.addr

theorem OrdersInv.start {p : Pmm} (hinit : pmmBuddyInit p = some m) : OrdersInv ⟨m, []⟩ := by
  obtain ⟨-, hover, hclear⟩ := pmmBuddyInit_spec hinit
  exact ⟨hover, fun o a ha => Clear.dvd (hclear o a ha), fun r hr => absurd hr not_mem_nil⟩

variable (h : OrdersInv s)
include h

theorem OrdersInv.give (hover : m.overrun = s.mem.overrun) (ha : Aligned m) {listed : Bool} (hdvd : addr ≠ 0 → 4096 ∣ addr) :
    OrdersInv (s.give m addr count listed) := by
  unfold FrameOwners.give
  by_cases hz : addr = 0
  · rw [if_pos hz]
    exact ⟨hover.trans h.inBounds, ha, h.addrs⟩
  · rw [if_neg hz]
    exact ⟨hover.trans h.inBounds, ha, forall_mem_cons.2 ⟨hdvd hz, h.addrs⟩⟩

theorem OrdersInv.erase (hover : m.overrun = s.mem.overrun) (ha : Aligned m) (r : FrameOwner) :
    OrdersInv ⟨m, s.live.erase r⟩ :=
  ⟨hover.trans h.inBounds, ha, fun q hq => h.addrs q (mem_of_mem_erase hq)⟩

theorem OrdersInv.allocFrame {listed : Bool} :
    OrdersInv (s.give { s.mem with pmm := (pmmAllocFrame s.mem.pmm).1 } (pmmAllocFrame s.mem.pmm).2 1 listed) := by
  refine h.give (m := { s.mem with pmm := (pmmAllocFrame s.mem.pmm).1 }) rfl h.aligned fun hz => ?_
  rcases pmmAllocFrame_spec s.mem.pmm with ⟨hr, _⟩ | ⟨f, -, -, -, hr⟩
  · exact absurd (congrArg Prod.snd hr) hz
  · rw [hr]
    exact Nat.dvd_mul_left _ _

theorem OrdersInv.step {s' : FrameOwners} {op : FrameOp} (hs : op.step s = some s') (hord : op.Ordered s) : OrdersInv s' := by
  cases op with
  | allocFrame =>
    cases hs
    exact h.allocFrame
  | freeFrame addr =>
    rw [FrameOp.step] at hs
    split at hs
    case isFalse => cases hs
    cases hs
    exact h.erase (m := { s.mem with pmm := (pmmFreeFrame s.mem.pmm addr).1 }) rfl h.aligned _
  | allocPages count =>
    obtain ⟨⟨m, addr⟩, hm, rfl⟩ := Option.map_eq_some_iff.1 hs
    rcases pmmBuddyAllocPages_cases h.aligned hm with ⟨rfl, rfl⟩ | ⟨rfl, rfl, rfl⟩ | ⟨htwo, b, hre, hcases⟩
    · exact h.give rfl h.aligned fun hz => absurd rfl hz
    · exact h.allocFrame
    rcases hcases with ⟨-, rfl, rfl⟩ | ⟨-, -, hdvd, rfl⟩
    · refine h.give (m := { b with pmm := (pmmAllocFrames s.mem.pmm count).1 }) hre.overrun (hre.aligned h.aligned) fun hz => ?_
      rcases pmmAllocFrames_spec s.mem.pmm count with ⟨hr, _⟩ | ⟨r, -, -, -, hr⟩
      · exact absurd (congrArg Prod.snd hr) hz
      · rw [hr]
        exact Nat.dvd_mul_left _ _
    · exact h.give (m := b.markBlock _ _ _) hre.overrun (hre.aligned h.aligned) fun _ => hdvd
  | freePages addr count =>
    obtain ⟨r, hr, rfl, rfl, m, hm, rfl⟩ := step_freePages hs
    rcases pmmBuddyFreePages_cases (h.addrs r hr) hord hm with rfl | ⟨-, rfl⟩ | ⟨-, b, _, _, hre, rfl⟩
    · exact h.erase rfl h.aligned r
    · exact h.erase (m := { s.mem with pmm := (pmmFreeFrame s.mem.pmm r.addr).1 }) rfl h.aligned r
    · exact h.erase (m := b.markBlock _ _ _) hre.overrun (hre.aligned h.aligned) r

omit h in
/-- A call that takes the frames `fs`, those it was asked for among them. -/
theorem owns_give {listed : Bool} {fs : List Nat} (ht : Taken s.mem.pmm m.pmm fs)
    (hnew : addr ≠ 0 → ∀ f ∈ range' (addr / 4096) count, f ∈ fs) : Owns s (s.give m addr count listed) := by
  unfold FrameOwners.give
  intro r hr f hf
  by_cases hz : addr = 0
  · rw [if_pos hz] at hr
    exact absurd hr.symm (cons_ne_self r _)
  · rw [if_neg hz] at hr ⊢
    obtain ⟨rfl, -⟩ := cons.inj hr
    exact ⟨ht.free f (hnew hz f hf), (ht.used f).2 (.inl (hnew hz f hf))⟩

omit h in
/-- A call that gives out nothing. -/
theorem owns_erase (r : FrameOwner) : Owns s ⟨m, s.live.erase r⟩ := by
  intro q hq
  have hlen := length_erase_le (a := r) (l := s.live)
  rw [show s.live.erase r = q :: s.live from hq, length_cons] at hlen
  omega

omit h in
theorem owns_allocFrame {listed : Bool} :
    Owns s (s.give { s.mem with pmm := (pmmAllocFrame s.mem.pmm).1 } (pmmAllocFrame s.mem.pmm).2 1 listed) := by
  rcases pmmAllocFrame_spec s.mem.pmm with ⟨hr, _⟩ | ⟨f, hf, _, _, hr⟩
  · rw [hr]
    exact owns_give (taken_nil _) fun hz => absurd rfl hz
  · rw [hr]
    have htaken := taken_takeAll (nodup_singleton f) (fun g hg => by rwa [mem_singleton.1 hg])
    exact owns_give (m := { s.mem with pmm := takeAll s.mem.pmm [f] }) htaken fun _ g hg => by simpa using hg

theorem OrdersInv.owns_allocPages (hord : (FrameOp.allocPages count).Ordered s) (hfinds : (FrameOp.allocPages count).FindsFree s)
    (hm : pmmBuddyAllocPages s.mem count = some (m, addr)) {listed : Bool} : Owns s (s.give m addr count listed) := by
  rcases pmmBuddyAllocPages_cases h.aligned hm with ⟨rfl, rfl⟩ | ⟨rfl, rfl, rfl⟩ | ⟨htwo, b, hre, hcases⟩
  · exact owns_give (taken_nil _) fun hz => absurd rfl hz
  · exact owns_allocFrame
  rcases hcases with ⟨-, rfl, rfl⟩ | ⟨hsome, hz, hdvd, rfl⟩
  · rcases pmmAllocFrames_spec s.mem.pmm count with ⟨hr, _⟩ | ⟨r, -, hfree, _, hr⟩
    · rw [hr]
      exact owns_give (m := { b with pmm := s.mem.pmm }) (taken_nil _) fun hz => absurd rfl hz
    · rw [hr]
      refine owns_give (m := { b with pmm := takeAll s.mem.pmm (range' r count) }) (taken_takeAll nodup_range' hfree) fun _ => ?_
      simp
  · have hclear := hfinds htwo addr hsome
    have hclear2 : b.Clear addr (orderForPages count) := by
      unfold PmmBuddy.Clear
      rw [hre.pmm]
      exact hclear
    have hfree : ∀ f ∈ blockFrames addr (orderForPages count), s.mem.pmm.Free f := by
      intro f hf
      have hfree := Clear.of_mem hclear hf
      rw [mem_blockFrames] at hf
      exact ⟨by omega, hfree⟩
    have htaken : Taken s.mem.pmm (b.markBlock pmmMarkUsed addr (orderForPages count)).pmm
        (blockFrames addr (orderForPages count)) := by
      rw [markBlock_used hclear2 hz, hre.pmm]
      exact taken_takeAll nodup_range' hfree
    refine owns_give (m := b.markBlock _ _ _) htaken fun _ f hf => ?_
    have hfit := le_orderForPages (hord htwo (hsome ▸ rfl))
    rw [mem_range'_1] at hf
    rw [mem_blockFrames]
    omega

theorem OrdersInv.owns {s' : FrameOwners} {op : FrameOp} (hs : op.step s = some s') (hord : op.Ordered s)
    (hfinds : op.FindsFree s) : Owns s s' := by
  cases op with
  | allocFrame =>
    cases hs
    exact owns_allocFrame
  | freeFrame addr =>
    rw [FrameOp.step] at hs
    split at hs
    case isFalse => cases hs
    cases hs
    exact owns_erase _
  | allocPages count =>
    obtain ⟨⟨m, addr⟩, hm, rfl⟩ := Option.map_eq_some_iff.1 hs
    exact h.owns_allocPages hord hfinds hm
  | freePages addr count =>
    obtain ⟨r, -, -, -, m, -, rfl⟩ := step_freePages hs
    exact owns_erase r

end PmmBuddyAux

/-- 32 frames, all but frame 0 free. -/
def thirtyTwoFrames : Pmm := ⟨fun w => if w = 0 then 0xFFFFFFFF00000001#64 else BitVec.allOnes 64, 32, 31#64, true, by decide⟩

namespace PmmBuddyAux

/-- What can be computed of the condition, for a free that is not joined with anything. -/
def OrderedAlone (s : FrameOwners) : FrameOp → Prop
  | .allocPages count => ∀ addr ∈ s.mem.firstBlock (orderForPages count), count ≤ 1024 ∧ ∀ i < 2 ^ orderForPages count,
    pmmIsFree s.mem.pmm (addr + i * 4096) = 1
  | .freePages addr count => buddyAddr addr (orderForPages count) ∉ s.mem.freeLists (orderForPages count)
  | _ => True

instance (s : FrameOwners) (op : FrameOp) : Decidable (OrderedAlone s op) := by
  cases op <;> unfold OrderedAlone <;> infer_instance

theorem OrderedAlone.ordered {op : FrameOp} (h : OrderedAlone s op) : op.Ordered s ∧ op.FindsFree s := by
  cases op with
  | allocFrame | freeFrame addr => exact ⟨trivial, trivial⟩
  | allocPages count =>
    refine ⟨fun _ hsome => ?_, fun _ addr haddr => (h addr haddr).2⟩
    obtain ⟨addr, haddr⟩ := Option.isSome_iff_exists.1 hsome
    exact (h addr haddr).1
  | freePages addr count =>
    refine ⟨fun _ b k hjoin => ?_, trivial⟩
    cases hjoin with
    | buddy _ hmem => exact absurd hmem h
    | next _ hmem _ => exact absurd hmem h

end PmmBuddyAux

/-- 16 MiB, of which the upper half is free. -/
def sixteenMib : Pmm := ⟨fun w => if 32 ≤ w ∧ w < 64 then 0#64 else BitVec.allOnes 64, 4096, 2048#64, true, by decide⟩

end TsOs
