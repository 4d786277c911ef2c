import TsOs.Lemmas.UserMemory
import TsOs.Theorems.SpaceSet

/-!
# The memory that user code is given

Histories of `sys_brk`, `sys_mmap` and `sys_munmap`: when the ranges that `sys_mmap` hands out are apart from each other and from heap
and stack. The calls do not look at what is mapped: it is the order of the calls that keeps the ranges apart.
-/

namespace TsOs

open StateProg PteAux TableAux VaAux VmmRun WalkAux RangeAux Runs List BitVec Option Bool Nat

/-- Page `n` overlaps the heap, from `user_heap_start` to `user_heap_brk`. -/
def OnHeap (t : UserRegions) (n : Nat) : Prop := t.heapStart.toNat < (n + 1) * 4096 ∧ n * 4096 < t.heapBrk.toNat

/-- Page `n` overlaps the user stack. -/
def OnStack (t : UserRegions) (n : Nat) : Prop :=
  t.stackBase.toNat < (n + 1) * 4096 ∧ n * 4096 < t.stackBase.toNat + t.stackSize.toNat

/-- Heap and stack of a task lie in the user half, at page boundaries, the heap below 4 GiB; a task without a heap has no break. -/
structure TaskPlaced (p₀ : Pmm) (r : Nat) (s : UserMemory) : Prop where
  spaces : Spaces p₀ [r] s.vmm
  heapSet : s.regions.heapStart = 0#64 → s.regions.heapBrk = 0#64
  start_le : s.regions.heapStart.toNat ≤ s.regions.heapBrk.toNat
  heapEnd : s.regions.heapBrk.toNat + 4095 < 2 ^ 32
  heapAligned : s.regions.heapStart.toNat % 4096 = 0
  stackAligned : s.regions.stackBase.toNat % 4096 = 0
  stackEnd : s.regions.stackBase.toNat + s.regions.stackSize.toNat ≤ 2 ^ 47

/-- The pages that a call of `sys_mmap` chooses. -/
def mmapPages (t : UserRegions) (addr length : BitVec 64) : List Nat :=
  List.range' (pageNo (mmapBase t addr)) (pageCount length).toNat

/-- The pages of a range that `sys_munmap` is given. -/
def munmapPages (addr length : BitVec 64) : List Nat := List.range' (pageNo addr) (pageCount length).toNat

/-- The lengths that `sys_mmap` accepts. -/
def MmapLength (length : BitVec 64) : Prop := length ≠ 0#64 ∧ length.toNat ≤ elfMaxLoadSize.toNat

instance (length : BitVec 64) : Decidable (MmapLength length) := inferInstanceAs (Decidable (_ ∧ _))

/-! ## Ranges that are apart -/

/-- The ranges handed out by `sys_mmap` and not unmapped yet are disjoint, and overlap neither heap nor stack. -/
structure RangesApart (s : MemHistory) : Prop where
  disjoint : s.ranges.Pairwise List.Disjoint
  heap : ∀ l ∈ s.ranges, ∀ n ∈ l, ¬ OnHeap s.mem.regions n
  stack : ∀ l ∈ s.ranges, ∀ n ∈ l, ¬ OnStack s.mem.regions n

/-- What a call must respect: the pages that it hands out were not in use before. -/
def MemOp.HandsOutNew (r : Nat) (s : MemHistory) : MemOp → Prop
  | .mmap addr length prot => (sysMmap r addr length prot s.mem).1 ≠ none →
      ∀ n ∈ mmapPages s.mem.regions addr length, ¬ InUse s.mem.vmm r n
  | _ => True

/-- What is asked of a call: the base of `sys_mmap` is not below the end of what was asked for before, `sys_brk` does not go above a
page of a range, and `sys_munmap` is given pages of the user half. -/
def MemOp.Ascending (s : MemHistory) : MemOp → Prop
  | .brk newBrk => newBrk.toNat < 2 ^ 47 → ∀ l ∈ s.ranges, ∀ n ∈ l, pageCeil newBrk ≤ n
  | .mmap addr length _ => MmapLength length → s.top ≤ pageNo (mmapBase s.mem.regions addr)
  | .munmap addr length => ∀ n ∈ munmapPages addr length, n < userPages
  | .access _ _ => True

instance (s : MemHistory) : (op : MemOp) → Decidable (op.Ascending s)
  | .brk _ => inferInstanceAs (Decidable (_ → _))
  | .mmap _ _ _ => inferInstanceAs (Decidable (_ → _))
  | .munmap _ _ => inferInstanceAs (Decidable (∀ n ∈ _, _))
  | .access _ _ => inferInstanceAs (Decidable True)

/-- The stack lies above all that `sys_mmap` can choose, where the kernel sets it up. From `top` on only pages of the stack are in use,
and the break is not above `top`. -/
structure TaskLaidOut (p₀ : Pmm) (r : Nat) (s : MemHistory) : Prop where
  spaces : Spaces p₀ [r] s.mem.vmm
  stackHigh : 2 ^ 32 + 2 ^ 28 ≤ s.mem.regions.stackBase.toNat
  break_le : pageCeil s.mem.regions.heapBrk ≤ s.top
  above : ∀ n, s.top ≤ n → n < userPages → InUse s.mem.vmm r n → OnStack s.mem.regions n

namespace MemAux

variable {p₀ : Pmm} {r : Nat} {s s' : MemHistory}

/-- The invariant of a history: the pages of the ranges lie between the break and `top`. -/
structure Ordered (p₀ : Pmm) (r : Nat) (s : MemHistory) : Prop extends TaskLaidOut p₀ r s where
  ranges : ∀ l ∈ s.ranges, ∀ n ∈ l, (pageCeil s.mem.regions.heapBrk ≤ n ∧ n < s.top) ∧ ¬ OnStack s.mem.regions n
  disjoint : s.ranges.Pairwise List.Disjoint

variable {n : Nat}

theorem mem_range' {a k : Nat} : n ∈ List.range' a k ↔ a ≤ n ∧ n < a + k := by
  rw [mem_range'_1]

theorem fits_of_forall {a k : Nat} (h : ∀ n ∈ List.range' a k, n < userPages) (hk : k ≠ 0) : a + k ≤ userPages := by
  have := h (a + (k - 1)) (mem_range'.mpr ⟨by omega, by omega⟩)
  omega

/-- A page of the heap lies below the first page that is not below the break. -/
theorem onHeap_iff {t : UserRegions} :
    OnHeap t n ↔ t.heapStart.toNat < (n + 1) * 4096 ∧ n < pageCeil t.heapBrk := by
  unfold OnHeap pageCeil
  omega

section

variable (h : Ordered p₀ r s)
include h

theorem Ordered.apart : RangesApart s where
  disjoint := h.disjoint
  heap l hl n hn hheap := by
    have := (h.ranges l hl n hn).1.1
    have := (onHeap_iff.mp hheap).2
    omega
  stack l hl n hn := (h.ranges l hl n hn).2

/-- The pages that come into use lie below `k`, and the break stays below the ranges. -/
theorem Ordered.move (mem : UserMemory) {k : Nat} (hm : Spaces p₀ [r] mem.vmm)
    (hstack : mem.regions.stackBase = s.mem.regions.stackBase ∧ mem.regions.stackSize = s.mem.regions.stackSize)
    (hnew : ∀ n, n < userPages → InUse mem.vmm r n → InUse s.mem.vmm r n ∨ n < k)
    (hbrk : pageCeil mem.regions.heapBrk ≤ max s.top k) (hlive : ∀ l ∈ s.ranges, ∀ n ∈ l, pageCeil mem.regions.heapBrk ≤ n)
    (granted : List (Nat × BitVec 64)) :
    Ordered p₀ r { s with mem := mem, granted := granted, top := max s.top k } := by
  have hon : ∀ n, OnStack mem.regions n ↔ OnStack s.mem.regions n := by
    intro n
    unfold OnStack
    rw [hstack.1, hstack.2]
  refine ⟨⟨hm, ?_, hbrk, fun n htop hn hu => ?_⟩, fun l hl n hn => ?_, h.disjoint⟩
  · rw [show mem.regions.stackBase = s.mem.regions.stackBase from hstack.1]
    exact h.stackHigh
  · have htop' : max s.top k ≤ n := htop
    rcases hnew n hn hu with hold | hlt
    · exact (hon n).mpr (h.above n (by omega) hn hold)
    · omega
  · obtain ⟨⟨-, hlt⟩, hout⟩ := h.ranges l hl n hn
    exact ⟨⟨hlive l hl n hn, lt_of_lt_of_le hlt (le_max_left _ _)⟩, fun hc => hout ((hon n).mp hc)⟩

/-- Pages are taken out of the ranges. -/
theorem Ordered.take (p : Nat → Bool) : Ordered p₀ r { s with ranges := s.ranges.map (·.filter p) } := by
  refine ⟨⟨h.spaces, h.stackHigh, h.break_le, h.above⟩, fun l hl n hn => ?_, ?_⟩
  · obtain ⟨l0, hl0, rfl⟩ := mem_map.mp hl
    exact h.ranges l0 hl0 n (mem_filter.mp hn).1
  · refine pairwise_map.mpr (h.disjoint.imp fun hd n hn hn' => ?_)
    exact hd (mem_filter.mp hn).1 (mem_filter.mp hn').1

/-- A range from `top` on is handed out. -/
theorem Ordered.hand {b k : Nat} (htop : b + k ≤ s.top) (hbrk : pageCeil s.mem.regions.heapBrk ≤ b)
    (hnew : ∀ l ∈ s.ranges, ∀ n ∈ l, n < b) (hlow : b + k ≤ 2 ^ 20 + 2 ^ 16) :
    Ordered p₀ r { s with ranges := List.range' b k :: s.ranges } := by
  refine ⟨⟨h.spaces, h.stackHigh, h.break_le, h.above⟩, fun l hl n hn => ?_, pairwise_cons.mpr ⟨fun l hl n hn hnl => ?_, h.disjoint⟩⟩
  · rcases mem_cons.mp hl with rfl | hl
    · obtain ⟨h1, h2⟩ := mem_range'.mp hn
      refine ⟨⟨hbrk.trans h1, lt_of_lt_of_le h2 htop⟩, fun hstack => ?_⟩
      have hhigh := h.stackHigh
      have hin : s.mem.regions.stackBase.toNat < (n + 1) * 4096 := hstack.1
      omega
    · exact h.ranges l hl n hn
  · have := hnew l hl n hnl
    have := (mem_range'.mp hn).1
    omega

end

/-! ### The steps -/

/-- The regions with the break moved. -/
def moved (t : UserRegions) (newBrk : BitVec 64) : UserRegions := { t with heapBrk := newBrk }

/-- The pages that a task has after `sys_brk`. -/
def brkGranted (r : Nat) (newBrk : BitVec 64) (s : MemHistory) (mem : UserMemory) : List (Nat × BitVec 64) :=
  s.granted.filter (fun p => !(pageCeil newBrk ≤ p.1 && p.1 < brkFirst s.mem.regions newBrk)) ++
    mem.recorded r (List.range' (brkFirst s.mem.regions newBrk) (pageCeil newBrk - brkFirst s.mem.regions newBrk))

variable {newBrk addr length prot : BitVec 64}

section

variable (h : Spaces p₀ [r] s.mem.vmm)
include h

theorem act_brk_cases (hs : MemOp.act r s (.brk newBrk) = some s') :
    s' = s ∨
    (newBrk ≠ 0#64 ∧ newBrk.toNat < 2 ^ 47) ∧
      (s.mem.regions.heapStart = 0#64 ∧ (∃ granted, s' =
          { s with mem := ⟨s.mem.vmm, { s.mem.regions with heapStart := pageDown newBrk, heapBrk := newBrk }⟩, granted := granted }) ∨
        s.mem.regions.heapStart ≠ 0#64 ∧ s.mem.regions.heapStart.toNat ≤ newBrk.toNat ∧ ∃ m, Spaces p₀ [r] m ∧
          (pageNo (pageUp s.mem.regions.heapBrk) < pageNo (pageUp newBrk) ∧
              InstalledIn r (pageNo (pageUp s.mem.regions.heapBrk)) (pageNo (pageUp newBrk)) heapFlags s.mem.vmm m ∧
              (s' = { s with mem := { s.mem with vmm := m } } ∨
                s' = { s with mem := ⟨m, moved s.mem.regions newBrk⟩, granted := brkGranted r newBrk s ⟨m, moved s.mem.regions newBrk⟩ } ∧
                ∀ n, pageNo (pageUp s.mem.regions.heapBrk) ≤ n → n < pageNo (pageUp newBrk) → InUse m r n) ∨
            pageNo (pageUp newBrk) ≤ pageNo (pageUp s.mem.regions.heapBrk) ∧
              Unmapped r (pageNo (pageUp newBrk)) (pageNo (pageUp s.mem.regions.heapBrk)) s.mem.vmm m ∧
              s' =
                { s with mem := ⟨m, moved s.mem.regions newBrk⟩, granted := brkGranted r newBrk s ⟨m, moved s.mem.regions newBrk⟩ })) := by
  have hact : (if brkLoops s.mem.regions newBrk then none else _) = some s' := hs
  by_cases hloop : brkLoops s.mem.regions newBrk = true
  · rw [if_pos hloop] at hact
    cases hact
  rw [if_neg hloop] at hact
  rcases sysBrk_effect h newBrk with
    ⟨hsame, hres⟩ | ⟨hok, ⟨hzero, hrun⟩ | ⟨hset, hle, m, hm, ⟨hgrow, hin, hrun | ⟨hrun, hall⟩⟩ | ⟨hceil, hkept, hrun⟩⟩⟩
  · left
    rcases hres with hnone | hz
    · simp only [show sysBrk r newBrk s.mem = (none, s.mem) from Prod.ext hnone hsame] at hact
      exact (some.inj hact).symm
    · rw [hz] at hact
      exact (some.inj hact).symm
  · simp only [hrun, if_neg hok.1] at hact
    exact .inr ⟨hok, .inl ⟨hzero, _, (some.inj hact).symm⟩⟩
  · simp only [hrun] at hact
    exact .inr ⟨hok, .inr ⟨hset, hle, m, hm, .inl ⟨hgrow, hin, .inl (some.inj hact).symm⟩⟩⟩
  · simp only [hrun, if_neg hok.1] at hact
    exact .inr ⟨hok, .inr ⟨hset, hle, m, hm, .inl ⟨hgrow, hin, .inr ⟨(some.inj hact).symm, hall⟩⟩⟩⟩
  · simp only [hrun, if_neg hok.1] at hact
    exact .inr ⟨hok, .inr ⟨hset, hle, m, hm, .inr ⟨hceil, hkept, (some.inj hact).symm⟩⟩⟩

theorem act_mmap_cases (hs : MemOp.act r s (.mmap addr length prot) = some s') :
    (sysMmap r addr length prot s.mem).1 = none ∧ s' = s ∨
    MmapLength length ∧ ∃ m, Spaces p₀ [r] m ∧
      InstalledIn r (pageNo (mmapBase s.mem.regions addr)) (pageNo (mmapBase s.mem.regions addr) + (pageCount length).toNat)
        (mmapFlags prot) s.mem.vmm m ∧
      ((sysMmap r addr length prot s.mem).1 = none ∧ s' = { s with mem := { s.mem with vmm := m } } ∨
        (∀ n ∈ mmapPages s.mem.regions addr length, InUse m r n) ∧
        s' =
          { s with
            mem := { s.mem with vmm := m }
            ranges := mmapPages s.mem.regions addr length :: s.ranges
            granted := s.granted ++ UserMemory.recorded { s.mem with vmm := m } r (mmapPages s.mem.regions addr length) }) := by
  obtain ⟨m, hm, hin, hrun⟩ := sysMmap_effect h addr length prot
  by_cases hlen : MmapLength length
  · refine .inr ⟨hlen, m, hm, hin, ?_⟩
    rcases hrun with hrun | ⟨-, hrun, hall⟩
    · simp only [MemOp.act, hrun] at hs
      exact .inl ⟨by rw [hrun], (some.inj hs).symm⟩
    · simp only [MemOp.act, hrun] at hs
      refine .inr ⟨fun n hn => ?_, (some.inj hs).symm⟩
      obtain ⟨h1, h2⟩ := mem_range'.mp hn
      exact hall n h1 h2
  · have hbad : length = 0#64 ∨ elfMaxLoadSize.ult length = true := by
      rw [BitVec.ult, decide_eq_true_eq]
      by_contra hc
      exact hlen ⟨fun h => hc (.inl h), by omega⟩
    have hnone : sysMmap r addr length prot s.mem = (none, s.mem) := by
      unfold sysMmap
      rw [if_pos hbad]
    simp only [MemOp.act, hnone] at hs
    exact .inl ⟨by rw [hnone], (some.inj hs).symm⟩

theorem act_munmap_cases (hs : MemOp.act r s (.munmap addr length) = some s') (hfit : ∀ n ∈ munmapPages addr length, n < userPages) :
    s' = s ∨ ∃ m, Spaces p₀ [r] m ∧
      Unmapped r (pageNo (pageDown addr)) (pageNo (pageDown addr) + (pageCount length).toNat) s.mem.vmm m ∧
      s' =
        { s with
          mem := { s.mem with vmm := m }
          ranges := s.ranges.map (·.filter (· ∉ munmapPages addr length))
          granted := s.granted.filter (·.1 ∉ munmapPages addr length) } := by
  obtain ⟨m, hm, ⟨-, hrun⟩ | ⟨hkept, hrun⟩⟩ := sysMunmap_effect h addr length (fits_of_forall hfit)
  · simp only [MemOp.act, hrun] at hs
    exact .inl (some.inj hs).symm
  · simp only [MemOp.act, hrun] at hs
    exact .inr ⟨m, hm, hkept, (some.inj hs).symm⟩

theorem act_access_cases {va : UserVa} {errorCode : BitVec 64} (hs : MemOp.act r s (.access va errorCode) = some s') :
    ∃ m, Spaces p₀ [r] m ∧ s' = { s with mem := { s.mem with vmm := m } } ∧
      ∀ n, n < userPages → pageLeaf m r n = pageLeaf s.mem.vmm r n ∨
        InUse s.mem.vmm r n ∧ hasFlag (pageLeaf m r n) ptePresent = true := by
  unfold MemOp.act at hs
  dsimp only at hs
  rcases hrun : (handlerPf errorCode va.addr r (some s.mem.regions)).run s.mem.vmm with ⟨_ | _, m⟩
  · rw [hrun] at hs
    cases hs
  · rw [hrun] at hs
    obtain ⟨hm, hleaf⟩ := handlerPf_effect h va hrun
    exact ⟨m, hm, (some.inj hs).symm, fun n hn => (hleaf n hn).imp id And.right⟩

end

theorem act_of_step {op : MemOp} (hs : op.step r s = some s') :
    ∃ s1, op.act r s = some s1 ∧ s' = { s1 with top := max s.top (op.asked s.mem.regions) } := by
  obtain ⟨s1, hact, heq⟩ := Option.map_eq_some_iff.mp hs
  exact ⟨s1, hact, heq.symm⟩

/-- A page of a range from `top` on is not in use. -/
theorem TaskLaidOut.not_inUse (h : TaskLaidOut p₀ r s) (hlen : MmapLength length) (htop : s.top ≤ pageNo (mmapBase s.mem.regions addr))
    (hn : n ∈ mmapPages s.mem.regions addr length) : ¬ InUse s.mem.vmm r n := by
  intro hu
  obtain ⟨h1, h2⟩ := mem_range'.mp hn
  have hbase := mmapBase_lt s.mem.regions addr
  have hcount := pageCount_le hlen.2
  have hstack := (h.above n (by omega) (by unfold userPages; omega) hu).1
  have hhigh := h.stackHigh
  omega

/-- Every call in order keeps the ranges in order. -/
theorem Ordered.step {op : MemOp} (h : Ordered p₀ r s) (hs : op.step r s = some s') (hc : op.Ascending s) : Ordered p₀ r s' := by
  obtain ⟨s1, hact, rfl⟩ := act_of_step hs
  have hsame : ∀ l ∈ s.ranges, ∀ n ∈ l, pageCeil s.mem.regions.heapBrk ≤ n := fun l hl n hn => (h.ranges l hl n hn).1.1
  -- nothing is done, or the call leaves the ranges and the break alone
  have hstay : ∀ {m : Vmm} {k : Nat}, Spaces p₀ [r] m → (∀ n, n < userPages → InUse m r n → InUse s.mem.vmm r n ∨ n < k) →
      ∀ granted, Ordered p₀ r { s with mem := { s.mem with vmm := m }, granted := granted, top := max s.top k } :=
    fun {m _} hm hnew granted => h.move { s.mem with vmm := m } hm ⟨rfl, rfl⟩ hnew (h.break_le.trans (le_max_left _ _)) hsame granted
  cases op with
  | brk newBrk =>
    rcases act_brk_cases h.spaces hact with rfl | ⟨⟨-, hlt⟩, hcases⟩
    · exact hstay h.spaces (fun n _ hu => .inl hu) _
    have hasked : MemOp.asked s.mem.regions (.brk newBrk) = pageCeil newBrk :=
      if_pos (by rw [BitVec.ult, decide_eq_true_eq]; exact hlt)
    have hup := pageNo_pageUp_le hlt
    rw [hasked]
    rcases hcases with ⟨-, granted, rfl⟩ | ⟨-, -, m, hm, ⟨-, hin, rfl | ⟨rfl, -⟩⟩ | ⟨-, hkept, rfl⟩⟩
    · exact h.move ⟨s.mem.vmm, { s.mem.regions with heapStart := pageDown newBrk, heapBrk := newBrk }⟩ h.spaces ⟨rfl, rfl⟩
        (fun n _ hu => .inl hu) (le_max_right _ _) (hc hlt) _
    · exact hstay hm (fun n hn hu => (hin.new hn hu).imp id fun hk => by omega) _
    · exact h.move ⟨m, moved s.mem.regions newBrk⟩ hm ⟨rfl, rfl⟩
        (fun n hn hu => (hin.new hn hu).imp id fun hk => lt_of_lt_of_le hk.2 hup) (le_max_right _ _) (hc hlt) _
    · exact h.move ⟨m, moved s.mem.regions newBrk⟩ hm ⟨rfl, rfl⟩ (fun n hn hu => .inl (hkept.fewer n hn hu))
        (le_max_right _ _) (hc hlt) _
  | mmap addr length prot =>
    rcases act_mmap_cases h.spaces hact with ⟨-, rfl⟩ | ⟨hlen, m, hm, hin, hend⟩
    · exact hstay h.spaces (fun n _ hu => .inl hu) _
    have hasked : MemOp.asked s.mem.regions (.mmap addr length prot) =
        pageNo (mmapBase s.mem.regions addr) + (pageCount length).toNat := by
      refine if_neg (not_or.mpr ⟨hlen.1, ?_⟩)
      rw [BitVec.ult, decide_eq_true_eq, not_lt]
      exact hlen.2
    have htop : s.top ≤ pageNo (mmapBase s.mem.regions addr) := hc hlen
    have hbase := mmapBase_lt s.mem.regions addr
    have hcount := pageCount_le hlen.2
    rw [hasked]
    rcases hend with ⟨-, rfl⟩ | ⟨-, rfl⟩
    · exact hstay hm (fun n hn hu => (hin.new hn hu).imp id And.right) _
    · refine (hstay hm (fun n hn hu => (hin.new hn hu).imp id And.right) _).hand (le_max_right _ _) (h.break_le.trans htop)
        (fun l hl n hn => ?_) (by omega)
      exact lt_of_lt_of_le (h.ranges l hl n hn).1.2 htop
  | munmap addr length =>
    rcases act_munmap_cases h.spaces hact hc with rfl | ⟨m, hm, hkept, rfl⟩
    · exact hstay h.spaces (fun n _ hu => .inl hu) _
    · exact (hstay hm (fun n hn hu => .inl (hkept.fewer n hn hu)) _).take _
  | access va errorCode =>
    obtain ⟨m, hm, rfl, hleaf⟩ := act_access_cases h.spaces hact
    refine hstay hm (fun n hn hu => .inl ?_) _
    rcases hleaf n hn with hsame | ⟨hold, -⟩
    · unfold InUse at hu ⊢
      rw [← hsame]
      exact hu
    · exact hold

end MemAux

open MemAux

/-- In a run whose calls go upwards, the ranges handed out by `sys_mmap` are apart from each other, from the heap and from the stack
after every call, and were not in use before. -/
theorem mmap_ranges_apart (p₀ : Pmm) (r : Nat) (mem : UserMemory) (top : Nat) (h : TaskLaidOut p₀ r ⟨mem, [], [], top⟩) (ops : List MemOp)
    (hops : Each (MemOp.step r) (fun s op _ => op.Ascending s) ⟨mem, [], [], top⟩ ops) :
    Each (MemOp.step r) (fun s op s' => RangesApart s' ∧ op.HandsOutNew r s) ⟨mem, [], [], top⟩ ops := by
  refine Each.of_inv (I := Ordered p₀ r) (fun s op s' h hs hc => ?_) ⟨h, nofun, .nil⟩ hops
  refine ⟨h.step hs hc, (h.step hs hc).apart, ?_⟩
  cases op with
  | mmap addr length prot =>
    intro hres n hn
    obtain ⟨s1, hact, -⟩ := act_of_step hs
    rcases act_mmap_cases h.spaces hact with ⟨hnone, -⟩ | ⟨hlen, -⟩
    · exact absurd hnone hres
    · exact TaskLaidOut.not_inUse h.toTaskLaidOut hlen (hc hlen) hn
  | _ => trivial

namespace MemAux

open SpaceLifeAux SpaceSetAux

/-- The first page of the user stack, `TASK_USER_STACK_BASE`. -/
def stackFirst : Nat := 0x4000000

/-- A new task with its stack of 16 pages, and an empty heap at 5 MiB. -/
def newTask : UserMemory where
  vmm := ((mapDemandRange (.ofRoot 2) heapFlags (pageAddr (stackFirst + 16)) 16 (pageAddr stackFirst)).run
    (emptyVmm.alloc 2 (newPml4 emptyVmm))).2
  regions := { stackBase := pageAddr stackFirst, stackSize := 0x10000#64, heapStart := 0x500000#64, heapBrk := 0x500000#64 }

theorem newTask_effect : Spaces emptyVmm.pmm [2] newTask.vmm ∧
    InstalledIn 2 stackFirst (stackFirst + 16) heapFlags (emptyVmm.alloc 2 (newPml4 emptyVmm)) newTask.vmm := by
  obtain ⟨ok, m, hrun, hm, hin, -⟩ := mapDemandRange_effect heapMapFlags (n := stackFirst) (k := 16) (fun _ => by decide)
    ((spaces_nil emptyVmm_ground).create first_create.1)
  have hvmm : newTask.vmm = m := by
    unfold newTask
    rw [show heapFlags = heapMapFlags.bits from rfl, hrun]
  rw [hvmm]
  exact ⟨hm, hin⟩

theorem newTask_placed : TaskPlaced emptyVmm.pmm 2 newTask :=
  ⟨newTask_effect.1, by decide, le_refl _, by decide, by decide, by decide, by decide⟩

theorem newTask_laidOut : TaskLaidOut emptyVmm.pmm 2 ⟨newTask, [], [], 0x500⟩ := by
  refine ⟨newTask_effect.1, by decide, by decide, fun n _ hn hu => ?_⟩
  rcases newTask_effect.2.new hn hu with hold | hin
  · -- the new address space has no page
    unfold InUse pageLeaf leafAt at hold
    rw [show pageAddr n = (pageVa n hn).addr from rfl, LifeAux.created_leaf (pageVa n hn).leafPath] at hold
    cases hold
  · have hfirst : stackFirst = 0x4000000 := rfl
    have hstack : newTask.regions.stackBase.toNat = 0x4000000000 ∧ newTask.regions.stackSize.toNat = 0x10000 := by decide
    show newTask.regions.stackBase.toNat < (n + 1) * 4096 ∧
      n * 4096 < newTask.regions.stackBase.toNat + newTask.regions.stackSize.toNat
    omega

end MemAux

/-- Two ranges, a larger heap, a range that is given back, and a third range. -/
theorem mmap_ranges_apart_sample :
    Each (MemOp.step 2) (fun s op s' => RangesApart s' ∧ op.HandsOutNew 2 s) ⟨newTask, [], [], 0x500⟩
      [.mmap 0#64 4096#64 3#64, .mmap 0x1501000#64 8192#64 3#64, .brk 0x501000#64, .munmap 0x1500000#64 4096#64,
        .mmap 0x1503000#64 4096#64 3#64] := by
  have hops : decide (Each (MemOp.step 2) (fun s op _ => op.Ascending s) ⟨newTask, [], [], 0x500⟩
      [.mmap 0#64 4096#64 3#64, .mmap 0x1501000#64 8192#64 3#64, .brk 0x501000#64, .munmap 0x1500000#64 4096#64,
        .mmap 0x1503000#64 4096#64 3#64]) = true := by
    decide +kernel
  have hlaid := newTask_laidOut
  generalize newTask = mem at hops hlaid ⊢
  generalize [_, _, _, _, _] = ops at hops ⊢
  exact mmap_ranges_apart emptyVmm.pmm 2 mem 0x500 hlaid ops (of_decide_eq_true hops)

/-- Two calls without a hint are given the same page. -/
theorem mmap_same_page_twice :
    ¬ Each (MemOp.step 2) (fun s op s' => RangesApart s' ∧ op.HandsOutNew 2 s) ⟨newTask, [], [], 0x500⟩
      [.mmap 0#64 4096#64 3#64, .mmap 0#64 4096#64 3#64] := by
  have hranges : (run (MemOp.step 2) ⟨newTask, [], [], 0x500⟩ [.mmap 0#64 4096#64 3#64, .mmap 0#64 4096#64 3#64]).map (·.ranges) =
      some [[0x1500], [0x1500]] := by
    decide +kernel
  refine not_each_of_run (Q := RangesApart) (fun _ _ _ h => h.1) ⟨.nil, nofun, nofun⟩ hranges fun s heq hapart => ?_
  have hdisj := hapart.disjoint
  rw [heq] at hdisj
  exact (pairwise_cons.mp hdisj).1 _ mem_cons_self (mem_singleton_self _) (mem_singleton_self _)

end TsOs
