import TsOs.Theorems.UserMemory

/-!
# The first access to a demand page

A page that `sys_brk` or `sys_mmap` gave to a task and that was not released can be used when the fault handler knows its region: the
first access maps a zeroed frame with the protection that was recorded. The handler knows the heap and the stack; `sys_mmap` chooses
pages elsewhere.
-/

namespace TsOs

open StateProg PteAux TableAux VaAux VmmRun WalkAux RangeAux FaultAux LeafAux MemAux Runs

/-- Two entries allow the same accesses. -/
def SameProtection (a b : BitVec 64) : Prop :=
  hasFlag a pteWritable = hasFlag b pteWritable ∧ hasFlag a pteUser = hasFlag b pteUser ∧ hasFlag a pteNx = hasFlag b pteNx

/-- The first access to an address of page `n` is resolved: a frame that was free is zeroed and mapped with the protection of the
recorded entry. -/
def Resolves (r : Nat) (s : UserMemory) (n : Nat) (recorded : BitVec 64) : Prop :=
  ∀ (v : UserVa) (errorCode : BitVec 64), pageNo v.addr = n → hasFlag errorCode 1#64 = false → (∃ g, s.vmm.pmm.Free g) →
    ∃ g m, s.vmm.pmm.Free g ∧ (handlerPf errorCode v.addr r (some s.regions)).run s.vmm = (true, m) ∧
      (∀ i, m.mem g i = 0#64) ∧ hasFlag (pageLeaf m r n) ptePresent = true ∧ pteAddr (pageLeaf m r n) = frameAddr g ∧
      SameProtection (pageLeaf m r n) recorded

/-- Every page that the task was given and has not released was accessed already, or its first access is resolved. -/
def GrantedUsable (r : Nat) (s : MemHistory) : Prop :=
  ∀ p ∈ s.granted, hasFlag (pageLeaf s.mem.vmm r p.1) ptePresent = true ∨ Resolves r s.mem p.1 p.2

/-- The flags with which a call installs pages. -/
def MemOp.flags : MemOp → BitVec 64
  | .mmap _ _ prot => mmapFlags prot
  | _ => heapFlags

/-- What a call records: a page that was not in use gets a demand entry with the flags of the call. -/
def MemOp.Records (r : Nat) (s : MemHistory) (op : MemOp) (s' : MemHistory) : Prop :=
  ∀ p ∈ s'.granted, p ∉ s.granted → ¬ InUse s.mem.vmm r p.1 → SameProtection p.2 op.flags

/-- What is asked of a call: `sys_brk` finds a heap that is set up, and a break that the mask of 32 bits keeps; `sys_mmap` chooses
pages of the heap or the stack; `sys_munmap` is given an address below 4 GiB and pages of the user half; and what is unmapped leaves no
PT behind that has demand pages only. -/
def MemOp.Served (r : Nat) (s : MemHistory) : MemOp → Prop
  | .brk newBrk => newBrk ≠ 0#64 → newBrk.toNat < 2 ^ 47 → s.mem.regions.heapStart ≠ 0#64 ∧
      (s.mem.regions.heapStart.toNat ≤ newBrk.toNat → newBrk.toNat + 4095 < 2 ^ 32 ∧
        Anchored r (pageCeil newBrk) (pageCeil s.mem.regions.heapBrk) s.mem.vmm)
  | .mmap addr length _ => MmapLength length →
      ∀ n ∈ mmapPages s.mem.regions addr length, OnHeap s.mem.regions n ∨ OnStack s.mem.regions n
  | .munmap addr length => addr.toNat < 2 ^ 32 ∧ (∀ n ∈ munmapPages addr length, n < userPages) ∧
      Anchored r (pageNo addr) (pageNo addr + (pageCount length).toNat) s.mem.vmm
  | .access _ _ => True

namespace DemandAux

variable {p₀ : Pmm} {r n : Nat} {s s' : MemHistory}

theorem protection_flag {f : BitVec 64} (hf : f ∈ [pteWritable, pteUser, pteNx]) : f = pteWritable ∨ f = pteUser ∨ f = pteNx := by
  simpa using hf

theorem SameProtection.of_flags {a b : BitVec 64} (h : ∀ f ∈ [pteWritable, pteUser, pteNx], a &&& f = b &&& f) :
    SameProtection a b := by
  have hflag : ∀ f ∈ [pteWritable, pteUser, pteNx], hasFlag a f = hasFlag b f := by
    intro f hf
    rw [hasFlag, h f hf, hasFlag]
  exact ⟨hflag _ (by simp), hflag _ (by simp), hflag _ (by simp)⟩

theorem demandLeaf_protection (old : BitVec 64) (g : Nat) : SameProtection (demandLeaf old g) old := by
  refine SameProtection.of_flags fun f hf => ?_
  have hmask : pteAddrMask &&& f = 0#64 ∧ ~~~(pteDemand ||| pteAddrMask) &&& f = f ∧ ptePresent &&& f = 0#64 := by
    rcases protection_flag hf with rfl | rfl | rfl <;> decide
  obtain ⟨haddr, hkeep, hpres⟩ := hmask
  rw [demandLeaf, pteMake, BitVec.and_or_distrib_right, BitVec.and_or_distrib_right, BitVec.and_assoc, haddr, BitVec.and_zero,
    BitVec.zero_or, BitVec.and_assoc, hkeep, hpres, BitVec.or_zero]

theorem demandLeaf_addr (old : BitVec 64) {g : Nat} (hg : g < 2 ^ 40) : pteAddr (demandLeaf old g) = frameAddr g := by
  have hflags : (old &&& ~~~(pteDemand ||| pteAddrMask) ||| ptePresent) &&& pteAddrMask = 0#64 := by
    rw [BitVec.and_or_distrib_right, BitVec.and_assoc, show ~~~(pteDemand ||| pteAddrMask) &&& pteAddrMask = 0#64 by decide,
      BitVec.and_zero]
    rfl
  unfold demandLeaf
  rw [pteAddr_pteMake hflags, frameAddr_and_mask hg]

theorem lazyEntry_protection (flags : BitVec 64) : SameProtection (lazyEntry flags) flags := by
  refine SameProtection.of_flags fun f hf => ?_
  have hmask : ~~~ptePresent &&& f = f ∧ ~~~pteAddrMask &&& f = f ∧ pteDemand &&& f = 0#64 := by
    rcases protection_flag hf with rfl | rfl | rfl <;> decide
  obtain ⟨hpres, hkeep, hdem⟩ := hmask
  rw [lazyEntry, BitVec.and_assoc, hpres, BitVec.and_or_distrib_right, BitVec.and_assoc, hkeep, hdem, BitVec.or_zero]

/-- A page that a task was given lies in the heap or the stack, and has the recorded entry or is present. -/
structure Held (r : Nat) (s : UserMemory) (p : Nat × BitVec 64) : Prop where
  region : OnHeap s.regions p.1 ∨ OnStack s.regions p.1
  inUse : InUse s.vmm r p.1
  entry : hasFlag (pageLeaf s.vmm r p.1) ptePresent = true ∨ pageLeaf s.vmm r p.1 = p.2

/-- The invariant of a history. -/
structure Given (p₀ : Pmm) (r : Nat) (s : MemHistory) : Prop where
  placed : TaskPlaced p₀ r s.mem
  held : ∀ p ∈ s.granted, Held r s.mem p

variable {t : UserMemory}

theorem onHeap_lt (h : TaskPlaced p₀ r t) (hn : OnHeap t.regions n) : n < userPages := by
  have := h.heapEnd
  have := hn.2
  unfold userPages
  omega

theorem onStack_lt (h : TaskPlaced p₀ r t) (hn : OnStack t.regions n) : n < userPages := by
  have := h.stackEnd
  have := hn.2
  unfold userPages
  omega

/-- The handler knows the pages of heap and stack. -/
theorem validDemand_page (h : TaskPlaced p₀ r t) (hn : OnHeap t.regions n ∨ OnStack t.regions n) (v : UserVa)
    (hv : pageNo v.addr = n) : validDemand (some t.regions) v.page.addr = true := by
  have hpage : v.page.addr.toNat = n * 4096 := by
    unfold UserVa.page
    rw [page_toNat, ← hv, pageNo]
  unfold validDemand
  split
  · rfl
  · rw [Bool.or_eq_true]
    rcases hn with ⟨h1, h2⟩ | ⟨h1, h2⟩
    · right
      have ha := h.heapAligned
      have hset : t.regions.heapStart ≠ 0#64 := by
        intro hz
        rw [h.heapSet hz] at h2
        exact Nat.not_lt_zero _ h2
      rw [Bool.and_eq_true, Bool.and_eq_true, BitVec.ule, BitVec.ult, decide_eq_true_eq, decide_eq_true_eq, hpage]
      exact ⟨⟨bne_iff_ne.mpr hset, by omega⟩, h2⟩
    · left
      have ha := h.stackAligned
      have hend := h.stackEnd
      have hsum : (t.regions.stackBase + t.regions.stackSize).toNat = t.regions.stackBase.toNat + t.regions.stackSize.toNat := by
        rw [BitVec.toNat_add]
        omega
      rw [Bool.and_eq_true, BitVec.ule, BitVec.ult, decide_eq_true_eq, decide_eq_true_eq, hpage, hsum]
      exact ⟨by omega, h2⟩

theorem pageNo_page (v : UserVa) : pageNo v.page.addr = pageNo v.addr := by
  unfold UserVa.page pageNo
  rw [page_toNat]
  omega

variable {p : Nat × BitVec 64}

/-- A page that the task holds is present, or its first access is resolved. -/
theorem Held.usable (h : TaskPlaced p₀ r t) (hp : Held r t p) :
    hasFlag (pageLeaf t.vmm r p.1) ptePresent = true ∨ Resolves r t p.1 p.2 := by
  cases habs : hasFlag (pageLeaf t.vmm r p.1) ptePresent with
  | true => exact .inl rfl
  | false =>
    right
    have hleaf : pageLeaf t.vmm r p.1 = p.2 := hp.entry.resolve_left (by rw [habs]; exact nofun)
    have hd : hasFlag (pageLeaf t.vmm r p.1) pteDemand = true :=
      (inUse_iff.mp hp.inUse).resolve_left (by rw [habs]; exact nofun)
    intro v errorCode hv herr hfree
    have hat : ∀ m : Vmm, leafAt m.mem r v.page.addr = pageLeaf m r p.1 := by
      intro m
      rw [leafAt_eq, pageNo_page, hv]
    obtain ⟨g, m, hg, hrun, hzero, hnew⟩ := handlerPf_demand h.spaces (List.mem_singleton_self r) v (by rw [hat]; exact hd)
      (validDemand_page h hp.region v hv) herr hfree
    have hok := h.spaces.leaf r (List.mem_singleton_self r) _ (ptIndex v.page.addr) v.page.leafPath
    rw [show entryAt t.vmm.mem r (vaPath v.page.addr) (ptIndex v.page.addr) = _ from hat t.vmm] at hok
    rw [hat, hat] at hnew
    refine ⟨g, m, hg, hrun, hzero, ?_, ?_, ?_⟩
    · rw [hnew]
      exact (demandLeaf_ok (lt_of_free hg) hok hd).1
    · rw [hnew]
      exact demandLeaf_addr _ (lt_of_free hg)
    · rw [hnew, hleaf]
      exact demandLeaf_protection _ g

/-! ### The steps -/

theorem Held.of_same {t' : UserMemory} (hp : Held r t p)
    (hregion : OnHeap t'.regions p.1 ∨ OnStack t'.regions p.1) (hleaf : pageLeaf t'.vmm r p.1 = pageLeaf t.vmm r p.1) :
    Held r t' p := by
  refine ⟨hregion, ?_, ?_⟩
  · unfold InUse
    rw [hleaf]
    exact hp.inUse
  · rw [hleaf]
    exact hp.entry

theorem Held.lt (h : TaskPlaced p₀ r t) (hp : Held r t p) : p.1 < userPages := by
  rcases hp.region with hheap | hstack
  · exact onHeap_lt h hheap
  · exact onStack_lt h hstack

theorem mem_recorded {pages : List Nat} (h : Spaces p₀ [r] t.vmm) (hpages : ∀ n ∈ pages, n < userPages)
    (p : Nat × BitVec 64) : p ∈ t.recorded r pages ↔ p.1 ∈ pages ∧ p.2 = pageLeaf t.vmm r p.1 := by
  have hleaf : ∀ n ∈ pages, (userLeaf t.vmm.mem r (BitVec.ofNat 64 (n * 4096))).getD 0#64 = pageLeaf t.vmm r n := by
    intro n hn
    unfold userLeaf
    rw [show BitVec.ofNat 64 (n * 4096) = (pageVa n (hpages n hn)).addr from rfl, findLeaf_eq h (List.mem_singleton_self r)]
    cases ht : tableAt t.vmm.mem r (vaPath (pageVa n (hpages n hn)).addr) with
    | none => exact (entryAt_none ht _).symm
    | some f => exact (entryAt_eq ht _).symm
  unfold UserMemory.recorded
  rw [List.mem_map]
  constructor
  · rintro ⟨n, hn, rfl⟩
    exact ⟨hn, hleaf n hn⟩
  · rintro ⟨hn, hp⟩
    exact ⟨p.1, hn, Prod.ext rfl ((hleaf p.1 hn).trans hp.symm)⟩

theorem InstalledIn.protection {m m' : Vmm} {lo hi : Nat} {flags : BitVec 64} (h : InstalledIn r lo hi flags m m')
    (hn : n < userPages) (hold : ¬ InUse m r n) (hnew : InUse m' r n) : SameProtection (pageLeaf m' r n) flags := by
  rcases h n hn with hsame | ⟨-, -, hleaf⟩
  · unfold InUse at hold hnew
    rw [hsame] at hnew
    exact absurd hnew hold
  · rw [hleaf]
    exact lazyEntry_protection flags

/-- Pages are installed and recorded; what the task held before stays. -/
theorem Given.install {lo hi : Nat} {flags : BitVec 64} (pages : List Nat) (h : Given p₀ r s)
    (ht : TaskPlaced p₀ r t) (hin : InstalledIn r lo hi flags s.mem.vmm t.vmm)
    (hregion : ∀ n, OnHeap s.mem.regions n ∨ OnStack s.mem.regions n → OnHeap t.regions n ∨ OnStack t.regions n)
    (hpages : ∀ n ∈ pages, (OnHeap t.regions n ∨ OnStack t.regions n) ∧ InUse t.vmm r n)
    {granted : List (Nat × BitVec 64)} (hsub : ∀ p ∈ granted, p ∈ s.granted ∨ p ∈ t.recorded r pages) (ranges : List (List Nat))
    (top : Nat) :
    Given p₀ r ⟨t, ranges, granted, top⟩ ∧
      ∀ p ∈ granted, p ∉ s.granted → ¬ InUse s.mem.vmm r p.1 → SameProtection p.2 flags := by
  have hlt : ∀ n ∈ pages, n < userPages := by
    intro n hn
    rcases (hpages n hn).1 with hheap | hstack
    · exact onHeap_lt ht hheap
    · exact onStack_lt ht hstack
  refine ⟨⟨ht, fun p hp => ?_⟩, fun p hp hold hnu => ?_⟩
  · rcases hsub p hp with hold | hnew
    · have hheld := h.held p hold
      exact hheld.of_same (hregion p.1 hheld.region) (hin.inUse (hheld.lt h.placed) hheld.inUse)
    · obtain ⟨hn, hleaf⟩ := (mem_recorded ht.spaces hlt p).mp hnew
      exact ⟨(hpages p.1 hn).1, (hpages p.1 hn).2, .inr hleaf.symm⟩
  · obtain ⟨hn, hleaf⟩ := (mem_recorded ht.spaces hlt p).mp ((hsub p hp).resolve_left hold)
    rw [hleaf]
    exact InstalledIn.protection hin (hlt p.1 hn) hnu (hpages p.1 hn).2

/-- What the task still holds has kept its entries. -/
theorem Given.release (h : Given p₀ r s) (ht : TaskPlaced p₀ r t) {granted : List (Nat × BitVec 64)}
    (hsub : ∀ p ∈ granted, p ∈ s.granted ∧ (OnHeap t.regions p.1 ∨ OnStack t.regions p.1) ∧
      pageLeaf t.vmm r p.1 = pageLeaf s.mem.vmm r p.1) (ranges : List (List Nat)) (top : Nat)
    (flags : BitVec 64) :
    Given p₀ r ⟨t, ranges, granted, top⟩ ∧ ∀ p ∈ granted, p ∉ s.granted → ¬ InUse s.mem.vmm r p.1 → SameProtection p.2 flags := by
  refine ⟨⟨ht, fun p hp => ?_⟩, fun p hp hold => absurd (hsub p hp).1 hold⟩
  obtain ⟨hold, hregion, hleaf⟩ := hsub p hp
  exact (h.held p hold).of_same hregion hleaf

/-- The pages of a task after `sys_brk`: those it had without the ones above the new break, and those up to it. -/
theorem mem_brkGranted {newBrk : BitVec 64} (hset : s.mem.regions.heapStart ≠ 0#64) (hp : p ∈ brkGranted r newBrk s t) :
    p ∈ s.granted ∧ ¬ (pageCeil newBrk ≤ p.1 ∧ p.1 < pageCeil s.mem.regions.heapBrk) ∨
    p ∈ t.recorded r (List.range' (pageCeil s.mem.regions.heapBrk) (pageCeil newBrk - pageCeil s.mem.regions.heapBrk)) := by
  unfold brkGranted brkFirst at hp
  rw [if_neg hset, List.mem_append, List.mem_filter] at hp
  refine hp.imp (fun hold => ⟨hold.1, fun hc => ?_⟩) id
  have := hold.2
  simp [hc.1, hc.2] at this

theorem pageNo_pageUp {a : BitVec 64} (ha : a.toNat + 4095 < 2 ^ 32) : pageNo (pageUp a) = pageCeil a := by
  rw [pageUp_eq ha, pageNo_pageAddr]
  unfold pageCeil userPages
  omega

theorem TaskPlaced.same {m : Vmm} (h : TaskPlaced p₀ r t) (hm : Spaces p₀ [r] m) :
    TaskPlaced p₀ r ⟨m, t.regions⟩ :=
  { h with spaces := hm }

theorem TaskPlaced.move {m : Vmm} {newBrk : BitVec 64} (h : TaskPlaced p₀ r t) (hm : Spaces p₀ [r] m)
    (hset : t.regions.heapStart ≠ 0#64) (hle : t.regions.heapStart.toNat ≤ newBrk.toNat) (hlt : newBrk.toNat + 4095 < 2 ^ 32) :
    TaskPlaced p₀ r ⟨m, moved t.regions newBrk⟩ :=
  { h with spaces := hm, heapSet := fun hz => absurd hz hset, start_le := hle, heapEnd := hlt }

/-- Every call that is asked for keeps the pages of the task usable, and records what it installs. -/
theorem Given.act {op : MemOp} (h : Given p₀ r s) (hs : op.act r s = some s') (hc : op.Served r s) :
    Given p₀ r s' ∧ op.Records r s s' := by
  have hsame : Given p₀ r s ∧ op.Records r s s := ⟨h, fun p hp hold => absurd hp hold⟩
  cases op with
  | brk newBrk =>
    rcases act_brk_cases h.placed.spaces hs with rfl | ⟨⟨hz, hlt⟩, ⟨hzero, -⟩ | ⟨hset, hle, m, hm, hcases⟩⟩
    · exact hsame
    · exact absurd hzero (hc hz hlt).1
    obtain ⟨hlow, hanchor⟩ := (hc hz hlt).2 hle
    rw [pageNo_pageUp hlow, pageNo_pageUp h.placed.heapEnd] at hcases
    have hplaced := TaskPlaced.move h.placed hm hset hle hlow
    rcases hcases with ⟨hgrow, hin, rfl | ⟨rfl, hall⟩⟩ | ⟨hceil, hkept, rfl⟩
    · exact h.install [] (TaskPlaced.same h.placed hm) hin (fun _ hn => hn) nofun (fun p hp => .inl hp) _ _
    · refine h.install _ hplaced hin (fun n hn => hn.imp (fun hheap => ?_) id) (fun n hn => ?_)
        (fun p hp => (mem_brkGranted hset hp).imp And.left id) _ _
      · rw [onHeap_iff] at hheap ⊢
        exact ⟨hheap.1, Nat.lt_trans hheap.2 hgrow⟩
      · obtain ⟨h1, h2⟩ := mem_range'.mp hn
        have hstart := h.placed.start_le
        refine ⟨.inl (onHeap_iff.mpr ⟨?_, ?_⟩), hall n h1 (by omega)⟩
        · show s.mem.regions.heapStart.toNat < (n + 1) * 4096
          unfold pageCeil at h1
          omega
        · show n < pageCeil newBrk
          omega
    · refine h.release hplaced (fun p hp => ?_) _ _ _
      rcases mem_brkGranted hset hp with ⟨hold, hout⟩ | hnew
      · have hheld := h.held p hold
        refine ⟨hold, hheld.region.imp (fun hheap => ?_) id, (hkept.kept hanchor).inUse (hheld.lt h.placed) hout hheld.inUse⟩
        rw [onHeap_iff] at hheap ⊢
        refine ⟨hheap.1, ?_⟩
        show p.1 < pageCeil newBrk
        by_contra hge
        exact hout ⟨by omega, hheap.2⟩
      · rw [show pageCeil newBrk - pageCeil s.mem.regions.heapBrk = 0 by omega] at hnew
        exact absurd hnew List.not_mem_nil
  | mmap addr length prot =>
    rcases act_mmap_cases h.placed.spaces hs with ⟨-, rfl⟩ | ⟨hlen, m, hm, hin, ⟨-, rfl⟩ | ⟨hall, rfl⟩⟩
    · exact hsame
    · exact h.install [] (TaskPlaced.same h.placed hm) hin (fun _ hn => hn) nofun (fun p hp => .inl hp) _ _
    · exact h.install _ (TaskPlaced.same h.placed hm) hin (fun _ hn => hn) (fun n hn => ⟨hc hlen n hn, hall n hn⟩)
        (fun p hp => List.mem_append.mp hp) _ _
  | munmap addr length =>
    obtain ⟨hlow, hfit, hanchor⟩ := hc
    have hdown : pageNo (pageDown addr) = pageNo addr := by
      rw [pageDown_eq hlow, pageNo_pageAddr]
      unfold pageNo userPages
      omega
    rcases act_munmap_cases h.placed.spaces hs hfit with rfl | ⟨m, hm, hkept, rfl⟩
    · exact hsame
    · rw [hdown] at hkept
      refine h.release (TaskPlaced.same h.placed hm) (fun p hp => ?_) _ _ _
      rw [List.mem_filter, decide_eq_true_eq] at hp
      have hheld := h.held p hp.1
      exact ⟨hp.1, hheld.region, (hkept.kept hanchor).inUse (hheld.lt h.placed) (fun hc => hp.2 (mem_range'.mpr hc)) hheld.inUse⟩
  | access va errorCode =>
    obtain ⟨m, hm, rfl, hleaf⟩ := act_access_cases h.placed.spaces hs
    refine ⟨⟨TaskPlaced.same h.placed hm, fun p hp => ?_⟩, fun p hp hold => absurd hp hold⟩
    have hheld := h.held p hp
    rcases hleaf p.1 (hheld.lt h.placed) with hsame | ⟨-, hpres⟩
    · exact hheld.of_same hheld.region hsame
    · exact ⟨hheld.region, inUse_iff.mpr (.inl hpres), .inl hpres⟩

end DemandAux

open DemandAux

/-- In a run whose calls choose pages of the heap and the stack only, every page that the task was given and has not released is
present, or its first access is resolved by a zeroed frame with the protection of the call. -/
theorem granted_pages_usable (p₀ : Pmm) (r : Nat) (mem : UserMemory) (top : Nat) (h : TaskPlaced p₀ r mem) (ops : List MemOp)
    (hops : Each (MemOp.step r) (fun s op _ => op.Served r s) ⟨mem, [], [], top⟩ ops) :
    Each (MemOp.step r) (fun s op s' => GrantedUsable r s' ∧ op.Records r s s') ⟨mem, [], [], top⟩ ops := by
  refine Each.of_inv (I := Given p₀ r) (fun s op s' h hs hc => ?_) ⟨h, nofun⟩ hops
  obtain ⟨s1, hact, rfl⟩ := act_of_step hs
  obtain ⟨h', hrec⟩ := h.act hact hc
  exact ⟨⟨h'.placed, h'.held⟩, fun p hp => (h'.held p hp).usable h'.placed, hrec⟩

/-- The heap grows by two pages, and the second one is accessed. -/
theorem granted_pages_usable_sample :
    Each (MemOp.step 2) (fun s op s' => GrantedUsable 2 s' ∧ op.Records 2 s s') ⟨newTask, [], [], 0x500⟩
      [.brk 0x502000#64, .access ⟨0x501000#64, by decide⟩ 6#64] := by
  have hplaced := newTask_placed
  have hstart : newTask.regions.heapStart ≠ 0#64 := by decide
  have hceil : pageCeil newTask.regions.heapBrk = 0x500 := by decide
  generalize newTask = mem at hplaced hstart hceil
  refine granted_pages_usable emptyVmm.pmm 2 mem 0x500 hplaced _ ?_
  rw [Each]
  split
  · refine ⟨fun _ _ => ⟨hstart, fun _ => ⟨by decide, fun j _ _ _ hn => ?_⟩⟩, ?_⟩
    · obtain ⟨n, hn, -⟩ := hn
      rw [hceil] at hn
      exact absurd (Nat.lt_of_le_of_lt hn.1 hn.2) (by decide)
    · rw [Each]
      split
      · exact ⟨trivial, trivial⟩
      · trivial
  · trivial

/-- The page of a call of `sys_mmap` is not known to the fault handler: its first access halts the machine. -/
theorem mmap_page_unusable :
    ¬ Each (MemOp.step 2) (fun s op s' => GrantedUsable 2 s' ∧ op.Records 2 s s') ⟨newTask, [], [], 0x500⟩ [.mmap 0#64 4096#64 3#64] := by
  have hend : (run (MemOp.step 2) ⟨newTask, [], [], 0x500⟩ [.mmap 0#64 4096#64 3#64]).map (fun s =>
      (s.granted, hasFlag (pageLeaf s.mem.vmm 2 0x1500) ptePresent,
        ((handlerPf 6#64 0x1500000#64 2 (some s.mem.regions)).run s.mem.vmm).1,
        decide (12 < s.mem.vmm.pmm.totalFrames), s.mem.vmm.pmm.isUsed 12)) =
      some ([(0x1500, 0x8000000000000406#64)], false, false, true, false) := by
    decide +kernel
  refine not_each_of_run (Q := GrantedUsable 2) (fun _ _ _ h => h.1) nofun hend fun s heq husable => ?_
  simp only [Prod.mk.injEq] at heq
  obtain ⟨hgranted, habs, hhalt, htotal, hfree⟩ := heq
  rcases husable (0x1500, 0x8000000000000406#64) (by rw [hgranted]; exact List.mem_cons_self) with hpres | hres
  · rw [habs] at hpres
    cases hpres
  · obtain ⟨g, m, -, hrun, -⟩ := hres ⟨0x1500000#64, by decide⟩ 6#64 rfl rfl ⟨12, by decide, of_decide_eq_true htotal, hfree⟩
    rw [hrun] at hhalt
    cases hhalt

end TsOs
