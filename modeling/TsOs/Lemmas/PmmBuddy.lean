import TsOs.PmmBuddy
import TsOs.Lib.Buddy
import TsOs.Theorems.Pmm

/-!
# The free lists and the bitmap

What seeding, splitting and joining do to the free lists, and what marking a block does to the bitmap. `Joins` says which free blocks
a free is joined with.
-/

namespace TsOs

open PmmRunAux Function List BitVec Option Bool Nat

/-- The frames of a block. -/
def blockFrames (addr order : Nat) : List Nat := List.range' (addr / 4096) (2 ^ order)

/-- Every frame of the block is free in the bitmap. -/
def PmmBuddy.Clear (s : PmmBuddy) (addr order : Nat) : Prop := ∀ i < 2 ^ order, pmmIsFree s.pmm (addr + i * 4096) = 1

/-- A free of the block of order `order` at `addr` is joined with the free block of order `k` at `b`. -/
inductive PmmBuddy.Joins (s : PmmBuddy) : Nat → Nat → Nat → Nat → Prop where
  | buddy {addr order : Nat} (hlt : order < pmmBuddyMaxOrder) (hmem : buddyAddr addr order ∈ s.freeLists order) :
      s.Joins addr order (buddyAddr addr order) order
  | next {addr order b k : Nat} (hlt : order < pmmBuddyMaxOrder) (hmem : buddyAddr addr order ∈ s.freeLists order)
      (hjoin : s.Joins (if addr < buddyAddr addr order then addr else buddyAddr addr order) (order + 1) b k) :
      s.Joins addr order b k

variable {p : Pmm} {s : PmmBuddy}

namespace PmmBuddyAux

/-! ## Orders and addresses -/

theorem orderLoop_spec (pages room order : Nat) : orderLoop pages room order (2 ^ order) ≤ order + room ∧
    (pages ≤ 2 ^ (order + room) → pages ≤ 2 ^ orderLoop pages room order (2 ^ order)) := by
  induction room generalizing order with
  | zero => exact ⟨le_refl _, id⟩
  | succ room ih =>
    rw [orderLoop]
    by_cases hlt : 2 ^ order < pages
    · rw [if_pos hlt, show 2 ^ order * 2 = 2 ^ (order + 1) from rfl]
      obtain ⟨hle, hfit⟩ := ih (order + 1)
      refine ⟨by omega, fun h => hfit ?_⟩
      rwa [show order + 1 + room = order + (room + 1) by omega]
    · rw [if_neg hlt]
      exact ⟨by omega, fun _ => Nat.le_of_not_lt hlt⟩

theorem orderForPages_lt (pages : Nat) : orderForPages pages < pmmBuddyMaxOrder := by
  unfold orderForPages
  split
  · decide
  · have := (orderLoop_spec pages (pmmBuddyMaxOrder - 1) 0).1
    rw [pow_zero] at this
    have hmax : pmmBuddyMaxOrder = 11 := rfl
    omega

/-- Up to 1024 pages fit in their order. -/
theorem le_orderForPages {pages : Nat} (h : pages ≤ 1024) : pages ≤ 2 ^ orderForPages pages := by
  unfold orderForPages
  split
  case isTrue hle => exact hle
  case isFalse => exact (orderLoop_spec pages (pmmBuddyMaxOrder - 1) 0).2 h

theorem buddyAddr_eq (addr order : Nat) : buddyAddr addr order = addr ^^^ 2 ^ (12 + order) := by
  unfold buddyAddr
  rw [Nat.shiftLeft_eq, Nat.pow_add]

theorem two_pow_frame (order : Nat) : 2 ^ (12 + order) = 2 ^ order * 4096 := by
  rw [Nat.pow_add, Nat.mul_comm]

/-- The buddy of a block is the block before it or the one after it. -/
theorem buddyAddr_cases (addr order : Nat) :
    buddyAddr addr order = addr + 2 ^ order * 4096 ∨
    (2 ^ order * 4096 ≤ addr ∧ buddyAddr addr order = addr - 2 ^ order * 4096) := by
  rw [buddyAddr_eq, ← two_pow_frame]
  exact Buddy.xor_two_pow_cases addr (12 + order)

variable {addr : Nat}

theorem dvd_buddyAddr (h : 4096 ∣ addr) (order : Nat) : 4096 ∣ buddyAddr addr order := by
  rcases buddyAddr_cases addr order with he | ⟨-, he⟩ <;>
  · omega

variable {f order : Nat}

@[simp] theorem mem_blockFrames :
    f ∈ blockFrames addr order ↔ addr / 4096 ≤ f ∧ f < addr / 4096 + 2 ^ order := by
  rw [blockFrames, mem_range'_1]

theorem pmmIsFree_eq_one :
    pmmIsFree p addr = 1 ↔ 4096 ∣ addr ∧ addr / 4096 < p.totalFrames ∧ p.isUsed (addr / 4096) = false := by
  unfold pmmIsFree
  by_cases hdvd : addr % 4096 = 0
  · rw [if_neg (by omega)]
    by_cases hlt : addr / 4096 ≥ p.totalFrames
    · rw [if_pos hlt]
      simp [Nat.not_lt.2 hlt]
    · rw [if_neg hlt]
      cases p.isUsed (addr / 4096) <;> simp [Nat.dvd_of_mod_eq_zero hdvd, Nat.lt_of_not_le hlt]
  · rw [if_pos hdvd]
    have : ¬ 4096 ∣ addr := fun h => hdvd (mod_eq_zero_of_dvd h)
    simp [this]

theorem Clear.dvd (h : s.Clear addr order) : 4096 ∣ addr := by
  have := (pmmIsFree_eq_one.1 (h 0 (Nat.two_pow_pos order))).1
  rwa [Nat.zero_mul, Nat.add_zero] at this

theorem Clear.of_mem (h : s.Clear addr order) (hf : f ∈ blockFrames addr order) :
    f < s.pmm.totalFrames ∧ s.pmm.isUsed f = false := by
  rw [mem_blockFrames] at hf
  have hfree := (pmmIsFree_eq_one.1 (h (f - addr / 4096) (by omega))).2
  rwa [show (addr + (f - addr / 4096) * 4096) / 4096 = f by omega] at hfree

theorem clear_of_forall (hdvd : 4096 ∣ addr)
    (h : ∀ f ∈ blockFrames addr order, f < s.pmm.totalFrames ∧ s.pmm.isUsed f = false) : s.Clear addr order := by
  intro i hi
  rw [pmmIsFree_eq_one]
  exact ⟨by omega, h _ (mem_blockFrames.2 ⟨by omega, by omega⟩)⟩

/-! ## The lists -/

/-- Every address in the lists is that of a frame. -/
def Aligned (s : PmmBuddy) : Prop := ∀ order, ∀ addr ∈ s.freeLists order, 4096 ∣ addr

/-- Only the lists have changed, and they hold addresses of frames still. -/
structure Relisted (s s' : PmmBuddy) : Prop where
  pmm : s'.pmm = s.pmm
  overrun : s'.overrun = s.overrun
  aligned : Aligned s → Aligned s'

theorem Relisted.refl (s : PmmBuddy) : Relisted s s := ⟨rfl, rfl, id⟩

theorem Relisted.trans {s1 s2 s3 : PmmBuddy} (h : Relisted s1 s2) (h' : Relisted s2 s3) : Relisted s1 s3 :=
  ⟨h'.pmm.trans h.pmm, h'.overrun.trans h.overrun, fun ha => h'.aligned (h.aligned ha)⟩

/-- A list is replaced by one with fewer addresses. -/
theorem relisted_sub {l : List Nat} (hl : ∀ a ∈ l, a ∈ s.freeLists order) (n : Nat) :
    Relisted s { s with freeLists := update s.freeLists order l, poolFree := n } := by
  refine ⟨rfl, rfl, fun ha o a hmem => ?_⟩
  dsimp only at hmem
  by_cases ho : o = order
  · subst ho
    rw [update_self] at hmem
    exact ha o a (hl a hmem)
  · rw [update_of_ne ho] at hmem
    exact ha o a hmem

variable {s' : PmmBuddy}

/-- What `push` does to the lists, within them. -/
theorem push_spec (hs : s.push order addr = some s') (hlt : order < pmmBuddyMaxOrder) :
    s'.pmm = s.pmm ∧ s'.overrun = s.overrun ∧ ∀ o a, a ∈ s'.freeLists o ↔ (o = order ∧ a = addr) ∨ a ∈ s.freeLists o := by
  unfold PmmBuddy.push at hs
  split at hs
  case isTrue => cases hs
  cases hs
  refine ⟨rfl, rfl, fun o a => ?_⟩
  by_cases ho : o = order
  · subst ho
    simp
  · simp [ho]

theorem relisted_push (hs : s.push order addr = some s') (hlt : order < pmmBuddyMaxOrder)
    (hdvd : 4096 ∣ addr) : Relisted s s' := by
  obtain ⟨hpmm, hover, hmem⟩ := push_spec hs hlt
  refine ⟨hpmm, hover, fun ha o a h => ?_⟩
  rcases (hmem o a).1 h with ⟨-, rfl⟩ | h
  · exact hdvd
  · exact ha o a h

theorem findSome?_congr {g h : Nat → Option Nat} {os : List Nat} (hgh : ∀ o ∈ os, g o = h o) : os.findSome? g = os.findSome? h := by
  induction os with
  | nil => rfl
  | cons o os ih =>
    rw [findSome?_cons, findSome?_cons, hgh o mem_cons_self, ih (fun o ho => hgh o (mem_cons_of_mem _ ho))]

/-- The search gives the first block of the lists. -/
theorem popFirst_spec {orders : List Nat} {found : Option (Nat × Nat)} (hnd : orders.Nodup)
    (hs : popFirst s orders = (s', found)) :
    Relisted s s' ∧ found.map Prod.snd = (orders.findSome? fun o => (s.freeLists o).head?.filter (· ≠ 0)) ∧
    ∀ o a, found = some (o, a) → o ∈ orders ∧ a ≠ 0 ∧ a ∈ s.freeLists o := by
  induction orders generalizing s with
  | nil =>
    cases hs
    exact ⟨.refl _, rfl, fun o a h => nomatch h⟩
  | cons order orders ih =>
    obtain ⟨hnot, hnd⟩ := nodup_cons.1 hnd
    rw [popFirst, PmmBuddy.pop] at hs
    rw [findSome?_cons]
    cases hl : s.freeLists order with
    | nil =>
      rw [hl] at hs
      obtain ⟨hre, hfound, hmem⟩ := ih hnd hs
      exact ⟨hre, hfound, fun o a h => ⟨mem_cons_of_mem _ (hmem o a h).1, (hmem o a h).2⟩⟩
    | cons addr rest =>
      rw [hl] at hs
      dsimp only at hs
      have hsub : ∀ a ∈ rest, a ∈ s.freeLists order := by
        intro a ha
        rw [hl]
        exact mem_cons_of_mem _ ha
      have hre := relisted_sub hsub (s.poolFree + 1)
      by_cases hz : addr = 0
      · rw [if_neg (not_not.2 hz)] at hs
        have hother : ∀ o ∈ orders, update s.freeLists order rest o = s.freeLists o := by
          intro o ho
          refine update_of_ne (fun he => hnot ?_) _ _
          rwa [← he]
        obtain ⟨hre', hfound, hmem⟩ := ih hnd hs
        refine ⟨hre.trans hre', ?_, fun o a h => ?_⟩
        · rw [hfound, hz]
          refine findSome?_congr (fun o ho => ?_)
          dsimp only
          rw [hother o ho]
        · obtain ⟨ho, ha, hin⟩ := hmem o a h
          refine ⟨mem_cons_of_mem _ ho, ha, ?_⟩
          rw [← hother o ho]
          exact hin
      · rw [if_pos hz] at hs
        cases hs
        refine ⟨hre, ?_, fun o a h => ?_⟩
        · simp [Option.filter, hz]
        · cases h
          refine ⟨mem_cons_self, hz, ?_⟩
          rw [hl]
          exact mem_cons_self

theorem splitDown_spec {o : Nat} (hs : splitDown addr order o s = some s')
    (hle : o ≤ pmmBuddyMaxOrder) (hdvd : 4096 ∣ addr) : Relisted s s' := by
  induction o generalizing s with
  | zero =>
    cases hs
    exact .refl _
  | succ o ih =>
    rw [splitDown] at hs
    split at hs
    · cases hp : s.push o (buddyAddr addr o) with
      | none =>
        rw [hp] at hs
        cases hs
      | some s1 =>
        rw [hp] at hs
        exact (relisted_push hp hle (dvd_buddyAddr hdvd o)).trans (ih hs (by omega))
    · cases hs
      exact .refl _

/-- The joins depend on the lists of their orders only. -/
theorem Joins.congr {s1 : PmmBuddy} {b k : Nat} (h : s1.Joins addr order b k)
    (hsame : ∀ o, order ≤ o → s1.freeLists o = s.freeLists o) : s.Joins addr order b k := by
  induction h with
  | buddy hlt hmem =>
    rw [hsame _ (le_refl _)] at hmem
    exact .buddy hlt hmem
  | next hlt hmem _ ih =>
    rw [hsame _ (le_refl _)] at hmem
    exact .next hlt hmem (ih (fun o ho => hsame o (by omega)))

/-- Joining leaves the lists within their bounds and gives a block of the order above the last one that is joined. -/
theorem coalesce_spec {room : Nat} {addr' order' : Nat} (hroom : order + room = pmmBuddyMaxOrder)
    (hdvd : 4096 ∣ addr) (hs : coalesce room s addr order = (s', addr', order')) :
    Relisted s s' ∧ 4096 ∣ addr' ∧ (order' = order ∨ ∃ b k, s.Joins addr order b k ∧ order' = k + 1) := by
  induction room generalizing s addr order with
  | zero =>
    cases hs
    exact ⟨.refl _, hdvd, .inl rfl⟩
  | succ room ih =>
    rw [coalesce] at hs
    by_cases hmem : buddyAddr addr order ∈ s.freeLists order
    case neg =>
      rw [if_neg hmem] at hs
      cases hs
      exact ⟨.refl _, hdvd, .inl rfl⟩
    rw [if_pos hmem] at hs
    have hlt : order < pmmBuddyMaxOrder := by omega
    have hbuddy := PmmBuddy.Joins.buddy hlt hmem
    have hdvd' : 4096 ∣ (if addr < buddyAddr addr order then addr else buddyAddr addr order) := by
      split
      · exact hdvd
      · exact dvd_buddyAddr hdvd order
    obtain ⟨hre, ha, ho⟩ := ih (by omega) hdvd' hs
    -- the lists of higher orders are those of the start
    have hsame : ∀ o, order + 1 ≤ o →
        update s.freeLists order ((s.freeLists order).erase (buddyAddr addr order)) o = s.freeLists o :=
      fun o ho => update_of_ne (by omega) _ _
    refine ⟨(relisted_sub (fun a h => mem_of_mem_erase h) _).trans hre, ha, .inr ?_⟩
    rcases ho with ho | ⟨b, k, hjoin, ho⟩
    · exact ⟨_, _, hbuddy, ho⟩
    · exact ⟨b, k, .next hlt hmem (Joins.congr hjoin hsame), ho⟩

/-! ## Marking a block -/

theorem pmmMarkUsed_eq (haddr : addr = f * 4096) (hlt : f < p.totalFrames) (hu : p.isUsed f = false) :
    pmmMarkUsed p addr = p.take f := by
  subst haddr
  unfold pmmMarkUsed
  rw [if_neg (by omega)]
  rw [Nat.mul_div_cancel _ (by decide : 0 < 4096), if_neg (by omega), hu]
  rfl

/-- Marking a free block takes its frames. -/
theorem markBlock_used (h : s.Clear addr order) (hz : addr ≠ 0) :
    (s.markBlock pmmMarkUsed addr order).pmm = takeAll s.pmm (blockFrames addr order) := by
  have hdvd := Clear.dvd h
  have hfree : ∀ f ∈ blockFrames addr order, s.pmm.Free f := by
    intro f hf
    obtain ⟨hlt, hu⟩ := Clear.of_mem h hf
    rw [mem_blockFrames] at hf
    exact ⟨by omega, hlt, hu⟩
  have hrun : ∀ n ≤ 2 ^ order, (range n).foldl (fun p i => pmmMarkUsed p (addr + i * 4096)) s.pmm =
      takeAll s.pmm (range' (addr / 4096) n) := by
    intro n hn
    induction n with
    | zero => rfl
    | succ n ih =>
      have hsub : ∀ f ∈ range' (addr / 4096) n, s.pmm.Free f := by
        intro f hf
        rw [mem_range'_1] at hf
        exact hfree f (mem_blockFrames.2 ⟨by omega, by omega⟩)
      obtain ⟨htotal, -, hused⟩ := takeAll_spec _ nodup_range' hsub
      have hnext := hfree (addr / 4096 + n) (mem_blockFrames.2 ⟨by omega, by omega⟩)
      have hclear : (takeAll s.pmm (range' (addr / 4096) n)).isUsed (addr / 4096 + n) = false := by
        rw [← not_eq_true, hused, hnext.2.2]
        simp
      rw [range_succ, foldl_append, ih (by omega), range'_concat, one_mul]
      have happend : takeAll s.pmm (range' (addr / 4096) n ++ [addr / 4096 + n]) =
          (takeAll s.pmm (range' (addr / 4096) n)).take (addr / 4096 + n) := foldl_append
      rw [happend]
      refine pmmMarkUsed_eq (by omega) ?_ hclear
      rw [htotal]
      exact hnext.2.1
  exact hrun _ (le_refl _)

/-! ## Seeding -/

/-- The lists of `s` hold free blocks of the bitmap `p`. -/
structure Seeded (p : Pmm) (s : PmmBuddy) : Prop where
  pmm : s.pmm = p
  overrun : s.overrun = false
  clear : ∀ order, ∀ addr ∈ s.freeLists order, s.Clear addr order

theorem alignOrder_le (pageIdx order : Nat) : alignOrder pageIdx order ≤ order := by
  fun_induction alignOrder pageIdx order <;> omega

theorem fitOrder_le (remaining order : Nat) : fitOrder remaining order ≤ order := by
  fun_induction fitOrder remaining order <;> omega

theorem runOrder_lt (pageIdx remaining : Nat) : runOrder pageIdx remaining < pmmBuddyMaxOrder := by
  have hlt := orderForPages_lt (remaining % 2 ^ 32)
  refine lt_of_le_of_lt (fitOrder_le _ _) ?_
  dsimp only
  by_cases halign : pageIdx &&& (2 ^ orderForPages (remaining % 2 ^ 32) - 1) ≠ 0
  · rw [if_pos halign]
    generalize hbound : (if (orderForPages (remaining % 2 ^ 32) + 2 ^ 32 - 1) % 2 ^ 32 ≥ pmmBuddyMaxOrder then pmmBuddyMaxOrder - 1
      else (orderForPages (remaining % 2 ^ 32) + 2 ^ 32 - 1) % 2 ^ 32) = order
    have horder : order < pmmBuddyMaxOrder := by
      rw [← hbound]
      split <;> omega
    split
    · exact lt_of_le_of_lt (alignOrder_le _ _) horder
    · exact horder
  · rw [if_neg halign]
    exact hlt

theorem trailingOrder_lt (pageIdx remaining : Nat) : trailingOrder pageIdx remaining < pmmBuddyMaxOrder :=
  lt_of_le_of_lt (fitOrder_le _ _) (lt_of_le_of_lt (alignOrder_le _ _) (orderForPages_lt _))

/-- A run of free frames is broken into free blocks. -/
theorem Seeded.seedRun {orderOf : Nat → Nat → Nat} (horder : ∀ i r, orderOf i r < pmmBuddyMaxOrder) {remaining : Nat} :
    ∀ {s s' : PmmBuddy} {addr : Nat}, Seeded p s → 4096 ∣ addr →
      (∀ f ∈ List.range' (addr / 4096) remaining, f < p.totalFrames ∧ p.isUsed f = false) →
      seedRun orderOf s addr remaining = some s' → Seeded p s' := by
  induction remaining using Nat.strong_induction_on with
  | _ remaining ih =>
    intro s s' addr h hdvd hfree hs
    rw [TsOs.seedRun] at hs
    split at hs
    · cases hs
      exact h
    dsimp only at hs
    split at hs
    case isFalse =>
      cases hs
      exact h
    rename_i hpos hle
    have hlt := horder (addr / 4096) remaining
    generalize orderOf (addr / 4096) remaining = order at hs hle hlt
    have hsize := Nat.two_pow_pos order
    cases hp : s.push order addr with
    | none =>
      rw [hp] at hs
      cases hs
    | some s1 =>
      rw [hp] at hs
      obtain ⟨hpmm, hover, hmem⟩ := push_spec hp hlt
      refine ih (remaining - 2 ^ order) (by omega) ⟨hpmm.trans h.pmm, hover.trans h.overrun, fun o a ha => ?_⟩ (by omega) ?_ hs
      · have hclear : s.Clear a o := by
          rcases (hmem o a).1 ha with ⟨rfl, rfl⟩ | ha
          · refine clear_of_forall hdvd (fun f hf => ?_)
            rw [h.pmm]
            rw [mem_blockFrames] at hf
            exact hfree f (mem_range'_1.2 ⟨hf.1, by omega⟩)
          · exact h.clear o a ha
        unfold PmmBuddy.Clear at hclear ⊢
        rw [hpmm]
        exact hclear
      · intro f hf
        rw [mem_range'_1] at hf
        exact hfree f (mem_range'_1.2 ⟨by omega, by omega⟩)

/-- The walk over the bitmap seeds free blocks, and the run that it ends with is one of free frames. -/
theorem Seeded.seedScan {k : Nat} : ∀ {s s' : PmmBuddy} {n start len start' len' : Nat}, Seeded p s →
    (∀ f ∈ List.range' start len, f < p.totalFrames ∧ p.isUsed f = false) → (len ≠ 0 → start + len = n) →
    seedScan s (List.range' n k) start len = some (s', start', len') →
    Seeded p s' ∧ ∀ f ∈ List.range' start' len', f < p.totalFrames ∧ p.isUsed f = false := by
  induction k with
  | zero =>
    intro s s' n start len start' len' h hrun _ hs
    cases hs
    exact ⟨h, hrun⟩
  | succ k ih =>
    intro s s' n start len start' len' h hrun hend hs
    rw [range'_succ, TsOs.seedScan] at hs
    by_cases hfree : pmmIsFree s.pmm (n * 4096) = 1
    · rw [if_pos hfree] at hs
      rw [h.pmm, pmmIsFree_eq_one, Nat.mul_div_cancel _ (by decide : 0 < 4096)] at hfree
      refine ih h (fun f hf => ?_) (fun _ => ?_) hs
      · rw [mem_range'_1] at hf
        by_cases hn : f = n
        · rw [hn]
          exact hfree.2
        · split at hf
          · omega
          · exact hrun f (mem_range'_1.2 ⟨hf.1, by omega⟩)
      · split <;> omega
    · rw [if_neg hfree] at hs
      by_cases hlen : len > 0
      · rw [if_pos hlen] at hs
        cases hr : TsOs.seedRun runOrder s (start * 4096) len with
        | none =>
          rw [hr] at hs
          cases hs
        | some s1 =>
          rw [hr] at hs
          refine ih (h.seedRun runOrder_lt (by omega) ?_ hr) (fun f hf => absurd hf not_mem_nil) (fun h => absurd rfl h) hs
          rwa [Nat.mul_div_cancel _ (by decide : 0 < 4096)]
      · rw [if_neg hlen] at hs
        exact ih h hrun (fun h => absurd (Nat.pos_of_ne_zero h) hlen) hs

end PmmBuddyAux

open PmmBuddyAux

/-- After `pmm_buddy_init` the bitmap is what it was, and every block in the lists is free in it. -/
theorem pmmBuddyInit_spec (hs : pmmBuddyInit p = some s) :
    s.pmm = p ∧ s.overrun = false ∧ ∀ order, ∀ addr ∈ s.freeLists order, s.Clear addr order := by
  unfold pmmBuddyInit at hs
  dsimp only at hs
  rw [range_eq_range'] at hs
  split at hs
  case h_1 => cases hs
  rename_i s1 start len hscan
  have hstart : Seeded p { pmm := p, freeLists := fun _ => [], poolFree := buddyNodePoolMax, initialized := false, overrun := false } :=
    ⟨rfl, rfl, fun _ _ h => nomatch h⟩
  obtain ⟨hseed, hrun⟩ := hstart.seedScan (fun f hf => absurd hf not_mem_nil) (fun h => absurd rfl h) hscan
  obtain ⟨s2, hs2, rfl⟩ := map_eq_some_iff.1 hs
  have hfinal : Seeded p s2 := by
    split at hs2
    · refine hseed.seedRun trailingOrder_lt (by omega) ?_ hs2
      rwa [Nat.mul_div_cancel _ (by decide : 0 < 4096)]
    · cases hs2
      exact hseed
  exact ⟨hfinal.pmm, hfinal.overrun, hfinal.clear⟩

end TsOs
