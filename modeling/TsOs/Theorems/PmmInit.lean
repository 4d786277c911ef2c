import TsOs.PmmInit
import TsOs.Lemmas.Pmm

/-!
# The free frames after the import

What the ranges of `pmm_init` do to the bitmap, what the loops over tags and entries read, and when the free frames are those of
the memory map.
-/

namespace TsOs

open PmmAux Bytes List Pmm

/-! ## The memory map -/

/-- Frame `f` lies wholly inside the available entry `e`. -/
def MmapEntry.Holds (e : MmapEntry) (f : Nat) : Prop :=
  e.type = mb2MmapAvailable ∧ e.baseAddr ≤ f * 4096 ∧ (f + 1) * 4096 ≤ e.baseAddr + e.length

/-- Rounding the base of the available entry `e` up to a page passes the end of the address space. -/
def MmapEntry.RoundsToZero (e : MmapEntry) : Prop :=
  e.type = mb2MmapAvailable ∧ 0 < e.length ∧ 2 ^ 64 ≤ e.baseAddr + 4095

/-- The end of an entry in 64 bits. -/
def MmapEntry.stop (e : MmapEntry) : Nat := (e.baseAddr + e.length) % 2 ^ 64

/-- Frame `f` has a byte in common with the addresses from `a` up to `b`. -/
def Touches (f a b : Nat) : Prop := a < (f + 1) * 4096 ∧ f * 4096 < b

/-- Frame 0, the frames of the kernel image and those of the bitmap. -/
def KernelImage.Reserves (img : KernelImage) (f : Nat) : Prop :=
  f = 0 ∨ Touches f img.kernelStart img.kernelEnd ∨ Touches f img.bitmapStart (img.bitmapStart + pmmMaxFrames / 8)

/-- The free frames are those inside an available entry that are not reserved, and their number is `g_free_frames`. -/
def ImportExact (entries : List MmapEntry) (img : KernelImage) (p : Pmm) : Prop :=
  (∀ f < p.totalFrames, p.isUsed f = false ↔ (∃ e ∈ entries, e.Holds f) ∧ ¬ img.Reserves f) ∧
  p.freeFrames.toNat = p.clearCount

/-- The tags from address `a` on: each has a size, and the list ends at a tag of type 0 or at the end of the information. -/
inductive Tags (mem : Nat → BitVec 8) (stop : Nat) : Nat → List Nat → Prop where
  | done (a : Nat) (h : stop < a + 8 ∨ le 4 mem a = 0) : Tags mem stop a []
  | tag (a : Nat) (l : List Nat) (fits : a + 8 ≤ stop) (type : le 4 mem a ≠ 0) (size : le 4 mem (a + 4) ≠ 0)
      (rest : Tags mem stop (a + mb2Align8 (le 4 mem (a + 4))) l) : Tags mem stop a (a :: l)

/-- The entries of the memory map tag at `tag`. -/
def entriesOf (mem : Nat → BitVec 8) (tag : Nat) : List MmapEntry :=
  (List.range ((le 4 mem (tag + 4) - 16) / le 4 mem (tag + 8))).map
    (fun k => MmapEntry.read mem (tag + 16 + k * le 4 mem (tag + 8)))

/-- The Multiboot2 information at physical address `info`, which the upper half maps, has the memory map `entries`. -/
structure MapAt (mem : Nat → BitVec 8) (info : Nat) (entries : List MmapEntry) : Prop where
  pos : info ≠ 0
  below : info + le 4 mem (info + higherHalfOffset) < 2 ^ 31
  found : ∃ tags tag, Tags mem (info + higherHalfOffset + le 4 mem (info + higherHalfOffset)) (info + higherHalfOffset + 8) tags ∧
    (tags.filter (fun t => le 4 mem t = mb2TagTypeMmap)).getLast? = some tag ∧
    tag + le 4 mem (tag + 4) + le 4 mem (tag + 8) < 2 ^ 64 ∧ 16 ≤ le 4 mem (tag + 4) ∧ 24 ≤ le 4 mem (tag + 8) ∧
    entries = entriesOf mem tag

/-- The ends of the available entries leave room for rounding and mark the frames that are freed: an entry whose base rounds to 0
frees every frame, so all must be available or reserved; once a frame is freed no end may lie in the last page of the address
space; and above each freed frame there must be an end. -/
structure EndsFit (entries : List MmapEntry) (img : KernelImage) : Prop where
  base : (∃ e ∈ entries, e.RoundsToZero) → ∀ f, 0 < f → f < pmmMaxFrames → (∃ e ∈ entries, e.Holds f) ∨ img.Reserves f
  room : ∀ f, 0 < f → f < pmmMaxFrames → (∃ e ∈ entries, e.Holds f ∨ e.RoundsToZero) →
    ∀ e ∈ entries, e.type = mb2MmapAvailable → e.stop + 4095 < 2 ^ 64
  above : ∀ f, 0 < f → f < pmmMaxFrames → (∃ e ∈ entries, e.Holds f ∨ e.RoundsToZero) →
    ∃ e ∈ entries, e.type = mb2MmapAvailable ∧ f * 4096 < e.stop

variable {mem : Nat → BitVec 8} {entries : List MmapEntry}

namespace PmmInitAux

variable {p : Pmm}

/-! ## Ranges -/

/-- What changing the bits of frames below the total to `b` keeps and does. -/
structure Painted (p q : Pmm) (fs : Nat → Prop) (b : Bool) : Prop where
  total : q.totalFrames = p.totalFrames
  drift : q.drift = p.drift
  inside : ∀ n, fs n → q.isUsed n = b
  outside : ∀ n, ¬ fs n → q.isUsed n = p.isUsed n

theorem Painted.refl (p : Pmm) (b : Bool) : Painted p p (fun _ => False) b :=
  ⟨rfl, rfl, fun _ h => h.elim, fun _ _ => rfl⟩

variable {q : Pmm}

variable {fs gs : Nat → Prop} {b : Bool}

theorem Painted.trans {r : Pmm} (h : Painted p q fs b) (h' : Painted q r gs b) : Painted p r (fun n => fs n ∨ gs n) b := by
  refine ⟨h'.total.trans h.total, h'.drift.trans h.drift, fun n hn => ?_, fun n hn => ?_⟩
  · by_cases hmem : gs n
    · exact h'.inside n hmem
    · rw [h'.outside n hmem]
      exact h.inside n (hn.resolve_right hmem)
  · rw [not_or] at hn
    rw [h'.outside n hn.2, h.outside n hn.1]

theorem Painted.congr (h : Painted p q fs b) (heq : ∀ n, fs n ↔ gs n) :
    Painted p q gs b :=
  ⟨h.total, h.drift, fun n hn => h.inside n ((heq n).mpr hn), fun n hn => h.outside n (fun hf => hn ((heq n).mp hf))⟩

theorem clear_one {f : Nat} (hf : f < p.totalFrames) :
    Painted p (if p.isUsed f then { p.setFree f with freeFrames := p.freeFrames + 1 } else p) (fun n => n = f) false := by
  cases hu : p.isUsed f with
  | true =>
    refine ⟨rfl, drift_release hf hu, fun n hn => ?_, fun n hn => ?_⟩
    · exact (isUsed_release p f n).trans (by rw [decide_eq_true hn, Bool.not_true, Bool.false_and])
    · exact (isUsed_release p f n).trans (by rw [decide_eq_false hn, Bool.not_false, Bool.true_and])
  | false =>
    exact ⟨rfl, rfl, fun n hn => hn ▸ hu, fun _ _ => rfl⟩

theorem mark_one {f : Nat} (hf : f < p.totalFrames) :
    Painted p (if !p.isUsed f then { p.setUsed f with freeFrames := p.freeFrames - 1 } else p) (fun n => n = f) true := by
  cases hu : p.isUsed f with
  | false =>
    refine ⟨rfl, drift_take hf hu, fun n hn => ?_, fun n hn => ?_⟩
    · exact (isUsed_take p f n).trans (by rw [decide_eq_true hn, Bool.true_or])
    · exact (isUsed_take p f n).trans (by rw [decide_eq_false hn, Bool.false_or])
  | true =>
    exact ⟨rfl, rfl, fun n hn => hn ▸ hu, fun _ _ => rfl⟩

theorem foldl_painted {step : Pmm → Nat → Pmm}
    (hone : ∀ p f, f < p.totalFrames → Painted p (step p f) (fun n => n = f) b) (fs : List Nat)
    (h : ∀ f ∈ fs, f < p.totalFrames) : Painted p (fs.foldl step p) (fun n => n ∈ fs) b := by
  induction fs generalizing p with
  | nil => simpa using Painted.refl p b
  | cons f fs ih =>
    have hf := hone p f (h f mem_cons_self)
    refine (hf.trans (ih fun g hg => ?_)).congr fun _ => mem_cons.symm
    rw [hf.total]
    exact h g (mem_cons_of_mem f hg)

/-- A loop over the frames from `start` on, when `stop` lies above. -/
theorem range_painted {step : Pmm → Nat → Pmm} {start stop : Nat} {S : Nat → Prop}
    (hone : ∀ p f, f < p.totalFrames → Painted p (step p f) (fun n => n = f) b) (hle : stop ≤ p.totalFrames)
    (hiff : ∀ f, (start ≤ f ∧ f < stop) ↔ S f) :
    Painted p (if start ≥ stop then p else (range' start (stop - start)).foldl step p) S b := by
  split
  · exact (Painted.refl p b).congr (fun n => iff_of_false id (by rw [← hiff n]; omega))
  · refine (foldl_painted hone _ (fun f hf => ?_)).congr (fun n => ?_)
    · rw [mem_range'_1] at hf
      omega
    · rw [← hiff n, mem_range'_1]
      omega

theorem markRangeFree_spec (hmax : p.totalFrames ≤ pmmMaxFrames) {b l : Nat} (hb : b < 2 ^ 64) (hl : l < 2 ^ 64) :
    Painted p (markRangeFree p b l)
      (fun f => f < p.totalFrames ∧ (b ≤ f * 4096 ∧ (f + 1) * 4096 ≤ b + l ∨ 0 < l ∧ 2 ^ 64 ≤ b + 4095)) false := by
  rw [pmmMaxFrames] at hmax
  by_cases hl0 : l = 0
  · rw [markRangeFree, if_pos hl0]
    exact (Painted.refl p false).congr (fun n => iff_of_false id (by omega))
  · rw [markRangeFree, if_neg hl0]
    dsimp only
    generalize hend : (if (b + l) % 2 ^ 64 < b then 2 ^ 64 - 1 else (b + l) % 2 ^ 64) = endAddr
    generalize hstop : (if endAddr / 4096 > p.totalFrames then p.totalFrames else endAddr / 4096) = stop
    have hiff : ∀ f, ((b + 4095) % 2 ^ 64 / 4096 ≤ f ∧ f < stop) ↔
        f < p.totalFrames ∧ (b ≤ f * 4096 ∧ (f + 1) * 4096 ≤ b + l ∨ 0 < l ∧ 2 ^ 64 ≤ b + 4095) := by
      intro f
      rw [← hstop, ← hend]
      split <;> split <;> omega
    have hle : stop ≤ p.totalFrames := by
      rw [← hstop]
      split <;> omega
    exact range_painted (fun _ _ => clear_one) hle hiff

theorem markRangeUsed_spec {b l : Nat} (hl : 0 < l) (hfits : b + l + 4095 < 2 ^ 64) :
    Painted p (markRangeUsed p b l) (fun f => f < p.totalFrames ∧ Touches f b (b + l)) true := by
  rw [markRangeUsed, if_neg (by omega)]
  dsimp only
  rw [Nat.mod_eq_of_lt (show b + l < 2 ^ 64 by omega), if_neg (show ¬ b + l < b by omega), Nat.mod_eq_of_lt hfits]
  generalize hstop : (if (b + l + 4095) / 4096 > p.totalFrames then p.totalFrames else (b + l + 4095) / 4096) = stop
  have hiff : ∀ f, (b / 4096 ≤ f ∧ f < stop) ↔ f < p.totalFrames ∧ Touches f b (b + l) := by
    intro f
    rw [← hstop, Touches]
    split <;> omega
  have hle : stop ≤ p.totalFrames := by
    rw [← hstop]
    split <;> omega
  exact range_painted (fun _ _ => mark_one) hle hiff

/-! ## Tags and entries -/

/-- The walk finds the last memory map tag of the list. -/
theorem findMmapTag_eq {addr size : Nat} (hsize : addr + size < 2 ^ 64) {a : Nat} {tags : List Nat}
    (h : Tags mem (addr + size) a tags) {fuel offset : Nat} (ha : a = addr + offset) (hpos : 0 < fuel)
    (hfuel : size < offset + fuel) (found : Option Nat) :
    findMmapTag mem addr size fuel offset found =
      some ((tags.filter (fun t => le 4 mem t = mb2TagTypeMmap)).getLast?.or found) := by
  induction h generalizing fuel offset found with
  | done a hdone =>
    subst ha
    cases fuel with
    | zero => omega
    | succ fuel =>
      rw [findMmapTag]
      by_cases hfit : offset + 8 ≤ size
      · rw [if_pos hfit, Nat.mod_eq_of_lt (show addr + offset < 2 ^ 64 by omega)]
        rw [if_pos (hdone.resolve_left (by omega))]
        rfl
      · rw [if_neg hfit]
        rfl
  | tag a l hfit htype hlen _ ih =>
    subst ha
    cases fuel with
    | zero => omega
    | succ fuel =>
      have hstep : 0 < mb2Align8 (le 4 mem (addr + offset + 4)) := by
        rw [mb2Align8]
        omega
      rw [findMmapTag, if_pos (by omega), Nat.mod_eq_of_lt (show addr + offset < 2 ^ 64 by omega)]
      rw [if_neg htype, ih (by omega) (by omega) (by omega)]
      by_cases hm : le 4 mem (addr + offset) = mb2TagTypeMmap
      · rw [if_pos hm, filter_cons_of_pos (by simpa using hm)]
        cases hf : filter (fun t => decide (le 4 mem t = mb2TagTypeMmap)) l with
        | nil => rfl
        | cons t ts => simp [getLast?_cons]
      · rw [if_neg hm, filter_cons_of_neg (by simpa using hm)]

/-- The entries one after the other. -/
def importAll (p : Pmm) (highest : Nat) (entries : List MmapEntry) : Pmm × Nat :=
  entries.foldl (fun s e => importEntry s.1 s.2 e) (p, highest)

/-- The loop reads the entries that fit before the end of the tag. -/
theorem importEntries_eq {size a stop : Nat} (hsize : 24 ≤ size) (hstop : stop + size < 2 ^ 64) (n : Nat)
    (hn : n = (stop - a) / size) (ha : a ≤ stop) {fuel : Nat} (hfuel : n < fuel) (p : Pmm) (highest : Nat) :
    importEntries mem size stop fuel a p highest =
      some (importAll p highest ((List.range n).map (fun k => MmapEntry.read mem (a + k * size)))) := by
  induction n generalizing a fuel p highest with
  | zero =>
    cases fuel with
    | zero => omega
    | succ fuel =>
      have hlt : stop - a < size := by
        rcases Nat.lt_or_ge (stop - a) size with h | h
        · exact h
        · exact absurd (Nat.div_pos h (by omega)) (by omega)
      rw [importEntries, if_neg (by omega)]
      rfl
  | succ n ih =>
    cases fuel with
    | zero => omega
    | succ fuel =>
      have hge : size ≤ stop - a := by
        rcases Nat.lt_or_ge (stop - a) size with h | h
        · rw [Nat.div_eq_of_lt h] at hn
          omega
        · exact h
      have hnext : n = (stop - (a + size)) / size := by
        rw [Nat.div_eq_sub_div (by omega) hge] at hn
        rw [Nat.sub_add_eq]
        omega
      rw [importEntries, Nat.mod_eq_of_lt (show a + size < 2 ^ 64 by omega), if_pos (by omega)]
      dsimp only
      rw [ih hnext (by omega) (by omega)]
      rw [range_succ_eq_map, map_cons, map_map, importAll, importAll, foldl_cons, Nat.zero_mul]
      refine congrArg (fun l => some (foldl _ _ l)) (map_congr_left (fun k _ => ?_))
      simp only [Function.comp_apply, Nat.succ_mul]
      congr 1
      omega

/-! ## The import -/

/-- Frame `f` is freed by one of the entries. -/
def Opened (entries : List MmapEntry) (f : Nat) : Prop := ∃ e ∈ entries, e.Holds f ∨ e.RoundsToZero

/-- The frames the entries free, and the highest end. -/
theorem importAll_spec (entries : List MmapEntry) (hmax : p.totalFrames ≤ pmmMaxFrames) (highest : Nat) :
    Painted p (importAll p highest entries).1 (fun f => f < p.totalFrames ∧ Opened entries f) false ∧
    ∀ x, x < (importAll p highest entries).2 ↔ x < highest ∨ ∃ e ∈ entries, e.type = mb2MmapAvailable ∧ x < e.stop := by
  induction entries generalizing p highest with
  | nil =>
    refine ⟨(Painted.refl p false).congr (fun n => iff_of_false id ?_), fun x => ?_⟩
    · rintro ⟨_, e, he, _⟩
      exact absurd he not_mem_nil
    · simp [importAll]
  | cons e entries ih =>
    have hcons : importAll p highest (e :: entries) = importAll (importEntry p highest e).1 (importEntry p highest e).2 entries := rfl
    rw [hcons]
    by_cases ht : e.type = mb2MmapAvailable
    · have hone : importEntry p highest e = (markRangeFree p e.baseAddr e.length, if e.stop > highest then e.stop else highest) :=
        if_pos ht
      rw [hone]
      have hp := markRangeFree_spec hmax e.base_lt e.length_lt
      obtain ⟨hq, hx⟩ := ih (hp.total ▸ hmax) (if e.stop > highest then e.stop else highest)
      rw [hp.total] at hq
      refine ⟨(hp.trans hq).congr fun f => ?_, fun x => ?_⟩
      · rw [← and_or_left]
        simp [Opened, MmapEntry.Holds, MmapEntry.RoundsToZero, ht]
      · rw [hx]
        have hsplit : x < (if e.stop > highest then e.stop else highest) ↔ x < highest ∨ x < e.stop := by
          split <;> omega
        simp [hsplit, mem_cons, ht, true_and, or_assoc]
    · have hone : importEntry p highest e = (p, highest) := if_neg ht
      rw [hone]
      obtain ⟨hq, hx⟩ := ih hmax highest
      refine ⟨hq.congr (fun f => and_congr_right (fun _ => ?_)), fun x => ?_⟩
      · have hno : ¬ (e.Holds f ∨ e.RoundsToZero) := fun h => h.elim (fun h => ht h.1) (fun h => ht h.1)
        simp [Opened, hno]
      · rw [hx]
        simp [ht]

/-- Frame 0 after step 3. -/
def keepZero (p : Pmm) : Pmm := if p.isUsed 0 then p else p.take 0

theorem isUsed_keepZero (p : Pmm) (f : Nat) : (keepZero p).isUsed f = true ↔ f = 0 ∨ p.isUsed f = true := by
  rw [keepZero]
  cases hu : p.isUsed 0 with
  | true =>
    exact ⟨.inr, fun h => h.elim (fun h => h ▸ hu) id⟩
  | false =>
    rw [if_neg (by decide), isUsed_take, Bool.or_eq_true, decide_eq_true_eq]

theorem keepZero_totalFrames (p : Pmm) : (keepZero p).totalFrames = p.totalFrames := by
  rw [keepZero]
  split <;> rfl

theorem reserve_eq (img : KernelImage) (p : Pmm) :
    reserve img p = { markRangeUsed (markRangeUsed (keepZero p) img.kernelStart (img.kernelEnd - img.kernelStart)) img.bitmapStart
      (pmmMaxFrames / 8) with initialized := true } := by
  have hfirst : (if !p.isUsed 0 then { p.setUsed 0 with freeFrames := p.freeFrames - 1 } else p) = keepZero p := by
    rw [keepZero]
    cases p.isUsed 0 <;> rfl
  unfold reserve
  rw [hfirst]

theorem isUsed_initialized (q : Pmm) (f : Nat) : ({ q with initialized := true } : Pmm).isUsed f = q.isUsed f := rfl

theorem Painted.used_iff (h : Painted p q fs true) (f : Nat) : q.isUsed f = true ↔ p.isUsed f = true ∨ fs f := by
  by_cases hf : fs f
  · simp [h.inside f hf, hf]
  · simp [h.outside f hf, hf]

theorem reserve_spec (img : KernelImage) (p : Pmm) :
    (reserve img p).totalFrames = p.totalFrames ∧ (reserve img p).drift = (keepZero p).drift ∧
    ∀ f < p.totalFrames, (reserve img p).isUsed f = true ↔ p.isUsed f = true ∨ img.Reserves f := by
  have hlen : img.kernelStart + (img.kernelEnd - img.kernelStart) = img.kernelEnd := by
    have := img.kernel_lt
    omega
  have hk := markRangeUsed_spec (p := keepZero p) (b := img.kernelStart) (l := img.kernelEnd - img.kernelStart)
    (by have := img.kernel_lt; omega) (by rw [hlen]; exact img.kernel_end_lt)
  rw [hlen] at hk
  have hboth := hk.trans (markRangeUsed_spec (l := pmmMaxFrames / 8) (by decide) img.bitmap_end_lt)
  rw [reserve_eq]
  refine ⟨hboth.total.trans (keepZero_totalFrames p), hboth.drift, fun f hf => ?_⟩
  rw [isUsed_initialized, hboth.used_iff, isUsed_keepZero, KernelImage.Reserves, or_comm (a := f = 0), or_assoc]
  simp only [hk.total, keepZero_totalFrames, hf, true_and]

/-- Lowering the total keeps the count right when no frame past it is free. -/
theorem drift_track (htotal : q.totalFrames = pmmMaxFrames) (hdrift : q.drift = 0#64) (top : Nat) :
    (q.track top).drift = 0#64 ↔ ∀ f, (q.track top).totalFrames ≤ f → f < pmmMaxFrames → q.isUsed f = true := by
  have hcount : q.clearCount = (q.track top).clearCount +
      (range' (q.track top).totalFrames (pmmMaxFrames - (q.track top).totalFrames)).countP (fun f => !q.isUsed f) := by
    have hsplit : range' 0 (q.track top).totalFrames ++
        range' (0 + (q.track top).totalFrames) (pmmMaxFrames - (q.track top).totalFrames) =
        range' 0 ((q.track top).totalFrames + (pmmMaxFrames - (q.track top).totalFrames)) := range'_append_1
    rw [Nat.zero_add, Nat.add_sub_cancel' (q.track top).total_le] at hsplit
    rw [clearCount, clearCount, htotal, range_eq_range', range_eq_range', ← hsplit, countP_append]
    rfl
  have hfree : (q.track top).freeFrames = q.freeFrames := rfl
  rw [drift_eq_zero, hfree, (drift_eq_zero q).mp hdrift, hcount, Nat.add_eq_left, countP_eq_zero]
  refine ⟨fun h f hle hlt => ?_, fun h f hf => ?_⟩
  · have := h f (mem_range'_1.mpr ⟨hle, by omega⟩)
    simpa using this
  · rw [mem_range'_1] at hf
    have := h f hf.1 (by omega)
    simp [this]

theorem isUsed_allUsed (f : Nat) : allUsed.isUsed f = true := by
  rw [isUsed_eq, allUsed, BitVec.getLsbD_allOnes, decide_eq_true_eq]
  omega

theorem drift_allUsed : allUsed.drift = 0#64 := by
  have hfree : allUsed.freeFrames.toNat = 0 := rfl
  rw [drift_eq_zero, hfree, eq_comm, clearCount, countP_eq_zero]
  intro f _
  simp [isUsed_allUsed]

/-- The state that `pmm_init` ends in for the entries of a memory map. -/
def imported (img : KernelImage) (entries : List MmapEntry) : Pmm :=
  reserve img ((importAll allUsed 0 entries).1.track (((importAll allUsed 0 entries).2 + 4095) % 2 ^ 64 / 4096))

theorem pmmInit_eq {info : Nat} (h : MapAt mem info entries) (img : KernelImage) :
    pmmInit mem img info = some (imported img entries) := by
  obtain ⟨tags, tag, htags, hlast, hroom, hsize, hentry, rfl⟩ := h.found
  have hbelow := h.below
  have haddr : (info + higherHalfOffset) % 2 ^ 64 = info + higherHalfOffset := by
    rw [higherHalfOffset]
    exact Nat.mod_eq_of_lt (by omega)
  have hfit : info + higherHalfOffset + le 4 mem (info + higherHalfOffset) < 2 ^ 64 := by
    have : higherHalfOffset = 2 ^ 64 - 2 ^ 31 := by decide
    omega
  rw [pmmInit, if_neg h.pos, haddr]
  dsimp only
  rw [findMmapTag_eq hfit htags rfl (by omega) (by omega), hlast]
  have hentries : importEntries mem (le 4 mem (tag + 8)) ((tag + le 4 mem (tag + 4)) % 2 ^ 64) (le 4 mem (tag + 4) + 1)
      ((tag + 16) % 2 ^ 64) allUsed 0 = some (importAll allUsed 0 (entriesOf mem tag)) := by
    rw [Nat.mod_eq_of_lt (show tag + le 4 mem (tag + 4) < 2 ^ 64 by omega), Nat.mod_eq_of_lt (show tag + 16 < 2 ^ 64 by omega)]
    have hn : (le 4 mem (tag + 4) - 16) / le 4 mem (tag + 8) =
        (tag + le 4 mem (tag + 4) - (tag + 16)) / le 4 mem (tag + 8) := by
      rw [Nat.add_sub_add_left]
    refine importEntries_eq hentry hroom _ hn (by omega) ?_ allUsed 0
    have := Nat.div_le_self (le 4 mem (tag + 4) - 16) (le 4 mem (tag + 8))
    omega
  simp only [Option.some_or, Option.bind_eq_bind, Option.bind_some, importMap, hentries]
  rfl

theorem lt_track_iff {highest : Nat}
    (hx : ∀ x, x < highest ↔ ∃ e ∈ entries, e.type = mb2MmapAvailable ∧ x < e.stop) (f : Nat) :
    f < (q.track ((highest + 4095) % 2 ^ 64 / 4096)).totalFrames ↔
      f < pmmMaxFrames ∧ (∀ e ∈ entries, e.type = mb2MmapAvailable → e.stop + 4095 < 2 ^ 64) ∧
      ∃ e ∈ entries, e.type = mb2MmapAvailable ∧ f * 4096 < e.stop := by
  have hlt : highest ≤ 2 ^ 64 - 1 := by
    refine Nat.le_of_not_lt (fun h => ?_)
    obtain ⟨e, _, _, he⟩ := (hx _).mp h
    have : e.stop < 2 ^ 64 := Nat.mod_lt _ (by decide)
    omega
  have hroom : highest + 4095 < 2 ^ 64 ↔ ∀ e ∈ entries, e.type = mb2MmapAvailable → e.stop + 4095 < 2 ^ 64 := by
    constructor
    · intro h e he ht
      refine Nat.lt_of_not_le (fun hle => ?_)
      have := (hx (2 ^ 64 - 4096)).mpr ⟨e, he, ht, by omega⟩
      omega
    · intro h
      refine Nat.lt_of_not_le (fun hle => ?_)
      obtain ⟨e, he, ht, hs⟩ := (hx (2 ^ 64 - 4096)).mp (by omega)
      have := h e he ht
      omega
  have htrack : ∀ top, (q.track top).totalFrames = if top > pmmMaxFrames then pmmMaxFrames else top := fun _ => rfl
  rw [← hroom, ← hx, htrack]
  split <;> omega

theorem imported_spec (img : KernelImage) (entries : List MmapEntry) :
    (∀ f, f < (imported img entries).totalFrames ↔
      f < pmmMaxFrames ∧ (∀ e ∈ entries, e.type = mb2MmapAvailable → e.stop + 4095 < 2 ^ 64) ∧
      ∃ e ∈ entries, e.type = mb2MmapAvailable ∧ f * 4096 < e.stop) ∧
    (∀ f < (imported img entries).totalFrames, (imported img entries).isUsed f = false ↔ Opened entries f ∧ ¬ img.Reserves f) ∧
    ((imported img entries).drift = 0#64 ↔
      ∀ f, 0 < f → f < pmmMaxFrames → Opened entries f → f < (imported img entries).totalFrames) := by
  rw [imported]
  obtain ⟨hq, hx⟩ := importAll_spec (p := allUsed) entries (Nat.le_refl _) 0
  have htotal : (importAll allUsed 0 entries).1.totalFrames = pmmMaxFrames := hq.total
  have hdrift := hq.drift.trans drift_allUsed
  have hused : ∀ f, (importAll allUsed 0 entries).1.isUsed f = false ↔ f < pmmMaxFrames ∧ Opened entries f := by
    intro f
    refine ⟨fun h => ?_, fun h => hq.inside f h⟩
    by_contra hnot
    rw [hq.outside f hnot, isUsed_allUsed] at h
    exact absurd h (by decide)
  generalize (importAll allUsed 0 entries).1 = q at htotal hdrift hused ⊢
  generalize (importAll allUsed 0 entries).2 = highest at hx ⊢
  simp only [Nat.not_lt_zero, false_or] at hx
  have hlt := lt_track_iff (q := q) hx
  generalize (highest + 4095) % 2 ^ 64 / 4096 = top at hlt ⊢
  obtain ⟨hrtotal, hrdrift, hrused⟩ := reserve_spec img (q.track top)
  rw [hrtotal, hrdrift]
  refine ⟨hlt, fun f hf => ?_, ?_⟩
  · have := hrused f hf
    rw [← not_iff_not, Bool.not_eq_true, not_or, Bool.not_eq_true] at this
    rw [this]
    refine and_congr_left (fun _ => ?_)
    rw [show (q.track top).isUsed f = q.isUsed f from rfl, hused f]
    exact and_iff_right ((hlt f).mp hf).1
  · -- frame 0 is taken before the total changes
    have hswap : keepZero (q.track top) = (keepZero q).track top := by
      rw [keepZero, keepZero, show (q.track top).isUsed 0 = q.isUsed 0 from rfl]
      cases q.isUsed 0 <;> rfl
    have hzero : (keepZero q).drift = 0#64 := by
      rw [keepZero]
      cases hu : q.isUsed 0 with
      | true => exact hdrift
      | false => exact (drift_take (by rw [htotal]; decide) hu).trans hdrift
    have hsame : ((keepZero q).track top).totalFrames = (q.track top).totalFrames := rfl
    rw [hswap, drift_track ((keepZero_totalFrames q).trans htotal) hzero]
    refine ⟨fun h f hpos hmax hopen => ?_, fun h f hle hmax => ?_⟩
    · by_contra hnot
      rcases (isUsed_keepZero q f).mp (h f (by omega) hmax) with h0 | hu
      · omega
      · rw [(hused f).mpr ⟨hmax, hopen⟩] at hu
        exact absurd hu (by decide)
    · rw [isUsed_keepZero]
      by_contra hnot
      rw [not_or, Bool.not_eq_true] at hnot
      have := h f (by omega) hmax ((hused f).mp hnot.2).2
      omega

end PmmInitAux

open PmmInitAux

/-- No rounding and no end passes the end of the address space. -/
theorem EndsFit.of_no_wrap (img : KernelImage)
    (h : ∀ e ∈ entries, e.type = mb2MmapAvailable → e.baseAddr + e.length + 4095 < 2 ^ 64) : EndsFit entries img := by
  have hstop : ∀ e ∈ entries, e.type = mb2MmapAvailable → e.stop = e.baseAddr + e.length := by
    intro e he ht
    have := h e he ht
    exact Nat.mod_eq_of_lt (by omega)
  have hround : ∀ e ∈ entries, ¬ e.RoundsToZero := by
    rintro e he ⟨ht, _, hle⟩
    have := h e he ht
    omega
  refine ⟨fun hex => ?_, fun f _ _ _ e he ht => ?_, fun f _ _ hopen => ?_⟩
  · obtain ⟨e, he, hr⟩ := hex
    exact absurd hr (hround e he)
  · rw [hstop e he ht]
    exact h e he ht
  · obtain ⟨e, he, hor⟩ := hopen
    obtain ⟨ht, _, hle⟩ := hor.resolve_right (hround e he)
    refine ⟨e, he, ht, ?_⟩
    rw [hstop e he ht]
    omega

/-- For every memory map, the free frames after `pmm_init` are those of its available entries without the reserved ones, with the
right count, exactly when the ends of the available entries fit into the address space. -/
theorem pmmInit_exact_iff (mem : Nat → BitVec 8) (info : Nat) (entries : List MmapEntry) (img : KernelImage)
    (hmap : MapAt mem info entries) :
    ∃ p, pmmInit mem img info = some p ∧ (ImportExact entries img p ↔ EndsFit entries img) := by
  refine ⟨_, pmmInit_eq hmap img, ?_⟩
  obtain ⟨htotal, hbits, hcount⟩ := imported_spec img entries
  rw [ImportExact, ← drift_eq_zero, hcount]
  generalize imported img entries = p at htotal hbits ⊢
  constructor
  · rintro ⟨hset, hbelow⟩
    refine ⟨fun hround f hpos hmax => ?_, fun f hpos hmax hopen => ?_, fun f hpos hmax hopen => ?_⟩
    · obtain ⟨e, he, hr⟩ := hround
      have hopen : PmmInitAux.Opened entries f := ⟨e, he, .inr hr⟩
      have hlt := hbelow f hpos hmax hopen
      by_cases hres : img.Reserves f
      · exact .inr hres
      · exact .inl ((hset f hlt).mp ((hbits f hlt).mpr ⟨hopen, hres⟩)).1
    · exact ((htotal f).mp (hbelow f hpos hmax hopen)).2.1
    · exact ((htotal f).mp (hbelow f hpos hmax hopen)).2.2
  · intro hfit
    refine ⟨fun f hlt => ?_, fun f hpos hmax hopen => (htotal f).mpr ⟨hmax, hfit.room f hpos hmax hopen, hfit.above f hpos hmax hopen⟩⟩
    rw [hbits f hlt]
    refine and_congr_left (fun hres => ⟨?_, ?_⟩)
    · rintro ⟨e, he, hh | hr⟩
      · exact ⟨e, he, hh⟩
      · have hpos : 0 < f := Nat.pos_of_ne_zero (fun h => hres (.inl h))
        exact (hfit.base ⟨e, he, hr⟩ f hpos ((htotal f).mp hlt).1).resolve_right hres
    · rintro ⟨e, he, hh⟩
      exact ⟨e, he, .inl hh⟩

/-- A kernel of 1 MiB at 1 MiB with the bitmap in its upper half. -/
def smallImage : KernelImage := ⟨0x100000, 0x200000, 0x180000, by decide, by decide, by decide⟩

/-- The words of Multiboot2 information with one memory map tag, given base, length and type of each entry. -/
def mapWords (entries : List (Nat × Nat × Nat)) : List Nat :=
  [32 + 24 * entries.length, 0, 6, 16 + 24 * entries.length, 24, 0] ++
    entries.flatMap (fun e => [e.1 % 2 ^ 32, e.1 / 2 ^ 32, e.2.1 % 2 ^ 32, e.2.1 / 2 ^ 32, e.2.2, 0]) ++ [0, 8]

/-- The memory with these words at physical address `0x9000`. -/
def bootMemory (entries : List (Nat × Nat × Nat)) : Nat → BitVec 8 :=
  fun a => BitVec.ofNat 8 ((mapWords entries).getD ((a - (0x9000 + higherHalfOffset)) / 4) 0 / 256 ^ ((a - (0x9000 + higherHalfOffset)) % 4))

/-- One memory map tag and the end tag. -/
theorem bootMemory_map :
    ∀ es ∈ [[(0, 0x9fc00, 1), (0x9fc00, 0x400, 2), (0x100000, 0x7ee0000, 1)], [(0x1000, 0x2000, 1), (0xFFFFFFFFFFFFF000, 0xFFF, 1)]],
      MapAt (bootMemory es) 0x9000 (entriesOf (bootMemory es) (0x9000 + 8 + higherHalfOffset)) := by
  rw [forall_mem_cons, forall_mem_singleton]
  constructor <;>
  · refine ⟨by decide, by decide +kernel, [0x9000 + higherHalfOffset + 8], 0x9000 + 8 + higherHalfOffset, ?_, by decide +kernel,
      by decide +kernel, by decide +kernel, by decide +kernel, rfl⟩
    exact .tag _ _ (by decide +kernel) (by decide +kernel) (by decide +kernel) (.done _ (.inr (by decide +kernel)))

/-- The usual map of a small machine: low memory, and what lies above 1 MiB. -/
theorem pmmInit_exact_small :
    ∃ p, pmmInit (bootMemory [(0, 0x9fc00, 1), (0x9fc00, 0x400, 2), (0x100000, 0x7ee0000, 1)]) smallImage 0x9000 = some p ∧
      ImportExact (entriesOf (bootMemory [(0, 0x9fc00, 1), (0x9fc00, 0x400, 2), (0x100000, 0x7ee0000, 1)]) (0x9000 + 8 + higherHalfOffset))
        smallImage p := by
  obtain ⟨p, hrun, hiff⟩ := pmmInit_exact_iff _ _ _ smallImage (bootMemory_map _ mem_cons_self)
  exact ⟨p, hrun, hiff.mpr (.of_no_wrap _ (by decide +kernel))⟩

/-- With an available entry that ends in the last page of the address space the total is rounded to 0, while the frames of the
other entry stay counted as free. -/
theorem pmmInit_total_wraps :
    ∃ entries p, MapAt (bootMemory [(0x1000, 0x2000, 1), (0xFFFFFFFFFFFFF000, 0xFFF, 1)]) 0x9000 entries ∧
      entries.map (fun e => (e.baseAddr, e.length, e.type)) = [(0x1000, 0x2000, 1), (0xFFFFFFFFFFFFF000, 0xFFF, 1)] ∧
      pmmInit (bootMemory [(0x1000, 0x2000, 1), (0xFFFFFFFFFFFFF000, 0xFFF, 1)]) smallImage 0x9000 = some p ∧
      p.totalFrames = 0 ∧ p.freeFrames.toNat = 2 ∧ ¬ ImportExact entries smallImage p := by
  have hrun : (pmmInit (bootMemory [(0x1000, 0x2000, 1), (0xFFFFFFFFFFFFF000, 0xFFF, 1)]) smallImage 0x9000).map
      (fun p => (p.totalFrames, p.freeFrames.toNat)) = some (0, 2) := by
    decide +kernel
  obtain ⟨p, hp, hpair⟩ := Option.map_eq_some_iff.mp hrun
  obtain ⟨htotal, hfree⟩ := Prod.mk.inj hpair
  refine ⟨_, p, bootMemory_map _ (by decide), by decide +kernel, hp, htotal, hfree, fun hexact => ?_⟩
  have hcount := hexact.2
  rw [clearCount, htotal, hfree, range_zero, countP_nil] at hcount
  exact absurd hcount (by decide)

end TsOs
