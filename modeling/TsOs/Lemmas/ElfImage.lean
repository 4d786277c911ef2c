import TsOs.Lemmas.Elf
import TsOs.Lemmas.UserMemory

/-!
# The bytes of a loaded image

What the pages of an address space hold while segments are loaded into it, byte by byte: after each page the frames hold the bytes
of the segments up to there, and zero where no segment has bytes in the file.
-/

namespace TsOs

open StateProg PteAux VaAux ElfAux RangeAux List

/-- The byte of a page at an offset. -/
def pageByte (page : Fin 512 → BitVec 64) (off : BitVec 64) : BitVec 8 := (page (wordIndex off) >>> byteShift off).setWidth 8

/-- The address is one of the segment that has a byte in the file. -/
def ElfPhdr.InFile (ph : ElfPhdr) (a : Nat) : Prop := ph.vaddr.toNat ≤ a ∧ a < ph.vaddr.toNat + ph.filesz.toNat

instance (ph : ElfPhdr) (a : Nat) : Decidable (ph.InFile a) := inferInstanceAs (Decidable (_ ∧ _))

/-- The byte that the loader takes from the image for the address `a` of a segment. -/
def ElfPhdr.byte (file : Image) (ph : ElfPhdr) (a : Nat) : BitVec 8 := file ((ph.offset.toNat + (a - ph.vaddr.toNat)) % 2 ^ 64)

variable {file : Image} {ph : ElfPhdr}

namespace ElfAux

/-! ## Bytes of a page -/

theorem wordIndex_val (off : BitVec 64) : (wordIndex off).val = off.toNat % 4096 / 8 := by
  unfold wordIndex
  rw [Fin.val_ofNat, BitVec.toNat_ushiftRight, offset_toNat, Nat.shiftRight_eq_div_pow]
  omega

theorem byteShift_eq (off : BitVec 64) : byteShift off = 8 * (off.toNat % 8) := by
  unfold byteShift
  rw [BitVec.toNat_and, show (7#64).toNat = 2 ^ 3 - 1 from rfl, Nat.and_two_pow_sub_one_eq_mod]

theorem pageByte_congr (page : Fin 512 → BitVec 64) {off off' : BitVec 64} (h : off.toNat % 4096 = off'.toNat % 4096) :
    pageByte page off = pageByte page off' := by
  have hword : wordIndex off = wordIndex off' := by
    apply Fin.ext
    rw [wordIndex_val, wordIndex_val, h]
  have hshift : byteShift off = byteShift off' := by
    rw [byteShift_eq, byteShift_eq]
    omega
  rw [pageByte, pageByte, hword, hshift]

/-- The bytes of a word of which one was replaced. -/
theorem withByte_byte (word off off' : BitVec 64) (b : BitVec 8) :
    (withByte word off b >>> byteShift off').setWidth 8 =
      if off'.toNat % 8 = off.toNat % 8 then b else (word >>> byteShift off').setWidth 8 := by
  apply BitVec.eq_of_getLsbD_eq
  intro t ht
  have hmask : ∀ s j, (0xFF#64 <<< s).getLsbD j = (decide (j < 64) && decide (s ≤ j) && decide (j < s + 8)) := by
    intro s j
    have hones : (0xFF#64).getLsbD (j - s) = decide (j - s < 8) := by
      rw [show (0xFF#64) = BitVec.ofNat 64 (2 ^ 8 - 1) from rfl, BitVec.getLsbD_ofNat, Nat.testBit_two_pow_sub_one]
      by_cases hj : j - s < 8
      · simp [hj, show j - s < 64 by omega]
      · simp [hj]
    rw [BitVec.getLsbD_shiftLeft, hones]
    by_cases hs : j < s
    · simp [hs, Nat.not_le.2 hs]
    · simp [hs, Nat.le_of_not_lt hs, show j - s < 8 ↔ j < s + 8 by omega]
  rw [BitVec.getLsbD_setWidth, BitVec.getLsbD_ushiftRight, withByte, BitVec.getLsbD_or, BitVec.getLsbD_and, BitVec.getLsbD_not, hmask,
    BitVec.getLsbD_shiftLeft, BitVec.getLsbD_setWidth, byteShift_eq, byteShift_eq]
  have hoff := Nat.mod_lt off.toNat (show 0 < 8 by decide)
  have hoff' := Nat.mod_lt off'.toNat (show 0 < 8 by decide)
  have hlt : 8 * (off'.toNat % 8) + t < 64 := by omega
  by_cases hsame : off'.toNat % 8 = off.toNat % 8
  · rw [if_pos hsame, hsame]
    have hsub : 8 * (off.toNat % 8) + t - 8 * (off.toNat % 8) = t := by omega
    have hlt' : 8 * (off.toNat % 8) + t < 64 := by omega
    simp [ht, hsub, hlt', show t < 64 by omega, show ¬ 8 * (off.toNat % 8) + t < 8 * (off.toNat % 8) by omega]
  · rw [if_neg hsame, BitVec.getLsbD_setWidth, BitVec.getLsbD_ushiftRight]
    by_cases hle : 8 * (off.toNat % 8) ≤ 8 * (off'.toNat % 8) + t
    · have hge : ¬ 8 * (off'.toNat % 8) + t < 8 * (off.toNat % 8) + 8 := by omega
      have hb : b.getLsbD (8 * (off'.toNat % 8) + t - 8 * (off.toNat % 8)) = false := BitVec.getLsbD_of_ge _ _ (by omega)
      simp [ht, hlt, hge, hb]
    · simp [ht, hlt, hle]

/-- Replacing one byte of a page. -/
theorem pageByte_setByte (page : Fin 512 → BitVec 64) (off off' : BitVec 64) (b : BitVec 8) :
    pageByte (setByte page off b) off' = if off'.toNat % 4096 = off.toNat % 4096 then b else pageByte page off' := by
  unfold pageByte setByte
  by_cases hword : wordIndex off' = wordIndex off
  · have hval : off'.toNat % 4096 / 8 = off.toNat % 4096 / 8 := by
      rw [← wordIndex_val, ← wordIndex_val, hword]
    rw [hword, Function.update_self, withByte_byte]
    by_cases hsame : off'.toNat % 8 = off.toNat % 8
    · rw [if_pos hsame, if_pos (by omega)]
    · rw [if_neg hsame, if_neg (by omega)]
  · rw [Function.update_of_ne hword, if_neg]
    intro hsame
    refine hword (Fin.ext ?_)
    rw [wordIndex_val, wordIndex_val, hsame]

/-- Bytes written one after the other to a page, from the offset `dest` on. -/
theorem pageByte_foldl (page : Fin 512 → BitVec 64) (dest : BitVec 64) (byte : Nat → BitVec 8) {n : Nat} (hn : dest.toNat + n ≤ 4096)
    {k : Nat} (hk : k < 4096) :
    pageByte ((List.range n).foldl (fun page j => setByte page (dest + BitVec.ofNat 64 j) (byte j)) page) (BitVec.ofNat 64 k) =
      if dest.toNat ≤ k ∧ k < dest.toNat + n then byte (k - dest.toNat) else pageByte page (BitVec.ofNat 64 k) := by
  induction n with
  | zero => rw [if_neg (by omega), range_zero, foldl_nil]
  | succ n ih =>
    have hoff : (dest + BitVec.ofNat 64 n).toNat % 4096 = dest.toNat + n := by
      rw [BitVec.toNat_add, BitVec.toNat_ofNat]
      omega
    have hk' : (BitVec.ofNat 64 k).toNat % 4096 = k := by
      rw [BitVec.toNat_ofNat]
      omega
    rw [range_succ, foldl_append, foldl_cons, foldl_nil, pageByte_setByte, hoff, hk', ih (by omega)]
    by_cases hlast : k = dest.toNat + n
    · rw [if_pos hlast, if_pos (by omega), hlast, Nat.add_sub_cancel_left]
    · rw [if_neg hlast]
      by_cases hin : dest.toNat ≤ k ∧ k < dest.toNat + n
      · rw [if_pos hin, if_pos (by omega)]
      · rw [if_neg hin, if_neg (by omega)]

theorem toNat_ite_ult_max (a b : BitVec 64) : (if a.ult b then b else a).toNat = max a.toNat b.toNat := by
  simp only [BitVec.ult, decide_eq_true_eq]
  split <;> omega

theorem toNat_ite_ult_min (a b : BitVec 64) : (if a.ult b then a else b).toNat = min a.toNat b.toNat := by
  simp only [BitVec.ult, decide_eq_true_eq]
  split <;> omega

/-- `copy_page_overlap` writes the bytes of the segment that lie on the page. -/
theorem pageByte_overlapPage (file : Image) {va : BitVec 64} (page : Fin 512 → BitVec 64)
    (hva : va.toNat + 4096 < 2 ^ 64) (hseg : ph.vaddr.toNat + ph.filesz.toNat < 2 ^ 64) {k : Nat} (hk : k < 4096) :
    pageByte (overlapPage file ph va page) (BitVec.ofNat 64 k) =
      if ph.InFile (va.toNat + k) then ph.byte file (va.toNat + k) else pageByte page (BitVec.ofNat 64 k) := by
  unfold overlapPage ElfPhdr.byte
  dsimp only
  have hiff : ph.InFile (va.toNat + k) ↔ ph.vaddr.toNat ≤ va.toNat + k ∧ va.toNat + k < ph.vaddr.toNat + ph.filesz.toNat := Iff.rfl
  have hpageEnd : (va + 4096#64).toNat = va.toNat + 4096 := by
    rw [BitVec.toNat_add, show (4096#64).toNat = 4096 from rfl]
    omega
  have hsegEnd : (ph.vaddr + ph.filesz).toNat = ph.vaddr.toNat + ph.filesz.toNat := by
    rw [BitVec.toNat_add]
    omega
  generalize hlo : (if ph.vaddr.ult va then va else ph.vaddr) = lo
  generalize hhi : (if (va + 4096#64).ult (ph.vaddr + ph.filesz) then va + 4096#64 else ph.vaddr + ph.filesz) = hi
  have hlo' : lo.toNat = max ph.vaddr.toNat va.toNat := by rw [← hlo, toNat_ite_ult_max]
  have hhi' : hi.toNat = min (va.toNat + 4096) (ph.vaddr.toNat + ph.filesz.toNat) := by
    rw [← hhi, toNat_ite_ult_min, hpageEnd, hsegEnd]
  by_cases hempty : lo.toNat < hi.toNat
  · have hult : lo.ult hi = true := by rwa [BitVec.ult, decide_eq_true_eq]
    have hdest : (lo - va).toNat = lo.toNat - va.toNat := BitVec.toNat_sub_of_le (by rw [BitVec.le_def]; omega)
    have hsrc : (lo - ph.vaddr).toNat = lo.toNat - ph.vaddr.toNat := BitVec.toNat_sub_of_le (by rw [BitVec.le_def]; omega)
    have hlen : (hi - lo).toNat = hi.toNat - lo.toNat := BitVec.toNat_sub_of_le (by rw [BitVec.le_def]; omega)
    rw [hult, if_neg (by simp), pageByte_foldl page (lo - va) _ (by omega) hk, hdest, hlen]
    by_cases hin : ph.InFile (va.toNat + k)
    · rw [if_pos hin]
      rw [hiff] at hin
      rw [if_pos (by omega)]
      refine congrArg file ?_
      rw [BitVec.toNat_add, BitVec.toNat_add, hsrc, BitVec.toNat_ofNat]
      omega
    · rw [if_neg hin]
      rw [hiff] at hin
      rw [if_neg (by omega)]
  · have hult : lo.ult hi = false := by
      rw [BitVec.ult, decide_eq_false_iff_not]
      exact hempty
    rw [hult, if_pos (by simp), if_neg (by rw [hiff]; omega)]

/-! ## What the address space holds -/

variable {p0 : Pmm} {live : List Nat} {m m' : Vmm} {d : Nat}

/-- The pages `covered` of the address space `d`, and no others, are present, and they hold `content`. -/
structure Holds (d : Nat) (covered : Nat → Prop) (content : Nat → BitVec 8) (m : Vmm) : Prop where
  present : ∀ n < userPages, hasFlag (pageLeaf m d n) ptePresent = true ↔ covered n
  bytes : ∀ n < userPages, covered n → ∀ k < 4096,
    pageByte (m.mem (pteFrame (pageLeaf m d n))) (BitVec.ofNat 64 k) = content (n * 4096 + k)
  blank : ∀ n < userPages, ¬ covered n → ∀ k < 4096, content (n * 4096 + k) = 0#8

theorem Holds.congr {covered covered' : Nat → Prop} {content content' : Nat → BitVec 8} (h : Holds d covered content m)
    (hcov : ∀ n, covered' n ↔ covered n) (hcont : ∀ a, content' a = content a) : Holds d covered' content' m := by
  rw [show covered' = covered from funext fun n => propext (hcov n), show content' = content from funext hcont]
  exact h

/-- The content with the bytes of the segment on the pages from `lo` up to `hi`. -/
def overlay (file : Image) (ph : ElfPhdr) (lo hi : Nat) (content : Nat → BitVec 8) (a : Nat) : BitVec 8 :=
  if lo * 4096 ≤ a ∧ a < hi * 4096 ∧ ph.InFile a then ph.byte file a else content a

/-- First some pages, then the ones after them. -/
theorem overlay_trans {lo mid hi : Nat} (hlo : lo ≤ mid) (hhi : mid ≤ hi) (content : Nat → BitVec 8)
    (a : Nat) : overlay file ph mid hi (overlay file ph lo mid content) a = overlay file ph lo hi content a := by
  unfold overlay
  by_cases hin : ph.InFile a
  · simp only [hin, and_true]
    by_cases hlast : mid * 4096 ≤ a ∧ a < hi * 4096
    · have hall : lo * 4096 ≤ a ∧ a < hi * 4096 := ⟨by omega, hlast.2⟩
      rw [if_pos hlast, if_pos hall]
    · rw [if_neg hlast]
      by_cases hfirst : lo * 4096 ≤ a ∧ a < mid * 4096
      · have hall : lo * 4096 ≤ a ∧ a < hi * 4096 := ⟨hfirst.1, by omega⟩
        rw [if_pos hfirst, if_pos hall]
      · have hall : ¬ (lo * 4096 ≤ a ∧ a < hi * 4096) := by
          intro hc
          rcases Nat.lt_or_ge a (mid * 4096) with hlt | hge
          · exact hfirst ⟨hc.1, hlt⟩
          · exact hlast ⟨hge, hc.2⟩
        rw [if_neg hfirst, if_neg hall]
  · simp only [hin, and_false, if_false]

/-- A page of a segment is loaded. -/
theorem Holds.page {covered : Nat → Prop} {content : Nat → BitVec 8} (h : Holds d covered content m)
    (hseg : ph.vaddr.toNat + ph.filesz.toNat < 2 ^ 64) {n : Nat} (hn : n < userPages)
    (hp : PageLoaded file ph d (pageVa n hn) m m') :
    Holds d (fun j => j = n ∨ covered j) (overlay file ph n (n + 1) content) m' := by
  have hother : ∀ j < userPages, j ≠ n → pageLeaf m' d j = pageLeaf m d j := by
    intro j hj hne
    refine hp.leaves _ _ (pageVa j hj).leafPath fun hc => hne ?_
    have hsame := (samePage_iff (pageVa n hn) (pageVa j hj)).1 hc
    rwa [pageNo_pageVa, pageNo_pageVa] at hsame
  have hout : ∀ j k, j ≠ n → k < 4096 → overlay file ph n (n + 1) content (j * 4096 + k) = content (j * 4096 + k) := by
    intro j k hne hk
    exact if_neg (by omega)
  refine ⟨fun j hj => ?_, fun j hj hc k hk => ?_, fun j hj hc k hk => ?_⟩
  · by_cases hne : j = n
    · subst hne
      exact ⟨fun _ => .inl rfl, fun _ => hp.present⟩
    · rw [hother j hj hne, h.present j hj]
      exact ⟨.inr, fun hor => hor.resolve_left hne⟩
  · by_cases hne : j = n
    · subst hne
      have hlt : (pageVa j hj).addr.toNat = j * 4096 := pageAddr_toNat hj.le
      have hbound : j * 4096 + 4096 < 2 ^ 64 := by
        unfold userPages at hj
        omega
      have hold : pageByte (if hasFlag (leafAt m.mem d (pageVa j hj).addr) ptePresent = true
          then m.mem (pteFrame (leafAt m.mem d (pageVa j hj).addr)) else fun _ => 0#64) (BitVec.ofNat 64 k) = content (j * 4096 + k) := by
        change pageByte (if hasFlag (pageLeaf m d j) ptePresent = true then m.mem (pteFrame (pageLeaf m d j)) else fun _ => 0#64) _ = _
        by_cases hcov : covered j
        · rw [if_pos ((h.present j hj).2 hcov)]
          exact h.bytes j hj hcov k hk
        · rw [if_neg (fun hpres => hcov ((h.present j hj).1 hpres)), h.blank j hj hcov k hk]
          simp [pageByte]
      change pageByte (m'.mem (pteFrame (leafAt m'.mem d (pageVa j hj).addr))) _ = _
      rw [hp.page, pageByte_overlapPage file _ (by rw [hlt]; exact hbound) hseg hk, hold, hlt, overlay]
      by_cases hin : ph.InFile (j * 4096 + k)
      · rw [if_pos hin, if_pos ⟨by omega, by omega, hin⟩]
      · rw [if_neg hin, if_neg fun hc => hin hc.2.2]
    · have hcov := hc.resolve_left hne
      have hmaps : Maps m.mem d (vaPath (pageVa j hj).addr) (ptIndex (pageVa j hj).addr) (pteFrame (pageLeaf m d j)) :=
        ⟨(pageVa j hj).leafPath, (h.present j hj).2 hcov, rfl⟩
      rw [hother j hj hne, hp.data _ _ _ hmaps, hout j k hne hk]
      · exact h.bytes j hj hcov k hk
      · intro hsame
        have hpage := (samePage_iff (pageVa n hn) (pageVa j hj)).1 hsame
        rw [pageNo_pageVa, pageNo_pageVa] at hpage
        exact hne hpage
  · rw [not_or] at hc
    rw [hout j k hc.1 hk]
    exact h.blank j hj hc.2 k hk

/-- The pages of a segment are loaded. -/
theorem loadPages_holds (hseg : ph.vaddr.toNat + ph.filesz.toNat < 2 ^ 64) {k : Nat} :
    ∀ {n : Nat} {m m' : Vmm} {covered : Nat → Prop} {content : Nat → BitVec 8}, n + k ≤ userPages → Loading p0 live d m →
      Holds d covered content m → (loadPages (.ofRoot d) file ph (pageAddr (n + k)) k (pageAddr n)).run m = (.ok, m') →
      Loading p0 live d m' ∧ Holds d (fun j => (n ≤ j ∧ j < n + k) ∨ covered j) (overlay file ph n (n + k) content) m' := by
  induction k with
  | zero =>
    intro n m m' covered content _ hl h hrun
    cases hrun
    refine ⟨hl, h.congr (fun j => ?_) fun a => if_neg (by omega)⟩
    exact ⟨fun hor => hor.resolve_left (by omega), .inr⟩
  | succ k ih =>
    intro n m m' covered content hfit hl h hrun
    have hn : n < userPages := by omega
    have hult : (pageVa n hn).addr.ult (pageAddr (n + (k + 1))) = true := by
      rw [pageVa_addr, pageAddr_ult hn.le hfit, decide_eq_true_eq]
      omega
    rcases loadPages_step file ph k (pageVa n hn) hult hl with ⟨st, m1, hst, hstop, -⟩ | ⟨m1, hnext, hl1, hp⟩
    · rw [pageVa_addr, hrun] at hstop
      exact absurd (Prod.mk.inj hstop).1.symm hst
    · rw [pageVa_addr, hrun, pageAddr_succ, show n + (k + 1) = n + 1 + k by omega] at hnext
      obtain ⟨hl', h'⟩ := ih (by omega) hl1 (h.page hseg hn hp) hnext.symm
      refine ⟨hl', h'.congr (fun j => ?_) fun a => ?_⟩
      · constructor
        · rintro (hj | hj)
          · by_cases hne : j = n
            · exact .inr (.inl hne)
            · exact .inl (by omega)
          · exact .inr (.inr hj)
        · rintro (hj | hj | hj)
          · exact .inl (by omega)
          · exact .inl (by omega)
          · exact .inr hj
      · rw [overlay_trans (Nat.le_succ n) (Nat.le_add_right _ k), show n + 1 + k = n + (k + 1) by omega]

end ElfAux

open ElfAux

/-- The byte at the address `a` after the segments were loaded, the last one first. -/
def imageByte (file : Image) : List ElfPhdr → Nat → BitVec 8
  | [], _ => 0#8
  | ph :: phs, a => if ph.InFile a then ph.byte file a else imageByte file phs a

/-- The pages that the segments cover. -/
def ImagePage (phs : List ElfPhdr) (n : Nat) : Prop :=
  ∃ ph ∈ phs, ph.vaddr.toNat / 4096 ≤ n ∧ n < (ph.vaddr.toNat + ph.memsz.toNat + 4095) / 4096

/-- The loadable segments among the program headers from `i` on. -/
def segmentsFrom (file : Image) (hdr : ElfHeader) (i n : Nat) : List ElfPhdr :=
  ((List.range' i n).map (elfPhdr file hdr)).filter (·.type = 1)

/-- A segment that has no more bytes in the file than in memory, and lies below 4 GiB. -/
structure ElfPhdr.Low (ph : ElfPhdr) : Prop where
  filesz : ph.filesz.toNat ≤ ph.memsz.toNat
  below : ph.vaddr.toNat + ph.memsz.toNat ≤ 2 ^ 32

namespace ElfAux

variable {p0 : Pmm} {live : List Nat} {m m' : Vmm} {d : Nat}

/-- The mask of 32 bits keeps the end of a low segment that passes the checks, unless the segment is empty and at 4 GiB. -/
theorem low_stop {size : BitVec 64} (hlow : ph.Low) (hcheck : checkSegment size ph = .ok) :
    ph.vaddr.toNat + ph.memsz.toNat + 4095 < 2 ^ 32 ∨ ph.vaddr.toNat = 2 ^ 32 ∧ ph.memsz.toNat = 0 := by
  have hbelow := hlow.below
  unfold checkSegment at hcheck
  split at hcheck
  · cases hcheck
  split at hcheck
  · cases hcheck
  rename_i hrange
  rw [not_or, BitVec.ult, decide_eq_true_eq, show (0x1000#64).toNat = 0x1000 from rfl] at hrange
  have hfirst := hrange.1
  dsimp only at hcheck
  split at hcheck
  · cases hcheck
  rename_i hsize
  rw [BitVec.ult, decide_eq_true_eq, BitVec.toNat_sub, pageUp, pageDown, pageMask_toNat, pageMask_toNat, BitVec.toNat_add,
    BitVec.toNat_add, show (4095#64).toNat = 4095 from rfl, show (0x10000000#64).toNat = 0x10000000 from rfl] at hsize
  omega

/-- A segment is loaded. -/
theorem segment_holds {size : BitVec 64} (hlow : ph.Low) (hcheck : checkSegment size ph = .ok) {phs : List ElfPhdr} (hl : Loading p0 live d m)
    (h : Holds d (ImagePage phs) (imageByte file phs) m)
    (hrun : (loadPages (.ofRoot d) file ph (pageUp (ph.vaddr + ph.memsz))
      ((pageUp (ph.vaddr + ph.memsz) - pageDown ph.vaddr) / 4096#64).toNat (pageDown ph.vaddr)).run m = (.ok, m')) :
    Loading p0 live d m' ∧ Holds d (ImagePage (ph :: phs)) (imageByte file (ph :: phs)) m' := by
  have hfile := hlow.filesz
  have hbelow := hlow.below
  have hend : (ph.vaddr + ph.memsz).toNat = ph.vaddr.toNat + ph.memsz.toNat := by
    rw [BitVec.toNat_add]
    omega
  have hno : pageNo ph.vaddr = ph.vaddr.toNat / 4096 := rfl
  have hceil : pageCeil (ph.vaddr + ph.memsz) = (ph.vaddr.toNat + ph.memsz.toNat + 4095) / 4096 := by
    rw [pageCeil, hend]
  have hpages : userPages = 2 ^ 35 := rfl
  have hle : pageNo ph.vaddr ≤ pageCeil (ph.vaddr + ph.memsz) := by omega
  have hfit : pageCeil (ph.vaddr + ph.memsz) ≤ userPages := by omega
  obtain ⟨k, hk⟩ := Nat.exists_eq_add_of_le hle
  replace hrun : (loadPages (.ofRoot d) file ph (pageAddr (pageNo ph.vaddr + k)) k (pageAddr (pageNo ph.vaddr))).run m = (.ok, m') := by
    rcases low_stop hlow hcheck with hstop | ⟨hat, hempty⟩
    · rwa [pageDown_eq (by omega), pageUp_eq (by omega), pageAddr_diff hle hfit, hk, Nat.add_sub_cancel_left] at hrun
    · -- no page is loaded
      have hzero : ph.memsz = 0#64 := BitVec.toNat_inj.1 hempty
      have hva : ph.vaddr = 0x100000000#64 := BitVec.toNat_inj.1 hat
      have hk0 : k = 0 := by omega
      rw [hzero, hva] at hrun
      rw [hk0]
      exact hrun
  obtain ⟨hl', h'⟩ := loadPages_holds (by omega) (by omega) hl h hrun
  refine ⟨hl', h'.congr (fun n => ?_) fun a => ?_⟩
  · unfold ImagePage
    constructor
    · rintro ⟨ph', hmem, hn⟩
      rcases mem_cons.1 hmem with rfl | hmem
      · exact .inl (by omega)
      · exact .inr ⟨ph', hmem, hn⟩
    · rintro (hn | ⟨ph', hmem, hn⟩)
      · exact ⟨ph, mem_cons_self, by omega⟩
      · exact ⟨ph', mem_cons_of_mem _ hmem, hn⟩
  · rw [imageByte, overlay]
    by_cases hin : ph.InFile a
    · have hin' := hin
      unfold ElfPhdr.InFile at hin'
      rw [if_pos hin, if_pos ⟨by omega, by omega, hin⟩]
    · rw [if_neg hin, if_neg fun hc => hin hc.2.2]

/-- The segments are loaded. -/
theorem loadSegments_holds {size : BitVec 64} {hdr : ElfHeader} {n : Nat} :
    ∀ {i : Nat} {m m' : Vmm} {result res : ElfLoadResult} {phs : List ElfPhdr},
      (∀ ph ∈ segmentsFrom file hdr i n, ph.Low) → Loading p0 live d m → Holds d (ImagePage phs) (imageByte file phs) m →
      (loadSegments (.ofRoot d) file size hdr n i result).run m = ((.ok, res), m') →
      (∀ ph ∈ segmentsFrom file hdr i n, checkSegment size ph = .ok) ∧ Loading p0 live d m' ∧
      Holds d (ImagePage ((segmentsFrom file hdr i n).reverse ++ phs)) (imageByte file ((segmentsFrom file hdr i n).reverse ++ phs)) m' := by
  induction n with
  | zero =>
    intro i m m' result res phs _ hl h hrun
    cases hrun
    exact ⟨fun ph hph => absurd hph not_mem_nil, hl, h⟩
  | succ n ih =>
    intro i m m' result res phs hlow hl h hrun
    have hcons : segmentsFrom file hdr i (n + 1) =
        if (elfPhdr file hdr i).type = 1 then elfPhdr file hdr i :: segmentsFrom file hdr (i + 1) n
        else segmentsFrom file hdr (i + 1) n := by
      unfold segmentsFrom
      rw [range'_succ, map_cons, filter_cons]
      simp only [decide_eq_true_eq]
    rw [loadSegments] at hrun
    dsimp only at hrun
    by_cases htype : (elfPhdr file hdr i).type = 1
    case neg =>
      rw [if_pos htype] at hrun
      rw [hcons, if_neg htype] at hlow ⊢
      exact ih hlow hl h hrun
    rw [if_neg (not_not.2 htype)] at hrun
    rw [hcons, if_pos htype] at hlow ⊢
    by_cases hcheck : checkSegment size (elfPhdr file hdr i) = .ok
    case neg =>
      rw [if_pos hcheck] at hrun
      exact absurd (Prod.mk.inj (Prod.mk.inj hrun).1).1 hcheck
    rw [if_neg (not_not.2 hcheck)] at hrun
    generalize hpages : (loadPages (.ofRoot d) file (elfPhdr file hdr i)
      (pageUp ((elfPhdr file hdr i).vaddr + (elfPhdr file hdr i).memsz))
      ((pageUp ((elfPhdr file hdr i).vaddr + (elfPhdr file hdr i).memsz) - pageDown (elfPhdr file hdr i).vaddr) / 4096#64).toNat
      (pageDown (elfPhdr file hdr i).vaddr)).run m = end_
    obtain ⟨st, m1⟩ := end_
    rw [bind_run hpages] at hrun
    by_cases hst : st = .ok
    case neg =>
      rw [if_pos hst] at hrun
      exact absurd (Prod.mk.inj (Prod.mk.inj hrun).1).1 hst
    rw [if_neg (not_not.2 hst)] at hrun
    subst hst
    obtain ⟨hl1, h1⟩ := segment_holds (hlow _ mem_cons_self) hcheck hl h hpages
    obtain ⟨hchecks, hl', h'⟩ := ih (fun ph hph => hlow ph (mem_cons_of_mem _ hph)) hl1 h1 hrun
    refine ⟨fun ph hph => ?_, hl', ?_⟩
    · rcases mem_cons.1 hph with rfl | hph
      · exact hcheck
      · exact hchecks ph hph
    · rw [reverse_cons, append_assoc]
      exact h'

end ElfAux

end TsOs
