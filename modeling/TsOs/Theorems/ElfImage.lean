import TsOs.Lemmas.ElfImage
import TsOs.Theorems.SpaceSet

/-!
# What an image looks like once it is loaded

Every byte of a loadable segment reads, through `vmm_translate`, what the file has for it, and zero past the part of the segment that
is in the file; pages that segments share are no exception. The check that a segment ends within the file adds offset and size as
machine words: a segment whose end wraps around passes it, and its bytes are not those of the file.
-/

namespace TsOs

open StateProg PteAux TableAux VmmRun ElfAux RangeAux SpaceLifeAux SpaceSetAux List BitVec

/-- The byte that is read at the address that `vmm_translate` gives for `va`. -/
def translatedByte (m : Vmm) (as : AddressSpace) (va : BitVec 64) : Option (BitVec 8) :=
  let pa := vmmTranslate m as va
  if pa = 0#64 then none else some ((m.mem (frameOf pa) (wordIndex pa) >>> byteShift pa).setWidth 8)

/-- The loadable segments of an image. -/
def elfSegments (file : Image) : List ElfPhdr := segmentsFrom file (elfHeader file) 0 (elfHeader file).phnum

/-- The address is one of the segment. -/
def ElfPhdr.InMemory (ph : ElfPhdr) (a : Nat) : Prop := ph.vaddr.toNat ≤ a ∧ a < ph.vaddr.toNat + ph.memsz.toNat

/-- An image as the linker makes it: program headers of 56 bytes in the file, and segments below 4 GiB that are disjoint and have no
more bytes in the file than in memory. -/
structure ElfLinked (file : Image) (size : BitVec 64) : Prop where
  entsize : (elfHeader file).phentsize = 56
  headers : (elfHeader file).phoff.toNat + 56 * (elfHeader file).phnum ≤ size.toNat
  apart : (elfSegments file).Pairwise fun ph ph' => ∀ a, ph.InMemory a → ¬ ph'.InMemory a
  low : ∀ ph ∈ elfSegments file, ph.Low

/-- Every byte of every segment reads the byte of the file, or zero past the part that is in the file. -/
def ImageLoaded (file : Image) (size : BitVec 64) (as : AddressSpace) (m : Vmm) : Prop :=
  ∀ ph ∈ elfSegments file,
    (∀ i < ph.filesz.toNat, ph.offset.toNat + i < size.toNat ∧
      translatedByte m as (ph.vaddr + BitVec.ofNat 64 i) = some (file (ph.offset.toNat + i))) ∧
    ∀ i, ph.filesz.toNat ≤ i → i < ph.memsz.toNat → translatedByte m as (ph.vaddr + BitVec.ofNat 64 i) = some 0#8

variable {file : Image} {size : BitVec 64}

namespace ElfAux

theorem imageByte_outside {phs : List ElfPhdr} {a : Nat} (h : ∀ ph ∈ phs, ¬ ph.InFile a) : imageByte file phs a = 0#8 := by
  induction phs with
  | nil => rfl
  | cons ph phs ih =>
    rw [imageByte, if_neg (h ph mem_cons_self)]
    exact ih fun q hq => h q (mem_cons_of_mem _ hq)

theorem imageByte_inside {phs : List ElfPhdr} {ph : ElfPhdr} {a : Nat} (hmem : ph ∈ phs) (hin : ph.InFile a)
    (honly : ∀ q ∈ phs, q.InFile a → q = ph) : imageByte file phs a = ph.byte file a := by
  induction phs with
  | nil => exact absurd hmem not_mem_nil
  | cons q phs ih =>
    rw [imageByte]
    by_cases hq : q.InFile a
    · rw [if_pos hq, honly q mem_cons_self hq]
    · rw [if_neg hq]
      refine ih ?_ fun q' hq' => honly q' (mem_cons_of_mem _ hq')
      refine (mem_cons.1 hmem).resolve_left fun he => hq ?_
      rwa [← he]

/-- Of disjoint segments, only the one of the address has a byte for it. -/
theorem linked_eq_of_inFile (h : ElfLinked file size) {ph q : ElfPhdr} (hph : ph ∈ elfSegments file)
    (hq : q ∈ elfSegments file) {a : Nat} (ha : ph.InMemory a) (hin : q.InFile a) : q = ph := by
  by_contra hne
  have hsymm : Std.Symm fun ph ph' : ElfPhdr => ∀ a, ph.InMemory a → ¬ ph'.InMemory a := ⟨fun _ _ hd a h1 h2 => hd a h2 h1⟩
  have hlow := (h.low q hq).filesz
  unfold ElfPhdr.InFile at hin
  exact h.apart.forall hq hph hne a ⟨hin.1, by omega⟩ ha

variable {p₀ : Pmm} {live : List Nat} {m : Vmm} {d : Nat}

/-- A byte of a page that is held. -/
theorem Holds.translated {covered : Nat → Prop} {content : Nat → BitVec 8} (h : Holds d covered content m) (hl : Loading p₀ live d m)
    (v : UserVa) (hcov : covered (pageNo v.addr)) : translatedByte m (.ofRoot d) v.addr = some (content v.addr.toNat) := by
  have hpres := (h.present _ (pageNo_lt v)).2 hcov
  rw [← leafAt_eq] at hpres
  obtain ⟨hval, hframe, hne⟩ := vmmTranslate_present hl.spaces hl.root v hpres
  have hbyte := h.bytes _ (pageNo_lt v) hcov (v.addr.toNat % 4096) (Nat.mod_lt _ (by decide))
  rw [show pageNo v.addr * 4096 + v.addr.toNat % 4096 = v.addr.toNat by unfold pageNo; omega, ← leafAt_eq] at hbyte
  unfold translatedByte
  rw [if_neg hne, ← hbyte, hframe]
  refine congrArg some (pageByte_congr _ ?_)
  rw [toNat_ofNat]
  omega

/-- What the loader leaves at an address of a segment. -/
theorem loaded_byte (hlink : ElfLinked file size) (hl : Loading p₀ live d m)
    (h : Holds d (ImagePage (elfSegments file).reverse) (imageByte file (elfSegments file).reverse) m) {ph : ElfPhdr}
    (hph : ph ∈ elfSegments file) {i : Nat} (hi : i < ph.memsz.toNat) :
    translatedByte m (.ofRoot d) (ph.vaddr + BitVec.ofNat 64 i) =
      some (if i < ph.filesz.toNat then file ((ph.offset.toNat + i) % 2 ^ 64) else 0#8) := by
  have hbelow := (hlink.low ph hph).below
  have hval : (ph.vaddr + BitVec.ofNat 64 i).toNat = ph.vaddr.toNat + i := by
    rw [toNat_add, toNat_ofNat]
    omega
  have hcov : ImagePage (elfSegments file).reverse (pageNo (ph.vaddr + BitVec.ofNat 64 i)) := by
    refine ⟨ph, mem_reverse.2 hph, ?_⟩
    unfold pageNo
    omega
  have hread : translatedByte m (.ofRoot d) (ph.vaddr + BitVec.ofNat 64 i) =
      some (imageByte file (elfSegments file).reverse (ph.vaddr + BitVec.ofNat 64 i).toNat) :=
    h.translated hl ⟨ph.vaddr + BitVec.ofNat 64 i, by omega⟩ hcov
  rw [hread, hval]
  have hmem : ph.InMemory (ph.vaddr.toNat + i) := ⟨by omega, by omega⟩
  refine congrArg some ?_
  by_cases hin : i < ph.filesz.toNat
  · rw [if_pos hin, imageByte_inside (mem_reverse.2 hph) ⟨by omega, by omega⟩
      fun q hq hqa => linked_eq_of_inFile hlink hph (mem_reverse.1 hq) hmem hqa, ElfPhdr.byte, Nat.add_sub_cancel_left]
  · rw [if_neg hin]
    refine imageByte_outside fun q hq hqa => hin ?_
    rw [linked_eq_of_inFile hlink hph (mem_reverse.1 hq) hmem hqa] at hqa
    unfold ElfPhdr.InFile at hqa
    omega

end ElfAux

/-- An image that `elf_load` accepts into a new address space is loaded byte by byte as the file has it, if and only if no segment
has an offset and a size in the file whose sum wraps around. -/
theorem elf_image_loaded_iff {p₀ : Pmm} {live : List Nat} {m m₁ m₂ : Vmm} {as : AddressSpace} {file : Image} {size : BitVec 64}
    {result : ElfLoadResult} (h : Spaces p₀ live m) (hnew : vmmCreateAddressSpace.run m = ((.ok, some as), m₁))
    (hlink : ElfLinked file size) (hload : (elfLoad file size as).run m₁ = ((.ok, result), m₂)) :
    ImageLoaded file size as m₂ ↔ ∀ ph ∈ elfSegments file, ph.offset.toNat + ph.filesz.toNat < 2 ^ 64 := by
  -- the new address space is empty
  obtain ⟨c, hc, rfl, hcreate⟩ := createSpace_eq h.init h.kernel_not_free (congrArg (·.1.2) hnew)
  obtain rfl := (Prod.mk.inj (hnew.symm.trans hcreate)).2
  have hl := Loading.created h hc
  have hempty : Holds c (ImagePage []) (imageByte file []) (m.alloc c (newPml4 m)) := by
    have hnopage : ∀ n, ¬ ImagePage [] n := fun n ⟨ph, hph, _⟩ => absurd hph not_mem_nil
    refine ⟨fun n hn => ?_, fun n _ hcov => absurd hcov (hnopage n), fun _ _ _ _ _ => rfl⟩
    have hleaf : pageLeaf (m.alloc c (newPml4 m)) c n = 0#64 := LifeAux.created_leaf (pageVa n hn).leafPath _
    rw [hleaf, hasFlag_zero]
    exact iff_of_false (by simp) (hnopage n)
  -- the loader has come to its end
  unfold elfLoad at hload
  dsimp only at hload
  split at hload
  case isTrue hbad => exact absurd (Prod.mk.inj (Prod.mk.inj hload).1).1 hbad
  generalize hsegs : (loadSegments (.ofRoot c) file size (elfHeader file) (elfHeader file).phnum 0
    { entry := (elfHeader file).entry, top := 0#64, phdrCount := 0 }).run (m.alloc c (newPml4 m)) = stop at hload
  obtain ⟨⟨st, res⟩, m'⟩ := stop
  rw [bind_run hsegs] at hload
  dsimp only at hload
  by_cases hst : st = .ok
  case neg =>
    rw [if_pos hst] at hload
    exact absurd (Prod.mk.inj (Prod.mk.inj hload).1).1 hst
  subst hst
  rw [if_neg (by simp)] at hload
  split at hload
  case isTrue => cases (Prod.mk.inj (Prod.mk.inj hload).1).1
  obtain rfl : m' = m₂ := (Prod.mk.inj hload).2
  obtain ⟨hcheck, hl', hholds⟩ := loadSegments_holds hlink.low hl hempty hsegs
  rw [append_nil] at hholds
  have hbyte := fun {ph : ElfPhdr} (hph : ph ∈ elfSegments file) {i : Nat} (hi : i < ph.memsz.toNat) =>
    loaded_byte hlink hl' hholds hph hi
  constructor
  · intro hloaded ph hph
    rcases Nat.eq_zero_or_pos ph.filesz.toNat with hz | hpos
    · omega
    · have hlast := ((hloaded ph hph).1 (ph.filesz.toNat - 1) (by omega)).1
      omega
  · intro hwrap ph hph
    have hfile := (hlink.low ph hph).filesz
    have hend : ph.offset.toNat + ph.filesz.toNat ≤ size.toNat := by
      have hok := hcheck ph hph
      unfold checkSegment at hok
      split at hok
      · cases hok
      · next hult =>
        rw [BitVec.ult, decide_eq_true_eq, BitVec.toNat_add, Nat.mod_eq_of_lt (hwrap ph hph)] at hult
        omega
    refine ⟨fun i hi => ⟨by omega, ?_⟩, fun i hlo hi => ?_⟩
    · rw [hbyte hph (by omega), if_pos hi, Nat.mod_eq_of_lt (by omega)]
    · rw [hbyte hph hi, if_neg (by omega)]

/-- The bytes of the words of an image. -/
def wordsImage (words : List (BitVec 64)) : Image := fun n => (words.getD (n / 8) 0#64 >>> (8 * (n % 8))).setWidth 8

/-- An image of 192 bytes with two segments, which share the page at 0x400000: eight bytes each in the file, and 0x1000 bytes of
zeros at the end of the second. -/
def twoSegments : Image := wordsImage
  [0x00010102464C457F#64, 0#64, 0x00000001003E0002#64, 0x400000#64, 64#64, 0#64, 0x0038004000000000#64, 2#64,
   0x0000000500000001#64, 176#64, 0x400000#64, 0#64, 8#64, 8#64, 0x1000#64,
   0x0000000600000001#64, 184#64, 0x400008#64, 0#64, 8#64, 0x1008#64, 0x1000#64, 0x1122334455667788#64, 0xAABBCCDDEEFF0011#64]

/-- An image of 120 bytes with one segment of 16 bytes, whose offset is 8 less than 2 ^ 64. What stands before the image in memory is
0x5A. -/
def wrappingSegment : Image := fun n =>
  if n < 120 then wordsImage
    [0x00010102464C457F#64, 0#64, 0x00000001003E0002#64, 0x400000#64, 64#64, 0#64, 0x0038004000000000#64, 1#64,
     0x0000000600000001#64, 0xFFFFFFFFFFFFFFF8#64, 0x400000#64, 0#64, 16#64, 16#64, 0x1000#64] n
  else 0x5A#8

namespace ElfAux

theorem linked_of_ordered (hent : (elfHeader file).phentsize = 56)
    (hheaders : (elfHeader file).phoff.toNat + 56 * (elfHeader file).phnum ≤ size.toNat)
    (hordered : (elfSegments file).Pairwise fun ph ph' => ph.vaddr.toNat + ph.memsz.toNat ≤ ph'.vaddr.toNat)
    (hlow : ∀ ph ∈ elfSegments file, ph.filesz.toNat ≤ ph.memsz.toNat ∧ ph.vaddr.toNat + ph.memsz.toNat ≤ 2 ^ 32) :
    ElfLinked file size := by
  refine ⟨hent, hheaders, hordered.imp fun hle a ha ha' => ?_, fun ph hph => ⟨(hlow ph hph).1, (hlow ph hph).2⟩⟩
  unfold ElfPhdr.InMemory at ha ha'
  omega

end ElfAux

/-- Two segments that share a page are loaded as the file has them. -/
theorem elf_image_loaded_sample : ∃ m₂, ((elfLoad twoSegments 192#64 (.ofRoot 2)).run (emptyVmm.alloc 2 (newPml4 emptyVmm))).2 = m₂ ∧
    ImageLoaded twoSegments 192#64 (.ofRoot 2) m₂ := by
  have hnew : vmmCreateAddressSpace.run emptyVmm = ((.ok, some (.ofRoot 2)), emptyVmm.alloc 2 (newPml4 emptyVmm)) := by
    have h := spaces_nil emptyVmm_ground
    obtain ⟨c, -, hc, hrun⟩ := createSpace_eq h.init h.kernel_not_free
      (show (vmmCreateAddressSpace.run emptyVmm).1.2 = some (.ofRoot 2) by decide +kernel)
    cases hc
    exact hrun
  have hok : ((elfLoad twoSegments 192#64 (.ofRoot 2)).run (emptyVmm.alloc 2 (newPml4 emptyVmm))).1.1 = .ok := by decide +kernel
  have hlink : ElfLinked twoSegments 192#64 := linked_of_ordered (by decide +kernel) (by decide +kernel) (by decide +kernel) (by decide +kernel)
  have hwrap : ∀ ph ∈ elfSegments twoSegments, ph.offset.toNat + ph.filesz.toNat < 2 ^ 64 := by decide +kernel
  generalize hload : (elfLoad twoSegments 192#64 (.ofRoot 2)).run (emptyVmm.alloc 2 (newPml4 emptyVmm)) = stop at hok ⊢
  obtain ⟨⟨st, result⟩, m₂⟩ := stop
  obtain rfl : st = .ok := hok
  exact ⟨m₂, rfl, (elf_image_loaded_iff (spaces_nil emptyVmm_ground) hnew hlink hload).2 hwrap⟩

/-- The loader accepts a segment whose end in the file wraps around, and the first byte of the segment is one that stands before the
image in memory. -/
theorem elf_image_wraps : ElfLinked wrappingSegment 120#64 ∧
    ((elfLoad wrappingSegment 120#64 (.ofRoot 2)).run (emptyVmm.alloc 2 (newPml4 emptyVmm))).1.1 = .ok ∧
    translatedByte ((elfLoad wrappingSegment 120#64 (.ofRoot 2)).run (emptyVmm.alloc 2 (newPml4 emptyVmm))).2 (.ofRoot 2) 0x400000#64 =
      some 0x5A#8 ∧
    ¬ ImageLoaded wrappingSegment 120#64 (.ofRoot 2)
      ((elfLoad wrappingSegment 120#64 (.ofRoot 2)).run (emptyVmm.alloc 2 (newPml4 emptyVmm))).2 := by
  have hseg : ∃ ph ∈ elfSegments wrappingSegment, 0 < ph.filesz.toNat ∧ ¬ ph.offset.toNat + 0 < (120#64).toNat := by decide +kernel
  refine ⟨linked_of_ordered (by decide +kernel) (by decide +kernel) (by decide +kernel) (by decide +kernel), by decide +kernel,
    by decide +kernel, fun hloaded => ?_⟩
  obtain ⟨ph, hph, hpos, hout⟩ := hseg
  exact hout ((hloaded ph hph).1 0 hpos).1

end TsOs
