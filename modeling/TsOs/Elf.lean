import TsOs.Lib.Bytes
import TsOs.SpaceSet

/-!
# The ELF loader

`kernel/elf.c`: the check of an ELF64 header and the mapping of the loadable segments into an address space. The image is what stands
at and behind the address that the loader is given; offsets are added as the machine adds them. Messages to the serial line are left
out.
-/

namespace TsOs

open Bytes

/-- `elf_status_t`. -/
inductive ElfStatus where
  | ok
  | invalid
  | notExec
  | notX8664
  | tooMany
  | noLoad
  | noMem
  | mapFailed
  | badOffset
  | badVaddr
  deriving DecidableEq, Repr

/-- The bytes of an image, by their offset. -/
abbrev Image := Nat → BitVec 8

/-- The fields of `elf64_header_t` that the loader reads. -/
structure ElfHeader where
  ident : Nat → BitVec 8
  type : Nat
  machine : Nat
  entry : BitVec 64
  phoff : BitVec 64
  phentsize : Nat
  phnum : Nat

def elfHeader (file : Image) : ElfHeader where
  ident := file
  type := le 2 file 16
  machine := le 2 file 18
  entry := BitVec.ofNat 64 (le 8 file 24)
  phoff := BitVec.ofNat 64 (le 8 file 32)
  phentsize := le 2 file 54
  phnum := le 2 file 56

/-- `elf_validate`. -/
def elfValidate (file : Image) (size : BitVec 64) : ElfStatus :=
  if size.ult 64#64 then .invalid
  else
    let hdr := elfHeader file
    if hdr.ident 0 ≠ 0x7F#8 ∨ hdr.ident 1 ≠ 0x45#8 ∨ hdr.ident 2 ≠ 0x4C#8 ∨ hdr.ident 3 ≠ 0x46#8 then .invalid
    else if hdr.ident 4 ≠ 2#8 then .invalid
    else if hdr.ident 5 ≠ 1#8 then .invalid
    else if hdr.type ≠ 2 ∧ hdr.type ≠ 3 then .notExec
    else if hdr.machine ≠ 0x3E then .notX8664
    else if size.ult (hdr.phoff + BitVec.ofNat 64 hdr.phentsize * BitVec.ofNat 64 hdr.phnum) then .invalid
    else if hdr.entry ≠ 0#64 ∧ !hdr.entry.ult 0x800000000000#64 then .badVaddr
    else .ok

/-- The fields of `elf64_phdr_t` that the loader reads. -/
structure ElfPhdr where
  type : Nat
  flags : BitVec 64
  offset : BitVec 64
  vaddr : BitVec 64
  filesz : BitVec 64
  memsz : BitVec 64

/-- `phdrs[i]`; the entries are 56 bytes apart, whatever `e_phentsize` says. -/
def elfPhdr (file : Image) (hdr : ElfHeader) (i : Nat) : ElfPhdr :=
  let off := (hdr.phoff + 56#64 * BitVec.ofNat 64 i).toNat
  { type := le 4 file off
    flags := BitVec.ofNat 64 (le 4 file (off + 4))
    offset := BitVec.ofNat 64 (le 8 file (off + 8))
    vaddr := BitVec.ofNat 64 (le 8 file (off + 16))
    filesz := BitVec.ofNat 64 (le 8 file (off + 32))
    memsz := BitVec.ofNat 64 (le 8 file (off + 40)) }

/-- The flags of the pages of a segment. -/
def segmentFlags (ph : ElfPhdr) : BitVec 64 :=
  pteUser ||| (if hasFlag ph.flags 4#64 then ptePresent else 0#64) ||| (if hasFlag ph.flags 2#64 then pteWritable else 0#64) |||
    (if hasFlag ph.flags 1#64 then 0#64 else pteNx)

/-- A write of one byte to a frame. -/
def writeByte (frame : Nat) (off : BitVec 64) (b : BitVec 8) : VmmM Unit := do
  let word ← readEntry frame (wordIndex off)
  writeEntry frame (wordIndex off) (withByte word off b)

/-- `copy_page_overlap`: the bytes of the file that lie on the page `va` are copied to its frame. -/
def copyPageOverlap (file : Image) (ph : ElfPhdr) (frame : Nat) (va : BitVec 64) : VmmM Unit :=
  let segEnd := ph.vaddr + ph.filesz
  let pageEnd := va + 4096#64
  let lo := if ph.vaddr.ult va then va else ph.vaddr
  let hi := if pageEnd.ult segEnd then pageEnd else segEnd
  if !lo.ult hi then return ()
  else
    let destOff := lo - va
    let srcOff := ph.offset + (lo - ph.vaddr)
    (List.range (hi - lo).toNat).forM fun k =>
      writeByte frame (destOff + BitVec.ofNat 64 k) (file (srcOff + BitVec.ofNat 64 k).toNat)

/-- The loop over the pages of a segment. -/
def loadPages (as : AddressSpace) (file : Image) (ph : ElfPhdr) (stop : BitVec 64) : Nat → BitVec 64 → VmmM ElfStatus
  | 0, _ => return .ok
  | n + 1, va =>
    if va.ult stop then do
      let existing := vmmTranslate (← get) as va
      if existing ≠ 0#64 then
        copyPageOverlap file ph (frameOf existing) va
        let (st, _) ← vmmMapPageMerge as va existing (segmentFlags ph)
        if st ≠ .ok then return .mapFailed
        else loadPages as file ph stop n (va + 4096#64)
      else
        let frame ← allocFrame
        if frame = 0#64 then return .noMem
        else
          zeroPage (frameOf frame)
          copyPageOverlap file ph (frameOf frame) va
          let (st, _) ← vmmMapPageMerge as va frame (segmentFlags ph)
          if st ≠ .ok then return .mapFailed
          else loadPages as file ph stop n (va + 4096#64)
    else return .ok

/-- `elf_load_result_t`, without the base. -/
structure ElfLoadResult where
  entry : BitVec 64
  top : BitVec 64
  phdrCount : Nat
  deriving DecidableEq, Repr

/-- The checks of a loadable segment, in the order of the source. -/
def checkSegment (size : BitVec 64) (ph : ElfPhdr) : ElfStatus :=
  if size.ult (ph.offset + ph.filesz) then .badOffset
  else if ph.vaddr.ult 0x1000#64 ∨ (0x800000000000#64).ult (ph.vaddr + ph.memsz) then .badVaddr
  else
    let vstart := pageDown ph.vaddr
    let vend := pageUp (ph.vaddr + ph.memsz)
    if (0x10000000#64).ult (vend - vstart) then .tooMany else .ok

/-- The loop over the program headers, from entry `i` on. -/
def loadSegments (as : AddressSpace) (file : Image) (size : BitVec 64) (hdr : ElfHeader) :
    Nat → Nat → ElfLoadResult → VmmM (ElfStatus × ElfLoadResult)
  | 0, _, result => return (.ok, result)
  | n + 1, i, result => do
    let ph := elfPhdr file hdr i
    if ph.type ≠ 1 then loadSegments as file size hdr n (i + 1) result
    else
      let st := checkSegment size ph
      if st ≠ .ok then return (st, result)
      else
        let vstart := pageDown ph.vaddr
        let vend := pageUp (ph.vaddr + ph.memsz)
        let result := { result with top := if result.top.ult vend then vend else result.top }
        let st ← loadPages as file ph vend ((vend - vstart) / 4096#64).toNat vstart
        if st ≠ .ok then return (st, result)
        else loadSegments as file size hdr n (i + 1) { result with phdrCount := result.phdrCount + 1 }

/-- `elf_load`. -/
def elfLoad (file : Image) (size : BitVec 64) (as : AddressSpace) : VmmM (ElfStatus × ElfLoadResult) := do
  let hdr := elfHeader file
  let result := { entry := hdr.entry, top := 0#64, phdrCount := 0 }
  let st := elfValidate file size
  if st ≠ .ok then return (st, result)
  else
    let (st, result) ← loadSegments as file size hdr hdr.phnum 0 result
    if st ≠ .ok then return (st, result)
    else if result.phdrCount = 0 then return (.noLoad, result)
    else return (.ok, result)

end TsOs
