import TsOs.Lib.Bytes

/-!
# Block devices

What `fs/block_dev.c` gives its callers: `block_dev_read` and `block_dev_write` of one sector, each of which may fail. A device
is any state with these two operations; `StoreDev` is a device whose transfers succeed and that behaves as an array of sectors.
-/

namespace TsOs

/-- The 512 bytes of a sector. -/
abbrev Sector : Type := Fin 512 → BitVec 8

/-- The key of a sector: a device id (`uint8_t`) and a sector number (`uint32_t`). -/
structure SectorKey where
  dev : BitVec 8
  blk : BitVec 32
  deriving DecidableEq, Repr

/-- The transfers of one sector on the devices, over a state `σ`: `none` and `false` stand for a status other than
`BLOCK_OK`. -/
structure BlockDev (σ : Type) where
  read : σ → SectorKey → σ × Option Sector
  write : σ → SectorKey → Sector → σ × Bool

/-- A device on which every transfer succeeds and reads return what was written last. -/
structure StoreDev (σ : Type) extends BlockDev σ where
  sectors : σ → SectorKey → Sector
  read_ok : ∀ d k, (read d k).2 = some (sectors d k)
  read_sectors : ∀ d k, sectors (read d k).1 = sectors d
  write_ok : ∀ d k x, (write d k x).2 = true
  write_sectors : ∀ d k x, sectors (write d k x).1 = Function.update (sectors d) k x

/-- A device on which reads succeed and any write may fail: a write changes no other sector, and stores the bytes when it
succeeds. -/
structure FlakyDev (σ : Type) extends BlockDev σ where
  sectors : σ → SectorKey → Sector
  read_ok : ∀ d k, (read d k).2 = some (sectors d k)
  read_sectors : ∀ d k, sectors (read d k).1 = sectors d
  write_ok : ∀ d k x, (write d k x).2 = true → sectors (write d k x).1 k = x
  write_other : ∀ d k x k', k' ≠ k → sectors (write d k x).1 k' = sectors d k'

/-- The plain array of sectors. -/
def arrayDev : StoreDev (SectorKey → Sector) where
  read d k := (d, some (d k))
  write d k x := (Function.update d k x, true)
  sectors d := d
  read_ok _ _ := rfl
  read_sectors _ _ := rfl
  write_ok _ _ _ := rfl
  write_sectors _ _ _ := rfl

/-- An array of sectors on which every write fails. -/
def readOnlyDev : FlakyDev (SectorKey → Sector) where
  read d k := (d, some (d k))
  write d _ _ := (d, false)
  sectors d := d
  read_ok _ _ := rfl
  read_sectors _ _ := rfl
  write_ok _ _ _ h := by cases h
  write_other _ _ _ _ _ := rfl

end TsOs
