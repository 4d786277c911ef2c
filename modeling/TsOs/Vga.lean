import TsOs.Lib.Runs

/-!
# The VGA text screen

The driver of `drivers/vga.c`: a shadow buffer of 80 by 25 cells with a dirty flag for each, and the VGA memory that `vga_flush`
brings up to date. The port writes that move and shape the hardware cursor are left out.
-/

namespace TsOs

/-- Columns and rows of the screen. -/
abbrev vgaWidth : Nat := 80

abbrev vgaHeight : Nat := 25

/-- The number of a cell. -/
abbrev Cell := Fin (vgaWidth * vgaHeight)

/-- The variables of the driver and the VGA memory `mem`; `mapped` says that `g_vga_mem` is not null. -/
structure Vga where
  shadow : Cell → BitVec 16
  dirty : Cell → Bool
  mem : Cell → BitVec 16
  mapped : Bool
  fg : BitVec 8
  bg : BitVec 8
  cursorX : Int
  cursorY : Int
  blinkEnabled : Bool
  blinkVisible : Bool
  scanlineEnabled : Bool
  batchMode : Bool
  tickCount : BitVec 32

/-- `vga_entry`. -/
def vgaEntry (c color : BitVec 8) : BitVec 16 := (color.setWidth 16 <<< 8) ||| c.setWidth 16

/-- `vga_make_color`. -/
def vgaMakeColor (fg bg : BitVec 8) : BitVec 8 := (bg <<< 4) ||| fg

namespace Vga

/-- The cell at an index into the buffers; `none` is outside of them. -/
def cell (idx : Int) : Option Cell := if h : 0 ≤ idx ∧ idx < 2000 then some ⟨idx.toNat, show _ < 2000 by omega⟩ else none

/-- The blank that fills the screen. -/
def blank (v : Vga) : BitVec 16 := vgaEntry 0x20#8 (vgaMakeColor v.fg v.bg)

/-- The sum of the dirty flags. -/
def dirtyCount (v : Vga) : Nat := (List.finRange 2000).countP v.dirty

/-- `vga_flush`: with three quarters of the cells dirty all are written, otherwise those that are dirty. -/
def flush (v : Vga) : Vga :=
  if !v.mapped || v.batchMode then v
  else
    { v with
      mem := if vgaWidth * vgaHeight * 3 / 4 ≤ v.dirtyCount then v.shadow else fun i => if v.dirty i then v.shadow i else v.mem i
      dirty := fun _ => false }

/-- `vga_clear`. -/
def clear (v : Vga) : Vga := flush { v with shadow := fun _ => v.blank, dirty := fun _ => true, cursorX := 0, cursorY := 0 }

/-- `vga_init`. -/
def init (v : Vga) : Vga := clear { v with mapped := true, dirty := fun _ => false }

/-- The store to a cell of the shadow buffer in `vga_put_char` and `vga_put_str`. -/
def setCell (v : Vga) (i : Cell) (entry : BitVec 16) : Vga :=
  if v.shadow i ≠ entry then { v with shadow := Function.update v.shadow i entry, dirty := Function.update v.dirty i true } else v

/-- `vga_put_char`, with the character that was there. -/
def putChar (v : Vga) (x y : Int) (c color : BitVec 8) : BitVec 8 × Vga :=
  if x < 0 ∨ vgaWidth ≤ x ∨ y < 0 ∨ vgaHeight ≤ y then (0#8, v)
  else
    match cell (y * vgaWidth + x) with
    | none => (0#8, v)
    | some i => ((v.shadow i).setWidth 8, v.setCell i (vgaEntry c color))

/-- `vga_scroll`: the buffers move up, VGA memory is not written unless the whole screen is cleared. -/
def scroll (v : Vga) (lines : Int) : Vga :=
  if lines ≤ 0 then v
  else if vgaHeight ≤ lines then v.clear
  else
    { v with
      shadow := fun i => if h : i + lines.toNat * vgaWidth < 2000 then v.shadow ⟨i + lines.toNat * vgaWidth, h⟩ else v.blank
      dirty := fun i => if h : i + lines.toNat * vgaWidth < 2000 then v.dirty ⟨i + lines.toNat * vgaWidth, h⟩ else true }

/-- The loop of `vga_put_str` over the characters before the NUL, at column `cx` of row `cy`. `none` says that a cell outside of the
buffers is written or that a coordinate overflows. -/
def putStrLoop (color : BitVec 8) : Vga → Int → Int → List (BitVec 8) → Option (Vga × Int × Int)
  | v, cx, cy, [] => some (v, cx, cy)
  | v, cx, cy, c :: s =>
    if vgaWidth ≤ cx ∧ cy = 2 ^ 31 - 1 then none
    else
      let row := if vgaWidth ≤ cx then cy + 1 else cy
      let cx := if vgaWidth ≤ cx then 0 else cx
      let v := if vgaHeight ≤ row then v.scroll 1 else v
      let cy := if vgaHeight ≤ row then (vgaHeight : Int) - 1 else row
      if c = 0x0A#8 then putStrLoop color v 0 (cy + 1) s
      else if c = 0x0D#8 then putStrLoop color v 0 cy s
      else if c = 0x09#8 then putStrLoop color v ((cx + 8) / 8 * 8) cy s
      else
        match cell (cy * vgaWidth + cx) with
        | none => none
        | some i => putStrLoop color (v.setCell i (vgaEntry c color)) (cx + 1) cy s

/-- `vga_put_str`; the string `none` is the null pointer. -/
def putStr (v : Vga) (x y : Int) (s : Option (List (BitVec 8))) (color : BitVec 8) : Option Vga :=
  match s with
  | none => some v
  | some s => (putStrLoop color v x y s).map fun r => flush { r.1 with cursorX := r.2.1, cursorY := r.2.2 }

/-- `vga_flush_cell`. -/
def flushCell (v : Vga) (x y : Int) : Vga :=
  if !v.mapped || v.batchMode then v
  else if x < 0 ∨ vgaWidth ≤ x ∨ y < 0 ∨ vgaHeight ≤ y then v
  else
    match cell (y * vgaWidth + x) with
    | none => v
    | some i => { v with mem := Function.update v.mem i (v.shadow i), dirty := Function.update v.dirty i false }

/-- A cell with its background changed from black to dark grey or back by the scanline overlay. -/
def scanCell (c : BitVec 16) : BitVec 16 :=
  if (c >>> 12) &&& 0xF#16 = 0#16 then (c &&& 0x0FFF#16) ||| 0x8000#16
  else if (c >>> 12) &&& 0xF#16 = 8#16 then c &&& 0x0FFF#16
  else c

/-- The overlay of `vga_tick`, on the even rows. -/
def overlay (v : Vga) : Vga := { v with shadow := fun i => if i / vgaWidth % 2 = 0 then scanCell (v.shadow i) else v.shadow i }

/-- `vga_tick`. -/
def tick (v : Vga) : Vga :=
  let count := v.tickCount + 1#32
  let blinks := v.blinkEnabled && count % 50#32 == 0#32
  let v := { v with tickCount := count, blinkVisible := if blinks then !v.blinkVisible else v.blinkVisible }
  if v.scanlineEnabled && count % 3#32 == 0#32 then flush v.overlay else v

end Vga

/-- The calls of the driver outside batch mode. -/
inductive VgaOp where
  | clear
  | putChar (x y : Int) (c color : BitVec 8)
  | putStr (x y : Int) (s : Option (List (BitVec 8))) (color : BitVec 8)
  | scroll (lines : Int)
  | tick
  | flushCell (x y : Int)
  | flush
  | setColor (fg bg : BitVec 8)
  | setScanline (on : Bool)

/-- One call. -/
def VgaOp.step (v : Vga) : VgaOp → Option Vga
  | .clear => some v.clear
  | .putChar x y c color => some (v.putChar x y c color).2
  | .putStr x y s color => v.putStr x y s color
  | .scroll lines => some (v.scroll lines)
  | .tick => some v.tick
  | .flushCell x y => some (v.flushCell x y)
  | .flush => some v.flush
  | .setColor fg bg => some { v with fg := fg, bg := bg }
  | .setScanline on => some { v with scanlineEnabled := on }

end TsOs
