import TsOs.Lib.Runs

/-!
# Output streams of the C library

The writing side of `libc/userspace/stdio.c`. `answer i n` is what the `i`-th `sys_write` to the descriptor answers when it is given
`n` bytes; `fuel` bounds the attempts of the loops that try again when no byte is taken.
-/

namespace TsOs

namespace Stdio

abbrev Byte := BitVec 8

/-- A descriptor: the bytes it received and the number of writes to it. -/
structure Device where
  received : List Byte
  calls : Nat

/-- `_IONBF`, `_IOLBF` and `_IOFBF`. -/
inductive BufMode where
  | unbuffered
  | line
  | full
  deriving DecidableEq

/-- `FILE` with the descriptor behind it; `buf` holds the first `buf_pos` bytes of the buffer, and `none` is the null pointer. -/
structure File where
  dev : Device
  buf : Option (List Byte)
  bufSize : Nat
  bufMode : BufMode
  modeFlags : BitVec 32
  errorFlag : Bool

/-- `FBUF_SIZE`. -/
def fbufSize : Nat := 4096

/-- The flags that `fopen` reads off the first two characters of the mode. -/
def openFlags (m₀ m₁ : Byte) : Option (BitVec 32) :=
  let flags : Option (BitVec 32) :=
    if m₀ = 0x72#8 then some 0#32
    else if m₀ = 0x77#8 then some (1#32 ||| 0x40#32 ||| 0x200#32)
    else if m₀ = 0x61#8 then some (1#32 ||| 0x40#32 ||| 0x400#32)
    else none
  if m₁ = 0x2B#8 then flags.map (fun f => (f &&& ~~~3#32) ||| 2#32) else flags

/-- `fopen` when `sys_open` gives the descriptor `dev`; `hasBuf` says whether there is memory for the buffer. -/
def fopen (m₀ m₁ : Byte) (hasBuf : Bool) (dev : Device) : Option File :=
  (openFlags m₀ m₁).map fun flags =>
    { dev := dev, buf := if hasBuf then some [] else none, bufSize := if hasBuf then fbufSize else 0, bufMode := .full,
      modeFlags := flags, errorFlag := false }

variable (answer : Nat → Nat → Int)

def sysWrite (d : Device) (data : List Byte) : Int × Device :=
  let n := answer d.calls data.length
  (n, ⟨d.received ++ data.take n.toNat, d.calls + 1⟩)

/-- The loop of `buf_flush`, and whether it succeeds; each round but the last writes a byte, so the number of bytes bounds them. -/
def flushLoop : Nat → Device → List Byte → Bool × Device
  | 0, d, _ => (true, d)
  | _ + 1, d, [] => (true, d)
  | k + 1, d, b :: data =>
    let r := sysWrite answer d (b :: data)
    if r.1 ≤ 0 then (false, r.2) else flushLoop k r.2 ((b :: data).drop r.1.toNat)

/-- `buf_flush`. -/
def bufFlush (f : File) : Bool × File :=
  match f.buf with
  | none => (true, f)
  | some [] => (true, f)
  | some data =>
    let r := flushLoop answer data.length f.dev data
    if r.1 then (true, { f with dev := r.2, buf := some [] }) else (false, { f with dev := r.2, errorFlag := true })

/-- The loop of `fwrite` without a buffer and of `vfprintf`: whether a write failed and how many bytes are left. -/
def writeLoop : Nat → Device → List Byte → Option (Bool × Nat × Device)
  | _, d, [] => some (false, 0, d)
  | 0, _, _ :: _ => none
  | k + 1, d, b :: data =>
    let r := sysWrite answer d (b :: data)
    if r.1 < 0 then some (true, data.length + 1, r.2) else writeLoop k r.2 ((b :: data).drop r.1.toNat)

/-- One byte into the buffer, flushed before if it is full, in `fwrite` and `fputc`. -/
def putByte (f : File) (b : Byte) : Bool × File :=
  let r := if f.bufSize ≤ (f.buf.getD []).length then bufFlush answer f else (true, f)
  if r.1 then (true, { r.2 with buf := r.2.buf.map (· ++ [b]) }) else r

/-- The loop of `fwrite` into the buffer, with the number of bytes done. -/
def fillLoop : File → List Byte → Nat × File
  | f, [] => (0, f)
  | f, b :: src =>
    let r := putByte answer f b
    if r.1 then ((fillLoop r.2 src).1 + 1, (fillLoop r.2 src).2) else (0, r.2)

/-- `fwrite` of the `size * nmemb` bytes `src`. -/
def fwrite (fuel : Nat) (f : File) (src : List Byte) (size : Nat) : Option (Nat × File) :=
  if src = [] then some (0, f)
  else if f.bufMode = .unbuffered ∨ f.buf = none then
    (writeLoop answer fuel f.dev src).map fun r =>
      ((src.length - r.2.1) / size, { f with dev := r.2.2, errorFlag := f.errorFlag || r.1 })
  else some ((fillLoop answer f src).1 / size, (fillLoop answer f src).2)

/-- `fputc`; -1 is `EOF`. -/
def fputc (f : File) (c : Int) : Int × File :=
  let ch : Byte := .ofInt 8 c
  if f.bufMode = .unbuffered ∨ f.buf = none then
    let r := sysWrite answer f.dev [ch]
    (if r.1 = 1 then c else -1, { f with dev := r.2 })
  else
    let r := putByte answer f ch
    if r.1 then (c, if f.bufMode = .line ∧ ch = 0x0A#8 then (bufFlush answer r.2).2 else r.2) else (-1, r.2)

/-- `fputs` of the characters before the NUL, which `fputc` gets as signed `char`s. -/
def fputs : File → List Byte → Int × File
  | f, [] => (0, f)
  | f, b :: s =>
    let r := fputc answer f b.toInt
    if r.1 = -1 then (-1, r.2) else fputs r.2 s

/-- What `vsnprintf` leaves of the text `out` in the 4096 bytes of `vfprintf`. -/
def formatBuf (out : List Byte) : List Byte := out.take 4095 ++ [0#8]

/-- `vfprintf` and `fprintf` of a format that comes to the text `out`. All of its length is written from the buffer; `none` is a read
past the end of it, or no end within `fuel`. -/
def vfprintf (fuel : Nat) (f : File) (out : List Byte) : Option (Int × File) :=
  if 4096 < out.length then none
  else
    (writeLoop answer fuel f.dev ((formatBuf out).take out.length)).map fun r =>
      (out.length, { f with dev := r.2.2, errorFlag := f.errorFlag || r.1 })

/-- `fflush`. -/
def fflush (f : File) : Bool × File := bufFlush answer f

/-- `fclose` up to the close of the descriptor; the flags are `O_WRONLY | O_RDWR | O_APPEND`. -/
def fclose (f : File) : Bool × Device :=
  if f.modeFlags &&& (1#32 ||| 2#32 ||| 0x400#32) ≠ 0#32 then ((bufFlush answer f).1, (bufFlush answer f).2.dev) else (true, f.dev)

/-- The calls that write to a stream. -/
inductive Call where
  | fwrite (src : List Byte) (size : Nat)
  | fputc (c : Int)
  | fputs (s : List Byte)
  | fprintf (out : List Byte)
  | fflush

/-- The bytes of a call. -/
def Call.bytes : Call → List Byte
  | .fwrite src _ => src
  | .fputc c => [.ofInt 8 c]
  | .fputs s => s
  | .fprintf out => out
  | .fflush => []

/-- One call. -/
def Call.step (fuel : Nat) (f : File) : Call → Option File
  | .fwrite src size => (Stdio.fwrite answer fuel f src size).map Prod.snd
  | .fputc c => some (Stdio.fputc answer f c).2
  | .fputs s => some (Stdio.fputs answer f s).2
  | .fprintf out => (vfprintf answer fuel f out).map Prod.snd
  | .fflush => some (Stdio.fflush answer f).2

/-- One call on a stream, with the bytes of the calls so far. -/
def Call.record (fuel : Call → Nat) (s : File × List Byte) (c : Call) : Option (File × List Byte) :=
  (c.step answer (fuel c) s.1).map fun f => (f, s.2 ++ c.bytes)

end Stdio

end TsOs
