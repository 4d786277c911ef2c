import TsOs.Lib.Words

/-!
# Strings

`strncpy` and `strtok` of `libc/common/string.c`. A buffer is the list of its bytes, with a NUL behind them.
-/

namespace TsOs

/-- The string at offset `p` of a buffer: the bytes before the NUL. -/
def cstr (buf : List (BitVec 8)) (p : Nat) : List (BitVec 8) := (buf.drop p).takeWhile (· ≠ 0#8)

/-! ## `strncpy` -/

/-- The first loop of `strncpy`, with `n` bytes left at offset `i`: the bytes it writes, by offset, and `n` and `d` after it. A NUL
is written before `n` is counted down. -/
def strncpyCopy (src : Nat → BitVec 8) : Nat → Nat → List (Nat × BitVec 8) × Nat × Nat
  | 0, i => ([], 0, i)
  | n + 1, i =>
    if src i = 0#8 then ([(i, src i)], n + 1, i + 1)
    else
      let (out, n, d) := strncpyCopy src n (i + 1)
      ((i, src i) :: out, n, d)

/-- The second loop of `strncpy`. -/
def strncpyPad : Nat → Nat → List (Nat × BitVec 8)
  | 0, _ => []
  | n + 1, d => (d, 0#8) :: strncpyPad n (d + 1)

/-- `strncpy`: what it writes, by offset from `dest`. -/
def strncpy (src : Nat → BitVec 8) (n : Nat) : List (Nat × BitVec 8) :=
  let (out, n, d) := strncpyCopy src n 0
  out ++ strncpyPad n d

/-! ## `strtok` -/

/-- A buffer and the static `saveptr`, an offset into it. -/
structure Strtok where
  buf : List (BitVec 8)
  saveptr : Option Nat

/-- `strtok`: the offset of the token. -/
def strtok (delim : List (BitVec 8)) (s : Strtok) (str : Option Nat) : Strtok × Option Nat :=
  match str.or s.saveptr with
  | none => (s, none)
  | some p =>
    let token := p + ((cstr s.buf p).takeWhile delim.contains).length
    if cstr s.buf token = [] then (⟨s.buf, some token⟩, none)
    else
      let stop := token + ((cstr s.buf token).takeWhile (!delim.contains ·)).length
      if cstr s.buf stop = [] then (⟨s.buf, some stop⟩, some token)
      else (⟨s.buf.set stop 0#8, some (stop + 1)⟩, some token)

/-- A call with `str` and calls with `NULL` until one returns `NULL`: the tokens. -/
def strtokAll (delim : List (BitVec 8)) : Nat → Strtok → Option Nat → Option (Strtok × List Nat)
  | 0, _, _ => none
  | fuel + 1, s, str =>
    match strtok delim s str with
    | (s, none) => some (s, [])
    | (s, some token) => (strtokAll delim fuel s none).map fun (s, tokens) => (s, token :: tokens)

end TsOs
