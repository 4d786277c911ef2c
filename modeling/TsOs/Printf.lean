import Mathlib.Data.List.Basic

/-!
# Formatted output

How `vsnprintf` of `libc/common/vsnprintf.c` goes over its format.
-/

namespace TsOs

namespace Printf

/-- The flags of a directive. -/
def skipFlags (fmt : List Char) : List Char := fmt.dropWhile (· ∈ ['-', '+', ' ', '0', '#'])

/-- A width: `*` or digits. -/
def skipWidth : List Char → List Char
  | '*' :: fmt => fmt
  | fmt => fmt.dropWhile Char.isDigit

/-- A precision; its number is read like a width. -/
def skipPrec : List Char → List Char
  | '.' :: fmt => skipWidth fmt
  | fmt => fmt

/-- A length modifier. -/
def skipLength : List Char → List Char
  | 'l' :: 'l' :: fmt | 'h' :: 'h' :: fmt => fmt
  | 'l' :: fmt | 'z' :: fmt | 't' :: fmt | 'h' :: fmt => fmt
  | fmt => fmt

/-- A directive up to its conversion. -/
def skipDirective (fmt : List Char) : List Char := skipLength (skipPrec (skipWidth (skipFlags fmt)))

/-- One round of the loop over the bytes before the NUL. The conversion is read by `*fmt++` whatever it is, and `none` is a pointer that
went over the NUL. -/
def nextFormat : List Char → Option (List Char)
  | '%' :: fmt => (skipDirective fmt).tail?
  | fmt => some fmt.tail

/-- The loop with at most so many rounds, and whether it stops at the NUL. -/
def scanFormat : Nat → List Char → Bool
  | _, [] => true
  | 0, _ :: _ => false
  | n + 1, c :: fmt => (nextFormat (c :: fmt)).any (scanFormat n)

end Printf

end TsOs
