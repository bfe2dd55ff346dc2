import Propositional.Text.Blank

/-!
# Whole numbers in text

Reading a whole number in decimal digits of any script, with an optional sign, blanks around it and
single low lines between digits.
-/

namespace Propositional

/-- The zeros of the runs of ten decimal digits of Unicode 14. -/
def decimalZeros : List Nat := [
  0x0030, 0x0660, 0x06F0, 0x07C0, 0x0966, 0x09E6, 0x0A66, 0x0AE6, 0x0B66, 0x0BE6, 0x0C66, 0x0CE6,
  0x0D66, 0x0DE6, 0x0E50, 0x0ED0, 0x0F20, 0x1040, 0x1090, 0x17E0, 0x1810, 0x1946, 0x19D0, 0x1A80,
  0x1A90, 0x1B50, 0x1BB0, 0x1C40, 0x1C50, 0xA620, 0xA8D0, 0xA900, 0xA9D0, 0xA9F0, 0xAA50, 0xABF0,
  0xFF10, 0x104A0, 0x10D30, 0x11066, 0x110F0, 0x11136, 0x111D0, 0x112F0, 0x11450, 0x114D0, 0x11650,
  0x116C0, 0x11730, 0x118E0, 0x11950, 0x11C50, 0x11D50, 0x11DA0, 0x16A60, 0x16AC0, 0x16B50, 0x1D7CE,
  0x1D7D8, 0x1D7E2, 0x1D7EC, 0x1D7F6, 0x1E140, 0x1E2F0, 0x1E950, 0x1FBF0]

def digit? (c : Char) : Option Nat :=
  (decimalZeros.find? fun first => first ≤ c.toNat && c.toNat < first + 10).map (c.toNat - ·)

/-- Digits with at most one low line between two of them; the value goes on from `value`. -/
def digits? (value : Nat) : List Char → Option Nat
  | [] => some value
  | ['_'] => none
  | '_' :: c :: rest => (digit? c).bind fun d => digits? (value * 10 + d) rest
  | c :: rest => (digit? c).bind fun d => digits? (value * 10 + d) rest

def maxDigits : Nat := 4300

def natural? (text : List Char) : Option Nat :=
  match text with
  | [] => none
  | '_' :: _ => none
  | _ => if (text.filter (· ≠ '_')).length ≤ maxDigits then digits? 0 text else none

/-- Blanks that may stand around a number: the separators U+001C to U+001F are not among them. -/
def isNumberBlank (c : Char) : Bool :=
  isBlank c && !(0x1C ≤ c.toNat && c.toNat ≤ 0x1F)

def integer? (text : String) : Option Int :=
  let core := ((text.toList.dropWhile isNumberBlank).reverse.dropWhile isNumberBlank).reverse
  match core with
  | '-' :: rest => (natural? rest).map fun n => -(n : Int)
  | '+' :: rest => (natural? rest).map fun n => (n : Int)
  | _ => (natural? core).map fun n => (n : Int)

end Propositional
