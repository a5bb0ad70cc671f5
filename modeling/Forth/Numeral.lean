import Forth.Cell

/-!
# Numerals

A numeral is an optional sign and a magnitude: decimal digits, or `0x` and hexadecimal digits, or
`0b` and binary digits.  Underscores separate digits anywhere but at the beginning of a decimal
magnitude.  A numeral outside of the range of a cell is none.
-/

namespace Forth.Numeral

/-- The value of a digit in either letter case, up to base 16. -/
def digit? (base : Nat) (c : Char) : Option Nat :=
  let value :=
    if '0' ≤ c ∧ c ≤ '9' then c.toNat - '0'.toNat
    else if 'a' ≤ c ∧ c ≤ 'f' then c.toNat - 'a'.toNat + 10
    else if 'A' ≤ c ∧ c ≤ 'F' then c.toNat - 'A'.toNat + 10
    else base
  if value < base then some value else none

/-- Reads digits and underscores behind a magnitude of `acc`. -/
def digitsFrom (base acc : Nat) : List Char → Option Nat
  | [] => some acc
  | c :: cs =>
    if c = '_' then
      digitsFrom base acc cs
    else
      (digit? base c).bind fun d => digitsFrom base (acc * base + d) cs

/-- Reads digits and underscores, of which at least one is a digit. -/
def digits (base : Nat) (cs : List Char) : Option Nat :=
  if cs.all (· = '_') then none else digitsFrom base 0 cs

/-- Reads a numeral without its sign. -/
def magnitude : List Char → Option Nat
  | '0' :: 'x' :: cs | '0' :: 'X' :: cs => digits 16 cs
  | '0' :: 'b' :: cs | '0' :: 'B' :: cs => digits 2 cs
  | '_' :: _ => none
  | cs => digits 10 cs

/-- The cell of this value; none outside of the range. -/
def cellOfInt? (n : Int) : Option Cell :=
  if Int64.minValue.toInt ≤ n ∧ n ≤ Int64.maxValue.toInt then some (Int64.ofInt n) else none

/-- Reads a numeral. -/
def parseChars : List Char → Option Cell
  | '-' :: cs => (magnitude cs).bind fun n => cellOfInt? (-n)
  | '+' :: cs => (magnitude cs).bind fun n => cellOfInt? n
  | cs => (magnitude cs).bind fun n => cellOfInt? n

/-- Reads a numeral. -/
def parse? (text : String) : Option Cell :=
  parseChars text.toList

end Forth.Numeral
