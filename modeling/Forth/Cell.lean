/-!
# Cells and addresses

A cell is a signed word of 64 bits, on which arithmetic wraps around; an address is an unsigned
one.  Division is floored: the quotient is rounded down and the remainder has the sign of the
divisor.
-/

namespace Forth

/-- What the stacks and the memory hold. -/
abbrev Cell := Int64

/-- Where a cell of memory lies. -/
abbrev Address := UInt64

namespace Cell

/-- The truth value as a cell: all bits set for true, none for false. -/
def ofBool (t : Bool) : Cell :=
  if t then -1 else 0

/-- The quotient rounded down.  The machine's own division rounds toward zero, which is one more
when the signs differ and the division leaves a rest. -/
def floorDiv (a b : Cell) : Cell :=
  if a % b ≠ 0 ∧ decide (a < 0) ≠ decide (b < 0) then a / b - 1 else a / b

/-- The remainder that goes with `floorDiv`.  The machine's own remainder has the sign of the
dividend and is moved by one divisor when that is the wrong one. -/
def floorMod (a b : Cell) : Cell :=
  if a % b ≠ 0 ∧ decide (a % b < 0) ≠ decide (b < 0) then a % b + b else a % b

/-- The address a cell stands for; a negative cell stands for none. -/
def toAddress? (n : Cell) : Option Address :=
  if n < 0 then none else some n.toUInt64

/-- The cell with the bits of an address. -/
def ofAddress (a : Address) : Cell :=
  a.toInt64

/-- The character with this code point; the replacement character when there is none. -/
def toChar (n : Cell) : Char :=
  if 0 ≤ n ∧ n.toInt.toNat.isValidChar then Char.ofNat n.toInt.toNat else '\ufffd'

/-- The decimal digits of a cell, behind a minus sign when it is negative. -/
def decimalChars (n : Cell) : List Char :=
  let digits := Nat.toDigits 10 n.toInt.natAbs
  if n < 0 then '-' :: digits else digits

/-- The decimal form of a cell. -/
def decimal (n : Cell) : String :=
  String.ofList n.decimalChars

end Cell

end Forth
