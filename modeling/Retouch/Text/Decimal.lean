import Retouch.Text.Ranges

/-!
# Decimal digits of all scripts

Each script has its ten digits side by side, zero first, so one table of the blocks gives both the
digits and their values.
-/

namespace Retouch.Text

/-- The blocks of decimal digits beyond ASCII, each a multiple of ten long and starting with a
zero. -/
def decimalRuns : List Nat := [
  1504,10,134,10,198,10,412,10,118,10,118,10,118,10,118,10,118,10,118,10,118,10,118,10,118,10,96,10,
  118,10,70,10,278,10,70,10,1862,10,38,10,300,10,128,10,166,10,6,10,182,10,86,10,134,10,6,10,35270,
  10,678,10,38,10,198,10,22,10,86,10,406,10,21270,10,1414,10,2182,10,812,10,128,10,60,10,144,10,278,
  10,342,10,118,10,374,10,102,10,102,10,422,10,102,10,758,10,246,10,70,10,19638,10,86,10,134,10,
  27764,50,2368,10,422,10,1622,10,4758,10]

/-- Characters beyond ASCII that are digits without being used in positional notation. -/
def specialDigitRuns : List Nat := [
  50,2,5,1,4783,9,1640,1,1685,1,3,6,6,10,982,9,11,9,11,9,89,1,10,9,1,1,630,9,1,9,1,9,58029,4,1052,9,
  489,9,57509,11]

def decimalValue? (c : Char) : Option Nat :=
  let n := c.toNat
  if n < 128 then if c.isDigit then some (n - 48) else none
  else (placeInRuns? decimalRuns (n - 128)).map (· % 10)

def isDecimal (c : Char) : Bool := (decimalValue? c).isSome

/-- A decimal digit, or a superscript, subscript, circled or similar digit. -/
def isDigit (c : Char) : Bool := isDecimal c || inRuns specialDigitRuns (c.toNat - 128)

end Retouch.Text
