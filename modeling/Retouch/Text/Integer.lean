import Retouch.Text.Blank
import Retouch.Text.Decimal

/-!
# Whole numbers in texts

Whole numbers as users write them: with blanks around them, a sign, digits of a base with single
underscores between them, and a mark of the base before them.
-/

namespace Retouch.Text

def digitValue? (base : Nat) (c : Char) : Option Nat :=
  let value :=
    match decimalValue? c with
    | some v => some v
    | none =>
      let l := c.toLower
      if 'a' ≤ l && l ≤ 'f' then some (l.toNat - 'a'.toNat + 10) else none
  value.filter (· < base)

/-- The value of digits from a value on; `open_` tells whether a digit has to follow. -/
def digitsValue? (base : Nat) : (value : Nat) → (open_ : Bool) → Text → Option Nat
  | value, open_, [] => if open_ then none else some value
  | value, open_, c :: cs =>
    if c = '_' then if open_ then none else digitsValue? base value true cs
    else
      match digitValue? base c with
      | some d => digitsValue? base (base * value + d) false cs
      | none => none

def baseMark (base : Nat) : Text :=
  if base = 16 then "0x" else if base = 8 then "0o" else if base = 2 then "0b" else []

/-- The text without the mark of the base, after which an underscore may follow. -/
def withoutMark (base : Nat) (t : Text) : Text :=
  let mark := baseMark base
  if !mark.isEmpty && lowered (t.take 2) == mark then
    match t.drop 2 with
    | '_' :: rest => rest
    | rest => rest
  else t

def integer? (base : Nat) (t : Text) : Option Int :=
  match strip t with
  | '-' :: ds => (digitsValue? base 0 true (withoutMark base ds)).map fun n => -(n : Int)
  | '+' :: ds => (digitsValue? base 0 true (withoutMark base ds)).map Int.ofNat
  | ds => (digitsValue? base 0 true (withoutMark base ds)).map Int.ofNat

/-- The whole number that a text writes in the base that its beginning tells: sixteen, two or eight
after a zero, or else ten. -/
def markedInteger? (t : Text) : Option Int :=
  let start := lowered (t.take 2)
  if start = "0x" then integer? 16 t
  else if start = "0b" then integer? 2 (if (t.drop 2).isEmpty then ['0'] else t.drop 2)
  else if startsWith "0" t then integer? 8 t
  else integer? 10 t

end Retouch.Text
