import Retouch.Token.Kind

/-!
# Tokens

A token is a slice of the text with its kind and its place.  Rows count from one and columns from
zero.
-/

namespace Retouch

structure Position where
  row : Nat
  column : Nat
deriving DecidableEq, Repr, Inhabited

namespace Position

/-- Order of places: by row, then by column. -/
def le (a b : Position) : Bool := a.row < b.row || (a.row == b.row && a.column ≤ b.column)

end Position

/-- A token: its kind, its characters, the places where it starts and stops, and the line or lines
it stands on. -/
structure Token where
  kind : Kind
  text : Text
  start : Position
  stop : Position
  line : Text
deriving DecidableEq, Repr

end Retouch
