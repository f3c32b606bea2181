import Retouch.Text.Basic

/-!
# Sets of characters given by runs

A property of characters is written down as the lengths of the runs of numbers that lack it and have
it by turns.  The tables list only numbers from 128 on; what holds of the ASCII characters is said
beside each property.
-/

namespace Retouch.Text

/-- The place of a number in its run, if the run belongs to the set.  The runs follow each other from 0
on, by turns outside and inside. -/
def placeInRuns? : List Nat → Nat → Option Nat
  | outside :: inside :: runs, n =>
    if n < outside then none
    else if n < outside + inside then some (n - outside)
    else placeInRuns? runs (n - (outside + inside))
  | _, _ => none

def inRuns (runs : List Nat) (n : Nat) : Bool := (placeInRuns? runs n).isSome

end Retouch.Text
