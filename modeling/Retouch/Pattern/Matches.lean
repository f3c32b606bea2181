import Retouch.OrderedMap
import Retouch.Syntax.Tree

/-!
# Ways to match

A pattern can match the start of a sequence of trees in several ways, each of which takes a number
of trees and binds names.  The ways are found one after the other and only as far as they are asked
for; the search can also break off.
-/

namespace Retouch

/-- What a name is bound to: one tree, or the trees that a wild pattern took. -/
inductive Bound (α : Type) where
  | one (t : Tree α)
  | many (ts : List (Tree α))
deriving Repr, Inhabited

abbrev Bindings (α : Type) := OrderedMap Text (Bound α)

def Bindings.bind {α : Type} (name : Option Text) (b : Bound α) (m : Bindings α) : Bindings α :=
  match name with
  | none | some [] => m
  | some n => OrderedMap.insert m n b

/-- The ways to match, in the order in which they are found. -/
inductive Matches (α : Type) where
  | done
  /-- The search broke off: a negated pattern was asked to take a tree. -/
  | fail
  /-- The search would go round in circles, as turns that take nothing can be repeated. -/
  | endless
  /-- A way that takes `count` trees, and those after it. -/
  | found (count : Nat) (names : Bindings α) (more : Unit → Matches α)

/-- The answer to a match that has to take all trees. -/
inductive Verdict (α : Type) where
  | no
  | yes (names : Bindings α)
  | fail

namespace Matches

variable {α : Type}

def only (count : Nat) (names : Bindings α) : Matches α := found count names fun _ => done

def ofVerdict (count : Nat) : Verdict α → Matches α
  | .no => done
  | .yes names => only count names
  | .fail => fail

def append : Matches α → (Unit → Matches α) → Matches α
  | done, next => next ()
  | fail, _ => fail
  | endless, _ => endless
  | found c r more, next => found c r fun u => append (more u) next

def bind : Matches α → (Nat → Bindings α → Matches α) → Matches α
  | done, _ => done
  | fail, _ => fail
  | endless, _ => endless
  | found c r more, f => append (f c r) fun u => bind (more u) f

def map (f : Nat → Bindings α → Nat × Bindings α) : Matches α → Matches α
  | done => done
  | fail => fail
  | endless => endless
  | found c r more => found (f c r).1 (f c r).2 fun u => map f (more u)

/-- Each way after a first part that takes `count` trees and binds `names`. -/
def after (count : Nat) (names : Bindings α) : Matches α → Matches α :=
  map fun c r => (count + c, OrderedMap.update names r)

def nonempty : Matches α → Matches α
  | done => done
  | fail => fail
  | endless => endless
  | found c r more => if c = 0 then nonempty (more ()) else found c r fun u => nonempty (more u)

/-- The ways of a search and then those of another one that is given all the ways of the first. -/
def collecting (ways : List (Nat × Bindings α)) :
    Matches α → (List (Nat × Bindings α) → Matches α) → Matches α
  | done, next => next ways
  | fail, _ => fail
  | endless, _ => endless
  | found c r more, next => found c r fun u => collecting (ways ++ [(c, r)]) (more u) next

/-- The ways of a search, and those of another one if it goes round in circles. -/
def recover : Matches α → (Unit → Matches α) → Matches α
  | done, _ => done
  | fail, _ => fail
  | endless, next => next ()
  | found c r more, next => found c r fun u => recover (more u) next

/-- The first way that takes exactly `n` trees. -/
def exactly (n : Nat) : Matches α → Verdict α
  | done => .no
  | fail => .fail
  | endless => .no
  | found c r more => if c = n then .yes r else exactly n (more ())

/-- The first `limit` ways, and whether the search broke off among them. -/
def toList : Nat → Matches α → List (Nat × Bindings α) × Bool
  | 0, _ => ([], false)
  | _ + 1, done => ([], false)
  | _ + 1, fail => ([], true)
  | _ + 1, endless => ([], false)
  | limit + 1, found c r more =>
    let (rest, broken) := toList limit (more ())
    ((c, r) :: rest, broken)

end Matches

end Retouch
