import Retouch.Forest.Basic

/-!
# Walks

A walk goes through the tree at a number while the tree may change.  It goes on with the list of
children on which it has begun: changes inside that list are seen, a new list of children is not.
-/

namespace Retouch

/-- What a walk has still to do, the next thing first. -/
inductive Task where
  | visit (i : NodeId)
  /-- Begin with the tree at a number; at its end, report the number if `closing`. -/
  | enter (i : NodeId) (closing : Bool)
  /-- Go on below a node with the child at a place of one of its lists of children. -/
  | goOn (i : NodeId) (generation place : Nat) (closing : Bool)
deriving Repr

abbrev Walk := List Task

namespace Walk

def upward (root : NodeId) : Walk := [.enter root true]

/-- The walk that reports the root first, and below it every number after those below it. -/
def rootFirst (root : NodeId) : Walk := [.visit root, .enter root false]

/-- Go on to the next number.  The first argument bounds the steps on the way there. -/
def nextWith (f : Forest) : Nat → Walk → Option (NodeId × Walk)
  | 0, _ => none
  | _ + 1, [] => none
  | _ + 1, .visit i :: rest => some (i, rest)
  | fuel + 1, .enter i closing :: rest =>
    if f.isLeaf i then if closing then some (i, rest) else nextWith f fuel rest
    else nextWith f fuel (.goOn i (f.generation i) 0 closing :: rest)
  | fuel + 1, .goOn i generation place closing :: rest =>
    match (f.childrenAt i generation)[place]? with
    | some c => nextWith f fuel (.enter c true :: .goOn i generation (place + 1) closing :: rest)
    | none => if closing then some (i, rest) else nextWith f fuel rest

def next (f : Forest) (w : Walk) : Option (NodeId × Walk) :=
  nextWith f (3 * (f.size + w.length + 2)) w

/-- The numbers that a walk reports if the forest does not change.  The first argument bounds how
many. -/
def restWith (f : Forest) : Nat → Walk → List NodeId
  | 0, _ => []
  | fuel + 1, w =>
    match next f w with
    | none => []
    | some (i, w) => i :: restWith f fuel w

def rest (f : Forest) (w : Walk) : List NodeId := restWith f (f.size + 2) w

end Walk

end Retouch
