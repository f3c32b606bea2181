import Retouch.Forest.Basic

/-!
# Edits

The ways in which trees of a forest are changed.  Every edit keeps the node above a leaf or node in
step with the children of nodes, and marks what it changes up to the top.
-/

namespace Retouch.Forest

/-! ## Looking -/

def look {α : Type} (g : Forest → α) : Edit α := return g (← get)

def valueOf (i : NodeId) : Edit Value := do
  match (← get).token? i with
  | some l => return l.value
  | none => throw .missing

/-- The place that an index stands for, where a negative one counts from the end. -/
def placeOf? (length : Nat) (i : Int) : Option Nat :=
  if 0 ≤ i then (if i.toNat < length then some i.toNat else none)
  else if i.natAbs ≤ length then some (length - i.natAbs) else none

def childAt (i : NodeId) (index : Int) : Edit NodeId := do
  let cs := (← get).children i
  match (placeOf? cs.length index).bind fun n => cs[n]? with
  | some c => return c
  | none => throw .outOfRange

/-! ## Making -/

def newLeaf (l : Leaf) : Edit NodeId := modifyGet fun f => f.push { body := .leaf l }

/-- Put children that have no node above below a node, one after the other. -/
def adopt (p : NodeId) : List NodeId → Edit Unit
  | [] => pure ()
  | c :: cs => do
    ensure ((← get).parent? c).isNone
    modify fun f => f.setParent c (some p)
    adopt p cs

def newNode (kind : Kind) (children : List NodeId) : Edit NodeId := do
  ensure (Kind.firstSymbol ≤ kind)
  let i ← modifyGet fun f => f.push { body := .node kind children [] }
  adopt i children
  return i

def grow {α : Type} (t : Tree α) : Edit NodeId := modifyGet fun f => f.plant none t

def clone (i : NodeId) : Edit NodeId := do grow ((← get).view i)

/-! ## Changing -/

def touch (i : NodeId) : Edit Unit := modify fun f => f.markChanged i

def firstLeafWith? (f : Forest) : Nat → NodeId → Option NodeId
  | 0, _ => none
  | depth + 1, i =>
    match (f.cell i).body with
    | .leaf _ => some i
    | .node _ [] _ => none
    | .node _ (c :: _) _ => firstLeafWith? f depth c

def firstLeaf? (f : Forest) (i : NodeId) : Option NodeId := firstLeafWith? f (f.size + 1) i

def leadSet (f : Forest) (l : NodeId) (lead : Text) : Forest :=
  (f.markChanged l).alterToken l fun t => { t with lead }

/-- Set the blanks and comments before a tree, if it has a leaf that can hold them. -/
def setLead (i : NodeId) (lead : Text) : Edit Unit := do
  match firstLeaf? (← get) i with
  | none => pure ()
  | some l => modify fun f => f.leadSet l lead

def setValue (i : NodeId) (value : Text) : Edit Unit :=
  modify fun f => f.alterToken i fun t => { t with value := .text value }

def adoptAll (f : Forest) (p : NodeId) (cs : List NodeId) : Forest :=
  cs.foldl (fun f c => f.setParent c (some p)) f

/-- The forest with other numbers in the place of one among the children of a node. -/
def replaced (f : Forest) (p old : NodeId) (new : List NodeId) : Forest :=
  let cs := (f.children p).flatMap fun c => if c = old then new else [c]
  (((f.markChanged p).renewChildren p cs).adoptAll p new).setParent old none

/-- Put other trees in the place of a tree.  The node above gets a new list of children. -/
def replace (old : NodeId) (new : List NodeId) : Edit Unit := do
  let f ← get
  let p ← orFault .unmet (f.parent? old)
  ensure ((f.children p).count old == 1)
  modify fun f => f.replaced p old new

def removed (f : Forest) (p i : NodeId) (n : Nat) : Forest :=
  ((f.markChanged p).alterChildren p fun cs => cs.eraseIdx n).setParent i none

def remove (i : NodeId) : Edit (Option Nat) := do
  let f ← get
  match f.parent? i, f.place? i with
  | some p, some n =>
    modify fun f => f.removed p i n
    return some n
  | _, _ => return none

def needNode (i : NodeId) : Edit Unit := do if (← get).isLeaf i then throw .missing

def setChild (p : NodeId) (index : Int) (c : NodeId) : Edit Unit := do
  needNode p
  modify fun f => f.setParent c (some p)
  let cs := (← get).children p
  let n ← orFault .outOfRange (placeOf? cs.length index)
  modify fun f => f.setParent (cs.getD n 0) none
  modify fun f => f.alterChildren p fun cs => cs.set n c
  touch p

def insertPlace (length : Nat) (index : Int) : Nat :=
  if 0 ≤ index then Nat.min index.toNat length else length - index.natAbs

/-- The forest with one more child of a node, put in its list of children by `h`. -/
def childAdded (f : Forest) (p c : NodeId) (h : List NodeId → List NodeId) : Forest :=
  (f.setParent c (some p)).alterChildren p h

def addChild (p c : NodeId) (h : List NodeId → List NodeId) : Edit Unit := do
  needNode p
  modify fun f => (f.childAdded p c h).markChanged p

def insertChild (p : NodeId) (index : Int) (c : NodeId) : Edit Unit :=
  addChild p c fun cs => cs.insertIdx (insertPlace cs.length index) c

def appendChild (p c : NodeId) : Edit Unit := addChild p c fun cs => cs ++ [c]

end Retouch.Forest
