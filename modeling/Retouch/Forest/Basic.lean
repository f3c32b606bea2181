import Retouch.Fault
import Retouch.Syntax.Tree

/-!
# Forests

Trees that are edited in place are kept in a forest: every leaf and node has a number, by which it
is known while its surroundings change, and knows the node above it.  A node also remembers the
lists of children that were taken from it as a whole, for walks that have begun on them.  Looking at
a number gives a tree whose nodes are tagged with their numbers.
-/

namespace Retouch

abbrev NodeId := Nat

/-- What a number stands for. -/
inductive Body where
  | leaf (token : Leaf)
  /-- A node with its children and the lists of children that it had before. -/
  | node (kind : Kind) (children : List NodeId) (earlier : List (List NodeId))
deriving Repr, Inhabited

/-- A leaf or node with its surroundings. -/
structure Cell where
  parent : Option NodeId := none
  /-- Was it, or anything below it, changed? -/
  changed : Bool := false
  body : Body
deriving Repr, Inhabited

structure Forest where
  cells : Array Cell := #[]
deriving Repr, Inhabited

abbrev Edit := EStateM Fault Forest

namespace Forest

/-- How many leaves and nodes there are; no chain of parents or children is longer. -/
def size (f : Forest) : Nat := f.cells.size

def cell (f : Forest) (i : NodeId) : Cell := f.cells.getD i default

def parent? (f : Forest) (i : NodeId) : Option NodeId := (f.cell i).parent

def isLeaf (f : Forest) (i : NodeId) : Bool :=
  match (f.cell i).body with
  | .leaf _ => true
  | .node _ _ _ => false

def kind (f : Forest) (i : NodeId) : Kind :=
  match (f.cell i).body with
  | .leaf l => l.kind
  | .node k _ _ => k

def children (f : Forest) (i : NodeId) : List NodeId :=
  match (f.cell i).body with
  | .leaf _ => []
  | .node _ cs _ => cs

def token? (f : Forest) (i : NodeId) : Option Leaf :=
  match (f.cell i).body with
  | .leaf l => some l
  | .node _ _ _ => none

def viewWith (f : Forest) : Nat → NodeId → Tree NodeId
  | 0, i => .node i (f.kind i) []
  | depth + 1, i =>
    match (f.cell i).body with
    | .leaf l => .leaf i l
    | .node k cs _ => .node i k (cs.map (viewWith f depth))

def view (f : Forest) (i : NodeId) : Tree NodeId := f.viewWith (f.size + 1) i

def text (f : Forest) (i : NodeId) : Text := (f.view i).text

/-- What a step leads to, again and again, at most `limit` times. -/
def chain (step : NodeId → Option NodeId) : Nat → NodeId → List NodeId
  | 0, _ => []
  | limit + 1, i =>
    match step i with
    | none => []
    | some n => n :: chain step limit n

def ancestors (f : Forest) (i : NodeId) : List NodeId := chain f.parent? f.size i

def top (f : Forest) (i : NodeId) : NodeId := (f.ancestors i).getLast?.getD i

def place? (f : Forest) (i : NodeId) : Option Nat := do
  let p ← f.parent? i
  (f.children p).idxOf? i

/-- The path from the top down to a number, if every node on the way lists the next one. -/
def pathWith? (f : Forest) : Nat → NodeId → Option (List Nat)
  | 0, _ => some []
  | depth + 1, i =>
    match f.parent? i with
    | none => some []
    | some p => do
      let n ← (f.children p).idxOf? i
      return (← pathWith? f depth p) ++ [n]

/-- The path from the top down to a number, if every node on the way lists the next one. -/
def path? (f : Forest) (i : NodeId) : Option (List Nat) := f.pathWith? f.size i

def next? (f : Forest) (i : NodeId) : Option NodeId := do
  let p ← f.parent? i
  let n ← (f.children p).idxOf? i
  (f.children p)[n + 1]?

def previous? (f : Forest) (i : NodeId) : Option NodeId := do
  let p ← f.parent? i
  match ← (f.children p).idxOf? i with
  | 0 => none
  | n + 1 => (f.children p)[n]?

def leadOf (f : Forest) (i : NodeId) : Text := (f.view i).lead

/-- The blanks and comments after the tree at a number, which belong to its sibling. -/
def trail (f : Forest) (i : NodeId) : Text :=
  match f.next? i with
  | none => []
  | some n => f.leadOf n

/-- The children of a node when it had begun `generation` lists of them before. -/
def childrenAt (f : Forest) (i : NodeId) (generation : Nat) : List NodeId :=
  match (f.cell i).body with
  | .leaf _ => []
  | .node _ cs earlier => earlier.getD generation cs

def generation (f : Forest) (i : NodeId) : Nat :=
  match (f.cell i).body with
  | .leaf _ => 0
  | .node _ _ earlier => earlier.length

/-! ## Changing cells -/

def alter (f : Forest) (i : NodeId) (g : Cell → Cell) : Forest := ⟨f.cells.modify i g⟩

def setParent (f : Forest) (i : NodeId) (p : Option NodeId) : Forest :=
  f.alter i fun c => { c with parent := p }

def alterBody (f : Forest) (i : NodeId) (g : Body → Body) : Forest :=
  f.alter i fun c => { c with body := g c.body }

abbrev alterChildren (f : Forest) (i : NodeId) (g : List NodeId → List NodeId) : Forest :=
  f.alterBody i fun
    | .node k cs earlier => .node k (g cs) earlier
    | leaf => leaf

/-- The forest with a new list of children for a node, which remembers the present one. -/
abbrev renewChildren (f : Forest) (i : NodeId) (new : List NodeId) : Forest :=
  f.alterBody i fun
    | .node k cs earlier => .node k new (earlier ++ [cs])
    | leaf => leaf

abbrev alterToken (f : Forest) (i : NodeId) (g : Leaf → Leaf) : Forest :=
  f.alterBody i fun
    | .leaf l => .leaf (g l)
    | node => node

def mark (f : Forest) (is : List NodeId) : Forest :=
  is.foldl (fun f i => f.alter i fun c => { c with changed := true }) f

def markChanged (f : Forest) (i : NodeId) : Forest := f.mark (i :: f.ancestors i)

def push (f : Forest) (c : Cell) : NodeId × Forest := (f.size, ⟨f.cells.push c⟩)

def unmarked (f : Forest) : Forest := ⟨f.cells.map fun c => { c with changed := false }⟩

mutual
def plant {α : Type} (f : Forest) (above : Option NodeId) : Tree α → NodeId × Forest
  | .leaf _ l => f.push { parent := above, body := .leaf l }
  | .node _ k cs =>
    let (i, f) := f.push { parent := above, body := .node k [] [] }
    let (is, f) := plantAll f i cs
    (i, f.alterChildren i fun _ => is)

/-- The forest with new trees below a node, and the numbers of their roots. -/
def plantAll {α : Type} (f : Forest) (above : NodeId) : List (Tree α) → List NodeId × Forest
  | [] => ([], f)
  | t :: ts =>
    let (i, f) := plant f (some above) t
    let (is, f) := plantAll f above ts
    (i :: is, f)
end

def ofTree {α : Type} (t : Tree α) : NodeId × Forest := ({} : Forest).plant none t

end Forest

end Retouch
