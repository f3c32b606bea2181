import Retouch.Fixes.Calls

/-!
# Classes and functions

Fixers for attributes of methods and functions that got another name, and for metaclasses, which are
given with the bases of a class instead of in its body.
-/

namespace Retouch.Fixes

open Build Language.Symbol
open Retouch.Forest (clone setLead newNode childAt)

/-! ## Attributes -/

def methodTable : List (Text × Text) := List.map (fun (a, b) => (a.toList, b.toList))
  [("im_func", "__func__"), ("im_self", "__self__"), ("im_class", "__self__.__class__")]

/-- `method.im_func` becomes `method.__func__`, and so do the other attributes of methods. -/
def methodattrs : Fixer := Fixer.onRequest <| .ofPattern "methodattrs" "
  power< any+ trailer< '.' attr=('im_func' | 'im_self' | 'im_class') > any* >" fun _ m => do
  let access ← m.first "attr"
  rename access (← orFault .unknown (methodTable.lookup (← valueText access)))
  return .keep

/-- `function.func_name` becomes `function.__name__`, and so do the other attributes of functions. -/
def funcattrs : Fixer := .ofPattern "funcattrs" "
  power< any+ trailer< '.' attr=('func_closure' | 'func_doc' | 'func_globals' | 'func_name' |
    'func_defaults' | 'func_code' | 'func_dict') > any* >" fun _ m => do
  let access ← m.first "attr"
  rename access ("__" ++ (← valueText access).drop 5 ++ "__")
  return .keep

/-- The method `__nonzero__` becomes `__bool__`. -/
def nonzero : Fixer := (givesName "nonzero" "
  classdef< 'class' any+ ':' suite< any* funcdef< 'def' name='__nonzero__' parameters< '(' NAME
    ')' > any+ > any* > >" "__bool__").onRequest

/-! ## Metaclasses -/

/-- Is the tree a line that begins with an assignment to `__metaclass__`? -/
def setsMetaclass (t : Tree NodeId) : Bool :=
  t.kind == simpleStmt &&
    match t.children.head? with
    | some e =>
      e.kind == exprStmt &&
        ((e.children.head?.map (Tree.isText "__metaclass__")).getD false)
    | none => false

mutual
/-- Does a class set its metaclass in its body?  Only the first block counts. -/
def hasMetaclass : Tree NodeId → Bool
  | .leaf _ _ => false
  | .node _ _ cs => anySetsMetaclass cs

def anySetsMetaclass : List (Tree NodeId) → Bool
  | [] => false
  | t :: ts =>
    if t.kind = suite then hasMetaclass t
    else setsMetaclass t || anySetsMetaclass ts
end

/-- Move copies of trees to the end of a node, and take them out where they stand. -/
def moveAll (p : NodeId) : List NodeId → Edit Unit
  | [] => pure ()
  | i :: is => do
    Forest.appendChild p (← clone i)
    let _ ← Forest.remove i
    moveAll p is

def ensureBlock (i : NodeId) : Edit Unit := do
  let f ← get
  let cs := f.children i
  if cs.any fun c => f.kind c == suite then return
  let colon ← orFault (.refused "No class suite and no ':'!")
    (cs.findIdx? fun c => f.kind c == Kind.colon)
  let block ← newNode suite []
  moveAll block (cs.drop (colon + 1))
  Forest.appendChild i block

/-- Give what follows a semicolon on a line a line of its own, before a place of the block. -/
def divideLine (block : NodeId) (place : Nat) (line : NodeId) : Edit Unit := do
  let f ← get
  let cs := f.children line
  match cs.findIdx? fun c => f.kind c == Kind.semicolon with
  | none => pure ()
  | some n =>
    let _ ← Forest.remove (cs.getD n 0)
    let rest ← newNode exprStmt []
    let new ← newNode simpleStmt [rest]
    moveAll rest (cs.drop (n + 1))
    Forest.insertChild block place new
    let first ← childAt (← childAt new 0) 0
    setLead first (← leadOf (← childAt (← childAt line 0) 0))

def removeLineEnd (line : NodeId) : Edit Unit := do
  match (← childrenOf line).getLast? with
  | none => pure ()
  | some c => if (← kindOf c) = Kind.newline then removeAll [c]

/-- Take the lines that set the metaclass out of the block; gives the last of them.  The lines are
given with their places at the beginning. -/
def takeMetaclasses (block : NodeId) : List (NodeId × Nat) → Option NodeId → Edit (Option NodeId)
  | [], found => return found
  | (line, place) :: rest, found => do
    if setsMetaclass ((← get).view line) then
      divideLine block place line
      removeLineEnd line
      let _ ← Forest.remove line
      takeMetaclasses block rest (some line)
    else takeMetaclasses block rest found

def basesOf (i : NodeId) : Edit NodeId := do
  match (← childrenOf i).length with
  | 7 =>
    let bases ← childAt i 3
    if (← kindOf bases) = arglist then return bases
    let list ← newNode arglist [← clone bases]
    Forest.setChild i 3 list
    return list
  | 6 =>
    let list ← newNode arglist []
    Forest.insertChild i 3 list
    return list
  | 4 =>
    let list ← newNode arglist []
    Forest.insertChild i 2 (← rightParen)
    Forest.insertChild i 2 list
    Forest.insertChild i 2 (← leftParen)
    return list
  | _ => throw (.refused "Unexpected class definition")

/-- The first leaf after the first indentation of a block, if anything follows. -/
def leafAfterIndent? (t : Tree NodeId) : Option (Tree NodeId) :=
  let after := (t.children.dropWhile fun c => c.kind != Kind.indent).drop 1
  (after.flatMap Tree.nodes).find? fun n => n.isLeaf && n.kind != Kind.dedent

def closeIndent (block : NodeId) : Edit Unit := do
  match leafAfterIndent? ((← get).view block) with
  | none => pure ()
  | some l => if !l.lead.isEmpty then setLead l.tag []

/-- Put a `pass` into a body that has become empty. -/
def fillBody (i block : NodeId) (keyword : Kind) (lead : Text) : Edit Unit := do
  let f ← get
  match (f.children block).reverse.map f.kind with
  | [] =>
    let _ ← Forest.remove block
    Forest.appendChild i (← leaf keyword "pass" lead)
    Forest.appendChild i (← newline)
  | last :: before :: _ =>
    if before = Kind.indent ∧ last = Kind.dedent then
      Forest.insertChild block (-1) (← leaf keyword "pass" [])
      Forest.insertChild block (-1) (← newline)
  | _ => pure ()

/-- A metaclass that is set in the body of a class is given with its bases. -/
def metaclass : Fixer := Fixer.onRequest <| .ofPattern "metaclass" "
  classdef<any*>" fun i _ => do
  if !hasMetaclass (← viewOf i) then return .keep
  ensureBlock i
  let f := (← get).forest
  let block ← orFault (.refused "No class suite!")
    ((f.children i).find? fun c => f.kind c == suite)
  let found ← takeMetaclasses block (f.children block).zipIdx none
  let keyword ← kindOf (← childAt i 0)
  let bases ← basesOf i
  let line ← orFault .missing found
  let assignment ← childAt line 0
  let target ← childAt assignment 0
  Forest.setValue target "metaclass"
  let lead ← leadOf target
  if (← childrenOf bases).isEmpty then setLead target []
  else
    Forest.appendChild bases (← comma)
    setLead target " "
  ensure ((← kindOf assignment) == exprStmt)
  setLead (← childAt assignment 1) []
  setLead (← childAt assignment 2) []
  Forest.appendChild bases line
  closeIndent block
  fillBody i block keyword lead
  return .keep

end Retouch.Fixes
