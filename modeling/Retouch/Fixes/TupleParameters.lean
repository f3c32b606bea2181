import Retouch.Fixes.Calls

/-!
# Tuple parameters

A parameter that is a tuple of names gives way to a single one.  A function then unpacks it at the
start of its body; in a `lambda` every use of one of the names becomes a use of the element that it
stood for.
-/

namespace Retouch.Fixes

open Build Language.Symbol
open Retouch.Forest (clone setLead newNode childAt)

/-! ## Functions -/

/-- Put a new name in the place of a tuple parameter; gives the line that unpacks it. -/
def unpack (ending : NodeId) (spaced : Bool) (parameter : NodeId) : Fix NodeId := do
  let new ← name (← Fixer.newName)
  let target ← bareClone parameter
  let statement ← assign target (← clone new)
  if spaced then setLead new " "
  replaceBy parameter new
  newNode simpleStmt [statement, ← clone ending]

def unpackAll (ending : NodeId) : List (NodeId × Nat) → Fix (List NodeId)
  | [] => return []
  | (p, n) :: rest => do
    if (← kindOf p) = tfpdef then
      let line ← unpack ending (0 < n) p
      return line :: (← unpackAll ending rest)
    else unpackAll ending rest

def unpackParameters (ending parameters : NodeId) : Fix (List NodeId) := do
  let k ← kindOf parameters
  if k = tfpdef then return [← unpack ending false parameters]
  else if k = typedargslist then
    unpackAll ending (← childrenOf parameters).zipIdx
  else return []

def isDocumentation (i : NodeId) : Edit Bool := do
  if ← isLeafAt i then return false
  return (← kindOf (← childAt i 0)) == Kind.string

def setLeads (lead : Text) (body : NodeId) : List Nat → Edit Unit
  | [] => pure ()
  | n :: ns => do
    setLead (← childAt body n) lead
    setLeads lead body ns

/-- Put lines into a body: after its indentation and documentation, or before a statement on the same
line. -/
def insertLines (body : NodeId) (isBlock : Bool) (indent : Text) (lines : List NodeId) :
    Edit Unit := do
  modify fun f => lines.foldl (fun f l => f.setParent l (some body)) f
  let start : Nat := if isBlock then 2 else 0
  let first := lines.headD 0
  let documented ← if isBlock then do isDocumentation (← childAt body start) else pure false
  if !isBlock then setLead first " "
  else if documented then setLead first indent
  let place := if documented then start + 1 else start
  modify fun f => f.alterChildren body fun cs => cs.take place ++ lines ++ cs.drop place
  setLeads indent body (List.range' (place + 1) lines.length)
  Forest.touch body

def unpackInBody (m : Captures) : Fix Unit := do
  let body ← m.first "suite"
  let second ← childAt body 1
  let isBlock := (← kindOf second) == Kind.indent
  let indent ← if isBlock then valueText second else pure "; ".toList
  let ending ← if isBlock then newline else leaf Kind.indent "" []
  let lines ← unpackParameters ending (← m.one "args")
  if !lines.isEmpty then insertLines body isBlock indent lines

/-! ## Expressions -/

inductive Parameter where
  | named (name : Text)
  | tuple (parts : List Parameter)
deriving Repr, Inhabited

namespace Parameter

mutual
def ofTree : Tree NodeId → Attempt Parameter
  | .leaf _ l => .ok (if l.kind = Kind.name then .named l.value.shown else .tuple [])
  | .node _ k cs =>
    if k = vfpdef then ofSecond cs else return .tuple (← ofItems cs)

def ofSecond : List (Tree NodeId) → Attempt Parameter
  | _ :: t :: _ => ofTree t
  | _ => .error .outOfRange

def ofItems : List (Tree NodeId) → Attempt (List Parameter)
  | [] => .ok []
  | t :: ts =>
    if t.kind = Kind.comma then ofItems ts
    else do
      let p ← ofTree t
      return p :: (← ofItems ts)
end

mutual
/-- The name for a parameter: the names of its parts with underscores between them. -/
def title : Parameter → Text
  | .named n => n
  | .tuple ps => Text.join "_" (titles ps)

def titles : List Parameter → List Text
  | [] => []
  | p :: ps => title p :: titles ps
end

mutual
/-- The places of the names of a parameter: of each one the place at which it stands, after the
places given for the tuple. -/
def places (above : List Nat) (n : Nat) (found : OrderedMap Text (List Nat)) :
    Parameter → OrderedMap Text (List Nat)
  | .named name => OrderedMap.insert found name (above ++ [n])
  | .tuple ps => placesIn [n] 0 found ps

/-- The places of the names of some parameters, which stand from a place on. -/
def placesIn (above : List Nat) (n : Nat) (found : OrderedMap Text (List Nat)) :
    List Parameter → OrderedMap Text (List Nat)
  | [] => found
  | p :: ps => placesIn above (n + 1) (places above n found p) ps
end

def index : Parameter → OrderedMap Text (List Nat)
  | .named _ => []
  | .tuple ps => placesIn [] 0 [] ps

end Parameter

/-- The parameter between any number of brackets.  The first argument bounds how many. -/
def innermost : Nat → NodeId → Edit NodeId
  | 0, i => return i
  | fuel + 1, i => do
    if (← kindOf i) = vfpdef then innermost fuel (← childAt i 1) else return i

/-- What stands between the brackets of a parameter: a name, a list, or more brackets. -/
def innerParameter (i : NodeId) : Edit NodeId := do
  let k ← kindOf i
  if k = vfpdef then innermost (← get).size i
  else if k = vfplist ∨ k = Kind.name then return i
  else throw (.unexpected ("Received unexpected node " ++ (← textOf i)))

def subscripts : List Nat → Edit (List NodeId)
  | [] => return []
  | n :: ns => do
    let first ← subscript (← number n)
    return first :: (← subscripts ns)

/-- Put elements of the parameter in the place of the names that stood for them. -/
def useElements (parameter : Text) (index : OrderedMap Text (List Nat)) :
    List (Tree NodeId) → Edit Unit
  | [] => pure ()
  | t :: ts => do
    if t.kind = Kind.name then
      if let some (.text v) := t.value? then
        if let some places := OrderedMap.get? index v then
          let new ← newNode power
            ((← name parameter " ") :: (← subscripts places))
          setLead new t.lead
          replaceBy t.tag new
    useElements parameter index ts

def selectInBody (m : Captures) : Fix Unit := do
  let args ← m.one "args"
  let body ← m.one "body"
  let inner ← innerParameter (← m.one "inner")
  if (← kindOf inner) = Kind.name then
    let copy ← clone inner
    setLead copy " "
    replaceBy args copy
  else
    let parameter ← attempt (Parameter.ofTree (← viewOf args))
    let new ← Fixer.newName parameter.title
    replaceBy args (← name new " ")
    let uses := (← viewOf body).nodes.filter Tree.isLeaf
    useElements new parameter.index uses

def tupleParams : Fixer := .ofPattern "tuple_params" "
  funcdef< 'def' any parameters< '(' args=any ')' > ['->' any] ':' suite=any+ >
  | lambda= lambdef< 'lambda' args=vfpdef< '(' inner=any ')' > ':' body=any >" fun _ m => do
  if m.has "lambda" then selectInBody m else unpackInBody m
  return .keep

end Retouch.Fixes
