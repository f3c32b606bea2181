import Retouch.Fixes.Calls

/-!
# Exceptions

Fixers for statements that raise and handle exceptions, for the exception being handled, and for
what is run at exit.
-/

namespace Retouch.Fixes

open Build Language.Symbol
open Retouch.Forest (clone setLead newNode childAt)

/-! ## Handling -/

/-- The handlers among the copies of a statement's parts, each with its block. -/
def handlers (f : Forest) : List NodeId → Attempt (List (NodeId × NodeId))
  | [] => .ok []
  | i :: is => do
    if f.kind i = exceptClause then
      let keyword ← orFault .outOfRange (f.children i).head?
      let value ← orFault .missing ((f.token? keyword).map Leaf.value)
      if value.is "except" then
        let block ← orFault .outOfRange is[1]?
        return (i, block) :: (← handlers f is)
    handlers f is

/-- The children of a block before its first node, or before its last child if it has no node. -/
def blockLead (f : Forest) (block : NodeId) : List NodeId :=
  let cs := f.children block
  cs.take (Nat.min (cs.findIdx fun c => !f.isLeaf c) (cs.length - 1))

def putBefore (block : NodeId) : List NodeId → Edit Unit
  | [] => pure ()
  | i :: is => do
    putBefore block is
    Forest.insertChild block 0 i

/-- Bind the exception to a new name, and assign it to the target at the start of the block. -/
def bindAnew (target block : NodeId) : Fix Unit := do
  let bound ← name (← Fixer.newName) " "
  let copy ← bareClone target
  replaceBy target bound
  let source ← clone bound
  let f := (← get).forest
  let display := f.view target
  let lead := blockLead f block
  let statement ←
    if Query.isTuple display || Query.isList display then do
      assignAll [copy] (← member source (← name "args"))
    else assign copy source
  putBefore block lead
  Forest.insertChild block lead.length statement

def fixHandler (clause block : NodeId) : Fix Unit := do
  match ← childrenOf clause with
  | [_, _, comma, target] =>
    replaceBy comma (← name "as" " ")
    if (← kindOf target) ≠ Kind.name then bindAnew target block
    else if (← leadOf target).isEmpty then setLead target " "
  | _ => pure ()

def fixHandlers : List (NodeId × NodeId) → Fix Unit
  | [] => pure ()
  | (clause, block) :: rest => do
    fixHandler clause block
    fixHandlers rest

/-- `except E, e` becomes `except E as e`. -/
def except : Fixer := .ofPattern "except" "
  try_stmt< 'try' ':' (simple_stmt | suite) cleanup=(except_clause ':' (simple_stmt | suite))+
    tail=(['except' ':' (simple_stmt | suite)] ['else' ':' (simple_stmt | suite)] ['finally' ':'
    (simple_stmt | suite)]) >" fun i m => do
  let tail ← cloneAll (m.many "tail")
  let cleanup ← cloneAll (m.many "cleanup")
  fixHandlers (← attempt (handlers (← get).forest cleanup))
  let head ← cloneAll ((← childrenOf i).take 3)
  return .put (← newNode (← kindOf i) (head ++ cleanup ++ tail))

/-! ## Raising -/

def stringException : Text := "Python 3 does not support string exceptions"

/-- The copy of an exception, or of the first element of a tuple of exceptions, and so on.  The
first argument bounds the depth. -/
def firstException : Nat → NodeId → Edit NodeId
  | 0, i => return i
  | fuel + 1, i => do
    if Query.isTuple ((← get).view i) then
      firstException fuel (← clone (← childAt (← childAt i 1) 0))
    else return i

/-- The arguments of an exception: the elements of a tuple, or else the value itself. -/
def exceptionArguments (value : NodeId) : Edit (List NodeId) := do
  let copy ← clone value
  if Query.isTuple ((← get).view copy) then
    cloneAll ((← childrenOf copy).drop 1).dropLast
  else
    setLead copy []
    return [copy]

def withTraceback (exception : NodeId) (args : List NodeId) (traceback : NodeId) :
    Edit (List NodeId) := do
  let copy ← bareClone traceback
  let made ← call exception args
  return (← member made (← name "with_traceback")) ++ [← arguments [copy]]

/-- `raise E, V, T` becomes `raise E(V).with_traceback(T)`. -/
def raise : Fixer := .ofPattern "raise" "
  raise_stmt< 'raise' exc=any [',' val=any [',' tb=any]] >" fun i m => do
  let copy ← clone (← m.one "exc")
  if (← kindOf copy) = Kind.string then
    Fixer.cannotConvert i stringException
    return .keep
  let view ← viewOf copy
  let exception ←
    if Query.isTuple view then do
      let first ← firstException view.nodes.length copy
      setLead first " "
      pure first
    else pure copy
  let new ← match m.one? "val" with
    | none => do newNode raiseStmt [← name "raise", exception]
    | some value => do
      let args ← exceptionArguments value
      match m.one? "tb" with
      | some traceback => do
        let made ← withTraceback exception args traceback
        newNode simpleStmt ((← name "raise") :: made)
      | none => do newNode raiseStmt [← name "raise", ← call exception args]
  setLead new (← leadOf i)
  return .put new

/-- `g.throw(E, V, T)` becomes `g.throw(E(V).with_traceback(T))`. -/
def throwing : Fixer := Fixer.onRequest <| .ofPattern "throw" "
  power< any trailer< '.' 'throw' > trailer< '(' args=arglist< exc=any ',' val=any [',' tb=any] >
    ')' > >
  | power< any trailer< '.' 'throw' > trailer< '(' exc=any ')' > >" fun i m => do
  let exception ← clone (← m.one "exc")
  if (← kindOf exception) = Kind.string then
    Fixer.cannotConvert i stringException
    return .keep
  match m.one? "val" with
  | none => return .keep
  | some value =>
    let args ← exceptionArguments value
    let old ← m.one "args"
    let new ← match m.one? "tb" with
      | some traceback => do
        newNode power (← withTraceback exception args traceback)
      | none => call exception args
    replaceBy old new
    return .keep

/-! ## The exception being handled -/

def exceptionParts : List Text := List.map String.toList ["exc_type", "exc_value", "exc_traceback"]

/-- `sys.exc_type` becomes `sys.exc_info()[0]`, and so do the other parts. -/
def sysExc : Fixer := .ofPattern "sys_exc"
    "
  power< 'sys' trailer< dot='.' attribute=('exc_type'|'exc_value'|'exc_traceback') > >" fun i m => do
  let part ← m.first "attribute"
  let place ← orFault .miscounted (exceptionParts.idxOf? (← valueText part))
  let index ← number place
  let info ← call (← name "exc_info") [] (some (← leadOf part))
  let access ← member (← name "sys") info
  match access with
  | [_, trailer] => setLead trailer (← leadOf (← m.one "dot"))
  | _ => pure ()
  let new ← newNode power (access ++ [← subscript index])
  setLead new (← leadOf i)
  return .put new

/-! ## At exit -/

def importBeside (statement : NodeId) (module : Text) : Edit Unit := do
  let names ← childAt statement 1
  if (← kindOf names) = dottedAsNames then
    Forest.appendChild names (← comma)
    Forest.appendChild names (← name module " ")
  else
    let line ← aboveOf statement
    let f ← get
    let view := f.view statement
    let place ← orFault .miscounted ((f.children line).findIdx? fun c => (f.view c).same view)
    let new ← newNode simpleStmt
      [← newNode importName [← name "import", ← name module " "]]
    Forest.insertChild line (place + 1) (← newline)
    Forest.insertChild line (place + 2) new

/-- `sys.exitfunc = f` becomes `atexit.register(f)`, and the module is imported beside `sys`. -/
def exitfunc : Fixer := .ofPattern "exitfunc" "
  ( sys_import=import_name<'import' ('sys' | dotted_as_names< (any ',')* 'sys' (',' any)* > ) > |
    expr_stmt< power< 'sys' trailer< '.' 'exitfunc' > > '=' func=any > )" fun i m => do
  if let some statement := m.one? "sys_import" then
    modify fun job => { job with memory.noted := job.memory.noted.orElse fun _ => some statement }
    return .keep
  let function ← bareClone (← m.one "func")
  let register ← newNode power (← member (← name "atexit") (← name "register"))
  replaceBy i (← call register [function] (some (← leadOf i)))
  match (← get).memory.noted with
  | none =>
    Fixer.warn i
      "Can't find sys import; Please add an atexit import at the top of your file."
  | some statement => importBeside statement "atexit"
  return .keep

end Retouch.Fixes
