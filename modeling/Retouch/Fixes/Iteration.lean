import Retouch.Fixes.Calls

/-!
# Iteration

Fixers for methods and functions that came to give iterators instead of lists: a call that needs a
list is wrapped in `list(…)`, unless it stands where any iterable will do.
-/

namespace Retouch.Fixes

open Build Language.Symbol
open Retouch.Forest (clone setLead newNode)

/-! ## Where a call stands -/

def consumers : List Text := List.map String.toList
  ["sorted", "list", "set", "any", "all", "tuple", "sum", "min", "max"]

def callPattern : Pattern := Context.fixed "power< func=NAME trailer< '(' node=any ')' > any* >"

/-- The name of the function that is called with the tree as its only argument. -/
def callerOf? (i : NodeId) : Edit (Option Value) := do
  let f ← get
  match f.ancestors i with
  | _ :: above :: _ =>
    match callPattern.matchTree (f.view above) true with
    | .yes names =>
      match OrderedMap.get? names "node", OrderedMap.get? names "func" with
      | some (.one t), some (.one g) => return if t.tag = i then g.value? else none
      | _, _ => return none
    | _ => return none
  | _ => return none

/-- Does the pattern match the node above the tree, and bind it to `node`? -/
def isNodeOf (p : Pattern) (i : NodeId) : Edit Bool := do
  let f ← get
  return ((f.parent? i).map fun above => Context.bindsNode p (f.view above) "node" i).getD false

/-! ## Methods of dictionaries -/

/-- Can the copy or the iterator that a method of a dictionary gave be done without? -/
def viewWillDo (givesIterator : Bool) (i : NodeId) : Edit Bool := do
  match ← callerOf? i with
  | some g => return (consumers ++ if givesIterator then ["iter".toList] else []).any g.is
  | none => if givesIterator then isNodeOf Context.loopPattern i else return false

/-- `d.keys()` becomes `list(d.keys())`, `d.iterkeys()` becomes `iter(d.keys())` and `d.viewkeys()`
becomes `d.keys()`, and so do the methods for items and values. -/
def dict : Fixer := .ofPattern "dict" "
  power< head=any+ trailer< '.' method=('keys'|'items'|'values'|
    'iterkeys'|'iteritems'|'itervalues'| 'viewkeys'|'viewitems'|'viewvalues') > parens=trailer<
    '(' ')' > tail=any* >" fun i m => do
  let method ← m.first "method"
  let full ← valueText method
  let givesIterator := Text.startsWith "iter" full
  let givesView := Text.startsWith "view" full
  let short := if givesIterator || givesView then full.drop 4 else full
  let head ← cloneAll (m.many "head")
  let tail ← cloneAll (m.many "tail")
  let willDo ← if tail.isEmpty then viewWillDo givesIterator i else pure false
  let access ← newNode trailer [← dot, ← name short (← leadOf method)]
  let plain ← newNode power (head ++ [access, ← clone (← m.one "parens")])
  let whole ←
    if willDo || givesView then pure plain
    else do
      setLead plain []
      call (← name (if givesIterator then "iter" else "list")) [plain]
  let new ← if tail.isEmpty then pure whole else newNode power (whole :: tail)
  setLead new (← leadOf i)
  return .put new

/-! ## Functions that give iterators -/

/-- `filter(…)` becomes `list(filter(…))`, or a list comprehension if the function is a `lambda` or
`None`. -/
def filter : Fixer := .ofPattern "filter" "
  filter_lambda=power< 'filter' trailer< '(' arglist< lambdef< 'lambda' (fp=NAME | vfpdef< '('
    fp=NAME ')'> ) ':' xp=any > ',' it=any > ')' > >
  | power< 'filter' trailer< '(' arglist< none='None' ',' seq=any > ')' > >
  | power< 'filter' args=trailer< '(' [any] ')' > >" fun i m => do
  if ← Fixer.standsBack "future_builtins.filter" i then return .keep
  if m.has "filter_lambda" then
    let parameter ← m.one "fp"
    let new ← listComprehension (← clone parameter) (← clone parameter) (← clone (← m.one "it"))
      (some (← clone (← m.one "xp")))
    setLead new (← leadOf i)
    return .put new
  else if m.has "none" then
    let new ← listComprehension (← name "_f") (← name "_f") (← clone (← m.one "seq"))
      (some (← name "_f"))
    setLead new (← leadOf i)
    return .put new
  else if Context.anyIterableWillDo (← get).forest i then return .keep
  else return .put (← wrapped "list" i)

/-- Are these the arguments of a call whose first one is `None`? -/
def startsWithNone (i : NodeId) : Edit Bool := do
  if (← kindOf i) ≠ arglist then return false
  let first ← Forest.childAt i 0
  if (← kindOf first) ≠ Kind.name then return false
  return (← Forest.valueOf first).is "None"

/-- `map(…)` becomes `list(map(…))`, or a list comprehension if the function is a `lambda`;
`map(None, x)` becomes `list(x)`. -/
def map : Fixer := .ofPattern "map" "
  map_none=power< 'map' trailer< '(' arglist< 'None' ',' arg=any [','] > ')' > >
  | map_lambda=power< 'map' trailer< '(' arglist< lambdef< 'lambda' (fp=NAME | vfpdef< '('
    fp=NAME ')'> ) ':' xp=any > ',' it=any > ')' > >
  | power< 'map' trailer< '(' [arglist=any] ')' > >" fun i m => do
  if ← Fixer.standsBack "future_builtins.map" i then return .keep
  if (← kindOf (← aboveOf i)) = simpleStmt then
    Fixer.warn i "You should use a for loop here"
    return .put (← wrapped "list" i)
  else if m.has "map_lambda" then
    let new ← listComprehension (← clone (← m.one "xp")) (← clone (← m.one "fp"))
      (← clone (← m.one "it")) none
    setLead new (← leadOf i)
    return .put new
  else if m.has "map_none" then
    let only ← bareClone (← m.one "arg")
    return .put (← call (← name "list") [only] (some (← leadOf i)))
  else
    let padded ← match m.one? "arglist" with
      | some args => startsWithNone args
      | none => pure false
    if padded then
      Fixer.warn i ("cannot convert map(None, ...) with multiple arguments because map() " ++
        "now truncates to the shortest sequence" : String)
      return .keep
    if Context.anyIterableWillDo (← get).forest i then return .keep
    return .put (← wrapped "list" i)

/-- `zip(…)` becomes `list(zip(…))`. -/
def zip : Fixer := .ofPattern "zip" "
  power< 'zip' args=trailer< '(' [any] ')' > >" fun i _ => do
  if ← Fixer.standsBack "future_builtins.zip" i then return .keep
  if Context.anyIterableWillDo (← get).forest i then return .keep
  return .put (← wrapped "list" i)

def searchPattern : Pattern := Context.fixed "
  for_stmt< 'for' any 'in' node=any ':' any* >
  | comp_for< 'for' any 'in' node=any any* >
  | comparison< any 'in' node=any any*>"

def rangeWillDo (i : NodeId) : Edit Bool := do
  match ← callerOf? i with
  | some g => return consumers.any g.is
  | none => isNodeOf searchPattern i

def appendAll (p : NodeId) : List NodeId → Edit Unit
  | [] => pure ()
  | i :: is => do
    Forest.appendChild p i
    appendAll p is

/-- `xrange(…)` becomes `range(…)`, and `range(…)` becomes `list(range(…))`. -/
def xrange : Fixer := .ofPattern "xrange" "
  power< (name='range'|name='xrange') trailer< '(' args=any ')' > rest=any* >" fun i m => do
  let function ← m.one "name"
  if (← Forest.valueOf function).is "xrange" then
    rename function "range"
    return .keep
  else if ← rangeWillDo i then return .keep
  else
    let range ← call (← name "range") [← clone (← m.one "args")]
    let new ← call (← name "list") [range] (some (← leadOf i))
    appendAll new (m.many "rest")
    return .put new

/-- `f.xreadlines()` becomes `f`, and `f.xreadlines` becomes `f.__iter__`. -/
def xreadlines : Fixer := .ofPattern "xreadlines" "
  power< call=any+ trailer< '.' 'xreadlines' > trailer< '(' ')' > >
  | power< any+ trailer< '.' no_call='xreadlines' > >" fun i m => do
  match m.one? "no_call" with
  | some method => rename method "__iter__"
  | none => do
    let new ← cloneAll (m.many "call")
    Forest.replace i new
  return .keep

/-! ## The next element -/

def nextWarning : Text := "Calls to builtin next() possibly shadowed by global binding"

def assignmentAbove? (f : Forest) (i : NodeId) : Option NodeId :=
  let line := (i :: f.ancestors i).find? fun n =>
    f.kind n == exprStmt || f.kind n == simpleStmt
  line.filter fun n => f.kind n == exprStmt

def contains (t u : Tree NodeId) : Bool := t.nodes.any fun n => n.same u

def isAssigned (f : Forest) (i : NodeId) : Bool :=
  match assignmentAbove? f i with
  | none => false
  | some a =>
    let u := f.view i
    match (f.view a).children.find? fun c => c.kind == Kind.equal || contains c u with
    | none => false
    | some c => c.kind != Kind.equal

/-- `it.next()` becomes `next(it)`, or `it.__next__()` if the program binds the name `next`; methods
of that name are renamed. -/
def next : Fixer :=
  { Fixer.ofPattern "next" "
  power< base=any+ trailer< '.' attr='next' > trailer< '(' ')' > >
  | power< head=any+ trailer< '.' attr='next' > not trailer< '(' ')' > >
  | classdef< 'class' any+ ':' suite< any* funcdef< 'def' name='next' parameters< '(' NAME ')' >
    any+ > any* > >
  | global=global_stmt< 'global' any* 'next' any* >" fun i m => do
      let base := m.many "base"
      let isBound := (← get).memory.flag
      if let some first := base.head? then
        if isBound then
          rename (← m.one "attr") "__next__"
        else
          let copies ← cloneAll base
          setLead (copies.headD first) []
          Forest.replace i [← call (← name "next" (← leadOf i)) copies]
      else if let some method := m.one? "name" then
        rename method "__next__"
      else if let some access := m.one? "attr" then
        if isAssigned (← get).forest i then
          let object := Text.concat ((m.many "head").map (← get).forest.text)
          if Text.strip object = "__builtin__".toList then Fixer.warn i nextWarning
        else Forest.replace access [← name "__next__"]
      else if m.has "global" then
        Fixer.warn i nextWarning
        modify fun job => { job with memory := { job.memory with flag := true } }
      return .keep
    with
    order := .pre
    start := fun root => do
      match ← attempt (Query.binding "next" (← viewOf root) none) with
      | none => pure ()
      | some b =>
        Fixer.warn b.tag nextWarning
        modify fun job => { job with memory := { job.memory with flag := true } } }

/-! ## Iterators of a module -/

/-- `itertools.imap` becomes `map`, and so do the other functions that the built-in ones replace;
`itertools.ifilterfalse` becomes `itertools.filterfalse`. -/
def itertools : Fixer := Fixer.onRequest <| Fixer.ranked 6 <| .ofPattern "itertools" "
  power< it='itertools' trailer< dot='.' func=('imap'|'ifilter'|'izip'|'ifilterfalse') > trailer<
    '(' [any] ')' > >
  | power< func=('imap'|'ifilter'|'izip'|'ifilterfalse') trailer< '(' [any] ')' > >" fun _ m => do
  let function ← m.first "func"
  let full ← valueText function
  let mut lead : Text := []
  if m.has "it" ∧ full ≠ "ifilterfalse".toList then
    let module ← m.one "it"
    lead ← leadOf module
    let _ ← Forest.remove module
    let _ ← Forest.remove (← m.one "dot")
    replaceBy (← aboveOf function) function
  if lead.isEmpty then lead ← leadOf function
  replaceBy function (← name (full.drop 1) lead)
  return .keep

/-- Functions of `itertools` that the built-in ones replace. -/
def replacedIterators : List Text := List.map String.toList ["imap", "izip", "ifilter"]

def everyOther {α : Type} : List α → List α
  | [] => []
  | [a] => [a]
  | a :: _ :: rest => a :: everyOther rest

/-- Take the replaced functions out of a list of imports, and rename the one that got another
name. -/
def withoutReplaced (statement : NodeId) : List NodeId → Edit Unit
  | [] => pure ()
  | i :: is => do
    let what ← if (← kindOf i) = Kind.name then pure i
      else do
        ensure ((← kindOf i) == importAsName)
        Forest.childAt i 0
    let value ← Forest.valueOf what
    if replacedIterators.any value.is then
      let _ ← Forest.remove i
    else if value.is "ifilterfalse" then
      Forest.touch statement
      Forest.setValue what "filterfalse"
    withoutReplaced statement is

/-- The commas that a list of items can do without: those that follow no item. -/
def needlessCommas (isComma : NodeId → Bool) : (afterItem : Bool) → List NodeId → List NodeId
  | _, [] => []
  | afterItem, i :: is =>
    if !afterItem && isComma i then i :: needlessCommas isComma afterItem is
    else needlessCommas isComma (!afterItem) is

/-- Imports from `itertools` of functions that the built-in ones replace are taken out. -/
def itertoolsImports : Fixer := Fixer.onRequest <| .ofPattern "itertools_imports" "
  import_from< 'from' 'itertools' 'import' imports=any >" fun i m => do
  let imports ← m.one "imports"
  let listed ← childrenOf imports
  let isList := (← kindOf imports) != importAsName && !listed.isEmpty
  withoutReplaced i (everyOther (if isList then listed else [imports]))
  let left ← childrenOf imports
  let items := if left.isEmpty then [imports] else left
  let f := (← get).forest
  let isComma := fun n => f.kind n == Kind.comma
  removeAll (needlessCommas isComma false items ++ items.getLast?.toList.filter isComma)
  let isGone := (← childrenOf imports).isEmpty && !(← isLeafAt imports)
  if isGone || (← parentOf imports).isNone then
    let new ← blankLine
    setLead new (← leadOf i)
    return .put new
  return .keep

end Retouch.Fixes
