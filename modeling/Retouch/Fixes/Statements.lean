import Retouch.Fixes.Calls

/-!
# Statements and expressions

Fixers for forms of statements and expressions that gave way to others.
-/

namespace Retouch.Fixes

open Build Language.Symbol
open Retouch.Forest (clone setLead newNode childAt)

/-! ## Printing -/

def bracketedPattern : Pattern := Context.fixed "atom< '(' [atom|STRING|NAME] ')' >"

def isToken (kind : Kind) (text : Text) (t : Tree NodeId) : Bool := t.kind == kind && t.isText text

def withKeyword (args : List NodeId) (keyword : Text) (value : NodeId) : Edit (List NodeId) := do
  setLead value []
  let new ← keywordArgument (← name keyword) value
  if args.isEmpty then return [new]
  let sep ← comma
  setLead new " "
  return args ++ [sep, new]

/-- The parts of a print statement: what is printed, whether the line is to go on, and where it is
printed to. -/
def printParts (args : List (Tree NodeId)) :
    Attempt (List (Tree NodeId) × Bool × Option (Tree NodeId)) := do
  let goesOn := (args.getLast?.map (isToken Kind.comma ",")).getD false
  let args := if goesOn then args.dropLast else args
  match args with
  | a :: rest =>
    if isToken Kind.rightShift ">>" a then
      match rest with
      | file :: _ => return (rest.drop 2, goesOn, some file)
      | [] => throw .unmet
    else return (args, goesOn, none)
  | [] => return ([], goesOn, none)

/-- Print statements become calls of `print`. -/
def print : Fixer := Fixer.onRequest <| .ofPattern "print" "
  simple_stmt< any* bare='print' any* >
  | print_stmt" fun i m => do
  if let some bare := m.one? "bare" then
    replaceBy bare (← call (← name "print") [] (some (← leadOf bare)))
    return .keep
  let parts := (← viewOf i).children
  let keyword ← orFault .outOfRange parts.head?
  ensure (isToken Kind.name "print" keyword)
  let args := parts.drop 1
  if let [only] := args then
    if ← Fixer.matches? bracketedPattern only.tag then return .keep
  let (printed, goesOn, file) ← attempt (printParts args)
  let destination ← file.mapM fun f => (clone f.tag : Edit NodeId)
  let mut new ← cloneAll (printed.map Tree.tag)
  if let some first := new.head? then setLead first []
  if goesOn then new ← withKeyword new "end" (← string "' '")
  if let some d := destination then new ← withKeyword new "file" d
  let made ← call (← name "print") new
  setLead made (← leadOf i)
  return .put made

/-! ## Brackets -/

/-- What a comprehension loops over is put in round brackets if it is a list without them. -/
def paren : Fixer := .ofPattern "paren" "
  atom< ('[' | '(') (listmaker< any comp_for< 'for' NAME 'in' target=testlist_safe< any (','
    any)+ [','] > [any] > > | testlist_gexp< any comp_for< 'for' NAME 'in' target=testlist_safe<
    any (',' any)+ [','] > [any] > >) (']' | ')') >" fun _ m => do
  let target ← m.one "target"
  let opening ← leftParen
  setLead opening (← leadOf target)
  setLead target []
  Forest.insertChild target 0 opening
  Forest.appendChild target (← rightParen)
  return .keep

/-! ## Membership -/

def looserKinds : List Kind := [comparison, notTest,
  andTest, orTest, test, lambdef,
  argument]

def tighterKinds : List Kind := [comparison, expr,
  xorExpr, andExpr, shiftExpr, arithExpr,
  term, factor, power]

/-- The form of a call of `has_key`, and of its negation. -/
def hasKeyText : Text := "
  anchor=power< before=any+ trailer< '.' 'has_key' > trailer< '(' ( not(arglist | argument<any
    '=' any>) arg=any | arglist<(not argument<any '=' any>) arg=any ','> ) ')' > after=any* >
  | negation=not_test< 'not' anchor=power< before=any+ trailer< '.' 'has_key' > trailer< '(' (
    not(arglist | argument<any '=' any>) arg=any | arglist<(not argument<any '=' any>) arg=any
    ','> ) ')' > > >"

/-- The pattern of calls of `has_key`. -/
def hasKeyPattern : Pattern := Context.fixed hasKeyText

def isNegated (i : NodeId) : Fix Bool := do
  let above ← aboveOf i
  if (← kindOf above) = notTest then Fixer.matches? hasKeyPattern above
  else return false

def asOne (trees : List NodeId) : Edit NodeId := do
  match trees with
  | [only] => return only
  | _ => newNode power trees

/-- `d.has_key(k)` becomes `k in d`. -/
def hasKey : Fixer := .ofPattern "has_key" hasKeyText fun i m => do
  if ← isNegated i then return .keep
  let lead ← leadOf i
  let before ← cloneAll (m.many "before")
  let copy ← clone (← m.one "arg")
  let after ← cloneAll (m.many "after")
  let key ← if looserKinds.contains (← kindOf copy) then parenthesize copy else pure copy
  let container ← asOne before
  setLead container " "
  let isIn ← name "in" " "
  let operator ←
    if m.has "negation" then do newNode compOp [← name "not" " ", isIn]
    else pure isIn
  let comparison ← newNode comparison [key, operator, container]
  let whole ← if after.isEmpty then pure comparison
    else do newNode power ((← parenthesize comparison) :: after)
  let new ← if tighterKinds.contains (← kindOf (← aboveOf i)) then parenthesize whole
    else pure whole
  setLead new lead
  return .put new

/-! ## Idioms -/

def typePattern : Text := "power< 'type' trailer< '(' x=any ')' > >"

def comparisonPattern : Text := "(n='!=' | '==' | 'is' | n=comp_op< 'is' 'not' >)"

/-- The form of a statement that sorts a list just made, from what made it. -/
def sortPattern (made : Text) : Text := "
  sorted=any< any*" ++ made ++ "
  sort= simple_stmt< power< id2=any trailer< '.' 'sort' > trailer< '(' ')' > > '\\n' > next=any*
    >"

def idiomText : Text :=
  "isinstance=comparison< " ++ typePattern ++ " " ++ comparisonPattern ++ " T=any >" ++
  "|isinstance=comparison< T=any " ++ comparisonPattern ++ " " ++ typePattern ++ " >" ++
  "|while_stmt< 'while' while='1' ':' any+ >" ++
  "|" ++ sortPattern "
  simple_stmt< expr_stmt< id1=any '=' power< list='list' trailer< '(' (not arglist<any+>) any ')'
    > > > '\\n' >" ++
  "|" ++ sortPattern "simple_stmt< expr_stmt< id1=any '=' expr=any > '\\n' >"

def idiomPattern : Pattern := Context.fixed idiomText

def typeTest (i : NodeId) (m : Captures) : Fix Outcome := do
  let subject ← bareClone (← m.one "x")
  let type ← clone (← m.one "T")
  setLead type " "
  let test ← call (← name "isinstance") [subject, ← comma, type]
  let new ←
    if m.has "n" then do
      setLead test " "
      newNode notTest [← name "not", test]
    else pure test
  setLead new (← leadOf i)
  return .put new

/-- Make the list sorted where it is made, and take the statement that sorts it out.  Lines of
comments before that statement move to the next one; there has to be one then. -/
def sortAtOnce (m : Captures) : Fix Unit := do
  let statement ← m.one "sort"
  let made? := m.one? "list"
  match made? with
  | some made => rename made "sorted"
  | none =>
    let source ← m.one "expr"
    let copy ← bareClone source
    replaceBy source (← call (← name "sorted") [copy] (some (← leadOf source)))
  let _ ← Forest.remove statement
  let between ← leadOf statement
  if between.contains '\n' then
    match (m.many "next").head? with
    | some following =>
      let kept := (Text.cutLast '\n' between).1.getD []
      setLead following (kept ++ "\n" ++ (← leadOf following))
    | none => if made?.isSome then throw .unmet else throw .missing

/-- Old idioms give way to new ones: comparisons of types to `isinstance`, `while 1` to `while True`,
and sorting a list that was just made to `sorted`. -/
def idioms : Fixer where
  title := "idioms"
  explicit := true
  pattern := some idiomPattern
  recognise := fun i => do
    match ← Fixer.matchAt idiomPattern i with
    | none => return none
    | some m =>
      if m.has "sorted" then
        let made ← viewOf (← m.one "id1")
        let sorted ← viewOf (← m.one "id2")
        return if made.same sorted then some m else none
      else return some m
  transform := fun i m => do
    if m.has "isinstance" then typeTest i m
    else if let some one := m.one? "while" then
      rename one "True"
      return .keep
    else
      sortAtOnce m
      return .keep

/-! ## Tuples of types -/

/-- The items that stay in a tuple of types, with the commas after them: a name that came before is
left out, and so is the comma after it. -/
def distinctItems : (afterDropped : Bool) → List Value → List (Tree NodeId) → List (Tree NodeId)
  | _, _, [] => []
  | afterDropped, seen, t :: ts =>
    if afterDropped && t.kind == Kind.comma then distinctItems false seen ts
    else
      match if t.kind = Kind.name then t.value? else none with
      | none => t :: distinctItems false seen ts
      | some v =>
        if seen.contains v then distinctItems true seen ts
        else t :: distinctItems false (v :: seen) ts

def withoutLastComma (items : List (Tree NodeId)) : List (Tree NodeId) :=
  if (items.getLast?.map fun t => t.kind == Kind.comma).getD false then items.dropLast else items

/-- Names that come twice in the tuple of an `isinstance` test are left out. -/
def isinstance : Fixer := Fixer.ranked 6 <| .ofPattern "isinstance" "
  power< 'isinstance' trailer< '(' arglist< any ',' atom< '(' args=testlist_gexp< any+ > ')' > >
    ')' > >" fun i m => do
  let list ← m.one "args"
  match (withoutLastComma (distinctItems false [] (← viewOf list).children)).map Tree.tag with
  | [only] =>
    let tuple ← aboveOf list
    setLead only (← leadOf tuple)
    replaceBy tuple only
  | items =>
    modify fun job => { job with forest := job.forest.alterChildren list fun _ => items }
    Forest.touch i
  return .keep

end Retouch.Fixes
