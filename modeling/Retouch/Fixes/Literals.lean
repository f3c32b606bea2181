import Retouch.Fixes.Calls
import Retouch.Text.Decimal

/-!
# Literals, operators and names of types

Fixers for spellings: of numbers, strings, sets and operators, and for built-in names that got
another name.
-/

namespace Retouch.Fixes

open Build Language.Symbol
open Retouch.Forest (clone setLead newNode)

/-! ## Operators -/

def ofLeaf (title : Text) (kind : Kind) (recognises : Value → Attempt Bool)
    (transform : NodeId → Fix Outcome) : Fixer where
  title
  accepts := some kind
  recognise := fun i => do
    if ← attempt (recognises (← Forest.valueOf i)) then return some [] else return none
  transform := fun i _ => transform i

/-- `<>` becomes `!=`. -/
def ne : Fixer := ofLeaf "ne" Kind.notEqual (fun v => .ok (v.is "<>")) fun i => do
  return .put (← leaf Kind.notEqual "!=" (← leadOf i))

/-- What stands between backquotes becomes the argument of `repr(…)`. -/
def repr : Fixer := .ofPattern "repr" "
  atom < '`' expr=any '`' >" fun i m => do
  let copy ← clone (← m.one "expr")
  let shown ← if (← kindOf copy) = testlist1 then parenthesize copy else pure copy
  return .put (← call (← name "repr") [shown] (some (← leadOf i)))

/-! ## Numbers -/

def isLongMark (c : Char) : Bool := c == 'L' || c == 'l'

def isOldNumber : Value → Attempt Bool
  | .text t =>
    if Text.startsWith "0" t then .ok true
    else
      match t.getLast? with
      | some c => .ok (isLongMark c)
      | none => .error .outOfRange
  | _ => .error .missing

/-- The new form of a number: without the mark of a long number, and an octal number with its own
mark. -/
def modernNumber (t : Text) : Text :=
  match t.getLast? with
  | none => t
  | some c =>
    if isLongMark c then t.dropLast
    else if Text.startsWith "0" t && t.all Text.isDigit && t.any (· != c) then '0' :: 'o' :: t.drop 1
    else t

def numliterals : Fixer := Fixer.onRequest <| ofLeaf "numliterals" Kind.number isOldNumber fun i => do
  return .put (← numeral (modernNumber (← valueText i)) (← leadOf i))

/-! ## Strings -/

def isMarkedUnicode : Text → Bool
  | c :: rest =>
    (c == 'u' || c == 'U') &&
      match rest with
      | q :: more =>
        q == '\'' || q == '"' ||
          ((q == 'r' || q == 'R') && (more.head?.map fun q => q == '\'' || q == '"').getD false)
      | [] => false
  | [] => false

/-- `unicode` becomes `str`, `unichr` becomes `chr`, and Unicode strings lose their mark. -/
def unicode : Fixer := Fixer.onRequest <|
  .ofPattern "unicode" "STRING | 'unicode' | 'unichr'" fun i _ => do
    let value ← valueText i
    let new? : Option Text :=
      if (← kindOf i) = Kind.name then
        some (if value = "unichr".toList then "chr".toList else "str".toList)
      else if isMarkedUnicode value then some (value.drop 1)
      else none
    match new? with
    | none => return .keep
    | some new => do
      let c ← clone i
      Forest.setValue c new
      return .put c

/-! ## Sets -/

/-- `set([a, b])` becomes a set display. -/
def setLiteral : Fixer := Fixer.onRequest <| .ofPattern "set_literal" "
  power< 'set' trailer< '(' (atom=atom< '[' (items=listmaker< any ((',' any)* [',']) > |
    single=any) ']' > | atom< '(' items=testlist_gexp< any ((',' any)* [',']) > ')' > ) ')' > >" fun i m => do
  let items ← match m.one? "single" with
    | some only => do
      let list ← newNode listmaker [← clone only]
      replaceBy only list
      pure list
    | none => m.one "items"
  let copies ← cloneAll (← childrenOf items)
  let after ← orFault .missing ((← get).forest.next? items)
  let close ← leaf Kind.rightBrace "\x7d" (← leadOf after)
  let new ← newNode dictsetmaker
    ([← leaf Kind.leftBrace "\x7b" []] ++ copies ++ [close])
  setLead new (← leadOf i)
  if (← childrenOf new).length = 4 then
    let comma ← Forest.childAt new 2
    let _ ← Forest.remove comma
    setLead close (← leadOf comma)
  return .put new

/-! ## Names of types and exceptions -/

def naming (title pattern new : Text) : Fixer := .ofPattern title pattern fun i _ => do
  return .put (← name new (← leadOf i))

/-- `basestring` becomes `str`. -/
def basestring : Fixer := (naming "basestring" "'basestring'" "str").onRequest

/-- `StandardError` becomes `Exception`. -/
def standarderror : Fixer := naming "standarderror" "
              'StandardError'
              " "Exception"

/-- `long` becomes `int`. -/
def long : Fixer := Fixer.onRequest <| .ofPattern "long" "'long'" fun i _ => do
  if ← attempt (Context.isProbablyBuiltin (← get).forest i) then
    Forest.setValue i "int"
    Forest.touch i
  return .keep

def typeTable : List (Text × Text) := List.map (fun (a, b) => (a.toList, b.toList)) [
  ("BooleanType", "bool"), ("BufferType", "memoryview"), ("ClassType", "type"),
  ("ComplexType", "complex"), ("DictType", "dict"), ("DictionaryType", "dict"),
  ("EllipsisType", "type(Ellipsis)"), ("FloatType", "float"), ("IntType", "int"),
  ("ListType", "list"), ("LongType", "int"), ("ObjectType", "object"), ("NoneType", "type(None)"),
  ("NotImplementedType", "type(NotImplemented)"), ("SliceType", "slice"), ("StringType", "bytes"),
  ("StringTypes", "str"), ("TupleType", "tuple"), ("TypeType", "type"), ("UnicodeType", "str"),
  ("XRangeType", "range")]

def typeUse (name : Text) : Text := "power< 'types' trailer< '.' name='" ++ name ++ "' > >"

/-- `types.IntType` becomes `int`, and so do the other types that have a name of their own. -/
def types : Fixer := Fixer.onRequest <|
  .ofPattern "types" (Text.join "|" (typeTable.map fun (n, _) => typeUse n)) fun i m => do
    let new ← orFault .unknown (typeTable.lookup (← valueText (← m.one "name")))
    return .put (← name new (← leadOf i))

end Retouch.Fixes
