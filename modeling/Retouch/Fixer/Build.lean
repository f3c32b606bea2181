import Retouch.Fixer.Query
import Retouch.Forest.Edit

/-!
# Building code

The pieces of code that fixers put into programs, made in the forest in which they are to stand.
-/

namespace Retouch.Build

open Forest (newLeaf newNode setLead)
open Language.Symbol

/-! ## Leaves -/

def leaf (kind : Kind) (text : Text) (lead : Text) : Edit NodeId :=
  newLeaf { kind, value := .text text, lead }

def name (text : Text) (lead : Text := []) : Edit NodeId := leaf Kind.name text lead

def string (text : Text) (lead : Text := []) : Edit NodeId := leaf Kind.string text lead

def numeral (text : Text) (lead : Text := []) : Edit NodeId := leaf Kind.number text lead

def number (n : Int) (lead : Text := []) : Edit NodeId :=
  newLeaf { kind := Kind.number, value := .number n, lead }

def leftParen : Edit NodeId := leaf Kind.leftParen "(" []

def rightParen : Edit NodeId := leaf Kind.rightParen ")" []

def comma : Edit NodeId := leaf Kind.comma "," []

def dot : Edit NodeId := leaf Kind.dot "." []

def newline : Edit NodeId := leaf Kind.newline "\n" []

def blankLine : Edit NodeId := leaf Kind.newline "" []

/-! ## Expressions -/

/-- `keyword=value`. -/
def keywordArgument (keyword value : NodeId) : Edit NodeId := do
  newNode argument [keyword, ← leaf Kind.equal "=" [], value]

def assignAll (targets sources : List NodeId) : Edit NodeId := do
  newNode atom (targets ++ [← leaf Kind.equal "=" " "] ++ sources)

def assign (target source : NodeId) : Edit NodeId := do
  setLead source " "
  assignAll [target] [source]

/-- The two parts of `object.member`. -/
def member (object member : NodeId) : Edit (List NodeId) := do
  return [object, ← newNode trailer [← dot, member]]

def argumentsUpTo (close : NodeId) (args : List NodeId) : Edit NodeId := do
  let i ← newNode trailer [← leftParen, close]
  if !args.isEmpty then Forest.insertChild i 1 (← newNode arglist args)
  return i

def arguments (args : List NodeId) : Edit NodeId := do argumentsUpTo (← rightParen) args

def call (function : NodeId) (args : List NodeId) (lead : Option Text := none) : Edit NodeId := do
  let i ← newNode power [function, ← arguments args]
  if let some l := lead then setLead i l
  return i

def subscript (index : NodeId) : Edit NodeId := do
  newNode trailer [← leaf Kind.leftBrace "[" [], index, ← leaf Kind.rightBrace "]" []]

def parenthesize (i : NodeId) : Edit NodeId := do
  newNode atom [← leftParen, i, ← rightParen]

/-- `[item for target in source if test]`. -/
def listComprehension (item target source : NodeId) (test : Option NodeId) : Edit NodeId := do
  setLead item ""
  setLead target " "
  setLead source " "
  let loop := [← name "for" " ", target, ← name "in" " ", source]
  let condition ← match test with
    | none => pure []
    | some t => do
      setLead t " "
      pure [← newNode compIf [← name "if" " ", t]]
  let inner ← newNode listmaker
    [item, ← newNode compFor (loop ++ condition)]
  newNode atom [← leaf Kind.leftBrace "[" [], inner, ← leaf Kind.rightBrace "]" []]

/-! ## Statements -/

def removeAll : List NodeId → Edit Unit
  | [] => pure ()
  | i :: is => do
    let _ ← Forest.remove i
    removeAll is

/-- `from package import names`, with names taken from where they stand. -/
def fromImport (package : Text) (names : List NodeId) : Edit NodeId := do
  removeAll names
  newNode importFrom [← name "from", ← name package " ", ← name "import" " ",
    ← newNode importAsNames names]

/-! ## Imports of a program -/

def programOf (i : NodeId) : Edit NodeId := do
  let f ← get
  orFault .unmet ((i :: f.ancestors i).find? fun n => f.kind n == fileInput)

/-- Is the name imported from the package at the top level of the program?  Without a package, any
statement that binds the name counts. -/
def isImported (package : Option Text) (name : Text) (i : NodeId) : Edit Bool := do
  let root ← programOf i
  match Query.binding name ((← get).view root) package with
  | .ok b => return b.isSome
  | .error e => throw e

/-- Where a new import goes: before the end of the first run of imports, or else after the first
line with a literal, or else at the top. -/
def importPlace {α : Type} (lines : List (Tree α)) : Nat :=
  let first := lines.findIdx Query.isImportLine
  let run := lines.drop first
  let afterRun := (run.findIdx? fun t => !Query.isImportLine t).getD (run.length - 1)
  let place := if first < lines.length then first + afterRun else 0
  if place ≠ 0 then place
  else
    match lines.findIdx? fun t => t.kind == simpleStmt &&
        (t.children.head?.map fun c => c.kind == Kind.string).getD false with
    | some i => i + 1
    | none => 0

/-- Import the name from the package, or the module of that name if there is no package, unless the
program does so. -/
def touchImport (package : Option Text) (what : Text) (i : NodeId) : Edit Unit := do
  let root ← programOf i
  if ← isImported package what root then return
  let place := importPlace ((← get).view root).children
  let statement ← match package with
    | none => do newNode importName [← name "import", ← name what " "]
    | some p => do fromImport p [← name what " "]
  let line ← newNode simpleStmt [statement, ← newline]
  Forest.insertChild root place line

end Retouch.Build
