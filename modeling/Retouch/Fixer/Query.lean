import Retouch.Fault
import Retouch.Language.Symbol
import Retouch.Syntax.Tree
import Retouch.Text.Blank

/-!
# Questions about trees

What fixers ask of the trees they look at: whether an expression is a tuple or a list display, and
which statement of a block binds a name.
-/

namespace Retouch.Query

open Language.Symbol

variable {α : Type}

/-! ## Parts of trees -/

def child (t : Tree α) (i : Nat) : Attempt (Tree α) := orFault .outOfRange t.children[i]?

def lastChild (t : Tree α) : Attempt (Tree α) := orFault .outOfRange t.children.getLast?

def value (t : Tree α) : Attempt Value := orFault .missing t.value?

def hasValue (t : Tree α) (text : Text) : Attempt Bool := return (← value t).is text

/-! ## Displays -/

def isNode (t : Tree α) : Bool := !t.isLeaf

/-- Does the tree look like a tuple in round brackets: nothing in them, or a node? -/
def isTuple (t : Tree α) : Bool :=
  isNode t &&
    match t.children with
    | [a, b] =>
      a.kind == Kind.leftParen && a.isText "(" && b.kind == Kind.rightParen && b.isText ")"
    | [a, b, c] => a.isText "(" && isNode b && c.isText ")"
    | _ => false

def isList (t : Tree α) : Bool :=
  isNode t && 1 < t.children.length &&
    (t.children.head?.map (Tree.isText "[")).getD false &&
    (t.children.getLast?.map (Tree.isText "]")).getD false

/-! ## Imports -/

def isImport (t : Tree α) : Bool :=
  t.kind == importName || t.kind == importFrom

def isImportLine (t : Tree α) : Bool :=
  t.kind == simpleStmt && (t.children.head?.map isImport).getD false

def hidesNames (k : Kind) : Bool :=
  k == funcdef || k == classdef || k == trailer

mutual
/-- The last leaf of a tree that is a given name, not looking into definitions and trailers. -/
def findName? (name : Text) : Tree α → Option (Tree α)
  | .leaf tag l => if l.kind = Kind.name ∧ l.value.is name then some (.leaf tag l) else none
  | .node _ k cs => if Kind.firstSymbol < k ∧ !hidesNames k then findNameIn? name cs else none

def findNameIn? (name : Text) : List (Tree α) → Option (Tree α)
  | [] => none
  | t :: ts => (findNameIn? name ts).orElse fun _ => findName? name t
end

def isName (name : Text) (t : Tree α) : Bool := t.kind == Kind.name && t.isText name

/-- Does one of the entries of `import a, b as c` bind the name? -/
def entryBinds (name : Text) : List (Tree α) → Attempt Bool
  | [] => .ok false
  | t :: ts => do
    let hit ← if t.kind = dottedAsName then hasValue (← child t 2) name
      else pure (isName name t)
    if hit then return true else entryBinds name ts

/-- Does an import statement bind the name, or import all of the package?  With a package, only
imports from it count. -/
def importBinds (t : Tree α) (name : Text) (package : Option Text) : Attempt Bool := do
  let package := if package = some [] then none else package
  if t.kind = importName then
    if package.isSome then return false
    let what ← child t 1
    if what.kind = dottedAsNames then entryBinds name what.children
    else if what.kind = dottedAsName then return isName name (← lastChild what)
    else return isName name what
  else if t.kind = importFrom then
    if let some p := package then
      if Text.strip (← child t 1).text ≠ p then return false
    let what ← child t 3
    if package.isSome ∧ (findName? "as" what).isSome then return false
    else if what.kind = importAsNames ∧ (findName? name what).isSome then return true
    else if what.kind = importAsName then return isName name (← child what 2)
    else if isName name what then return true
    else return package.isSome && what.kind == Kind.star
  else return false

/-! ## Bindings -/

def blockOf (t : Tree α) : List (Tree α) :=
  if t.kind = suite then t.children else [t]

def blocksAfterColons : List (Tree α) → Attempt (List (Tree α))
  | [] => .ok []
  | [t] => if t.kind = Kind.colon ∧ t.isText ":" then .error .outOfRange else .ok []
  | t :: u :: ts => do
    let rest ← blocksAfterColons (u :: ts)
    return if t.kind = Kind.colon ∧ t.isText ":" then u :: rest else rest

def lastOf {β γ : Type} (ask : β → Attempt (Option γ)) : List β → Attempt (Option γ)
  | [] => .ok none
  | b :: bs => do
    let here ← ask b
    let later ← lastOf ask bs
    return later.orElse fun _ => here

def loopBinds (name : Text) (t : Tree α) : Attempt Bool :=
  if t.kind = forStmt then do return (findName? name (← child t 1)).isSome
  else .ok false

def definitionBinds (name : Text) (t : Tree α) : Attempt Bool :=
  if t.kind = classdef ∨ t.kind = funcdef then do
    hasValue (← child t 1) name
  else .ok false

def assignmentBinds (name : Text) (t : Tree α) : Attempt Bool :=
  if t.kind = exprStmt then do return (findName? name (← child t 0)).isSome
  else .ok false

/-- What binds the name in a `try` statement: something in its first block, or else in the last of
the others. -/
def bindingInTry (inBlock : Tree α → Attempt (Option (Tree α))) (t : Tree α) :
    Attempt (Option (Tree α)) := do
  match ← inBlock (← child t 2) with
  | some b => return some b
  | none => lastOf inBlock (← blocksAfterColons (t.children.drop 3))

/-- What binds the name in or below a statement that is no loop over the name; `among` looks through
a list of statements. -/
def bindingBelow (name : Text) (package : Option Text)
    (among : List (Tree α) → Attempt (Option (Tree α))) (t : Tree α) :
    Attempt (Option (Tree α)) :=
  let inBlock (b : Tree α) := among (blockOf b)
  if t.kind = forStmt ∨ t.kind = ifStmt ∨
      t.kind = whileStmt then do inBlock (← lastChild t)
  else if t.kind = tryStmt then bindingInTry inBlock t
  else do
    if ← definitionBinds name t then return some t
    if ← importBinds t name package then return some t
    if t.kind = simpleStmt then among t.children
    else if ← assignmentBinds name t then return some t
    else return none

/-- The first statement that binds the name.  Compound statements other than definitions are looked
into.  With a package, only imports from it count.  The first argument bounds the depth. -/
def bindingAmong (name : Text) (package : Option Text) :
    Nat → List (Tree α) → Attempt (Option (Tree α))
  | 0, _ => .ok none
  | _ + 1, [] => .ok none
  | fuel + 1, t :: ts => do
    if ← loopBinds name t then return some t
    match ← bindingBelow name package (bindingAmong name package fuel) t with
    | some b =>
      if package = none ∨ package = some [] ∨ isImport b then return some b
      else bindingAmong name package fuel ts
    | none => bindingAmong name package fuel ts

def binding (name : Text) (t : Tree α) (package : Option Text) : Attempt (Option (Tree α)) :=
  bindingAmong name package (t.nodes.length + 2) t.children

end Retouch.Query
