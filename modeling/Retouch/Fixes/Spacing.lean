import Retouch.Fixer.Basic

/-!
# Spacing

Fixers for the blanks around commas, equal signs and arithmetic operators.  Only blanks on one line
are changed: a comment, a line end or a continued line stays.
-/

namespace Retouch.Fixes

open Retouch.Forest (clone setLead)

def isPlainBlank (lead : Text) : Bool := Text.allBlank lead && !lead.contains '\n'

def isOpen (lead : Text) : Bool := lead.isEmpty || isPlainBlank lead

/-- Where a child stands in a list of children that separators divide. -/
inductive Side where
  | separator
  | afterSeparator
  | elsewhere
deriving DecidableEq, Repr

def sides : (after : Bool) → List Bool → List Side
  | _, [] => []
  | _, true :: bs => .separator :: sides true bs
  | true, false :: bs => .afterSeparator :: sides false bs
  | false, false :: bs => .elsewhere :: sides false bs

def isOneOf {α : Type} (tokens : List (Kind × Text)) (t : Tree α) : Bool :=
  tokens.any fun (k, v) => t.kind == k && t.isText v

/-- Set what stands before children, where something else is to stand there. -/
def respace : List (Tree NodeId × Option Text) → Edit Unit
  | [] => pure ()
  | (t, new) :: rest => do
    if let some lead := new then setLead t.tag lead
    respace rest

/-- A copy of a tree in which blanks before the children are chosen by where these stand. -/
def respaced (i : NodeId) (tokens : List (Kind × Text)) (choose : Side → Text → Option Text) :
    Edit NodeId := do
  let c ← clone i
  let children := ((← get).view c).children
  let standing := sides false (children.map (isOneOf tokens))
  respace ((children.zip standing).map fun (t, s) => (t, choose s t.lead))
  return c

/-! ## Commas -/

def commas : List (Kind × Text) := [(Kind.comma, ",".toList), (Kind.colon, ":".toList)]

/-- The blanks around a comma: none before it, one after it. -/
def commaLead : Side → Text → Option Text
  | .separator, lead => if isPlainBlank lead then some [] else none
  | .afterSeparator, lead => some (if isOpen lead then [' '] else lead)
  | .elsewhere, _ => none

/-- `a ,b` becomes `a, b`. -/
def wsComma : Fixer := .ofPattern "ws_comma" "
    any<(not(',') any)+ ',' ((not(',') any)+ ',')* [not(',') any]>
    " fun i _ => do return .put (← respaced i commas commaLead)

/-! ## Arithmetic operators -/

def operators : List (Kind × Text) := [(Kind.percent, "%".toList), (Kind.plus, "+".toList),
  (Kind.minus, "-".toList), (Kind.star, "*".toList), (Kind.slash, "/".toList)]

/-- The blanks around an operator: one before and one after it. -/
def operatorLead : Side → Text → Option Text
  | .elsewhere, _ => none
  | _, lead => if isOpen lead then some [' '] else none

/-- `a +b` becomes `a + b`. -/
def wsOperator : Fixer := .ofPattern "ws_operator" "
    any<(not('%'|'+'|'-'|'*'|'/'|','|'|(') any)+ ('%'|'+'|'-'|'*'|'/') (not('%'|'+'|'-'|'*'|'/'|',') any)>
    " fun i _ => do return .put (← respaced i operators operatorLead)

/-! ## Equal signs -/

def equals : List (Kind × Text) := [(Kind.equal, "=".toList)]

/-- The blanks around equal signs.  In a call there are none.  In an assignment there is one before a
sign that has blanks before it, and after every sign from then on. -/
def equalLeads (inCall : Bool) : (spaced : Bool) → List (Side × Text) → List (Option Text)
  | _, [] => []
  | spaced, (.separator, lead) :: rest =>
    if isPlainBlank lead then
      if inCall then some [] :: equalLeads inCall spaced rest
      else some [' '] :: equalLeads inCall true rest
    else none :: equalLeads inCall spaced rest
  | spaced, (.afterSeparator, lead) :: rest =>
    (if isOpen lead then some (if spaced then [' '] else []) else none) ::
      equalLeads inCall spaced rest
  | spaced, (.elsewhere, _) :: rest => none :: equalLeads inCall spaced rest

/-- `f(a = b)` becomes `f(a=b)`, and `a= b` becomes `a=b`. -/
def wsEqual : Fixer := .ofPattern "ws_equal" "
    any<(not('=') any)+ '=' (not('=') any)>
    " fun i _ => do
  let c ← clone i
  let children := ((← get).forest.view c).children
  let standing := (sides false (children.map (isOneOf equals))).zip (children.map Tree.lead)
  let asks := standing.any fun (s, lead) => s == .separator && isPlainBlank lead
  let inCall ← if asks then do
      let k ← kindOf (← aboveOf i)
      pure (k == Language.Symbol.arglist || k == Language.Symbol.trailer)
    else pure false
  respace (children.zip (equalLeads inCall false standing))
  return .put c

end Retouch.Fixes
