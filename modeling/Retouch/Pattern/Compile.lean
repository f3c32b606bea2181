import Retouch.Pattern.Basic
import Retouch.Syntax.Source
import Retouch.Text.Case
import Retouch.Text.Literal

/-!
# The language of patterns

Patterns are written in a small language: a kind of token in capitals, the name of a symbol, `any`, or
a literal; `symbol< ... >` for a node with given children; juxtaposition, `|`, `( )`, `[ ]` and the
repeaters `*`, `+` and `{m,n}`; `not` for a negated pattern; and `name=` to bind what a pattern
takes.
-/

namespace Retouch

inductive PatternError where
  /-- The text cannot be scanned or parsed. -/
  | source (e : SourceError)
  /-- A name in capitals is no kind of token. -/
  | unknownToken (name : Text)
  | tokenDetails
  | unknownSymbol (name : Text)
  /-- A name that begins with an underscore stands for no kind. -/
  | hiddenSymbol
  | literal (e : Text.Literal.Error)
  | emptyLiteral
  /-- The bound of a repeater is no decimal number. -/
  | bound
  | malformed (e : Pattern.Malformed)
deriving DecidableEq, Repr

def PatternError.message? : PatternError → Option Text
  | .source (.parse e) => e.message?
  | .unknownToken name => some ("Invalid token: " ++ Text.quoted name)
  | .tokenDetails => some "Can't have details for token"
  | .unknownSymbol name => some ("Invalid symbol: " ++ Text.quoted name)
  | _ => none

namespace Pattern

def languageText : Text := List.flatten (List.map String.toList [
  "Matcher: Alternatives ENDMARKER\n",
  "Alternatives: Alternative ('|' Alternative)*\n",
  "Alternative: (Unit | NegatedUnit)+\n",
  "Unit: [NAME '='] ( STRING [Repeater]\n",
  "                 | NAME [Details] [Repeater]\n",
  "                 | '(' Alternatives ')' [Repeater]\n",
  "                 | '[' Alternatives ']'\n",
  "                 )\n",
  "NegatedUnit: 'not' (STRING | NAME [Details] | '(' Alternatives ')')\n",
  "Repeater: '*' | '+' | '\x7b' NUMBER [',' NUMBER] '\x7d'\n",
  "Details: '<' Alternatives '>'\n"])

def languageGrammar : Grammar := (Grammar.ofText languageText).toOption.getD {}

namespace Language

def matcher : Kind := 256
def alternative : Kind := 257
def alternatives : Kind := 258
def details : Kind := 259
def negatedUnit : Kind := 260
def repeater : Kind := 261
def unit : Kind := 262

def isLayout (t : Token) : Bool :=
  t.kind == Kind.newline || t.kind == Kind.indent || t.kind == Kind.dedent

def scanned (text : Text) : Scan :=
  let s := scan (Text.lines text)
  { s with tokens := s.tokens.filter fun t => !isLayout t }

def parseBy (g : Grammar) (text : Text) : Except PatternError SyntaxTree :=
  match (Source.parseScan g .full (scanned text)).result with
  | .ok source => .ok source.tree
  | .error e => .error (.source e)

def parse (text : Text) : Except PatternError SyntaxTree := parseBy languageGrammar text

def leafText (t : SyntaxTree) : Text :=
  match t.value? with
  | some v => v.shown
  | none => []

/-- The kind of leaf that a literal stands for: a name if it begins with a letter, or else the
operator if it is one. -/
def guessedKind (value : Text) : Option Kind :=
  if Lexeme.headIs Text.isLetter value then some Kind.name else Kind.ofOperator? value

def ofLiteral (t : Text) : Except PatternError Pattern :=
  match Text.Literal.value t with
  | .error e => .error (.literal e)
  | .ok [] => .error .emptyLiteral
  | .ok value => .ok (.leaf (guessedKind value) (some value) none)

def tokenKinds : List (Text × Option Kind) :=
  [("NAME", some Kind.name), ("STRING", some Kind.string), ("NUMBER", some Kind.number),
    ("TOKEN", none)]

def ofToken (name : Text) (bare : Bool) : Except PatternError Pattern :=
  match tokenKinds.lookup name with
  | none => .error (.unknownToken name)
  | some k => if bare then .ok (.leaf k none none) else .error .tokenDetails

def isHidden (name : Text) : Bool := name.head? == some '_'

/-- Every name is `any`, hidden, or that of a symbol. -/
def checkSymbol (name : Text) : Except PatternError Unit :=
  if name ≠ "any" ∧ !isHidden name ∧ Language.symbol? name = none then .error (.unknownSymbol name)
  else .ok ()

/-- The pattern of `any` or of a symbol, given the one of its content if it has details. -/
def ofSymbol (name : Text) (content : Option Pattern) : Except PatternError Pattern :=
  if isHidden name then .error .hiddenSymbol
  else
    let kind := if name = "any" then none else Language.symbol? name
    match content with
    | none => .ok (.tree kind none)
    | some p => .ok (.within kind [p] none)

def content? : List SyntaxTree → Option SyntaxTree
  | [] => none
  | d :: _ => d.children[1]?

def decimal (digits : Text) : Nat :=
  digits.foldl (fun v c => 10 * v + (Text.decimalValue? c).getD 0) 0

def number (t : SyntaxTree) : Except PatternError Nat :=
  if (leafText t).all Text.isDecimal then .ok (decimal (leafText t)) else .error .bound

def bounds (t : SyntaxTree) : Except PatternError (Nat × Nat) :=
  match t.children with
  | [mark] => .ok (if mark.kind = Kind.star then 0 else 1, unbounded)
  | [_, n, _] => (number n).map fun k => (k, k)
  | [_, m, _, n, _] => do return (← number m, ← number n)
  | _ => .error .bound

def optimized (p : Pattern) : Except PatternError Pattern :=
  p.optimize.mapError .malformed

def wild (options : List (List Pattern)) (min max : Nat) : Except PatternError Pattern :=
  (wild? (some options) min max none).mapError .malformed

def evens : List SyntaxTree → List SyntaxTree
  | [] => []
  | [t] => [t]
  | t :: _ :: ts => t :: evens ts

def splitName : List SyntaxTree → Option Text × List SyntaxTree
  | a :: b :: c :: rest =>
    if b.kind = Kind.equal then (some (leafText a), c :: rest) else (none, a :: b :: c :: rest)
  | ts => (none, ts)

def splitRepeater (ts : List SyntaxTree) : List SyntaxTree × Option SyntaxTree :=
  match ts.getLast? with
  | some r => if 2 ≤ ts.length ∧ r.kind = repeater then (ts.dropLast, some r) else (ts, none)
  | none => (ts, none)

def repeatPattern (p : Pattern) : Option SyntaxTree → Except PatternError Pattern
  | none => .ok p
  | some r => do
    let (min, max) ← bounds r
    if min = 1 ∧ max = 1 then return p
    else wild [[← optimized p]] min max

mutual
/-- The pattern of a tree of the language.  The first argument bounds the depth of the tree. -/
def compileTree : Nat → SyntaxTree → Except PatternError Pattern
  | 0, _ => .error .bound
  | fuel + 1, t =>
    let t := if t.kind = matcher then t.children.headD t else t
    if t.kind = alternatives then do
      match ← compileAll fuel (evens t.children) with
      | [p] => return p
      | ps => optimized (← wild (ps.map fun p => [p]) 1 1)
    else if t.kind = alternative then do
      match ← compileAll fuel t.children with
      | [p] => return p
      | ps => optimized (← wild [ps] 1 1)
    else if t.kind = negatedUnit then do
      return .without (← compileBasic fuel (t.children.drop 1)) none
    else do
      let (name, ts) := splitName t.children
      let (ts, repeats) := splitRepeater ts
      let p ← repeatPattern (← compileBasic fuel ts) repeats
      optimized (if name.isSome then p.withName name else p)

def compileAll : Nat → List SyntaxTree → Except PatternError (List Pattern)
  | _, [] => .ok []
  | 0, _ :: _ => .error .bound
  | fuel + 1, t :: ts => do
    let p ← compileTree fuel t
    return p :: (← compileAll fuel ts)

/-- The pattern of a literal, a name with or without children, or a bracketed part. -/
def compileBasic : Nat → List SyntaxTree → Except PatternError Pattern
  | 0, _ => .error .bound
  | _ + 1, [] => .error .bound
  | fuel + 1, t :: rest =>
    if t.kind = Kind.string then ofLiteral (leafText t)
    else if t.kind = Kind.name then
      let name := leafText t
      if Text.allUpper name then ofToken name rest.isEmpty
      else do
        checkSymbol name
        match content? rest with
        | none => ofSymbol name none
        | some inner => do ofSymbol name (some (← compileTree fuel inner))
    else do
      let inner ← compileTree fuel (rest.headD t)
      if leafText t = "(" then return inner
      else (wild [[inner]] 0 1)
end

end Language

def compile (text : Text) : Except PatternError Pattern := do
  let t ← Language.parse text
  Language.compileTree (8 * (text.length + 4)) t

end Pattern

end Retouch
