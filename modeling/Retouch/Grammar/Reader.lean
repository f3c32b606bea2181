import Retouch.Text.Lines
import Retouch.Grammar.Error
import Retouch.Grammar.Rule

/-!
# Reading grammars

A grammar is a list of rules `name: rhs`, one to a logical line.  The text is scanned like a
program; comments and empty lines do not count.  Reading goes from left to right over the tokens, and
every function returns the tokens that it leaves.
-/

namespace Retouch.Grammar.Reader

/-- The tokens still to be read, and the error that comes after the last of them. -/
structure Input where
  tokens : List Token
  failure : Option ScanError

/-- The input of a scan, without comments and line breaks inside statements. -/
def Input.ofScan (s : Scan) : Input :=
  ⟨s.tokens.filter fun t => t.kind != Kind.comment && t.kind != Kind.lineBreak, s.failure⟩

def peek (i : Input) : Except Error Token :=
  match i.tokens with
  | t :: _ => .ok t
  | [] =>
    match i.failure with
    | some e => .error (.scan e)
    | none => .error .noRule

def advance (i : Input) : Input := { i with tokens := i.tokens.drop 1 }

/-- The error that the token `t` is not what is needed. -/
def unexpected (needed : Text) (t : Token) : Error :=
  .unexpected ("expected " ++ needed ++ ", got " ++ Text.ofNat t.kind ++ "/" ++ t.text) t.stop t.line

def expect (kind : Kind) (text : Option Text) (i : Input) : Except Error (Text × Input) := do
  let t ← peek i
  if t.kind = kind ∧ (text = none ∨ text = some t.text) then return (t.text, advance i)
  else throw (unexpected (Text.ofNat kind ++ "/" ++ text.getD "None") t)

def startsItem (t : Token) : Bool :=
  t.text == "(" || t.text == "[" || t.kind == Kind.name || t.kind == Kind.string

mutual
/-- Alternatives: `alt ('|' alt)*`. -/
def rhs : Nat → Input → Except Error (Ebnf × Input)
  | 0, _ => .error .noRule
  | fuel + 1, i => do
    let (first, i) ← sequence fuel i
    let (more, i) ← options fuel i
    return (if more.isEmpty then first else .alternatives (first :: more), i)

/-- The alternatives after the first: `('|' alt)*`. -/
def options : Nat → Input → Except Error (List Ebnf × Input)
  | 0, _ => .error .noRule
  | fuel + 1, i => do
    if (← peek i).text = "|" then
      let (e, i) ← sequence fuel (advance i)
      let (es, i) ← options fuel i
      return (e :: es, i)
    else return ([], i)

/-- One alternative: `item+`. -/
def sequence : Nat → Input → Except Error (Ebnf × Input)
  | 0, _ => .error .noRule
  | fuel + 1, i => do
    let (first, i) ← item fuel i
    items fuel first i

def items : Nat → Ebnf → Input → Except Error (Ebnf × Input)
  | 0, _, _ => .error .noRule
  | fuel + 1, before, i => do
    if startsItem (← peek i) then
      let (e, i) ← item fuel i
      items fuel (.sequence before e) i
    else return (before, i)

/-- One item: `'[' rhs ']' | atom ['+' | '*']`. -/
def item : Nat → Input → Except Error (Ebnf × Input)
  | 0, _ => .error .noRule
  | fuel + 1, i => do
    if (← peek i).text = "[" then
      let (e, i) ← rhs fuel (advance i)
      let (_, i) ← expect Kind.operator (some "]") i
      return (.optional e, i)
    else
      let (e, i) ← atom fuel i
      let t ← peek i
      if t.text = "+" then return (.plus e, advance i)
      else if t.text = "*" then return (.star e, advance i)
      else return (e, i)

/-- An atom: `'(' rhs ')' | NAME | STRING`. -/
def atom : Nat → Input → Except Error (Ebnf × Input)
  | 0, _ => .error .noRule
  | fuel + 1, i => do
    let t ← peek i
    if t.text = "(" then
      let (e, i) ← rhs fuel (advance i)
      let (_, i) ← expect Kind.operator (some ")") i
      return (e, i)
    else if t.kind = Kind.name ∨ t.kind = Kind.string then return (.label t.text, advance i)
    else throw (unexpected "(...) or NAME or STRING" t)
end

def skipNewlines (i : Input) : Input :=
  { i with tokens := i.tokens.dropWhile fun t => t.kind == Kind.newline }

/-- One rule: `NAME ':' rhs NEWLINE`. -/
def rule (i : Input) : Except Error (Rule × Input) := do
  let (name, i) ← expect Kind.name none (skipNewlines i)
  let (_, i) ← expect Kind.operator (some ":") i
  let (e, i) ← rhs (8 * (i.tokens.length + 1)) i
  let (_, i) ← expect Kind.newline none i
  return (⟨name, e⟩, i)

/-- Rules up to the end of the text.  The first argument bounds their number. -/
def rulesFrom : Nat → Input → Except Error (List Rule)
  | 0, _ => .error .noRule
  | fuel + 1, i => do
    if (← peek i).kind = Kind.endMarker then return []
    else
      let (r, i) ← rule i
      return r :: (← rulesFrom fuel i)

def rules (text : Text) : Except Error (List Rule) :=
  let i := Input.ofScan (scan (Text.newlineLines text))
  rulesFrom (i.tokens.length + 1) i

end Retouch.Grammar.Reader
