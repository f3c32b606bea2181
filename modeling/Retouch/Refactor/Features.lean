import Retouch.Text.Lines
import Retouch.Token.Scan

/-!
# Features

A program can switch on features of the language by import statements at its beginning.  They are
looked for in the tokens of the program, before it is parsed, because one of them changes its
grammar.
-/

namespace Retouch.Features

def isWord (word : Text) (t : Token) : Bool := t.kind == Kind.name && t.text == word

def isMark (mark : Text) (t : Token) : Bool := t.kind == Kind.operator && t.text == mark

/-- What was found, and the tokens after it; none if these ran out. -/
structure Search where
  found : List Text
  rest : Option (List Token)

/-- The names between commas, from a name on.  The token after the last name or comma is left out. -/
def names (found : List Text) : List Token → Search
  | [] => ⟨found, none⟩
  | [t] => if t.kind = Kind.name then ⟨found ++ [t.text], none⟩ else ⟨found, some []⟩
  | t :: u :: ts =>
    if t.kind = Kind.name then
      if isMark "," u then names (found ++ [t.text]) ts else ⟨found ++ [t.text], some ts⟩
    else ⟨found, some (u :: ts)⟩

/-- The features that a statement switches on, from its second token on; no tokens are left if it is
not such a statement. -/
def statement (found : List Text) : List Token → Option Search
  | [] => some ⟨found, none⟩
  | t :: ts =>
    if !isWord "__future__" t then none
    else
      match ts with
      | [] => some ⟨found, none⟩
      | u :: us =>
        if !isWord "import" u then none
        else
          match us with
          | [] => some ⟨found, none⟩
          | v :: vs => if isMark "(" v then some (names found vs) else some (names found (v :: vs))

def isIgnored (t : Token) : Bool :=
  t.kind == Kind.newline || t.kind == Kind.lineBreak || t.kind == Kind.comment

/-- The features that the statements at the beginning switch on, and whether the tokens ran out while
they were looked for.  One string is passed over.  The first argument bounds the number of
statements. -/
def search : Nat → (documented : Bool) → List Text → List Token → List Text × Bool
  | 0, _, found, _ => (found, true)
  | _ + 1, _, found, [] => (found, true)
  | fuel + 1, documented, found, t :: ts =>
    if isIgnored t then search fuel documented found ts
    else if t.kind = Kind.string then
      if documented then (found, false) else search fuel true found ts
    else if isWord "from" t then
      match statement found ts with
      | none => (found, false)
      | some ⟨found, none⟩ => (found, true)
      | some ⟨found, some rest⟩ => search fuel documented found rest
    else (found, false)

/-- The features that a scanned program switches on.  What stops the scan counts only if it comes
before the end of these statements. -/
def ofScan (s : Scan) : Except ScanError (List Text) :=
  match search (s.tokens.length + 1) false [] s.tokens, s.failure with
  | (_, true), some e => .error e
  | (found, _), _ => .ok found.eraseDups

def detect (text : Text) : Except ScanError (List Text) := ofScan (scan (Text.newlineLines text))

end Retouch.Features
