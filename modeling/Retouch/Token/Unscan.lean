import Retouch.Token.Scan

/-!
# From tokens back to text

Tokens with places are put back at their columns, with spaces between them.  Tokens without places,
of which only kind and text are known, are joined so that they scan again: a space after each name
and number, and the current indentation at the start of each line.
-/

namespace Retouch.Unscan

/-- A token to be put back: without a place, with one, or with some other number of parts. -/
inductive Piece where
  | pair (kind : Kind) (text : Text)
  | placed (kind : Kind) (text : Text) (start stop : Int × Int)
  | ragged (head : Option (Kind × Text))
deriving DecidableEq, Repr

inductive Error where
  /-- A token is on a later row than the text so far reaches. -/
  | rowSkipped
  /-- A block is closed that was not opened. -/
  | noBlock
  /-- A token has the wrong number of parts. -/
  | wrongParts
deriving DecidableEq, Repr

def Piece.head : Piece → Except Error (Kind × Text)
  | .pair k t => .ok (k, t)
  | .placed k t _ _ => .ok (k, t)
  | .ragged (some h) => .ok h
  | .ragged none => .error .wrongParts

def Piece.ofToken (keepPlace : Bool) (t : Token) : Piece :=
  if keepPlace then
    .placed t.kind t.text (t.start.row, t.start.column) (t.stop.row, t.stop.column)
  else .pair t.kind t.text

def endsLine (k : Kind) : Bool := k == Kind.newline || k == Kind.lineBreak

def spaced (k : Kind) (t : Text) : Text :=
  if k = Kind.name ∨ k = Kind.number then t ++ " " else t

/-- Join tokens without places.  `atStart` tells that a line has ended, and `indents` are the
indentations of the open blocks, the innermost first. -/
def joinPairs (atStart : Bool) (indents : List Text) : List Piece → Except Error Text
  | [] => .ok []
  | p :: ps => do
    let (k, t) ← p.head
    let word := spaced k t
    if k = Kind.indent then joinPairs atStart (word :: indents) ps
    else if k = Kind.dedent then
      match indents with
      | [] => throw .noBlock
      | _ :: outer => joinPairs atStart outer ps
    else if endsLine k then return word ++ (← joinPairs true indents ps)
    else
      match atStart, indents with
      | true, inner :: _ => return inner ++ word ++ (← joinPairs false indents ps)
      | _, _ => return word ++ (← joinPairs atStart indents ps)

/-- Put pieces back from the place `(row, col)` on.  At the first piece without a place the rest is
joined as pairs, from that piece's successor or, if `whole` is given, from the start again. -/
def putBack (whole : Option (List Piece)) (row col : Int) : List Piece → Except Error Text
  | [] => .ok []
  | .pair k _ :: ps => joinPairs (endsLine k) [] (whole.getD ps)
  | .placed k t start stop :: ps => do
    if row < start.1 then throw .rowSkipped
    let gap := Text.repeated (start.2 - col).toNat ' '
    let rest ← if endsLine k then putBack whole (stop.1 + 1) 0 ps else putBack whole stop.1 stop.2 ps
    return gap ++ t ++ rest
  | .ragged _ :: _ => .error .wrongParts

/-- The text of the pieces.  `restart` tells that joining pairs begins again with the first. -/
def untokenize (restart : Bool) (ps : List Piece) : Except Error Text :=
  putBack (if restart then some ps else none) 1 0 ps

end Retouch.Unscan
