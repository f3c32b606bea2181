import Retouch.Syntax.Parser
import Retouch.Text.Lines

/-!
# Parsing source text

The tokens of a text are given to the parser one by one, each with the blanks and comments that
stand before it.  What stands between two tokens is found from their places: line ends for skipped
rows, and the characters of the line up to the column of the token.
-/

namespace Retouch

inductive SourceError where
  | scan (e : ScanError)
  | parse (e : ParseError)
  /-- A token starts before the place that the text has reached. -/
  | misplaced (reached start : Position)
  | unknownOperator (mark : Text)
deriving DecidableEq, Repr

def Position.shown (p : Position) : Text :=
  "(" ++ Text.ofNat p.row ++ ", " ++ Text.ofNat p.column ++ ")"

/-- The kind of a scanning error and its details, as the user is shown them. -/
def ScanError.shown (e : ScanError) : Text × Text :=
  match e with
  | .openString p | .openStatement p =>
    ("TokenError", "(" ++ Text.quoted e.message ++ ", " ++ p.shown ++ ")")
  | .unindent p _ =>
    ("IndentationError", e.message ++ " (<tokenize>, line " ++ Text.ofNat p.row ++ ")")

/-- The kind of the error and its details, as the user is shown them. -/
def SourceError.shown : SourceError → Text × Text
  | .scan e => e.shown
  | .parse e => ("ParseError", e.message?.getD [])
  | .misplaced reached start =>
    ("AssertionError", "(" ++ reached.shown ++ ", " ++ start.shown ++ ")")
  | .unknownOperator mark => ("KeyError", Text.quoted mark)

/-- A parsed text: its tree and the names in it. -/
structure Source where
  tree : SyntaxTree
  names : List Text
deriving Repr

namespace Source

/-- The place that the text has reached, and the blanks and comments since the last token. -/
structure Cursor where
  place : Position := ⟨1, 0⟩
  lead : Text := []
deriving DecidableEq, Repr

def Cursor.moveTo (c : Cursor) (t : Token) : Except SourceError Cursor :=
  if t.start = c.place then .ok c
  else if !c.place.le t.start then .error (.misplaced c.place t.start)
  else
    let skipped := t.start.row - c.place.row
    let column := if 0 < skipped then 0 else c.place.column
    let blanks := (t.line.drop column).take (t.start.column - column)
    .ok ⟨t.start, c.lead ++ Text.repeated skipped '\n' ++ blanks⟩

/-- The place after a token: a token that ends in a newline ends its row. -/
def placeAfter (t : Token) : Position :=
  if t.text.getLast? = some '\n' then ⟨t.stop.row + 1, 0⟩ else t.stop

def parserKind (t : Token) : Except SourceError Kind :=
  if t.kind = Kind.operator then
    match Kind.ofOperator? t.text with
    | some k => .ok k
    | none => .error (.unknownOperator t.text)
  else .ok t.kind

def isTrivia (t : Token) : Bool := t.kind == Kind.comment || t.kind == Kind.lineBreak

def note (t : Input) : Text :=
  (Kind.tokenName? t.kind).getD [] ++ " " ++ Text.quoted t.value ++ " (prefix=" ++
    Text.quoted t.lead ++ ")"

/-- What a parse gives: the source or an error, and a record of the tokens that were parsed. -/
structure Outcome where
  result : Except SourceError Source
  record : List Text

def Outcome.noting (line : Text) (o : Outcome) : Outcome := { o with record := line :: o.record }

/-- Parse tokens from a state on; `last` is the token parsed last and `failure` the error that comes
after the tokens. -/
def parseFrom (g : Grammar) (shape : Shape) (failure : Option ScanError) (state : Parser.State)
    (cursor : Cursor) (last : Input) : List Token → Outcome
  | [] =>
    match failure with
    | some e => ⟨.error (.scan e), []⟩
    | none => ⟨.error (.parse (.misfit .incomplete { last with lead := cursor.lead })), []⟩
  | t :: ts =>
    match cursor.moveTo t with
    | .error e => ⟨.error e, []⟩
    | .ok cursor =>
      if isTrivia t then
        parseFrom g shape failure state ⟨placeAfter t, cursor.lead ++ t.text⟩
          ⟨t.kind, t.text, [], t.start⟩ ts
      else
        match parserKind t with
        | .error e => ⟨.error e, []⟩
        | .ok kind =>
          let input : Input := ⟨kind, t.text, cursor.lead, t.start⟩
          match Parser.addToken g shape input state with
          | (.error e, _) => ⟨.error (.parse e), [note input]⟩
          | (.ok true, state) =>
            let tree := state.root.getD (.node () g.start [])
            ⟨.ok ⟨tree, state.names⟩, [note input, "Stop."]⟩
          | (.ok false, state) =>
            (parseFrom g shape failure state ⟨placeAfter t, []⟩ input ts).noting (note input)

def parseScan (g : Grammar) (shape : Shape) (s : Scan) : Outcome :=
  match Parser.setUp g none {} with
  | (.error e, _) => ⟨.error (.parse e), []⟩
  | (.ok (), state) => parseFrom g shape s.failure state {} ⟨0, [], [], ⟨0, 0⟩⟩ s.tokens

def parseLines (g : Grammar) (shape : Shape) (lines : List Text) : Except SourceError Source :=
  (parseScan g shape (scan lines)).result

def parse (g : Grammar) (shape : Shape) (text : Text) : Except SourceError Source :=
  parseLines g shape (Text.lines text)

end Source

end Retouch
