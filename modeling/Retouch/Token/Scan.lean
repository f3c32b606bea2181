import Retouch.Token.Lexeme

/-!
# Scanning

The text is scanned line by line.  `State` holds what one line leaves for the next: the depth of
brackets, a pending continuation, a string that is still open, and the indentation of the blocks
that are open.  `scanLine` turns one line into tokens and the next state; `scan` does so for all
lines and closes the blocks at the end.
-/

namespace Retouch

inductive ScanError where
  /-- The text ends inside a string that starts at `start`. -/
  | openString (start : Position)
  /-- The text ends inside brackets or after a continuation. -/
  | openStatement (at_ : Position)
  /-- A line is indented less than the block around it and like no block further out. -/
  | unindent (at_ : Position) (line : Text)
deriving DecidableEq, Repr

namespace ScanError

def message : ScanError → Text
  | openString _ => "EOF in multi-line string"
  | openStatement _ => "EOF in multi-line statement"
  | unindent _ _ => "unindent does not match any outer indentation level"

end ScanError

/-- What scanning gives: the tokens, and why it stopped early if it did. -/
structure Scan where
  tokens : List Token
  failure : Option ScanError
deriving DecidableEq, Repr

namespace Scan

/-- A string whose closing quotes have not come yet. -/
structure OpenString where
  /-- The characters of the string so far. -/
  text : Text
  start : Position
  lines : Text
  closing : Lexeme.Closing
deriving DecidableEq, Repr

/-- What the lines scanned so far leave for the next one. -/
structure State where
  row : Nat := 0
  /-- How many brackets are open; negative if more have been closed than opened. -/
  depth : Int := 0
  /-- The last line ended in a continuation. -/
  continued : Bool := false
  opened : Option OpenString := none
  /-- Every line of the open string has to end in a backslash. -/
  mustContinue : Bool := false
  /-- The columns of the blocks that are open, the innermost first. -/
  indents : List Nat := []
deriving DecidableEq, Repr

inductive Outcome where
  /-- The next line is scanned from this state. -/
  | next (state : State)
  | finish
  | fail (error : ScanError)
deriving DecidableEq, Repr

def tabSize : Nat := 8

/-- The leading blanks of a line: how many characters they are and the column they reach. -/
def leadingBlanks : (count column : Nat) → Text → Nat × Nat
  | n, col, [] => (n, col)
  | n, col, c :: cs =>
    if c = ' ' then leadingBlanks (n + 1) (col + 1) cs
    else if c = '\t' then leadingBlanks (n + 1) ((col / tabSize + 1) * tabSize) cs
    else if c = '\x0c' then leadingBlanks (n + 1) 0 cs
    else (n, col)

/-- What opened the string whose first lexeme is given: the closing quotes to look for. -/
def closingOf (lexeme : Text) : Lexeme.Closing :=
  let quote := ((lexeme.drop (Lexeme.stringLetters lexeme)).head?).getD '"'
  if Text.startsWith [quote, quote, quote] (lexeme.drop (Lexeme.stringLetters lexeme)) then
    .triple quote
  else .single quote

def plainKind (depth : Int) (lexeme : Text) : Kind :=
  match lexeme with
  | [] => Kind.operator
  | c :: _ =>
    if c.isDigit || (c == '.' && lexeme != ['.']) then Kind.number
    else if c == '\r' || c == '\n' then if 0 < depth then Kind.lineBreak else Kind.newline
    else if c == '#' then Kind.comment
    else if Lexeme.isNameStart c then Kind.name
    else if c == '\\' then Kind.lineBreak
    else Kind.operator

def depthChange (lexeme : Text) : Int :=
  match lexeme with
  | [] => 0
  | c :: _ =>
    if c == '(' || c == '[' || c == '\x7b' then 1
    else if c == ')' || c == ']' || c == '\x7d' then -1
    else 0

/-! ## Within a line -/

namespace State

def onRow (s : State) : State := { s with row := s.row + 1 }

/-- The state after a lexeme that is no string. -/
def past (s : State) (lexeme : Text) : State :=
  { s with
    depth := s.depth + depthChange lexeme
    continued := s.continued || Lexeme.headIs (· == '\\') lexeme }

def opening (s : State) (string : OpenString) (must : Bool) : State :=
  { s with opened := some string, mustContinue := must }

/-- The string goes on after a line. -/
def goOn (s : State) (string : OpenString) (line : Text) : State :=
  { s.onRow with
    opened := some { string with text := string.text ++ line, lines := string.lines ++ line } }

end State

def isTripleOpening (lexeme : Text) : Bool := Lexeme.tripleOpening? lexeme == some lexeme.length

def isString (lexeme : Text) : Bool :=
  Lexeme.headIs Lexeme.isQuote (lexeme.drop (Lexeme.stringLetters lexeme))

/-- Scan a line from column `col` on, where `cs` are the characters from there. -/
def scanFrom (line : Text) (state : State) (col : Nat) (cs : Text) : List Token × State :=
  match cs with
  | [] => ([], state)
  | c :: tail =>
    match Lexeme.next? (c :: tail) with
    | none =>
      let token : Token := ⟨Kind.stray, [c], ⟨state.row, col⟩, ⟨state.row, col + 1⟩, line⟩
      let (tokens, final) := scanFrom line state (col + 1) tail
      (token :: tokens, final)
    | some next =>
      let start := col + next.skipped
      let here := (c :: tail).drop next.skipped
      let lexeme := here.take next.size
      let rest := here.drop next.size
      if isTripleOpening lexeme then
        match (closingOf lexeme).find? rest with
        | some n =>
          let stop := start + next.size + n
          let token : Token :=
            ⟨Kind.string, here.take (next.size + n), ⟨state.row, start⟩, ⟨state.row, stop⟩, line⟩
          let (tokens, final) := scanFrom line state stop (rest.drop n)
          (token :: tokens, final)
        | none =>
          ([], state.opening ⟨here, ⟨state.row, start⟩, line, closingOf lexeme⟩ state.mustContinue)
      else if isString lexeme then
        if lexeme.getLast? = some '\n' then
          ([], state.opening ⟨here, ⟨state.row, start⟩, line, closingOf lexeme⟩ true)
        else
          let stop := start + next.size
          let token : Token := ⟨Kind.string, lexeme, ⟨state.row, start⟩, ⟨state.row, stop⟩, line⟩
          let (tokens, final) := scanFrom line state stop rest
          (token :: tokens, final)
      else
        let stop := start + next.size
        let token : Token :=
          ⟨plainKind state.depth lexeme, lexeme, ⟨state.row, start⟩, ⟨state.row, stop⟩, line⟩
        let (tokens, final) := scanFrom line (state.past lexeme) stop rest
        (token :: tokens, final)
termination_by cs.length
decreasing_by
  · simp
  all_goals
    have pos := next.size_pos
    simp only [List.length_cons, List.length_drop]
    omega

/-! ## Lines -/

def isBlankRest (rest : Text) : Bool :=
  Lexeme.headIs (fun c => c == '#' || c == '\r' || c == '\n') rest

/-- A comment without the end of its line. -/
abbrev commentOf (rest : Text) : Text := Text.dropEnd (fun c => c == '\r' || c == '\n') rest

/-- The tokens of a line on which nothing but a comment stands, or nothing at all. -/
def blankLineTokens (row col : Nat) (line rest : Text) : List Token :=
  if Lexeme.headIs (· == '#') rest then
    let comment := commentOf rest
    let stop := col + comment.length
    [⟨Kind.comment, comment, ⟨row, col⟩, ⟨row, stop⟩, line⟩,
      ⟨Kind.lineBreak, rest.drop comment.length, ⟨row, stop⟩, ⟨row, line.length⟩, line⟩]
  else [⟨Kind.lineBreak, rest, ⟨row, col⟩, ⟨row, line.length⟩, line⟩]

/-- The tokens that open or close blocks before a line indented to `column`, and the blocks open
then; an error if the line is indented like no block around it. -/
def blockTokens (row col column : Nat) (line : Text) (indents : List Nat) :
    Except ScanError (List Token × List Nat) :=
  if indents.headD 0 < column then
    .ok ([⟨Kind.indent, line.take col, ⟨row, 0⟩, ⟨row, col⟩, line⟩], column :: indents)
  else if column < indents.headD 0 then
    if column = 0 ∨ column ∈ indents then
      .ok ((indents.takeWhile (column < ·)).map fun _ => ⟨Kind.dedent, [], ⟨row, col⟩, ⟨row, col⟩, line⟩,
        indents.dropWhile (column < ·))
    else .error (.unindent ⟨row, col⟩ line)
  else .ok ([], indents)

/-- A string stops at a line that had to end in a backslash. -/
def stops (mustContinue : Bool) (line : Text) : Bool :=
  mustContinue && !Text.endsWith "\\\n" line && !Text.endsWith "\\\r\n" line

def scanLine (before : State) (line : Text) : List Token × Outcome :=
  let state := { before with row := before.row + 1 }
  match state.opened with
  | some string =>
    if line = [] then ([], .fail (.openString string.start))
    else
      match string.closing.find? line with
      | some n =>
        let token : Token :=
          ⟨Kind.string, string.text ++ line.take n, string.start, ⟨state.row, n⟩, string.lines ++ line⟩
        let (tokens, final) :=
          scanFrom line { state with opened := none, mustContinue := false } n (line.drop n)
        (token :: tokens, .next final)
      | none =>
        if stops state.mustContinue line then
          ([⟨Kind.stray, string.text ++ line, string.start, ⟨state.row, line.length⟩, string.lines⟩],
            .next { state with opened := none })
        else ([], .next (before.goOn string line))
  | none =>
    if state.depth = 0 && !state.continued then
      if line = [] then ([], .finish)
      else
        let (col, column) := leadingBlanks 0 0 line
        let rest := line.drop col
        if rest = [] then ([], .finish)
        else if isBlankRest rest then
          (blankLineTokens state.row col line rest, .next state)
        else
          match blockTokens state.row col column line state.indents with
          | .error e => ([], .fail e)
          | .ok (blocks, indents) =>
            let (tokens, final) := scanFrom line { state with indents } col rest
            (blocks ++ tokens, .next final)
    else if line = [] then ([], .fail (.openStatement ⟨state.row, 0⟩))
    else
      let (tokens, final) := scanFrom line { state with continued := false } 0 line
      (tokens, .next final)

/-- The tokens after the last line: the blocks that are open are closed. -/
def closingTokens (state : State) : List Token :=
  let here : Position := ⟨state.row + 1, 0⟩
  state.indents.map (fun _ => ⟨Kind.dedent, [], here, here, []⟩) ++
    [⟨Kind.endMarker, [], here, here, []⟩]

/-- Scan lines from a state on.  After the last line the text is at its end. -/
def scanFromState (state : State) : List Text → Scan
  | [] =>
    match scanLine state [] with
    | (tokens, .next _) => ⟨tokens, none⟩
    | (tokens, .finish) => ⟨tokens ++ closingTokens state, none⟩
    | (tokens, .fail e) => ⟨tokens, some e⟩
  | line :: lines =>
    match scanLine state line with
    | (tokens, .next state') =>
      let rest := scanFromState state' lines
      ⟨tokens ++ rest.tokens, rest.failure⟩
    | (tokens, .finish) => ⟨tokens ++ closingTokens state, none⟩
    | (tokens, .fail e) => ⟨tokens, some e⟩

end Scan

def scan (lines : List Text) : Scan := Scan.scanFromState {} lines

end Retouch
