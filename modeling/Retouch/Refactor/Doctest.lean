import Retouch.Refactor.Program
import Retouch.Text.Lines

/-!
# Doctests

Examples in documentation stand after prompts: `>>> ` before their first line and `... ` before the
others, with the same indentation.  Each example is changed as a program of its own; everything
around the examples stays.
-/

namespace Retouch.Doctest

def firstPrompt : Text := ">>> "

def nextPrompt : Text := "... "

/-- An example: the number of its first line, its indentation and its lines. -/
structure Example where
  row : Nat
  indent : Text
  lines : List Text
deriving DecidableEq, Repr, Inhabited

/-- A part of a documented text. -/
inductive Part where
  | plain (line : Text)
  | example (e : Example)
deriving DecidableEq, Repr

def begins (line : Text) : Bool := Text.startsWith firstPrompt (Text.stripStart line)

def goesOn (indent line : Text) : Bool :=
  Text.startsWith (indent ++ nextPrompt) line ||
    line == indent ++ Text.stripEnd nextPrompt ++ "\n"

def Example.beginning (row : Nat) (line : Text) : Example :=
  ⟨row, line.take ((Text.indexOf? firstPrompt line).getD 0), [line]⟩

/-- The parts of a text from a line on; an example may have begun before it. -/
def partsFrom (row : Nat) (begun : Option Example) : List Text → List Part
  | [] => (begun.map Part.example).toList
  | line :: lines =>
    if begins line then
      (begun.map Part.example).toList ++
        partsFrom (row + 1) (some (.beginning row line)) lines
    else
      match begun with
      | some e =>
        if goesOn e.indent line then
          partsFrom (row + 1) (some { e with lines := e.lines ++ [line] }) lines
        else .example e :: .plain line :: partsFrom (row + 1) none lines
      | none => .plain line :: partsFrom (row + 1) none lines

def parts (text : Text) : List Part := partsFrom 1 none (Text.lines text)

def unprompted (lead line : Text) : Attempt Text :=
  if Text.startsWith lead line then .ok (line.drop lead.length)
  else if line = Text.stripEnd lead ++ "\n" then .ok ['\n']
  else .error .unmet

def Example.program (e : Example) : Attempt (List Text) := do
  match e.lines with
  | [] => return []
  | first :: rest =>
    let first ← unprompted (e.indent ++ firstPrompt) first
    return first :: (← rest.mapM (unprompted (e.indent ++ nextPrompt)))

def shifted (rows : Nat) (t : Token) : Token :=
  { t with
    start := { t.start with row := t.start.row + rows }
    stop := { t.stop with row := t.stop.row + rows } }

def parseAt (g : Grammar) (row : Nat) (lines : List Text) : Except SourceError Source :=
  let s := scan lines
  (Source.parseScan g .collapsed { s with tokens := s.tokens.map (shifted (row - 1)) }).result

def endLast : List Text → List Text
  | [] => []
  | [l] => if Text.endsWith "\n" l then [l] else [l ++ "\n"]
  | l :: ls => l :: endLast ls

def prompted (indent : Text) : List Text → List Text
  | [] => []
  | l :: ls => (indent ++ firstPrompt ++ l) :: ls.map fun l => indent ++ nextPrompt ++ l

/-- The lines of a changed example.  The program begins with an empty line for each line of the text
before it. -/
def Example.changedLines (e : Example) (text : Text) : Attempt (List Text) := do
  let lines := Text.lines text
  ensure (lines.take (e.row - 1) == List.replicate (e.row - 1) ['\n'])
  match lines.drop (e.row - 1) with
  | [] => throw .outOfRange
  | new => return prompted e.indent (endLast new)

def Example.source? (e : Example) (g : Grammar) : Option Source := do
  let lines ← e.program.toOption
  (parseAt g e.row lines).toOption

def changeExample (tool : Tool) (job : Job) (file : Text) (e : Example) : Report Fault (List Text) :=
  match e.source? (tool.grammarFor []) with
  | none => ⟨.error .missing, job.log⟩
  | some source =>
    let r := tool.changeSource { job with features := none } file source
    match r.result with
    | .error f => ⟨.error f, r.log⟩
    | .ok p => ⟨if p.changed then e.changedLines p.text else .ok e.lines, r.log⟩

def changeParts (tool : Tool) (job : Job) (file : Text) : List Part → Report Fault (List Text)
  | [] => ⟨.ok [], job.log⟩
  | .plain line :: ps =>
    let r := changeParts tool job file ps
    ⟨r.result.map (line :: ·), r.log⟩
  | .example e :: ps =>
    let r := changeExample tool job file e
    match r.result with
    | .error f => ⟨.error f, r.log⟩
    | .ok lines =>
      let rest := changeParts tool { job with log := r.log } file ps
      ⟨rest.result.map (lines ++ ·), rest.log⟩

end Doctest

def Tool.changeDoctests (tool : Tool) (job : Job) (file text : Text) : Report Fault Text :=
  let r := Doctest.changeParts tool job file (Doctest.parts text)
  ⟨r.result.map Text.concat, r.log⟩

end Retouch
