import Retouch.Grammar.Tables
import Retouch.Text.Blank
import Retouch.Text.Lines

/-!
# Tables written as C source

A parser generator for C writes its tables as two files: a header that numbers the symbols, and a
source file with the states, the automata, the labels and the grammar, each in a fixed layout.  The
tables are read back line by line, and every line has to be exactly what the layout asks for.
-/

namespace Retouch.Grammar.CTables

/-- Why tables written as C source cannot be read. -/
inductive Error where
  /-- A line is not what the layout or an earlier line asks for. -/
  | misfit
  | ended
  /-- A symbol or an array is used that was not defined. -/
  | undefined
  /-- An automaton is used that was not defined. -/
  | noAutomaton
  | blankLine
deriving DecidableEq, Repr

/-! ## Lines -/

abbrev Part := StateT Text Option

def exactly (t : Text) : Part Unit := fun cs =>
  if Text.startsWith t cs then some ((), cs.drop t.length) else none

def many (p : Char → Bool) : Part Text := fun cs =>
  if (cs.takeWhile p).isEmpty then none else some (cs.takeWhile p, cs.dropWhile p)

def blanks : Part Unit := do let _ ← many Text.isBlank

def word : Part Text := many Text.isWord

def number : Part Nat := do
  let digits ← many Text.isDecimal
  return digits.foldl (fun n c => 10 * n + (Text.decimalValue? c).getD 0) 0

def lineEnd : Part Unit := fun cs => if cs = [] ∨ cs = ['\n'] then some ((), []) else none

/-- The numbers of a line with a layout, where `#` stands for a number and a tab for blanks. -/
def numbers : (layout : Text) → Part (List Nat)
  | [] => do lineEnd; return []
  | '#' :: layout => do let n ← number; return n :: (← numbers layout)
  | '\t' :: layout => do blanks; numbers layout
  | c :: layout => do exactly [c]; numbers layout

def onLine {α : Type} (p : Part α) (line : Text) : Option α := (p.run line).map Prod.fst

/-! ## The header -/

/-- A definition: `#define NAME NUMBER`. -/
def definition : Part (Text × Nat) := do
  exactly "#define"
  blanks
  let name ← word
  blanks
  let n ← number
  lineEnd
  return (name, n)

/-- Read the definitions of a header.  Lines that are no definitions are noted by number. -/
def readHeader (symbols : OrderedMap Text Kind) : Nat → List Text →
    List (Nat × Text) × Except Error (OrderedMap Text Kind)
  | _, [] => ([], .ok symbols)
  | row, line :: lines =>
    match onLine definition line with
    | none =>
      if (Text.strip line).isEmpty then ([], .error .blankLine)
      else
        let (notes, result) := readHeader symbols (row + 1) lines
        ((row, Text.strip line) :: notes, result)
    | some (name, n) =>
      if OrderedMap.has symbols name || symbols.any (fun e => e.2 == n) then ([], .error .misfit)
      else readHeader (symbols ++ [(name, n)]) (row + 1) lines

/-! ## The source file -/

abbrev Reader := StateT (List Text) (Except Error)

def nextLine : Reader Text := fun ls =>
  match ls with
  | l :: rest => .ok (l, rest)
  | [] => .error .ended

def require {α : Type} (p : Part α) (line : Text) : Reader α :=
  match onLine p line with
  | some a => pure a
  | none => throw .misfit

def nextOf {α : Type} (p : Part α) : Reader α := do require p (← nextLine)

def ensure (b : Bool) : Reader Unit := if b then pure () else throw .misfit

def nextIs (t : Text) : Reader Unit := do ensure ((← nextLine) == t)

/-- The next `n` rows, each read by `p`. -/
def rows {α : Type} (p : Reader α) : Nat → Reader (List α)
  | 0 => pure []
  | n + 1 => do
    let a ← p
    return a :: (← rows p n)

def closing : Text := "\x7d;\n"

abbrev ArcArrays := OrderedMap (Nat × Nat) State

def startsArcs (line : Text) : Bool := Text.startsWith "static arc " line

def arcArrays : Nat → Text → ArcArrays → Reader (ArcArrays × Text)
  | 0, line, known => pure (known, line)
  | fuel + 1, line, known =>
    if startsArcs line then do
      let [n, m, k] ← require (numbers "static arc arcs_#_#[#] = \x7b") line | throw .misfit
      let arcs ← rows (do
        let [i, j] ← nextOf (numbers "\t\x7b#, #\x7d,") | throw .misfit
        return (i, j)) k
      nextIs closing
      arcArrays fuel (← nextLine) (OrderedMap.insert known (n, m) arcs)
    else pure (known, line)

/-- A state: one of the arc arrays, with the right number of arcs. -/
def state (known : ArcArrays) : Reader State := do
  let [k, n, m] ← nextOf (numbers "\t\x7b#, arcs_#_#\x7d,") | throw .misfit
  match OrderedMap.get? known (n, m) with
  | none => throw .undefined
  | some arcs =>
    ensure (k == arcs.length)
    return arcs

/-- Read groups of arc arrays with a state array each; gives the line after them. -/
def stateArrays : Nat → Text → ArcArrays → List (List State) → Reader (List (List State) × Text)
  | 0, line, _, states => pure (states, line)
  | fuel + 1, line, known, states =>
    if startsArcs line then do
      let (known, line) ← arcArrays (fuel + 1) line known
      let [s, t] ← require (numbers "static state states_#[#] = \x7b") line | throw .misfit
      ensure (s == states.length)
      let table ← rows (state known) t
      nextIs closing
      stateArrays fuel (← nextLine) known (states ++ [table])
    else pure (states, line)

def automatonRow : Part (Text × List Nat) := do
  blanks
  exactly "\x7b"
  let n ← number
  exactly ", \""
  let symbol ← word
  return (symbol, n :: (← numbers "\", #, #, states_#,"))

def escapes : Nat → Part Text
  | 0 => pure []
  | fuel + 1 => fun cs =>
    match cs with
    | '\\' :: a :: b :: c :: rest =>
      if Text.isDecimal a && Text.isDecimal b && Text.isDecimal c then
        (escapes fuel rest).map fun (more, rest) => ('\\' :: a :: b :: c :: more, rest)
      else some ([], cs)
    | _ => some ([], cs)

/-- The second row of an automaton: a string with its first set. -/
def firstRow : Part Text := do
  blanks
  exactly "\""
  let digits ← escapes (← get).length
  exactly "\"\x7d,"
  lineEnd
  return ['"'] ++ digits ++ ['"']

def bits (n : Nat) : List Nat := (List.range 8).filter fun j => n.testBit j

def firstLabels (literal : Text) : List Nat :=
  match Text.Literal.wideValue literal with
  | .ok cs => cs.zipIdx.flatMap fun (c, i) => (bits c.toNat).map (8 * i + ·)
  | .error _ => []

def automaton (symbols : OrderedMap Text Kind) (states : List (List State)) :
    Reader (Kind × Entry) := do
  let (symbol, [n, x, y, z]) ← nextOf automatonRow | throw .misfit
  match OrderedMap.get? symbols symbol with
  | none => throw .undefined
  | some k =>
    ensure (k == n)
    ensure (x == 0)
    match states[z]? with
    | none => throw .noAutomaton
    | some table =>
      ensure (y == table.length)
      return (n, ⟨table, firstLabels (← nextOf firstRow)⟩)

/-- The value of a label: nothing, or a word in quotes. -/
def labelValue : Part (Option Text) := fun cs =>
  match cs with
  | '0' :: rest => some (none, rest)
  | _ => (do exactly "\""; let w ← word; exactly "\""; return some w : Part (Option Text)) cs

def labelRow : Part (Kind × Option Text) := do
  blanks
  exactly "\x7b"
  let k ← number
  exactly ", "
  let value ← labelValue
  exactly "\x7d,"
  lineEnd
  return (k, value)

/-- The number of the next line, which has a layout with one number. -/
def nextNumber (layout : Text) : Reader Nat := do
  let [n] ← nextOf (numbers layout) | throw .misfit
  return n

def source (symbols : OrderedMap Text Kind) : Reader Grammar := do
  nextIs "#include \"pgenheaders.h\"\n"
  nextIs "#include \"grammar.h\"\n"
  let line ← nextLine
  let (states, line) ← stateArrays ((← get).length + 1) line [] []
  let [count] ← require (numbers "static dfa dfas[#] = \x7b") line | throw .misfit
  let automata ← rows (automaton symbols states) count
  nextIs closing
  let entries : OrderedMap Kind Entry := OrderedMap.update [] automata
  let labels ← rows (nextOf labelRow) (← nextNumber "static label labels[#] = \x7b")
  nextIs closing
  nextIs "grammar _PyParser_Grammar = \x7b\n"
  ensure ((← nextNumber "\t#,") == entries.length)
  nextIs "\tdfas,\n"
  ensure ((← nextNumber "\t\x7b#, labels\x7d,") == labels.length)
  let start ← nextNumber "\t#"
  ensure (symbols.any fun e => e.2 == start)
  nextIs closing
  ensure (← get).isEmpty
  return { symbols, states, entries, labels, start }

/-- The grammar with its keywords and kinds of tokens found from the labels. -/
def finish (g : Grammar) : Grammar :=
  let numbered := g.labels.zipIdx
  { g with
    keywords := OrderedMap.update [] (numbered.filterMap fun ((k, value), i) =>
      if k = Kind.name then value.map fun w => (w, i) else none)
    tokens := OrderedMap.update [] (numbered.filterMap fun ((k, value), i) =>
      if value.isNone then some (k, i) else none) }

def missingNote (file : Text) : Text :=
  "Can't open " ++ file ++ ": [Errno 2] No such file or directory: " ++ Text.quoted file ++ "\n"

def lineNote (file : Text) (row : Nat) (line : Text) : Text :=
  file ++ "(" ++ Text.ofNat row ++ "): can't parse " ++ line ++ "\n"

/-- The tables read from a header and a source file, either of which may be missing, and the notes
printed on the way. -/
def read (header code : Option Text) : Text × Except Error Grammar :=
  let (notes, symbols) : Text × Except Error (OrderedMap Text Kind) :=
    match header with
    | none => (missingNote "graminit.h", .ok [])
    | some t =>
      let (ns, r) := readHeader [] 1 (Text.newlineLines (Text.unifyNewlines t))
      (ns.flatMap fun (row, line) => lineNote "graminit.h" row line, r)
  match symbols with
  | .error e => (notes, .error e)
  | .ok symbols =>
    match code with
    | none => (notes ++ missingNote "graminit.c", .ok (finish { symbols }))
    | some t =>
      (notes, ((source symbols).run (Text.newlineLines (Text.unifyNewlines t))).map fun r =>
        finish r.1)

end Retouch.Grammar.CTables
