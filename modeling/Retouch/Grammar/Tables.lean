import Retouch.Grammar.FirstSets
import Retouch.Grammar.Reader
import Retouch.Text.Escape
import Retouch.Text.Word

/-!
# Parsing tables

A grammar as the parser uses it: the automata of its rules over numbered labels, with the first
labels of each rule.  Symbols are numbered from 256 on, the start symbol first and the others in the
order of their names.  Labels are numbered in the order in which they are met.
-/

namespace Retouch

namespace Grammar

/-- A state of a table: its arcs, each a label and the state it leads to.  A final state has an arc
with label 0 to itself. -/
abbrev State := List (Nat × Nat)

/-- The states of a symbol's automaton and the labels that can begin the symbol. -/
structure Entry where
  states : List State
  first : List Nat
deriving DecidableEq, Repr, Inhabited

end Grammar

structure Grammar where
  symbols : OrderedMap Text Kind := []
  /-- The automaton of each symbol, in the order of `symbols`. -/
  states : List (List Grammar.State) := []
  /-- The automaton of each symbol by its number. -/
  entries : OrderedMap Kind Grammar.Entry := []
  /-- The labels: a kind of token or symbol, and the keyword if the label is one. -/
  labels : List (Kind × Option Text) := [(0, some "EMPTY")]
  keywords : OrderedMap Text Nat := []
  tokens : OrderedMap Kind Nat := []
  symbolLabels : OrderedMap Text Nat := []
  start : Kind := Kind.firstSymbol
deriving DecidableEq, Repr, Inhabited

namespace Grammar

def symbol? (g : Grammar) (name : Text) : Option Kind := OrderedMap.get? g.symbols name

def symbolName? (g : Grammar) (k : Kind) : Option Text :=
  (g.symbols.find? fun e => e.2 == k).map Prod.fst

/-- The grammar without a keyword: the word is a plain name then. -/
def dropKeyword (g : Grammar) (word : Text) : Grammar :=
  { g with keywords := OrderedMap.erase g.keywords word }

/-! ## Numbering labels -/

inductive Meaning where
  | symbol (name : Text) (kind : Kind)
  | token (kind : Kind)
  | keyword (word : Text)
deriving DecidableEq, Repr

def meaning (symbols : OrderedMap Text Kind) (label : Label) : Except Error Meaning :=
  match label with
  | [] => .error .emptyLiteral
  | c :: _ =>
    if Text.isLetter c then
      match OrderedMap.get? symbols label with
      | some k => .ok (.symbol label k)
      | none =>
        match Kind.ofTokenName? label with
        | some k => .ok (.token k)
        | none => .error (.unknownName label)
    else if c = '"' ∨ c = '\'' then
      match Text.Literal.wideValue label with
      | .error _ => .error .badLiteral
      | .ok [] => .error .emptyLiteral
      | .ok (d :: ds) =>
        if Text.isLetter d then .ok (.keyword (d :: ds))
        else
          match Kind.ofOperator? (d :: ds) with
          | some k => .ok (.token k)
          | none => .error (.unknownOperator (d :: ds))
    else .error (.unknownName label)

def number (g : Grammar) (label : Label) : Except Error (Nat × Grammar) := do
  let fresh := g.labels.length
  match ← meaning g.symbols label with
  | .symbol name k =>
    match OrderedMap.get? g.symbolLabels name with
    | some i => return (i, g)
    | none =>
      return (fresh, { g with
        labels := g.labels ++ [(k, none)]
        symbolLabels := OrderedMap.insert g.symbolLabels name fresh })
  | .token k =>
    match OrderedMap.get? g.tokens k with
    | some i => return (i, g)
    | none =>
      return (fresh, { g with
        labels := g.labels ++ [(k, none)]
        tokens := OrderedMap.insert g.tokens k fresh })
  | .keyword word =>
    match OrderedMap.get? g.keywords word with
    | some i => return (i, g)
    | none =>
      return (fresh, { g with
        labels := g.labels ++ [(Kind.name, some word)]
        keywords := OrderedMap.insert g.keywords word fresh })

/-! ## Making tables -/

/-- The arcs of a state of the automaton `d`, with numbered labels. -/
def numberArcs (d : Dfa) : List (Label × Nat) → Grammar → Except Error (State × Grammar)
  | [], g => .ok ([], g)
  | (label, target) :: arcs, g => do
    let (i, g) ← g.number label
    let (rest, g) ← numberArcs d arcs g
    return ((i, d.placeOf target) :: rest, g)

/-- The table of the states `todo` of the automaton `d`. -/
def numberStates (d : Dfa) : Dfa → Grammar → Except Error (List State × Grammar)
  | [], g => .ok ([], g)
  | (number, s) :: todo, g => do
    let (arcs, g) ← numberArcs d s.arcs g
    let arcs := if s.final then arcs ++ [(0, d.placeOf number)] else arcs
    let (rest, g) ← numberStates d todo g
    return (arcs :: rest, g)

def numberFirst : List Label → Grammar → Except Error (List Nat × Grammar)
  | [], g => .ok ([], g)
  | label :: labels, g => do
    let (i, g) ← g.number label
    let (rest, g) ← numberFirst labels g
    return (if rest.contains i then rest else i :: rest, g)

def addRule (automata : Automata) (firsts : OrderedMap Label (List Label)) (g : Grammar)
    (name : Label) : Except Error Grammar := do
  let d := (OrderedMap.get? automata name).getD []
  let (states, g) ← numberStates d d g
  let (first, g) ← numberFirst ((OrderedMap.get? firsts name).getD []) g
  return { g with
    states := g.states ++ [states]
    entries := OrderedMap.insert g.entries ((g.symbol? name).getD 0) ⟨states, first⟩ }

def ofAutomata (automata : Automata) (firsts : OrderedMap Label (List Label)) (start : Label) :
    Except Error Grammar := do
  let others := (Text.sorted (OrderedMap.keys automata)).erase start
  let names := start :: others
  let symbols := names.zipIdx.map fun (name, i) => (name, Kind.firstSymbol + i)
  let g : Grammar := { symbols }
  names.foldlM (addRule automata firsts) g

def ofRules (rules : List Rule) : Except Error Grammar := do
  let automata := Automata.ofRules rules
  let firsts ← firstSets automata
  match rules with
  | [] => throw .noRule
  | r :: _ => ofAutomata automata firsts r.name

def ofText (text : Text) : Except Error Grammar := do ofRules (← Reader.rules text)

end Grammar

end Retouch
