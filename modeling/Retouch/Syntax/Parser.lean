import Retouch.Grammar.Tables
import Retouch.Syntax.Tree

/-!
# The parser

A stack of automata is run over the tokens.  Each entry of the stack is a symbol that has been begun,
the state its automaton is in, and the trees found for it so far.  A token is handled by leaving
symbols that can end, entering symbols that can begin with it, and one step over the token itself.
-/

namespace Retouch

/-- A token as the parser takes it: kind and value, the blanks and comments before it, its place. -/
structure Input where
  kind : Kind
  value : Text
  lead : Text
  start : Position
deriving DecidableEq, Repr

namespace Input

def token (t : Input) : Leaf := ⟨t.kind, .text t.value, t.lead, t.start.row, t.start.column⟩

def leaf (t : Input) : SyntaxTree := .leaf () t.token

end Input

/-- What is wrong with a token where it stands. -/
inductive Misfit where
  /-- No token of its kind occurs in the grammar. -/
  | badToken
  | badInput
  | tooMuch
  /-- The program has not ended with it, and there is no other. -/
  | incomplete
deriving DecidableEq, Repr

def Misfit.message : Misfit → Text
  | .badToken => "bad token"
  | .badInput => "bad input"
  | .tooMuch => "too much input"
  | .incomplete => "incomplete input"

inductive ParseError where
  | misfit (what : Misfit) (token : Input)
  | notReady
  /-- The program has ended already, and the parser has no entry to work on. -/
  | finished
  | noTable
  /-- The tree cannot take the names of the program, as trees are not made. -/
  | noTree
deriving DecidableEq, Repr

def ParseError.message? : ParseError → Option Text
  | .misfit what t =>
    some (what.message ++ ": type=" ++ Text.ofNat t.kind ++ ", value=" ++ Text.quoted t.value ++
      ", context=(" ++ Text.quoted t.lead ++ ", (" ++ Text.ofNat t.start.row ++ ", " ++
      Text.ofNat t.start.column ++ "))")
  | _ => none

/-- How the parser makes trees. -/
inductive Shape where
  /-- A symbol with one child is that child. -/
  | collapsed
  | full
  /-- Symbols are nodes, and the finished tree is refused. -/
  | raw
deriving DecidableEq, Repr

def Shape.tree (shape : Shape) (kind : Kind) (children : List SyntaxTree) : SyntaxTree :=
  match shape, children with
  | .collapsed, [child] => child
  | _, _ => .node () kind children

def Grammar.labelKind (g : Grammar) (i : Nat) : Kind := (g.labels.getD i (0, none)).1

namespace Parser

structure Entry where
  symbol : Kind
  table : Grammar.Entry
  state : Nat
  children : List SyntaxTree
deriving Repr

/-- The arcs of the state that the entry is in. -/
abbrev Entry.arcs (e : Entry) : Grammar.State := e.table.states.getD e.state []

/-- The state of a parser.  The stack has its top first. -/
structure State where
  ready : Bool := false
  stack : List Entry := []
  root : Option SyntaxTree := none
  names : List Text := []
deriving Repr

/-- A parser at the start of a program, or of the symbol `start` if one is given. -/
def setUp (g : Grammar) (start : Option Kind) (before : State) : Except ParseError Unit × State :=
  let symbol := start.getD g.start
  match OrderedMap.get? g.entries symbol with
  | none => (.error .noTable, before)
  | some table => (.ok (), { ready := true, stack := [⟨symbol, table, 0, []⟩] })

def classify (g : Grammar) (t : Input) : Option Nat :=
  let keyword := if t.kind = Kind.name then OrderedMap.get? g.keywords t.value else none
  match keyword with
  | some i => some i
  | none => OrderedMap.get? g.tokens t.kind

/-- Leave the symbol on top of the stack: its tree goes to the symbol below, or is the root. -/
def pop (shape : Shape) (s : State) : Except ParseError Unit × State :=
  match s.stack with
  | [] => (.error .finished, s)
  | top :: below =>
    let tree := shape.tree top.symbol top.children
    match below with
    | [] =>
      let s := { s with stack := [], root := some tree }
      if shape = .raw then (.error .noTree, s) else (.ok (), s)
    | next :: rest =>
      (.ok (), { s with stack := { next with children := next.children ++ [tree] } :: rest })

def acceptOnly (e : Entry) : Bool := e.arcs == [(0, e.state)]

/-- Leave symbols as long as they can only end; tells whether the program has ended.  The first
argument bounds the number of steps. -/
def popFinished (shape : Shape) : Nat → State → Except ParseError Bool × State
  | 0, s => (.ok s.stack.isEmpty, s)
  | fuel + 1, s =>
    match s.stack with
    | [] => (.ok true, s)
    | top :: _ =>
      if acceptOnly top then
        match pop shape s with
        | (.ok (), s') => popFinished shape fuel s'
        | (.error e, s') => (.error e, s')
      else (.ok false, s)

inductive Move where
  | shift (state : Nat)
  /-- Begin the symbol, and go to the state when it ends. -/
  | push (symbol : Kind) (table : Grammar.Entry) (state : Nat)
  | none
deriving Repr

/-- The table of the symbol that the label `i` stands for, if a token with the label can begin it. -/
def begun? (g : Grammar) (label i : Nat) : Option Grammar.Entry :=
  if Kind.firstSymbol ≤ g.labelKind i then
    (OrderedMap.get? g.entries (g.labelKind i)).filter fun table => table.first.contains label
  else none

def move (g : Grammar) (label : Nat) : Grammar.State → Move
  | [] => .none
  | (i, next) :: arcs =>
    if i = label then .shift next
    else
      match begun? g label i with
      | some table => .push (g.labelKind i) table next
      | Option.none => move g label arcs

/-- Handle a token with a given label.  The first argument bounds the number of steps. -/
def handle (g : Grammar) (shape : Shape) (label : Nat) (t : Input) :
    Nat → State → Except ParseError Bool × State
  | 0, s => (.error (.misfit .badInput t), s)
  | fuel + 1, s =>
    match s.stack with
    | [] => (.error .finished, s)
    | top :: below =>
      match move g label top.arcs with
      | .shift next =>
        let top := { top with state := next, children := top.children ++ [t.leaf] }
        popFinished shape (below.length + 1) { s with stack := top :: below }
      | .push symbol table next =>
        handle g shape label t fuel
          { s with stack := ⟨symbol, table, 0, []⟩ :: { top with state := next } :: below }
      | .none =>
        if top.arcs.contains (0, top.state) then
          match pop shape s with
          | (.error e, s') => (.error e, s')
          | (.ok (), s') =>
            if s'.stack.isEmpty then (.error (.misfit .tooMuch t), s')
            else handle g shape label t fuel s'
        else (.error (.misfit .badInput t), s)

def addToken (g : Grammar) (shape : Shape) (t : Input) (s : State) :
    Except ParseError Bool × State :=
  if !s.ready && t.kind == Kind.name then (.error .notReady, s)
  else
    let s := if t.kind = Kind.name then { s with names := insertNew s.names t.value } else s
    match classify g t with
    | none => (.error (.misfit .badToken t), s)
    | some label =>
      if s.ready then handle g shape label t (s.stack.length + g.entries.length + 1) s
      else (.error .notReady, s)

end Parser

end Retouch
