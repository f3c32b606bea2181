import Retouch.Grammar.Tables
import Retouch.Text.Display

/-!
# Reports on grammars

The tables of a grammar in readable form, and listings of the automata of its rules at the three
stages of their construction.
-/

namespace Retouch.Grammar

open Text (Datum)

/-! ## Tables -/

def statesDatum (states : List State) : Datum :=
  .list (states.map fun s => .list (s.map fun a => .tuple [.number a.1, .number a.2]))

/-- The entry of a symbol as data: its states and its first labels in order. -/
def entryDatum (e : Entry) : Datum :=
  .tuple [statesDatum e.states,
    .map ((e.first.mergeSort (· ≤ ·)).map fun (i : Nat) => (.number i, .number 1))]

def report (g : Grammar) : Text :=
  let byName := g.symbols.mergeSort fun a b => Text.le a.1 b.1
  let byNumber := g.symbols.mergeSort fun a b => a.2 ≤ b.2
  let entries := g.entries.mergeSort fun a b => a.1 ≤ b.1
  "s2n\n" ++ (Datum.map (byName.map fun e => (.text e.1, .number e.2))).display ++
  "n2s\n" ++ (Datum.map (byNumber.map fun e => (.number e.2, .text e.1))).display ++
  "states\n" ++ (Datum.list (g.states.map statesDatum)).display ++
  "dfas\n" ++ (Datum.map (entries.map fun e => (.number e.1, entryDatum e.2))).display ++
  "labels\n" ++ (Datum.list (g.labels.map fun l =>
    .tuple [.number l.1, (l.2.map Datum.text).getD .nothing])).display ++
  "start " ++ Text.ofNat g.start ++ "\n"

/-! ## Automata -/

def stateLine (number : Nat) (final : Bool) : Text :=
  "  State " ++ Text.ofNat number ++ " " ++ (if final then "(final)" else "") ++ "\n"

/-- The lines for the arcs out of a state, with states numbered by their place in `known`, to which
new ones are added. -/
def nfaArcs (known : List Nat) : List (Option Label × Nat) → Text × List Nat
  | [] => ([], known)
  | (label, target) :: arcs =>
    let known := insertNew known target
    let shown : Text := match label with
      | none => "    -> "
      | some l => "    " ++ l ++ " -> "
    let (rest, known') := nfaArcs known arcs
    (shown ++ Text.ofNat (known.idxOf target) ++ "\n" ++ rest, known')

/-- The lines for the states from place `i` on, in the order in which they are reached. -/
def nfaStates (n : Nfa) (finish : Nat) : Nat → Nat → List Nat → Text
  | 0, _, _ => []
  | fuel + 1, i, known =>
    match known[i]? with
    | none => []
    | some s =>
      let (arcs, known) := nfaArcs known (n.arcsOf s)
      stateLine i (s == finish) ++ arcs ++ nfaStates n finish fuel (i + 1) known

def nfaListing (title : Text) (n : Nfa) (start finish : Nat) : Text :=
  "Dump of NFA for " ++ title ++ "\n" ++ nfaStates n finish n.size 0 [start]

def arcLine (label : Label) (target : Nat) : Text :=
  "    " ++ label ++ " -> " ++ Text.ofNat target ++ "\n"

/-- The listing of a deterministic automaton.  Each arc shows the place of the first state that is
the same as its target. -/
def dfaListing (title : Text) (d : Dfa) : Text :=
  "Dump of DFA for " ++ title ++ "\n" ++
    (d.zipIdx.flatMap fun ((_, s), i) =>
      stateLine i s.final ++ s.arcs.flatMap fun (label, target) =>
        arcLine label (d.placeOf target))

/-- The listings of a rule's automaton: with silent arcs, deterministic, and simplified. -/
def ruleListing (r : Rule) : Text :=
  let (n, a, z) := r.rhs.automaton
  let d := determinise n a z
  nfaListing "rule" n a z ++ dfaListing "rule" d ++ dfaListing "simplified" (simplify d)

def listing (text : Text) : Except Error Text := do
  let rules ← Reader.rules text
  let _ ← ofRules rules
  return rules.flatMap ruleListing

end Retouch.Grammar
