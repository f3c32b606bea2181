import Retouch.Grammar.Error
import Retouch.Grammar.Rule

/-!
# First sets

The first set of a rule holds the labels of tokens that can begin it.  Computing it also checks that
no rule begins with itself and that the ways to begin a rule can be told apart by the first token.
-/

namespace Retouch.Grammar

/-- The automata of the rules by name.  A rule that is given again replaces the automaton. -/
abbrev Automata := OrderedMap Label Dfa

def Automata.ofRules (rules : List Rule) : Automata :=
  rules.foldl (fun m r => OrderedMap.insert m r.name (simplify r.rhs.dfa)) []

abbrev Firsts := OrderedMap Label (Option (List Label))

def initialLabels (d : Dfa) : List Label :=
  match d with
  | [] => []
  | (_, s) :: _ => OrderedMap.keys s.arcs

/-- Note for each label of a first set the arc that it comes from; a label that another arc has
already is an error. -/
def addBeginnings (rule : Label) (arc : Label) : List Label → OrderedMap Label Label →
    Except Error (OrderedMap Label Label)
  | [], seen => .ok seen
  | symbol :: rest, seen =>
    match OrderedMap.get? seen symbol with
    | some other => .error (.ambiguous rule symbol arc other)
    | none => addBeginnings rule arc rest (OrderedMap.insert seen symbol arc)

/-- Check that the first sets of a rule's initial arcs have no label in common. -/
def checkBeginnings (rule : Label) (arcs : List (Label × List Label)) : Except Error Unit := do
  let _ ← arcs.foldlM (fun seen arc => addBeginnings rule arc.1 arc.2 seen) []
  return ()

/-- The first set of a label on an initial arc of the rule `name`; `compute` finds that of a rule for
which there is none yet. -/
def arcFirst (automata : Automata) (compute : Label → Firsts → Except Error Firsts)
    (name label : Label) (firsts : Firsts) : Except Error (List Label × Firsts) :=
  if OrderedMap.has automata label then
    match OrderedMap.get? firsts label with
    | some none => .error (.recursion name)
    | some (some set) => .ok (set, firsts)
    | none => do
      let firsts ← compute label firsts
      return (((OrderedMap.get? firsts label).bind id).getD [], firsts)
  else .ok ([label], firsts)

/-- The first sets of the labels on the initial arcs of the rule `name`. -/
def arcFirsts (automata : Automata) (compute : Label → Firsts → Except Error Firsts)
    (name : Label) : List Label → Firsts → Except Error (List (Label × List Label) × Firsts)
  | [], firsts => .ok ([], firsts)
  | label :: labels, firsts => do
    let (set, firsts) ← arcFirst automata compute name label firsts
    let (rest, firsts) ← arcFirsts automata compute name labels firsts
    return ((label, set) :: rest, firsts)

/-- Compute the first set of a rule and of the rules it can begin with.  The first argument bounds
how many rules begin with one another in a row. -/
def computeFirst (automata : Automata) : Nat → Label → Firsts → Except Error Firsts
  | 0, name, _ => .error (.recursion name)
  | fuel + 1, name, firsts => do
    let labels := initialLabels ((OrderedMap.get? automata name).getD [])
    let (arcs, firsts) ←
      arcFirsts automata (computeFirst automata fuel) name labels
        (OrderedMap.insert firsts name none)
    checkBeginnings name arcs
    let all := arcs.foldl (fun acc arc => arc.2.foldl insertNew acc) []
    return OrderedMap.insert firsts name (some all)

def firstSets (automata : Automata) : Except Error (OrderedMap Label (List Label)) := do
  let names := Text.sorted (OrderedMap.keys automata)
  let firsts ← names.foldlM
    (fun firsts name =>
      if OrderedMap.has firsts name then pure firsts
      else computeFirst automata (automata.length + 1) name firsts)
    ([] : Firsts)
  return firsts.map fun e => (e.1, e.2.getD [])

end Retouch.Grammar
