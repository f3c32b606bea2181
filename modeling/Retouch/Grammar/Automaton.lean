import Retouch.OrderedMap
import Retouch.Text.Basic

/-!
# Automata of grammar rules

The right-hand side of a rule is read as an automaton over labels.  It is built with silent arcs
(`Nfa`), made deterministic by taking sets of states (`determinise`), and then reduced by unifying
states that have the same arcs (`simplify`).  The order of arcs and states is the order in which
they are found, and the numbering of the parsing tables follows from it.
-/

namespace Retouch.Grammar

/-- What an arc of a rule's automaton carries: the name of a rule or of a kind of token, or a
literal in quotes. -/
abbrev Label := Text

/-! ## Automata with silent arcs -/

/-- An automaton given by the arcs out of each state; an arc without a label is silent. -/
structure Nfa where
  arcs : List (List (Option Label × Nat))
deriving Repr

namespace Nfa

def empty : Nfa := ⟨[]⟩

def size (n : Nfa) : Nat := n.arcs.length

/-- The automaton with one more state, which gets the number `n.size`. -/
def grow (n : Nfa) : Nfa := ⟨n.arcs ++ [[]]⟩

def arcsOf (n : Nfa) (state : Nat) : List (Option Label × Nat) := n.arcs.getD state []

/-- The automaton with an arc from `source` to `target`, after the arcs that `source` has. -/
def addArc (n : Nfa) (source : Nat) (label : Option Label) (target : Nat) : Nfa :=
  ⟨n.arcs.modify source (· ++ [(label, target)])⟩

def silentNext (n : Nfa) (state : Nat) : List Nat :=
  (n.arcsOf state).filterMap fun a => if a.1.isNone then some a.2 else none

/-- The set `base` with a state and all that silent arcs lead to from it, in depth-first order.
The first argument bounds the depth. -/
def addClosure (n : Nfa) : Nat → Nat → List Nat → List Nat
  | 0, _, base => base
  | fuel + 1, state, base =>
    if base.contains state then base
    else (n.silentNext state).foldl (fun b s => addClosure n fuel s b) (base ++ [state])

/-- The set `base` with a state and all that silent arcs lead to from it. -/
def close (n : Nfa) (state : Nat) (base : List Nat) : List Nat := n.addClosure n.size state base

/-- For each label on an arc out of a set of states, the set of states that it leads to. -/
def successors (n : Nfa) (set : List Nat) : OrderedMap Label (List Nat) :=
  (set.flatMap n.arcsOf).foldl
    (fun acc arc =>
      match arc.1 with
      | none => acc
      | some label => OrderedMap.alter acc label [] (n.close arc.2))
    []

end Nfa

/-! ## Deterministic automata -/

structure DfaState where
  final : Bool
  arcs : OrderedMap Label Nat
deriving Repr

namespace DfaState

/-- Do two states have the same finality and the same arcs, whatever the order of the arcs? -/
def same (a b : DfaState) : Bool :=
  a.final == b.final && a.arcs.length == b.arcs.length &&
    a.arcs.all fun arc => OrderedMap.get? b.arcs arc.1 == some arc.2

/-- The state with all arcs to `old` leading to `new`. -/
def redirect (old new : Nat) (s : DfaState) : DfaState :=
  { s with arcs := s.arcs.map fun arc => (arc.1, if arc.2 = old then new else arc.2) }

end DfaState

/-- A deterministic automaton: its states with their numbers, the initial one first.  Arcs lead to
numbers, which keep their meaning when other states are removed. -/
abbrev Dfa := List (Nat × DfaState)

namespace Dfa

def state? (d : Dfa) (number : Nat) : Option DfaState := d.lookup number

/-- The place of the first state that is the same as the one with a given number. -/
def placeOf (d : Dfa) (number : Nat) : Nat :=
  match d.state? number with
  | some s => d.findIdx fun e => s.same e.2
  | none => d.length

end Dfa

/-! ## Sets of states -/

def sameSet (a b : List Nat) : Bool := a.length == b.length && a.all b.contains

/-- The place of a set among those found so far; a new set goes to the end. -/
def placeSet (sets : List (List Nat)) (set : List Nat) : Nat × List (List Nat) :=
  match sets.findIdx? (sameSet set) with
  | some i => (i, sets)
  | none => (sets.length, sets ++ [set])

/-- The arcs out of a set of states, and the sets found so far with those that the arcs lead to. -/
def expand (n : Nfa) (sets : List (List Nat)) (set : List Nat) :
    OrderedMap Label Nat × List (List Nat) :=
  (n.successors set).foldl
    (fun (arcs, sets) next =>
      let (i, sets') := placeSet sets next.2
      (arcs ++ [(next.1, i)], sets'))
    ([], sets)

/-- Expand the sets from place `i` on, until no new one is found.  The first argument bounds their
number. -/
def explore (n : Nfa) : Nat → Nat → List (List Nat) → List (OrderedMap Label Nat) →
    List (List Nat) × List (OrderedMap Label Nat)
  | 0, _, sets, arcs => (sets, arcs)
  | fuel + 1, i, sets, arcs =>
    match sets[i]? with
    | none => (sets, arcs)
    | some set =>
      let (out, sets') := expand n sets set
      explore n fuel (i + 1) sets' (arcs ++ [out])

def explored (n : Nfa) (start : Nat) : List (List Nat) × List (OrderedMap Label Nat) :=
  explore n (Nat.pow 2 n.size) 0 [n.close start []] []

def setStates (n : Nfa) (start finish : Nat) : List DfaState :=
  let (sets, arcs) := explored n start
  sets.zipWith (fun set out => ⟨set.contains finish, out⟩) arcs

/-- The deterministic automaton whose states are the sets that can be reached from `start`; a set
that contains `finish` is final. -/
def determinise (n : Nfa) (start finish : Nat) : Dfa :=
  (setStates n start finish).zipIdx.map fun (s, i) => (i, s)

/-! ## Unifying states -/

/-- Remove the first state after place `i` that is the same as the one there, and let arcs to it
lead to the one that stays. -/
def unifyAt (d : Dfa) (i : Nat) : Option Dfa :=
  match d[i]? with
  | none => none
  | some (number, s) =>
    match (d.drop (i + 1)).findIdx? fun e => s.same e.2 with
    | none => none
    | some k =>
      match d[i + 1 + k]? with
      | none => none
      | some (old, _) =>
        some ((d.eraseIdx (i + 1 + k)).map fun e => (e.1, e.2.redirect old number))

/-- Try every place from `i` on once; tells whether a state was removed. -/
def unifyFrom : Nat → Nat → Dfa → Bool × Dfa
  | 0, _, d => (false, d)
  | fuel + 1, i, d =>
    match unifyAt d i with
    | some d' => (true, (unifyFrom fuel (i + 1) d').2)
    | none => unifyFrom fuel (i + 1) d

/-- Go through all places again and again until no state is removed any more. -/
def unifyAll : Nat → Dfa → Dfa
  | 0, d => d
  | fuel + 1, d =>
    match unifyFrom d.length 0 d with
    | (true, d') => unifyAll fuel d'
    | (false, d') => d'

/-- The automaton with states that have the same arcs unified, as long as there are any. -/
def simplify (d : Dfa) : Dfa := unifyAll (d.length + 1) d

end Retouch.Grammar
