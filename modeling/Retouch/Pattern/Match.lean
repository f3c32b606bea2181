import Retouch.Pattern.Basic
import Retouch.Pattern.Matches

/-!
# Matching

`Pattern.ways` finds the ways in which a pattern can take trees at the start of a sequence.  A wild
pattern tries few turns before many, and its options in order.  Turns that take nothing could be
repeated forever; where that happens, the ways are found instead by adding turns that take something
to those found before.
-/

namespace Retouch

variable {α : Type}

namespace Pattern

def kindFits (kind : Option Kind) (t : Tree α) : Bool :=
  match kind with
  | none => true
  | some k => t.kind == k

def leafFits (kind : Option Kind) (value : Option Text) (t : Tree α) : Bool :=
  t.isLeaf && kindFits kind t &&
    match value with
    | none => true
    | some v => t.isText v

/-- The only way of a pattern for one tree: to take the first tree if it fits. -/
def firstTree (fits : Tree α → Bool) (name : Option Text) : List (Tree α) → Matches α
  | [] => .done
  | t :: _ => if fits t then .only 1 (Bindings.bind name (.one t) []) else .done

/-- The ways to take any trees, from `count` of them on and at most `extra` more. -/
def takeFrom (name : Option Text) (ts : List (Tree α)) (count : Nat) : Nat → Matches α
  | 0 => .only count (Bindings.bind name (.many (ts.take count)) [])
  | extra + 1 =>
    .found count (Bindings.bind name (.many (ts.take count)) []) fun _ =>
      takeFrom name ts (count + 1) extra

def patience : Nat := 1000

/-- Can turns that take nothing go on and on, after `count` turns? -/
def canIdle (min max count : Nat) : Bool :=
  if count < min then patience < min - count else patience < max - count

/-- The ways to take turns, given the ways to take one turn; `count` turns were taken before.  Few
turns come before many.  The first argument bounds the number of turns. -/
def turns (turn : List (Tree α) → Matches α) (min max : Nat) :
    Nat → Nat → List (Tree α) → Matches α
  | 0, _, _ => .done
  | fuel + 1, count, ts =>
    let stop : Matches α := if min ≤ count then .only 0 [] else .done
    stop.append fun _ =>
      if count < max then
        (turn ts).bind fun c r =>
          if c = 0 ∧ canIdle min max count then .endless
          else (turns turn min max fuel (count + 1) (ts.drop c)).after c r
      else .done

/-- A bound on the number of turns over `n` trees. -/
def turnBound (min max n : Nat) : Nat := n + Nat.min max (min + 2 * patience) + 2

/-- One more turn, which takes something, after each of the ways found before. -/
def addTurn (turn : List (Tree α) → Matches α) (max : Nat) (ts : List (Tree α)) :
    List (Nat × Bindings α) → Matches α
  | [] => .done
  | (c, r) :: ways =>
    let here : Matches α :=
      if c < ts.length ∧ c ≤ max then ((turn (ts.drop c)).nonempty).after c r else .done
    here.append fun _ => addTurn turn max ts ways

/-- Add turns to the ways found before, again and again.  The first argument bounds how often. -/
def moreTurns (turn : List (Tree α) → Matches α) (max : Nat) (ts : List (Tree α)) :
    Nat → List (Nat × Bindings α) → Matches α
  | 0, _ => .done
  | _ + 1, [] => .done
  | fuel + 1, ways => (addTurn turn max ts ways).collecting [] (moreTurns turn max ts fuel)

/-- The ways to take turns, found by adding turns to the ways with one turn. -/
def gradualTurns (turn : List (Tree α) → Matches α) (min max : Nat) (ts : List (Tree α)) :
    Matches α :=
  let stop : Matches α := if min = 0 then .only 0 [] else .done
  stop.append fun _ =>
    (turn ts).collecting [] (moreTurns turn max ts (ts.length + 1))

/-- The name of a wild pattern that takes as many trees as it can, each by the first pattern of one
of its options. -/
def greedyName : Text := "bare_name"

/-- Take trees as long as `fits` takes one; `count` trees were taken before. -/
def takeGreedily (fits : Tree α → Verdict α) (count : Nat) (names : Bindings α) :
    List (Tree α) → Verdict α × Nat
  | [] => (.yes names, count)
  | t :: ts =>
    match fits t with
    | .yes r => takeGreedily fits (count + 1) (OrderedMap.update names r) ts
    | .no => (.yes names, count)
    | .fail => (.fail, count)

def naming (name : Option Text) (ts : List (Tree α)) : Matches α → Matches α :=
  Matches.map fun c r => (c, Bindings.bind name (.many (ts.take c)) r)

def nameTree (name : Option Text) (t : Tree α) : Verdict α → Verdict α
  | .yes r => .yes (Bindings.bind name (.one t) r)
  | v => v

mutual
def ways : Pattern → List (Tree α) → Matches α
  | leaf k v n, ts => firstTree (leafFits k v) n ts
  | tree k n, ts => firstTree (kindFits k) n ts
  | within k ps n, ts =>
    match ts with
    | [] => .done
    | t :: _ =>
      if kindFits k t then
        .ofVerdict 1 (nameTree n t
          (if ps.any isWild then (seqWays ps t.children).exactly t.children.length
          else eachTakesOne ps t.children))
      else .done
  | anything min max n, ts =>
    if min ≤ Nat.min ts.length max then takeFrom n ts min (Nat.min ts.length max - min) else .done
  | choice os min max n, ts =>
    if n = some greedyName then
      match takeGreedily (fun t => headTakes os t) 0 [] ts with
      | (.yes r, c) => .only c (Bindings.bind n (.many (ts.take c)) r)
      | (.no, _) => .done
      | (.fail, _) => .fail
    else
      naming n ts
        ((turns (fun us => optionWays os us) min max (turnBound min max ts.length) 0 ts).recover
          fun _ => gradualTurns (fun us => optionWays os us) min max ts)
  | finish _, ts => if ts.isEmpty then .only 0 [] else .done
  | without p _, ts =>
    match ways p ts with
    | .found _ _ _ => .done
    | .fail => .fail
    | _ => .only 0 []

def seqWays : List Pattern → List (Tree α) → Matches α
  | [], _ => .only 0 []
  | p :: ps, ts =>
    if ps.isEmpty then ways p ts
    else (ways p ts).bind fun c r => (seqWays ps (ts.drop c)).after c r

def optionWays : List (List Pattern) → List (Tree α) → Matches α
  | [], _ => .done
  | o :: os, ts => (seqWays o ts).append fun _ => optionWays os ts

def eachTakesOne : List Pattern → List (Tree α) → Verdict α
  | [], [] => .yes []
  | p :: ps, t :: ts =>
    if ps.length ≠ ts.length then .no
    else if p.isNegated then .fail
    else
      match (ways p [t]).exactly 1 with
      | .yes r =>
        match eachTakesOne ps ts with
        | .yes r' => .yes (OrderedMap.update r r')
        | v => v
      | v => v
  | _, _ => .no

def headTakes : List (List Pattern) → Tree α → Verdict α
  | [], _ => .no
  | o :: os, t =>
    match firstTakes o t with
    | .no => headTakes os t
    | v => v

def firstTakes : List Pattern → Tree α → Verdict α
  | [], _ => .no
  | p :: _, t => if p.isNegated then .fail else (ways p [t]).exactly 1
end

/-- The ways of a wild pattern with options, found by adding turns; a pattern without options has
no turns. -/
def gradualWays : Pattern → List (Tree α) → Option (Matches α)
  | choice os min max _, ts => some (gradualTurns (optionWays os) min max ts)
  | _, _ => none

/-- Does the pattern match the tree?  A negated pattern cannot report names, so it fails if these
are wanted. -/
def matchTree (p : Pattern) (t : Tree α) (wanted : Bool) : Verdict α :=
  if p.isNegated then (if wanted then .fail else .no) else (p.ways [t]).exactly 1

def matchTrees (p : Pattern) (ts : List (Tree α)) (wanted : Bool) : Verdict α :=
  if p.isNegated then
    if wanted then .fail else if ts.isEmpty then .yes [] else .no
  else if p.isWild then (p.ways ts).exactly ts.length
  else
    match ts with
    | [t] => (p.ways [t]).exactly 1
    | _ => .no

end Pattern

end Retouch
