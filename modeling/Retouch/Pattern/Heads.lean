import Retouch.Pattern.Basic

/-!
# Head kinds

The kinds of trees that a pattern can begin with, by which the patterns worth trying on a tree are
found quickly.
-/

namespace Retouch

inductive Heads where
  | every
  | of (kinds : List Kind)
  /-- A wild pattern without options has no heads. -/
  | none
deriving DecidableEq, Repr

namespace Heads

def union : Heads → Heads → Heads
  | of a, of b => of (b.foldl insertNew a)
  | of _, h => h
  | h, _ => h

end Heads

namespace Pattern

mutual
/-- The kinds that a pattern can begin with.  All patterns of an option count, also those after the
first. -/
def heads : Pattern → Heads
  | leaf (some k) _ _ | tree (some k) _ | within (some k) _ _ => .of [k]
  | leaf none _ _ | tree none _ | within none _ _ | finish _ => .every
  | without p _ => heads p
  | anything _ _ _ => .none
  | choice os _ _ _ => optionHeads os

def optionHeads : List (List Pattern) → Heads
  | [] => .of []
  | o :: os => (allHeads o).union (optionHeads os)

def allHeads : List Pattern → Heads
  | [] => .of []
  | p :: ps => (heads p).union (allHeads ps)
end

end Pattern

end Retouch
