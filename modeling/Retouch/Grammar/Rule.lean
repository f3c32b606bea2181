import Retouch.Grammar.Automaton

/-!
# Right-hand sides of rules

The expressions of the extended Backus–Naur form, and the automaton of an expression: one initial
and one final state, with the arcs of the parts joined by silent arcs.
-/

namespace Retouch.Grammar

/-- The right-hand side of a grammar rule. -/
inductive Ebnf where
  /-- A rule, a kind of token or a literal. -/
  | label (l : Label)
  | alternatives (options : List Ebnf)
  | sequence (first second : Ebnf)
  | optional (e : Ebnf)
  | plus (e : Ebnf)
  | star (e : Ebnf)

namespace Ebnf

mutual
/-- The automaton `n` with the states and arcs of an expression, and the expression's initial and
final state. -/
def build : Ebnf → Nfa → Nfa × Nat × Nat
  | label l, n =>
    let a := n.size
    let z := a + 1
    (n.grow.grow.addArc a (some l) z, a, z)
  | alternatives options, n =>
    let a := n.size
    let z := a + 1
    (buildOptions options n.grow.grow a z, a, z)
  | sequence first second, n =>
    let (n, a, b) := build first n
    let (n, c, d) := build second n
    (n.addArc b none c, a, d)
  | optional e, n =>
    let (n, a, z) := build e n
    (n.addArc a none z, a, z)
  | plus e, n =>
    let (n, a, z) := build e n
    (n.addArc z none a, a, z)
  | star e, n =>
    let (n, a, z) := build e n
    (n.addArc z none a, a, a)

/-- The automaton with each option built between the states `a` and `z`. -/
def buildOptions : List Ebnf → Nfa → Nat → Nat → Nfa
  | [], n, _, _ => n
  | e :: es, n, a, z =>
    let (n, b, y) := build e n
    buildOptions es ((n.addArc a none b).addArc y none z) a z
end

def automaton (e : Ebnf) : Nfa × Nat × Nat := e.build Nfa.empty

def dfa (e : Ebnf) : Dfa :=
  let (n, a, z) := e.automaton
  determinise n a z

end Ebnf

structure Rule where
  name : Label
  rhs : Ebnf

end Retouch.Grammar
