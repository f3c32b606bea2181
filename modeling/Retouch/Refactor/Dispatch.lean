import Retouch.Fixer.Basic
import Retouch.Pattern.Heads

/-!
# Dispatch

Which fixers are tried on a tree: those that ask for trees of its kind, and after them those that
want to see every tree.  The first ones keep their order, and so do the others.
-/

namespace Retouch

/-- A fixer with what is needed to put it to work. -/
structure Worker where
  fixer : Fixer
  heads : Heads
  slot : Nat

namespace Worker

def headsOf (f : Fixer) : Heads :=
  match f.pattern, f.accepts with
  | some p, _ => p.heads
  | none, some k => .of [k]
  | none, none => .every

def asksFor (k : Kind) (w : Worker) : Bool :=
  match w.heads with
  | .of ks => ks.contains k
  | _ => false

def seesAll (w : Worker) : Bool := w.heads == .every

def number : Nat → List Fixer → List Worker
  | _, [] => []
  | n, f :: fs => ⟨f, headsOf f, n⟩ :: number (n + 1) fs

end Worker

/-- The fixers to try on a tree of a kind, in their order; none for a kind that nobody knows. -/
def fixersFor (ws : List Worker) (k : Kind) : Option (List Worker) :=
  let asking := ws.filter (Worker.asksFor k)
  if isProgramKind k then some (asking ++ ws.filter Worker.seesAll)
  else if asking.isEmpty then none
  else some asking

end Retouch
