import Retouch.Forest.Basic
import Retouch.Pattern.Compile
import Retouch.Pattern.Match

/-!
# Where a tree stands

Whether a tree stands where any iterable will do, and whether a name can be that of a built-in
function.
-/

namespace Retouch.Context

def fixed (text : Text) : Pattern := (Pattern.compile text).toOption.getD (.leaf none none none)

def loopPattern : Pattern := fixed "for_stmt< 'for' any 'in' node=any ':' any* >
        | comp_for< 'for' any 'in' node=any any* >
     "

def consumerPattern : Pattern := fixed "
power<
    ( 'iter' | 'list' | 'tuple' | 'sorted' | 'set' | 'sum' |
      'any' | 'all' | (any* trailer< '.' 'join' >) )
    trailer< '(' node=any ')' >
    any*
>
"

/-- The first of several arguments of `sorted`. -/
def sortedPattern : Pattern := fixed "
power<
    'sorted'
    trailer< '(' arglist<node=any any*> ')' >
    any*
>
"

def bindsNode (p : Pattern) (t : Tree NodeId) (name : Text) (i : NodeId) : Bool :=
  match p.matchTree t true with
  | .yes names =>
    match OrderedMap.get? names name with
    | some (.one u) => u.tag == i
    | _ => false
  | _ => false

/-- Does the tree stand where any iterable will do?  The nearest three nodes above it are looked at,
each for another construct. -/
def anyIterableWillDo (f : Forest) (i : NodeId) : Bool :=
  ([loopPattern, consumerPattern, sortedPattern].zip (f.ancestors i)).any fun (p, a) =>
    bindsNode p (f.view a) "node" i

/-- Can the name be that of a built-in function: is it no attribute, and not bound where it
stands? -/
def isProbablyBuiltin (f : Forest) (i : NodeId) : Attempt Bool := do
  let before := f.previous? i
  if (before.map f.kind) = some Kind.dot then return false
  let p ← orFault .missing (f.parent? i)
  let isFirst := (f.children p).head? == some i
  let k := f.kind p
  if k = Language.Symbol.funcdef ∨ k = Language.Symbol.classdef then return false
  if k = Language.Symbol.exprStmt ∧ isFirst then return false
  if k = Language.Symbol.parameters then return false
  if k = Language.Symbol.typedargslist ∧ ((before.map f.kind) = some Kind.comma ∨ isFirst) then
    return false
  return true

end Retouch.Context
