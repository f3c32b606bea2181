import Retouch.OrderedMap
import Retouch.Syntax.Tree

/-!
# Patterns of syntax trees

A pattern describes one tree or a sequence of neighbouring trees.  Patterns for one tree look at its
kind, its value or its children.  A wild pattern takes any number of trees, and a negated pattern
takes none and looks at what comes next.  What a pattern with a name takes is reported under the
name.
-/

namespace Retouch

def unbounded : Nat := 0x7FFFFFFF

inductive Pattern where
  /-- A leaf, of a kind and with a value if these are given. -/
  | leaf (kind : Option Kind) (value : Option Text) (name : Option Text)
  /-- Any tree, of a kind if one is given. -/
  | tree (kind : Option Kind) (name : Option Text)
  /-- A tree, of a kind if one is given, whose children are taken by the patterns one by one. -/
  | within (kind : Option Kind) (children : List Pattern) (name : Option Text)
  /-- Any trees, at least `min` and at most `max` of them. -/
  | anything (min max : Nat) (name : Option Text)
  /-- At least `min` and at most `max` turns, each taken by one of the options. -/
  | choice (options : List (List Pattern)) (min max : Nat) (name : Option Text)
  | finish (name : Option Text)
  /-- No tree, where the pattern cannot take anything. -/
  | without (p : Pattern) (name : Option Text)
deriving Repr, Inhabited

namespace Pattern

def name : Pattern → Option Text
  | leaf _ _ n | tree _ n | within _ _ n | anything _ _ n | choice _ _ _ n | finish n | without _ n => n

def withName (n : Option Text) : Pattern → Pattern
  | leaf k v _ => leaf k v n
  | tree k _ => tree k n
  | within k cs _ => within k cs n
  | anything lo hi _ => anything lo hi n
  | choice os lo hi _ => choice os lo hi n
  | finish _ => finish n
  | without p _ => without p n

def isWild : Pattern → Bool
  | anything _ _ _ | choice _ _ _ _ => true
  | _ => false

def isNegated : Pattern → Bool
  | finish _ | without _ _ => true
  | _ => false

inductive Malformed where
  /-- The kind of a leaf that is no token, or the kind of a node that is no symbol. -/
  | kind
  /-- The content of a node that is a text. -/
  | content
  /-- Bounds out of order, or above the greatest bound. -/
  | bounds
  /-- No options, or an option without patterns. -/
  | options
  | formless
deriving DecidableEq, Repr

def boundsFit (min max : Int) : Bool := 0 ≤ min && min ≤ max && max ≤ unbounded

def leaf? (kind : Option Int) (value name : Option Text) : Except Malformed Pattern :=
  match kind with
  | none => .ok (leaf none value name)
  | some k =>
    if 0 ≤ k ∧ k < Kind.firstSymbol then .ok (leaf (some k.toNat) value name) else .error .kind

def node? (kind : Option Int) (children : Option (List Pattern)) (name : Option Text) :
    Except Malformed Pattern :=
  let make (k : Option Kind) : Pattern :=
    match children with
    | none => tree k name
    | some cs => within k cs name
  match kind with
  | none => .ok (make none)
  | some k => if (Kind.firstSymbol : Int) ≤ k then .ok (make (some k.toNat)) else .error .kind

/-- A wild pattern, if its bounds are in order and it has options that are not empty. -/
def wild? (options : Option (List (List Pattern))) (min max : Int) (name : Option Text) :
    Except Malformed Pattern :=
  if !boundsFit min max then .error .bounds
  else
    match options with
    | none => .ok (anything min.toNat max.toNat name)
    | some os =>
      if os.isEmpty || os.any List.isEmpty then .error .options
      else .ok (choice os min.toNat max.toNat name)

/-- A wild pattern around a wild pattern of the same name joined to one, if both may take at most one
turn at least. -/
def joined (min max : Nat) (name : Option Text) : Pattern → Option (Except Malformed Pattern)
  | anything lo hi n =>
    if lo ≤ 1 ∧ name = n then some (wild? none (min * lo) (max * hi) n) else none
  | choice os lo hi n =>
    if lo ≤ 1 ∧ name = n then some (wild? (some os) (min * lo) (max * hi) n) else none
  | _ => none

def optimize : Pattern → Except Malformed Pattern
  | anything 1 1 n => .ok (tree none n)
  | choice [[p]] min max n =>
    if min = 1 ∧ max = 1 ∧ n = p.name then optimize p
    else if min ≤ 1 then (joined min max n p).getD (.ok (choice [[p]] min max n))
    else .ok (choice [[p]] min max n)
  | p => .ok p

/-! ## Display -/

def showParts (form : Text) (parts : List (Option Text)) : Text :=
  let kept := (parts.reverse.dropWhile Option.isNone).reverse
  form ++ "(" ++ Text.join ", " (kept.map fun p => p.getD "None") ++ ")"

/-- The display of a kind: the name of a symbol in quotes, or a number. -/
def showKind (k : Kind) : Text := ((Language.symbolName? k).map Text.quoted).getD (Text.ofNat k)

def showTuple : List Text → Text
  | [item] => "(" ++ item ++ ",)"
  | items => "(" ++ Text.join ", " items ++ ")"

mutual
def shown : Pattern → Text
  | leaf k v n => showParts "LeafPattern" [k.map showKind, v.map Text.quoted, n.map Text.quoted]
  | tree k n => showParts "NodePattern" [k.map showKind, none, n.map Text.quoted]
  | within k cs n =>
    showParts "NodePattern"
      [k.map showKind, some ("[" ++ Text.join ", " (shownAll cs) ++ "]"), n.map Text.quoted]
  | anything _ _ n => showParts "WildcardPattern" [none, none, n.map Text.quoted]
  | choice os _ _ n =>
    showParts "WildcardPattern" [none, some (showTuple (shownOptions os)), n.map Text.quoted]
  | finish n => showParts "NegatedPattern" [none, none, n.map Text.quoted]
  | without p n => showParts "NegatedPattern" [none, some (shown p), n.map Text.quoted]

def shownAll : List Pattern → List Text
  | [] => []
  | p :: ps => shown p :: shownAll ps

def shownOptions : List (List Pattern) → List Text
  | [] => []
  | o :: os => showTuple (shownAll o) :: shownOptions os
end

end Pattern

end Retouch
