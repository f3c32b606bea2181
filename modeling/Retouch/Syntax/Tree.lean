import Retouch.Text.Quoted
import Retouch.Token.Basic
import Retouch.Language.Symbol

/-!
# Syntax trees

A tree keeps every token of the text together with the blanks and comments before it, so that the
text of a tree is exactly what was read.  Every node carries a tag; a tree that was just parsed has
no need of one, and the trees seen by patterns and fixers are tagged with where they came from.
-/

namespace Retouch

/-- The value of a leaf: its characters.  Leaves that are made while a program is refactored can
also have a number as their value, or none. -/
inductive Value where
  | text (t : Text)
  | number (n : Int)
  | absent
deriving DecidableEq, Repr, Inhabited

namespace Value

def shown : Value → Text
  | text t => t
  | number n => Text.ofInt n
  | absent => "None"

def quoted : Value → Text
  | text t => Text.quoted t
  | number n => Text.ofInt n
  | absent => "None"

def is (t : Text) : Value → Bool
  | text u => u == t
  | _ => false

end Value

/-- A leaf: a token with the blanks and comments before it, and its place. -/
structure Leaf where
  kind : Kind
  value : Value
  /-- The blanks and comments before the token. -/
  lead : Text := []
  line : Nat := 0
  column : Nat := 0
deriving DecidableEq, Repr, Inhabited

namespace Leaf

def text (l : Leaf) : Text := l.lead ++ l.value.shown

def ofText (kind : Kind) (t : Text) : Leaf := { kind, value := .text t }

end Leaf

/-- A syntax tree whose nodes carry tags. -/
inductive Tree (α : Type) where
  | leaf (tag : α) (token : Leaf)
  | node (tag : α) (kind : Kind) (children : List (Tree α))
deriving Repr, Inhabited

abbrev SyntaxTree := Tree Unit

namespace Tree

variable {α : Type}

def tag : Tree α → α
  | leaf t _ => t
  | node t _ _ => t

def kind : Tree α → Kind
  | leaf _ l => l.kind
  | node _ k _ => k

def children : Tree α → List (Tree α)
  | leaf _ _ => []
  | node _ _ cs => cs

def isLeaf : Tree α → Bool
  | leaf _ _ => true
  | node _ _ _ => false

def token? : Tree α → Option Leaf
  | leaf _ l => some l
  | node _ _ _ => none

def value? (t : Tree α) : Option Value := t.token?.map Leaf.value

def isText (t : Text) (tree : Tree α) : Bool := (tree.value?.map (Value.is t)).getD false

mutual
def text : Tree α → Text
  | leaf _ l => l.text
  | node _ _ cs => textAll cs

def textAll : List (Tree α) → Text
  | [] => []
  | t :: ts => text t ++ textAll ts
end

mutual
def leaves : Tree α → List Leaf
  | leaf _ l => [l]
  | node _ _ cs => leavesAll cs

def leavesAll : List (Tree α) → List Leaf
  | [] => []
  | t :: ts => leaves t ++ leavesAll ts
end

mutual
/-- Do two trees have the same kinds and values?  Blanks, places and tags do not count. -/
def same : Tree α → Tree α → Bool
  | leaf _ a, leaf _ b => a.kind == b.kind && a.value == b.value
  | node _ k as, node _ l bs => k == l && sameAll as bs
  | _, _ => false

def sameAll : List (Tree α) → List (Tree α) → Bool
  | [], [] => true
  | a :: as, b :: bs => same a b && sameAll as bs
  | _, _ => false
end

mutual
def nodes : Tree α → List (Tree α)
  | leaf t l => [leaf t l]
  | node t k cs => node t k cs :: nodesAll cs

def nodesAll : List (Tree α) → List (Tree α)
  | [] => []
  | t :: ts => nodes t ++ nodesAll ts
end

mutual
def retag {β : Type} (f : α → β) : Tree α → Tree β
  | leaf t l => leaf (f t) l
  | node t k cs => node (f t) k (retagAll f cs)

def retagAll {β : Type} (f : α → β) : List (Tree α) → List (Tree β)
  | [] => []
  | t :: ts => retag f t :: retagAll f ts
end

mutual
def lead : Tree α → Text
  | leaf _ l => l.lead
  | node _ _ cs => leadAll cs

def leadAll : List (Tree α) → Text
  | [] => []
  | t :: _ => lead t
end

mutual
def line? : Tree α → Option Nat
  | leaf _ l => some l.line
  | node _ _ cs => lineAll? cs

def lineAll? : List (Tree α) → Option Nat
  | [] => none
  | t :: _ => line? t
end

/-- The kind of an interior node in messages: the name of a symbol of the language, or else the
number. -/
def kindName (k : Kind) : Text := (Language.symbolName? k).getD (Text.ofNat k)

mutual
def shown : Tree α → Text
  | leaf _ l => "Leaf(" ++ Text.ofNat l.kind ++ ", " ++ l.value.quoted ++ ")"
  | node _ k cs => "Node(" ++ kindName k ++ ", [" ++ Text.join ", " (shownAll cs) ++ "])"

def shownAll : List (Tree α) → List Text
  | [] => []
  | t :: ts => shown t :: shownAll ts
end

mutual
/-- The tree with each node tagged by its path, where the root has the path `above`. -/
def withPaths (above : List Nat) : Tree α → Tree (List Nat)
  | leaf _ l => leaf above l
  | node _ k cs => node above k (withPathsFrom above 0 cs)

/-- Trees from the place `i` below a node on, tagged by their paths. -/
def withPathsFrom (above : List Nat) (i : Nat) : List (Tree α) → List (Tree (List Nat))
  | [] => []
  | t :: ts => withPaths (above ++ [i]) t :: withPathsFrom above (i + 1) ts
end

/-! ## Building trees -/

def leaf? (kind : Int) (value : Value) (lead : Text) : Option SyntaxTree :=
  if 0 ≤ kind ∧ kind < Kind.firstSymbol then
    some (.leaf () { kind := kind.toNat, value, lead })
  else none

def node? (kind : Int) (children : List SyntaxTree) : Option SyntaxTree :=
  if (Kind.firstSymbol : Int) ≤ kind then some (.node () kind.toNat children) else none

end Tree

end Retouch
