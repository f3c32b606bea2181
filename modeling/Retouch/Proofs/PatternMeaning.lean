import Retouch.Pattern.Compile
import Retouch.Proofs.Matching

/-!
# What the text of a pattern means

A text in the language of patterns is read as an expression (`Pattern.Expr`, `Language.read`): a
literal, a name, alternatives, a sequence, and so on.  An expression denotes a span of siblings
(`Expr.Denotes`): alternatives are a union, a sequence is one part after the other, a repeater is a
number of repetitions, and a negation takes nothing where what comes next does not begin with what is
negated.  There is one exception to reading the parts on their own: a node whose whole content is a
negation is never taken, not even if it has no children (`Expr.isNegation`).
-/

namespace Retouch.Pattern

open Span

/-- An expression of the language of patterns. -/
inductive Expr where
  | literal (value : Text)
  | token (kind : Option Kind)
  | tree (kind : Option Kind)
  /-- A tree, of a kind if one is given, with the content as its children. -/
  | node (kind : Option Kind) (content : Expr)
  | anyOf (options : List Expr)
  | inOrder (parts : List Expr)
  | optional (e : Expr)
  /-- At least `min` times, and at most `max` times if this is given. -/
  | repeated (e : Expr) (min : Nat) (max : Option Nat)
  | absent (e : Expr)
  | named (name : Text) (e : Expr)

namespace Expr

variable {α : Type}

/-! ## Denotations -/

/-- Is the tree a leaf with the characters, and a name if these begin with a letter, or else of the kind
of the operator if they are one? -/
def LiteralFits (value : Text) (t : Tree α) : Prop :=
  t.isLeaf = true ∧ t.isText value = true ∧
    if value.head?.any Text.isLetter then t.kind = Kind.name
    else ∀ k, Kind.ofOperator? value = some k → t.kind = k

def isNegation : Expr → Bool
  | absent _ => true
  | anyOf [e] | inOrder [e] | named _ e | repeated e 1 (some 1) => e.isNegation
  | _ => false

mutual
def Denotes : Expr → Span α
  | literal value => one (LiteralFits value)
  | token k => one fun t => t.isLeaf = true ∧ ∀ k', k = some k' → t.kind = k'
  | tree k => one fun t => ∀ k', k = some k' → t.kind = k'
  | node k e => one fun t => (∀ k', k = some k' → t.kind = k') ∧ e.isNegation = false ∧
      Denotes e t.children []
  | anyOf es => DenotesAny es
  | inOrder es => DenotesAll es
  | optional e => fun taken rest => taken = [] ∨ Denotes e taken rest
  | repeated e min max => fun taken rest =>
      ∃ k, min ≤ k ∧ (∀ m, max = some m → k ≤ m) ∧ times (Denotes e) k taken rest
  | absent e => Span.absent (Denotes e)
  | named _ e => Denotes e

def DenotesAny : List Expr → Span α
  | [] => fun _ _ => False
  | e :: es => fun taken rest => Denotes e taken rest ∨ DenotesAny es taken rest

def DenotesAll : List Expr → Span α
  | [] => nothing
  | e :: es => seq (Denotes e) (DenotesAll es)
end

mutual
/-- Nothing that is repeated can be empty, and no name is the one of greedy patterns. -/
def Regular (α : Type) : Expr → Prop
  | literal _ | token _ | tree _ => True
  | node _ e | optional e | absent e => Regular α e
  | anyOf es | inOrder es => RegularAll α es
  | repeated e _ _ => (∀ rest : List (Tree α), ¬ Denotes e [] rest) ∧ Regular α e
  | named n e => n ≠ greedyName ∧ Regular α e

def RegularAll (α : Type) : List Expr → Prop
  | [] => True
  | e :: es => Regular α e ∧ RegularAll α es
end

end Expr

/-! ## Reading trees -/

namespace Language

/-- What a tree of the language is read as. -/
inductive Item where
  | token (t : Leaf)
  | expr (e : Expr)
  | details (content : Expr)
  | repeater (min : Nat) (max : Option Nat)

def readRepeater : List Item → Option Item
  | [.token mark] => some (.repeater (if mark.kind = Kind.star then 0 else 1) none)
  | [.token _, .token n, .token _] =>
    some (.repeater (decimal n.value.shown) (some (decimal n.value.shown)))
  | [.token _, .token m, .token _, .token n, .token _] =>
    some (.repeater (decimal m.value.shown) (some (decimal n.value.shown)))
  | _ => none

/-- A name in capitals is a kind of tokens and has no details.  Another name is `any` or that of a
symbol. -/
def readName (name : Text) (content : Option Expr) : Option Expr :=
  if Text.allUpper name then
    match content with
    | none => (tokenKinds.lookup name).map .token
    | some _ => none
  else
    let kind : Option (Option Kind) :=
      if name = "any" then some none else (Language.symbol? name).map some
    match content with
    | none => kind.map .tree
    | some e => kind.map fun k => .node k e

/-- A literal, a name, or something in brackets, which are round or else mark an option. -/
def readBasic : List Item → Option Expr
  | [.token t] =>
    if t.kind = Kind.string then (Text.Literal.value t.value.shown).toOption.map .literal
    else if t.kind = Kind.name then readName t.value.shown none
    else none
  | [.token t, .details e] => if t.kind = Kind.name then readName t.value.shown (some e) else none
  | [.token t, .expr e, .token _] => some (if t.value.shown = "(" then e else .optional e)
  | _ => none

theorem readBasic_token (t : Leaf) : readBasic [.token t] =
    if t.kind = Kind.string then (Text.Literal.value t.value.shown).toOption.map .literal
    else if t.kind = Kind.name then readName t.value.shown none
    else none := rfl

theorem readBasic_details (t : Leaf) (e : Expr) : readBasic [.token t, .details e] =
    if t.kind = Kind.name then readName t.value.shown (some e) else none := rfl

def readRepeated (items : List Item) : Option Expr :=
  match items.getLast? with
  | some (.repeater min max) => (readBasic items.dropLast).map fun e => .repeated e min max
  | _ => readBasic items

def readUnit : List Item → Option Expr
  | .token n :: .token equal :: items =>
    if equal.kind = Kind.equal then (readRepeated items).map (.named n.value.shown) else none
  | items => readRepeated items

def readOptions : List Item → Option (List Expr)
  | [.expr e] => some [e]
  | .expr e :: .token _ :: items => (readOptions items).map (e :: ·)
  | _ => none

def readParts : List Item → Option (List Expr)
  | [] => some []
  | .expr e :: items => (readParts items).map (e :: ·)
  | _ => none

def readNode (k : Kind) (items : List Item) : Option Item :=
  if k = matcher then
    match items with
    | [.expr e, .token _] => some (.expr e)
    | _ => none
  else if k = alternatives then (readOptions items).map fun es => .expr (.anyOf es)
  else if k = alternative then (readParts items).map fun es => .expr (.inOrder es)
  else if k = unit then (readUnit items).map .expr
  else if k = negatedUnit then
    match items with
    | .token _ :: items => (readBasic items).map fun e => .expr (.absent e)
    | _ => none
  else if k = details then
    match items with
    | [.token _, .expr e, .token _] => some (.details e)
    | _ => none
  else if k = repeater then readRepeater items
  else none

mutual
def read : SyntaxTree → Option Item
  | .leaf _ t => some (.token t)
  | .node _ k cs => (readAll cs).bind (readNode k)

def readAll : List SyntaxTree → Option (List Item)
  | [] => some []
  | c :: cs => (read c).bind fun item => (readAll cs).map (item :: ·)
end

theorem read_node (k : Kind) (cs : List SyntaxTree) :
    read (.node () k cs) = (readAll cs).bind (readNode k) := rfl

theorem readAll_cons (c : SyntaxTree) (cs : List SyntaxTree) :
    readAll (c :: cs) = (read c).bind fun item => (readAll cs).map (item :: ·) := rfl

end Language

end Retouch.Pattern
