/-!
# Maps that remember their order

A finite map as the list of its entries.  A new key goes to the end and an old key keeps its place
when its value changes, so that reading the entries off gives the order in which the keys came.
-/

namespace Retouch

/-- The entries of a map, in the order in which their keys were first inserted. -/
abbrev OrderedMap (κ α : Type) := List (κ × α)

namespace OrderedMap

variable {κ α : Type} [BEq κ]

def get? (m : OrderedMap κ α) (k : κ) : Option α := m.lookup k

def has (m : OrderedMap κ α) (k : κ) : Bool := (m.lookup k).isSome

/-- The map with a value for a key, at the key's old place or else at the end. -/
def insert (m : OrderedMap κ α) (k : κ) (v : α) : OrderedMap κ α :=
  match m with
  | [] => [(k, v)]
  | (k', v') :: rest => if k' == k then (k', v) :: rest else (k', v') :: insert rest k v

/-- The map with a key's value changed by `f`, which starts from `init` if the key is new. -/
def alter (m : OrderedMap κ α) (k : κ) (init : α) (f : α → α) : OrderedMap κ α :=
  insert m k (f ((m.lookup k).getD init))

def update (m other : OrderedMap κ α) : OrderedMap κ α :=
  other.foldl (fun acc e => insert acc e.1 e.2) m

def erase (m : OrderedMap κ α) (k : κ) : OrderedMap κ α := m.filter fun e => !(e.1 == k)

def keys (m : OrderedMap κ α) : List κ := m.map Prod.fst

end OrderedMap

/-- A list with an element at its end, unless the element is in it already. -/
def insertNew {α : Type} [BEq α] (l : List α) (a : α) : List α :=
  if l.contains a then l else l ++ [a]

end Retouch
