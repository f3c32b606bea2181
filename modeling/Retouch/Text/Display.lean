import Retouch.Text.Quoted

/-!
# Display of nested data

Numbers, texts, lists, tuples and maps are shown on one line if they fit into the width, and else
with one element to a line, each indented to the column after the opening bracket.
-/

namespace Retouch.Text

inductive Datum where
  | nothing
  | number (n : Int)
  | text (t : Text)
  | list (items : List Datum)
  | tuple (items : List Datum)
  | map (entries : List (Datum × Datum))

namespace Datum

mutual
def flat : Datum → Text
  | nothing => "None"
  | number n => ofInt n
  | text t => quoted t
  | list items => "[" ++ join ", " (flatAll items) ++ "]"
  | tuple [item] => "(" ++ flat item ++ ",)"
  | tuple items => "(" ++ join ", " (flatAll items) ++ ")"
  | map entries => ['\x7b'] ++ join ", " (flatEntries entries) ++ ['\x7d']

def flatAll : List Datum → List Text
  | [] => []
  | d :: ds => flat d :: flatAll ds

def flatEntries : List (Datum × Datum) → List Text
  | [] => []
  | (k, v) :: es => (flat k ++ ": " ++ flat v) :: flatEntries es
end

def breakLine (indent : Nat) : Text := ",\n" ++ repeated indent ' '

mutual
/-- The display from column `indent` on, with `allowance` characters after it on its last line. -/
def layout (width indent allowance : Nat) : Datum → Text
  | nothing => "None"
  | number n => ofInt n
  | text t => quoted t
  | list items =>
    let line := flat (list items)
    if line.length + indent + allowance ≤ width then line
    else "[" ++ layoutAll width (indent + 1) (allowance + 1) items ++ "]"
  | tuple items =>
    let line := flat (tuple items)
    if line.length + indent + allowance ≤ width then line
    else
      let closing : Text := if items.length = 1 then ",)" else ")"
      "(" ++ layoutAll width (indent + 1) (allowance + closing.length) items ++ closing
  | map entries =>
    let line := flat (map entries)
    if line.length + indent + allowance ≤ width then line
    else ['\x7b'] ++ layoutEntries width (indent + 1) (allowance + 1) entries ++ ['\x7d']

def layoutAll (width indent allowance : Nat) : List Datum → Text
  | [] => []
  | [d] => layout width indent allowance d
  | d :: ds => layout width indent 1 d ++ breakLine indent ++ layoutAll width indent allowance ds

def layoutEntries (width indent allowance : Nat) : List (Datum × Datum) → Text
  | [] => []
  | [(k, v)] =>
    flat k ++ ": " ++ layout width (indent + (flat k).length + 2) allowance v
  | (k, v) :: es =>
    flat k ++ ": " ++ layout width (indent + (flat k).length + 2) 1 v ++ breakLine indent ++
      layoutEntries width indent allowance es
end

def display (d : Datum) : Text := layout 80 0 0 d ++ "\n"

end Datum

end Retouch.Text
