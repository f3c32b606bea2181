import Retouch.Text.Literal

/-!
# Literals with wide escapes

The value of a string literal in the notation that also has escapes of four and eight hexadecimal
digits and in which a backslash at the end of a line joins the line with the next one.
-/

namespace Retouch.Text.Literal

/-- The number written by hexadecimal digits of ASCII, if there are exactly `width` of them. -/
def hexNumber? (width : Nat) (cs : Text) : Option Nat :=
  let ds := cs.take width
  if ds.length = width ∧ ds.all (fun c => c.isDigit || ('a' ≤ c && c ≤ 'f') || ('A' ≤ c && c ≤ 'F'))
  then some (ds.foldl (fun n c => 16 * n + (hexValue? c).getD 0) 0)
  else none

def wideDigits? (c : Char) : Option Nat :=
  if c = 'x' then some 2 else if c = 'u' then some 4 else if c = 'U' then some 8 else none

/-- The characters between the quotes with their escapes read, wide ones included.  `skip`
characters belong to the escape just read. -/
def unescapeWide : (skip : Nat) → Text → Except Error Text
  | _, [] => .ok []
  | skip + 1, _ :: cs => unescapeWide skip cs
  | 0, c :: cs =>
    if c = '\\' then
      match cs.head? with
      | none => .ok ['\\']
      | some d =>
        if d = '\n' then unescapeWide 1 cs
        else
          match simpleEscape? d, wideDigits? d with
          | some v, _ => return v :: (← unescapeWide 1 cs)
          | none, some width =>
            match hexNumber? width (cs.drop 1) with
            | some n => return Char.ofNat n :: (← unescapeWide (width + 1) cs)
            | none => throw (.hexEscape (d :: (cs.drop 1).take width))
          | none, none =>
            match octalDigits cs with
            | [] => return '\\' :: (← unescapeWide 0 cs)
            | ds => return Char.ofNat (octalValue ds) :: (← unescapeWide ds.length cs)
    else return c :: (← unescapeWide 0 cs)

def wideValue (s : Text) : Except Error Text :=
  match opening? s with
  | none => .error .unquoted
  | some q =>
    if !endsWith q s || s.length < 2 * q.length then .error .unquoted
    else unescapeWide 0 ((s.drop q.length).take (s.length - 2 * q.length))

end Retouch.Text.Literal
