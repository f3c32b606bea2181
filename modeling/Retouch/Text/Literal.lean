import Retouch.Text.Blank
import Retouch.Text.Decimal
import Retouch.Text.Quoted

/-!
# String literals

The value of a string literal between single or double quotes, or between three of either.  The
escapes of one letter, hexadecimal escapes of two digits and octal escapes of up to three digits
are read; any other backslash stands for itself.
-/

namespace Retouch.Text.Literal

/-- Why a text has no value as a string literal. -/
inductive Error where
  | unquoted
  /-- A hexadecimal escape is not followed by two digits; `tail` is what follows the backslash. -/
  | hexEscape (tail : Text)
  /-- An escape names a negative character number. -/
  | negative
deriving DecidableEq, Repr

def Error.message? : Error → Option Text
  | .hexEscape tail => some ("invalid hex string escape ('\\" ++ tail ++ "')")
  | _ => none

def simpleEscape? (c : Char) : Option Char :=
  match c with
  | 'a' => some '\x07'
  | 'b' => some '\x08'
  | 'f' => some '\x0c'
  | 'n' => some '\n'
  | 'r' => some '\r'
  | 't' => some '\t'
  | 'v' => some '\x0b'
  | '\'' => some '\''
  | '"' => some '"'
  | '\\' => some '\\'
  | _ => none

/-- The value of a hexadecimal digit; the decimal digits of all scripts count. -/
def hexValue? (c : Char) : Option Nat :=
  match decimalValue? c with
  | some v => some v
  | none =>
    if 'a' ≤ c ∧ c ≤ 'f' then some (c.toNat - 87)
    else if 'A' ≤ c ∧ c ≤ 'F' then some (c.toNat - 55)
    else none

/-- White space around a number: the usual ASCII characters and all white space beyond ASCII. -/
def isNumberBlank (c : Char) : Bool :=
  if c.toNat < 128 then c == ' ' || ('\x09' ≤ c && c ≤ '\x0d') else isBlank c

/-- The number written in two characters: two digits, or one digit with a sign before it or with
white space on one side. -/
def hexPair? (a b : Char) : Option Int :=
  match hexValue? a, hexValue? b with
  | some x, some y => some (16 * x + y)
  | some x, none => if isNumberBlank b then some x else none
  | none, some y =>
    if isNumberBlank a || a == '+' then some y
    else if a == '-' then some (-y)
    else none
  | none, none => none

def octalDigits (cs : Text) : Text := (cs.take 3).takeWhile fun c => '0' ≤ c && c ≤ '7'

def octalValue (ds : Text) : Nat := ds.foldl (fun n c => 8 * n + (c.toNat - 48)) 0

/-- The characters between the quotes with their escapes read.  `skip` characters belong to the
escape just read. -/
def unescape : (skip : Nat) → Text → Except Error Text
  | _, [] => .ok []
  | skip + 1, _ :: cs => unescape skip cs
  | 0, c :: cs =>
    if c = '\\' then
      match cs.head? with
      | none => .ok ['\\']
      | some d =>
        match simpleEscape? d with
        | some v => return v :: (← unescape 1 cs)
        | none =>
          if d = 'x' then
            match ((cs.drop 1).take 2).takeWhile (· != '\n') with
            | [a, b] =>
              match hexPair? a b with
              | some (.ofNat n) => return Char.ofNat n :: (← unescape 3 cs)
              | some (.negSucc _) => throw .negative
              | none => throw (.hexEscape ['x', a, b])
            | short => throw (.hexEscape ('x' :: short))
          else
            match octalDigits cs with
            | [] => return '\\' :: (← unescape 0 cs)
            | ds => return Char.ofNat (octalValue ds) :: (← unescape ds.length cs)
    else return c :: (← unescape 0 cs)

/-- The quotes that a text starts with: three if it can be, otherwise one. -/
def opening? : Text → Option Text
  | c :: cs =>
    if c = '\'' ∨ c = '"' then
      if startsWith [c, c] cs then some [c, c, c] else some [c]
    else none
  | [] => none

def value (s : Text) : Except Error Text :=
  match opening? s with
  | none => .error .unquoted
  | some q =>
    if !endsWith q s || s.length < 2 * q.length then .error .unquoted
    else unescape 0 ((s.drop q.length).take (s.length - 2 * q.length))

/-- The characters numbered below 256 whose quoted form does not evaluate to them, one line for
each: number, character, quoted form and value. -/
def selfTest : Text :=
  (List.range 256).flatMap fun n =>
    let c : Text := [Char.ofNat n]
    let s := quoted c
    match value s with
    | .ok e => if e = c then [] else
        ofNat n ++ " " ++ c ++ " " ++ s ++ " " ++ e ++ "\n"
    | .error _ => []

end Retouch.Text.Literal
