import Retouch.Text.Word
import Retouch.Token.Basic

/-!
# Lexemes

The recognisers of the smallest parts of a line.  Each looks at the characters from the current
place on and returns how many of them it takes, so that a lexeme is always a slice of the line.
Where several could apply the order in `lexeme?` decides, not the length.
-/

namespace Retouch.Lexeme

/-- How many characters at the front satisfy `p`. -/
def span (p : Char → Bool) (cs : Text) : Nat := (cs.takeWhile p).length

/-- Does the character at the front satisfy `p`? -/
def headIs (p : Char → Bool) : Text → Bool
  | [] => false
  | c :: _ => p c

/-- One, if the character at the front satisfies `p`, and zero otherwise. -/
def optional (p : Char → Bool) (cs : Text) : Nat := if headIs p cs then 1 else 0

def single? (p : Char → Bool) (cs : Text) : Option Nat := if headIs p cs then some 1 else none

def isSeparator (c : Char) : Bool := c == ' ' || c == '\x0c' || c == '\t'

/-! ## Numbers -/

def isOctal (c : Char) : Bool := '0' ≤ c && c ≤ '7'

def isHex (c : Char) : Bool :=
  Text.isDecimal c || ('a' ≤ c && c ≤ 'f') || ('A' ≤ c && c ≤ 'F')

def isLongMark (c : Char) : Bool := c == 'l' || c == 'L'

def isImaginaryMark (c : Char) : Bool := c == 'j' || c == 'J'

def isExponentMark (c : Char) : Bool := c == 'e' || c == 'E'

def isSign (c : Char) : Bool := c == '-' || c == '+'

/-- An exponent: its mark, a sign or none, and digits. -/
def exponent? (cs : Text) : Option Nat :=
  let sign := optional isSign (cs.drop 1)
  let digits := span Text.isDecimal (cs.drop (1 + sign))
  if headIs isExponentMark cs = true ∧ 0 < digits then some (1 + sign + digits) else none

/-- Digits, and then what `r` takes. -/
def afterDigits? (r : Text → Option Nat) (cs : Text) : Option Nat :=
  let digits := span Text.isDecimal cs
  if 0 < digits then (r (cs.drop digits)).map (digits + ·) else none

/-- A number with a point. -/
def pointed? (cs : Text) : Option Nat :=
  let whole := span Text.isDecimal cs
  let fraction := span Text.isDecimal (cs.drop (whole + 1))
  let size := whole + 1 + fraction
  if headIs (· == '.') (cs.drop whole) = true ∧ 0 < whole + fraction then
    some (size + (exponent? (cs.drop size)).getD 0)
  else none

def float? (cs : Text) : Option Nat := pointed? cs <|> afterDigits? exponent? cs

/-- A number with a point or exponent, and the mark of an imaginary one. -/
def markedFloat? (cs : Text) : Option Nat :=
  (float? cs).bind fun size => if headIs isImaginaryMark (cs.drop size) then some (size + 1) else none

def imaginary? (cs : Text) : Option Nat := afterDigits? (single? isImaginaryMark) cs <|> markedFloat? cs

/-- The size of the first `n` characters with the mark of a long number after them, if there. -/
def withLongMark (cs : Text) (n : Nat) : Nat := n + optional isLongMark (cs.drop n)

def binary? (cs : Text) : Option Nat :=
  if headIs (· == '0') cs && headIs (fun c => c == 'b' || c == 'B') (cs.drop 1) then
    some (2 + span (fun c => c == '0' || c == '1') (cs.drop 2))
  else none

def hexadecimal? (cs : Text) : Option Nat :=
  if headIs (· == '0') cs && headIs (fun c => c == 'x' || c == 'X') (cs.drop 1) then
    some (withLongMark cs (2 + span isHex (cs.drop 2)))
  else none

/-- An octal number, with or without the letter. -/
def octal? (cs : Text) : Option Nat :=
  let letter := optional (fun c => c == 'o' || c == 'O') (cs.drop 1)
  if headIs (· == '0') cs then
    some (withLongMark cs (1 + letter + span isOctal (cs.drop (1 + letter))))
  else none

def decimal? (cs : Text) : Option Nat :=
  if headIs (fun c => '1' ≤ c && c ≤ '9') cs then
    some (withLongMark cs (1 + span Text.isDecimal (cs.drop 1)))
  else none

def integer? (cs : Text) : Option Nat := binary? cs <|> hexadecimal? cs <|> octal? cs <|> decimal? cs

/-- A number: imaginary, with a point or exponent, or an integer, in that order. -/
def number? (cs : Text) : Option Nat :=
  imaginary? cs <|> float? cs <|> integer? cs

/-! ## Operators, brackets and line ends -/

/-- The operators of which the second or third character can be an equals sign. -/
def isAssignable (c : Char) : Bool :=
  c == '+' || c == '-' || c == '*' || c == '/' || c == '%' || c == '&' || c == '|' || c == '^' ||
    c == '=' || c == '<' || c == '>'

/-- Do the first two characters satisfy `p`? -/
def pairIs (p : Char → Char → Bool) : Text → Bool
  | c :: d :: _ => p c d
  | _ => false

def isDoubled (c d : Char) : Bool := c == d && (c == '*' || c == '<' || c == '>' || c == '/')

/-- The other operators of two characters that an equals sign does not join. -/
def isPaired (c d : Char) : Bool := c == '<' && d == '>' || c == '!' && d == '=' || c == '-' && d == '>'

def doubled? (cs : Text) : Option Nat :=
  if pairIs isDoubled cs then some (2 + optional (· == '=') (cs.drop 2)) else none

def paired? (cs : Text) : Option Nat := if pairIs isPaired cs then some 2 else none

def assignable? (cs : Text) : Option Nat :=
  if headIs isAssignable cs then some (1 + optional (· == '=') (cs.drop 1)) else none

/-- An operator.  The doubled ones go first, so that they are not read as two. -/
def operator? (cs : Text) : Option Nat :=
  doubled? cs <|> paired? cs <|> assignable? cs <|> single? (· == '~') cs

def isMark (c : Char) : Bool :=
  c == '[' || c == ']' || c == '(' || c == ')' || c == '\x7b' || c == '\x7d' || c == ':' ||
    c == ';' || c == '.' || c == ',' || c == '\x60' || c == '@'

def lineEnd? : Text → Option Nat
  | '\n' :: _ => some 1
  | '\r' :: '\n' :: _ => some 2
  | _ => none

def mark? (cs : Text) : Option Nat :=
  operator? cs <|> lineEnd? cs <|> single? isMark cs

/-! ## Strings -/

def isQuote (c : Char) : Bool := c == '\'' || c == '"'

/-- How many letters stand before the opening quote: a type letter, then a raw letter. -/
def stringLetters (cs : Text) : Nat :=
  let type := optional (fun c => c == 'u' || c == 'U' || c == 'b' || c == 'B') cs
  type + optional (fun c => c == 'r' || c == 'R') (cs.drop type)

/-- Letters and a quote, with what is taken after them. -/
def quoted? (after : Char → Text → Option Nat) (cs : Text) : Option Nat :=
  match cs.drop (stringLetters cs) with
  | q :: rest => if isQuote q then (after q rest).map (stringLetters cs + 1 + ·) else none
  | [] => none

def tripleOpening? : Text → Option Nat :=
  quoted? fun q rest => if [q, q] <+: rest then some 2 else none

/-- The rest of a string of one line: up to the closing quote, or up to the line end after a
backslash.  `escapedReturn` tells that the characters just taken are a backslash and a carriage
return, which a newline turns into an escaped line end. -/
def stringRest? (quote : Char) (escapedReturn : Bool) : Text → Option Nat
  | [] => none
  | c :: cs =>
    if c = quote then some 1
    else if c = '\n' then if escapedReturn then some 1 else none
    else if c = '\\' then
      match cs with
      | [] => none
      | d :: ds =>
        if d = '\n' then some 2 else (stringRest? quote (d == '\r') ds).map (· + 2)
    else (stringRest? quote false cs).map (· + 1)

def string? : Text → Option Nat := quoted? (stringRest? · false)

/-- How a string that is still open will be closed. -/
inductive Closing where
  | single (quote : Char)
  | triple (quote : Char)
deriving DecidableEq, Repr

def Closing.quotes : Closing → Text
  | .single q => [q]
  | .triple q => [q, q, q]

def closeBy? (quotes : Text) : Text → Option Nat
  | [] => none
  | c :: cs =>
    if quotes <+: c :: cs then some quotes.length
    else if c = '\\' then
      match cs with
      | [] => none
      | d :: ds => if d = '\n' then none else (closeBy? quotes ds).map (· + 2)
    else (closeBy? quotes cs).map (· + 1)

/-- How many characters of the line belong to the string that is still open, if it closes here. -/
def Closing.find? (closing : Closing) : Text → Option Nat := closeBy? closing.quotes

/-! ## Names, comments and the choice among all -/

def isNameStart (c : Char) : Bool := c.isAlpha || c == '_'

def name? (cs : Text) : Option Nat :=
  if headIs isNameStart cs then some (1 + span Text.isWord (cs.drop 1)) else none

def comment? (cs : Text) : Option Nat :=
  if headIs (· == '#') cs then some (1 + span (fun c => c != '\r' && c != '\n') (cs.drop 1))
  else none

def continuation? : Text → Option Nat
  | '\\' :: cs => (lineEnd? cs).map (· + 1)
  | _ => none

/-- The next lexeme of a line: how many separators stand before it, and its size. -/
structure Next where
  skipped : Nat
  size : Nat
  size_pos : 0 < size

/-- The size of the lexeme that starts here, by the first class that applies. -/
def size? (cs : Text) : Option Nat :=
  continuation? cs <|> comment? cs <|> tripleOpening? cs <|> number? cs <|> mark? cs <|>
    string? cs <|> name? cs

/-- The next lexeme of the line after any separators; none if no class applies. -/
def next? (cs : Text) : Option Next :=
  let skipped := span isSeparator cs
  match size? (cs.drop skipped) with
  | some size => if h : 0 < size then some ⟨skipped, size, h⟩ else none
  | none => none

end Retouch.Lexeme
