import Retouch.Text.Basic

/-!
# Lines

A text falls into lines in two ways.  `lines` ends a line at every character that ends one in some
convention, `newlineLines` only at a newline.  Each line keeps the characters that end it, so the
lines of a text put together are the text.
-/

namespace Retouch.Text

def isLineEnd (c : Char) : Bool :=
  c == '\n' || c == '\r' || c == '\x0b' || c == '\x0c' || c == '\x1c' || c == '\x1d' ||
    c == '\x1e' || c == '\x85' || c == '\u2028' || c == '\u2029'

def consLine (c : Char) : List Text → List Text
  | [] => [[c]]
  | l :: ls => (c :: l) :: ls

/-- The lines of a text, each with the characters that end it.  A carriage return with a newline
after it is one line end. -/
def lines : Text → List Text
  | [] => []
  | '\r' :: '\n' :: cs => ['\r', '\n'] :: lines cs
  | c :: cs => if isLineEnd c then [c] :: lines cs else consLine c (lines cs)

def bareLines (t : Text) : List Text :=
  (lines t).map fun l =>
    match l.reverse with
    | '\n' :: '\r' :: rest => rest.reverse
    | c :: rest => if isLineEnd c then rest.reverse else l
    | [] => l

def newlineLines : Text → List Text
  | [] => []
  | c :: cs => if c = '\n' then ['\n'] :: newlineLines cs else consLine c (newlineLines cs)

/-- The text with every line end of two systems, a carriage return with or without a newline,
written as a newline. -/
def unifyNewlines : Text → Text
  | [] => []
  | '\r' :: '\n' :: cs => '\n' :: unifyNewlines cs
  | c :: cs => (if c = '\r' then '\n' else c) :: unifyNewlines cs

end Retouch.Text
