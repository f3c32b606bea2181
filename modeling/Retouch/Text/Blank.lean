import Retouch.Text.Basic

/-!
# Blank characters

The characters that count as white space where a text is stripped or tested for being blank.
-/

namespace Retouch.Text

/-- White space: the control characters that move the print position, the four information
separators, the space and the spaces of other widths, and the line and paragraph separators. -/
def isBlank (c : Char) : Bool :=
  let n := c.toNat
  (9 ≤ n && n ≤ 13) || (28 ≤ n && n ≤ 32) || n == 133 || n == 160 || n == 5760 ||
    (8192 ≤ n && n ≤ 8202) || n == 8232 || n == 8233 || n == 8239 || n == 8287 || n == 12288

def strip (t : Text) : Text := trim isBlank t

def stripStart (t : Text) : Text := t.dropWhile isBlank

def stripEnd (t : Text) : Text := dropEnd isBlank t

def allBlank (t : Text) : Bool := !t.isEmpty && t.all isBlank

end Retouch.Text
