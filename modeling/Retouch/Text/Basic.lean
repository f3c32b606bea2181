/-!
# Text

Everything the program reads, keeps and prints is a list of characters.  A literal stands for the
list of its characters, so the rules below can be written with plain literals and reasoned about
as facts on lists.
-/

namespace Retouch

abbrev Text := List Char

/-- A literal is the list of its characters. -/
scoped instance : Coe String Text := ⟨String.toList⟩

namespace Text

def ofNat (n : Nat) : Text := Nat.toDigits 10 n

/-- The decimal digits of an integer, after a minus sign if it is negative. -/
def ofInt : Int → Text
  | .ofNat n => ofNat n
  | .negSucc n => '-' :: ofNat (n + 1)

/-- The pieces one after the other, with `sep` between neighbours. -/
def join (sep : Text) : List Text → Text
  | [] => []
  | [t] => t
  | t :: ts => t ++ sep ++ join sep ts

def concat (pieces : List Text) : Text := pieces.flatten

/-- Does the text begin with `lead`? -/
def startsWith (lead t : Text) : Bool := lead.isPrefixOf t

/-- Does the text end with `tail`? -/
def endsWith (tail t : Text) : Bool := tail.isSuffixOf t

/-- The text without the characters at its end that satisfy `p`. -/
def dropEnd (p : Char → Bool) (t : Text) : Text := (t.reverse.dropWhile p).reverse

/-- The text without the characters at both ends that satisfy `p`. -/
def trim (p : Char → Bool) (t : Text) : Text := dropEnd p (t.dropWhile p)

/-- The pieces of the text between the characters `sep`; a text without `sep` is one piece. -/
def splitOn (sep : Char) : Text → List Text
  | [] => [[]]
  | c :: cs =>
    if c = sep then [] :: splitOn sep cs
    else
      match splitOn sep cs with
      | [] => [[c]]
      | p :: ps => (c :: p) :: ps

/-- The part of the text before the first `sep`, and the part after it if there is one. -/
def cut (sep : Char) : Text → Text × Option Text
  | [] => ([], none)
  | c :: cs =>
    if c = sep then ([], some cs)
    else ((c :: (cut sep cs).1), (cut sep cs).2)

/-- The part of the text before its last `sep`, and the part after it; a text without `sep` has
nothing before it. -/
def cutLast (sep : Char) (t : Text) : Option Text × Text :=
  let (after, before) := cut sep t.reverse
  (before.map List.reverse, after.reverse)

/-- The number of characters before the first occurrence of `part`. -/
def indexOf? (part : Text) : Text → Option Nat
  | [] => if part = [] then some 0 else none
  | c :: cs => if startsWith part (c :: cs) then some 0 else (indexOf? part cs).map (· + 1)

/-- `n` copies of one character. -/
def repeated (n : Nat) (c : Char) : Text := List.replicate n c

/-- The text with the letters `A` to `Z` in lower case. -/
def lowered (t : Text) : Text := t.map Char.toLower

/-- Order by the numbers of the characters, a text before its own continuations. -/
def le : Text → Text → Bool
  | [], _ => true
  | _ :: _, [] => false
  | a :: as, b :: bs => if a = b then le as bs else a.val < b.val

def insertSorted (t : Text) : List Text → List Text
  | [] => [t]
  | u :: us => if le t u then t :: u :: us else u :: insertSorted t us

def sorted (ts : List Text) : List Text := ts.foldr insertSorted []

end Text

end Retouch
