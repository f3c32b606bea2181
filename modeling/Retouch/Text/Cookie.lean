import Retouch.Text.Blank
import Retouch.Text.Word

/-!
# Declared encodings

A source file says how its characters are encoded by a byte order mark, or by a comment on one of
its first two lines that names the encoding.
-/

namespace Retouch.Text.Cookie

abbrev Bytes := List UInt8

inductive Error where
  | unknown (name : Text)
  /-- The file has a byte order mark of UTF-8 and names another encoding. -/
  | conflict
deriving DecidableEq, Repr

def Error.message : Error → Text
  | .unknown name => "unknown encoding: " ++ name
  | .conflict => "encoding problem: utf-8"

/-- The usual name of an encoding: of the first twelve characters, in lower case and with hyphens,
the families of UTF-8 and Latin-1 have one name each; other names stay as they are. -/
def usualName (name : Text) : Text :=
  let short := (lowered (name.take 12)).map fun c => if c = '_' then '-' else c
  if short = "utf-8" ∨ startsWith "utf-8-" short then "utf-8"
  else if short ∈ (["latin-1", "iso-8859-1", "iso-latin-1"] : List Text) ∨
      (["latin-1-", "iso-8859-1-", "iso-latin-1-"] : List Text).any (startsWith · short) then
    "iso-8859-1"
  else name

/-- The encodings that can be read and written. -/
inductive Encoding where
  | utf8
  | utf8Signed
  | ascii
  | latin1
  | latin9
  | thai
  | windows1252
deriving DecidableEq, Repr

/-- The encoding of a given name, in any case and with underscores for hyphens. -/
def Encoding.ofName? (name : Text) : Option Encoding :=
  let plain := (lowered name).map fun c => if c = '_' then '-' else c
  if plain ∈ (["utf-8", "utf8", "u8"] : List Text) then some .utf8
  else if plain = "utf-8-sig" then some .utf8Signed
  else if plain = "ascii" then some .ascii
  else if plain = "latin-1" ∨ plain = "iso-8859-1" then some .latin1
  else if plain = "iso-8859-15" then some .latin9
  else if plain = "iso-8859-11" then some .thai
  else if plain = "cp1252" then some .windows1252
  else none

/-- The name that stands after `coding:` or `coding=` at the front of a text. -/
def nameHere? (cs : Text) : Option Text :=
  if startsWith "coding" cs then
    match cs.drop 6 with
    | c :: rest =>
      if c = ':' ∨ c = '=' then
        match (rest.dropWhile isBlank).takeWhile fun c => isWord c || c == '-' || c == '.' with
        | [] => none
        | name => some name
      else none
    | [] => none
  else none

def name? : Text → Option Text
  | [] => none
  | c :: cs => nameHere? (c :: cs) <|> name? cs

def asciiText? (bs : Bytes) : Option Text :=
  if bs.all (· < 128) then some (bs.map fun b => Char.ofNat b.toNat) else none

def mark : Bytes := [0xEF, 0xBB, 0xBF]

def ofLine (marked : Bool) (line : Bytes) : Except Error (Option Text) :=
  match (asciiText? line).bind name? with
  | none => .ok none
  | some found =>
    let name := usualName found
    match Encoding.ofName? name with
    | none => .error (.unknown name)
    | some encoding =>
      if marked then
        if encoding = .utf8 then .ok (some (name ++ "-sig")) else .error .conflict
      else .ok (some name)

/-- The encoding of a file and the lines that were read to find it, without the byte order mark. -/
def detect (lines : List Bytes) : Except Error (Text × List Bytes) := do
  let read := lines.headD []
  let marked := mark.isPrefixOf read
  let first := if marked then read.drop 3 else read
  let default : Text := if marked then "utf-8-sig" else "utf-8"
  if first = [] then return (default, [])
  match ← ofLine marked first with
  | some name => return (name, [first])
  | none =>
    let second := (lines.drop 1).headD []
    if second = [] then return (default, [first])
    match ← ofLine marked second with
    | some name => return (name, [first, second])
    | none => return (default, [first, second])

end Retouch.Text.Cookie
