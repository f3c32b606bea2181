import Retouch.Text.Basic

/-!
# Kinds of tokens

A kind is a number.  Numbers below 256 are kinds of tokens; from 256 on they are the symbols of a
grammar, so that a leaf and an interior node of a syntax tree are told apart by their kind alone.
-/

namespace Retouch

abbrev Kind := Nat

namespace Kind

def endMarker : Kind := 0

def name : Kind := 1

def number : Kind := 2

def string : Kind := 3

def newline : Kind := 4

def indent : Kind := 5

def dedent : Kind := 6

def leftParen : Kind := 7

def rightParen : Kind := 8

def leftBracket : Kind := 9

def rightBracket : Kind := 10

def colon : Kind := 11

def comma : Kind := 12

def semicolon : Kind := 13

def plus : Kind := 14

def minus : Kind := 15

def star : Kind := 16

def slash : Kind := 17

def equal : Kind := 22

def dot : Kind := 23

def percent : Kind := 24

def leftBrace : Kind := 26

def rightBrace : Kind := 27

def notEqual : Kind := 29

def rightShift : Kind := 35

def doubleStar : Kind := 36

def operator : Kind := 51

def comment : Kind := 52

def lineBreak : Kind := 53

def stray : Kind := 55

def firstSymbol : Kind := 256

def isToken (k : Int) : Bool := k < 256

/-- The names of the token kinds, from kind 0 on; the last entry names their number. -/
def tokenNames : List Text := List.map String.toList [
    "ENDMARKER", "NAME", "NUMBER", "STRING", "NEWLINE", "INDENT", "DEDENT", "LPAR", "RPAR",
    "LSQB", "RSQB", "COLON", "COMMA", "SEMI", "PLUS", "MINUS", "STAR", "SLASH", "VBAR", "AMPER",
    "LESS", "GREATER", "EQUAL", "DOT", "PERCENT", "BACKQUOTE", "LBRACE", "RBRACE", "EQEQUAL",
    "NOTEQUAL", "LESSEQUAL", "GREATEREQUAL", "TILDE", "CIRCUMFLEX", "LEFTSHIFT", "RIGHTSHIFT",
    "DOUBLESTAR", "PLUSEQUAL", "MINEQUAL", "STAREQUAL", "SLASHEQUAL", "PERCENTEQUAL",
    "AMPEREQUAL", "VBAREQUAL", "CIRCUMFLEXEQUAL", "LEFTSHIFTEQUAL", "RIGHTSHIFTEQUAL",
    "DOUBLESTAREQUAL", "DOUBLESLASH", "DOUBLESLASHEQUAL", "AT", "OP", "COMMENT", "NL", "RARROW",
    "ERRORTOKEN", "N_TOKENS"]

/-- The name of a token kind.  The two bounds of the numbering have names as well. -/
def tokenName? (k : Kind) : Option Text :=
  if k = firstSymbol then some "NT_OFFSET" else tokenNames[k]?

def ofTokenName? (name : Text) : Option Kind :=
  if name = "NT_OFFSET" then some firstSymbol else tokenNames.idxOf? name

def operators : List (Text × Kind) := List.map (fun (op, kind) => (op.toList, kind)) [
    ("(", 7), (")", 8), ("[", 9), ("]", 10), (":", 11), (",", 12), (";", 13), ("+", 14),
    ("-", 15), ("*", 16), ("/", 17), ("|", 18), ("&", 19), ("<", 20), (">", 21), ("=", 22),
    (".", 23), ("%", 24), ("`", 25), ("\x7b", 26), ("\x7d", 27), ("@", 50), ("==", 28),
    ("!=", 29), ("<>", 29), ("<=", 30), (">=", 31), ("~", 32), ("^", 33), ("<<", 34), (">>", 35),
    ("**", 36), ("+=", 37), ("-=", 38), ("*=", 39), ("/=", 40), ("%=", 41), ("&=", 42),
    ("|=", 43), ("^=", 44), ("<<=", 45), (">>=", 46), ("**=", 47), ("//", 48), ("//=", 49),
    ("->", 54)]

def ofOperator? (op : Text) : Option Kind := operators.lookup op

end Kind

end Retouch
