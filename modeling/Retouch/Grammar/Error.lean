import Retouch.Text.Quoted
import Retouch.Token.Scan

/-!
# What can be wrong with a grammar
-/

namespace Retouch.Grammar

inductive Error where
  | scan (e : ScanError)
  /-- A token stands where another one is needed. -/
  | unexpected (message : Text) (at_ : Position) (line : Text)
  /-- The text has no rule, so there is no start symbol. -/
  | noRule
  | recursion (rule : Text)
  /-- Two ways to begin a rule begin with the same label. -/
  | ambiguous (rule symbol first second : Text)
  /-- A label is the name of neither a rule nor a kind of token. -/
  | unknownName (label : Text)
  | unknownOperator (literal : Text)
  | emptyLiteral
  | badLiteral
deriving DecidableEq, Repr

def Error.message? : Error → Option Text
  | .scan e => some e.message
  | .unexpected message _ _ => some message
  | .recursion rule => some ("recursion for rule " ++ Text.quoted rule)
  | .ambiguous rule symbol first second =>
    some ("rule " ++ rule ++ " is ambiguous; " ++ symbol ++ " is in the first sets of " ++ first ++
      " as well as " ++ second)
  | _ => none

end Retouch.Grammar
