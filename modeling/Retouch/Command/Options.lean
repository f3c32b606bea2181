import Retouch.Text.Integer
import Retouch.Text.Quoted

/-!
# Options of commands

The arguments of a command are options and other arguments, in any order.  An option has a long name
after two hyphens, which can be cut short, and perhaps a letter after one hyphen; letters can stand
together.  Some options take a value.
-/

namespace Retouch.Command

structure Choice where
  letter : Option Char := none
  name : Text
  /-- What its value is called, if it takes one. -/
  value : Option Text := none
  isNumber : Bool := false
  help : Text
deriving DecidableEq, Repr, Inhabited

namespace Choice

def long (c : Choice) : Text := "--" ++ c.name

def short? (c : Choice) : Option Text := c.letter.map fun l => ['-', l]

def takesValue (c : Choice) : Bool := c.value.isSome

end Choice

inductive OptionError where
  | unknown (form : Text)
  | ambiguous (form : Text) (candidates : List Text)
  | noValue (form : Text)
  | needlessValue (form : Text)
  | notNumber (form value : Text)
  /-- Options that do not go together; the wording is given. -/
  | unsuitable (message : Text)
deriving DecidableEq, Repr

def OptionError.message : OptionError → Text
  | .unknown form => "no such option: " ++ form
  | .ambiguous form candidates =>
    "ambiguous option: " ++ form ++ " (" ++ Text.join ", " candidates ++ "?)"
  | .noValue form => form ++ " option requires 1 argument"
  | .needlessValue form => form ++ " option does not take a value"
  | .notNumber form value => "option " ++ form ++ ": invalid integer value: " ++ Text.quoted value
  | .unsuitable message => message

/-- Why a command ends before it has begun. -/
inductive Stop where
  | help
  | error (e : OptionError)
deriving DecidableEq, Repr

/-- An option as it was given: its name, and its value if it takes one. -/
structure Given where
  name : Text
  value : Text := []
deriving DecidableEq, Repr

/-- The options and the other arguments of a command. -/
structure Arguments where
  options : List Given := []
  others : List Text := []
deriving DecidableEq, Repr

namespace Arguments

def has (a : Arguments) (name : Text) : Bool := a.options.any fun g => g.name == name

def values (a : Arguments) (name : Text) : List Text :=
  (a.options.filter fun g => g.name == name).map Given.value

end Arguments

/-! ## Understanding arguments -/

def helpChoice : Choice :=
  { letter := some 'h', name := "help", help := "show this help message and exit" }

abbrev Chosen := Choice × Text

def takeSwitch (c : Choice) : Except Stop Given :=
  if c = helpChoice then .error .help else .ok { name := c.name }

def takeValue (chosen : Chosen) (value : Text) : Except Stop Given :=
  let (c, form) := chosen
  if c.isNumber && (Text.markedInteger? value).isNone then
    .error (.error (.notNumber form value))
  else .ok { name := c.name, value }

/-- The option with a long form, which can be cut short where only one fits. -/
def findLong (choices : List Choice) (form : Text) : Except Stop Choice :=
  match choices.find? fun c => c.long == form with
  | some c => .ok c
  | none =>
    match choices.filter fun c => Text.startsWith form c.long with
    | [c] => .ok c
    | [] => .error (.error (.unknown form))
    | cs => .error (.error (.ambiguous form (Text.sorted (cs.map Choice.long))))

/-- Understand letters that stand together.  The last one may take a value: what follows it, or else
the next argument. -/
def takeLetters (choices : List Choice) : Text → Except Stop (List Given × Option Chosen)
  | [] => .ok ([], none)
  | l :: ls => do
    let form := ['-', l]
    match choices.find? fun c => c.letter == some l with
    | none => throw (.error (.unknown form))
    | some c =>
      if c.takesValue then
        if ls.isEmpty then return ([], some (c, form))
        else return ([← takeValue (c, form) ls], none)
      else
        let g ← takeSwitch c
        let (gs, waiting) ← takeLetters choices ls
        return (g :: gs, waiting)

def takeLong (choices : List Choice) (arg : Text) : Except Stop (List Given × Option Chosen) := do
  let (form, value) := Text.cut '=' arg
  let c ← findLong choices form
  if c.takesValue then
    match value with
    | some v => return ([← takeValue (c, c.long) v], none)
    | none => return ([], some (c, c.long))
  else
    match value with
    | some _ => throw (.error (.needlessValue c.long))
    | none => return ([← takeSwitch c], none)

def argumentsFrom (choices : List Choice) : Option Chosen → List Text → Except Stop Arguments
  | some (_, form), [] => .error (.error (.noValue form))
  | none, [] => .ok {}
  | some chosen, arg :: args => do
    let g ← takeValue chosen arg
    let rest ← argumentsFrom choices none args
    return { rest with options := g :: rest.options }
  | none, arg :: args => do
    if arg = "--".toList then return { others := args }
    else if Text.startsWith "-" arg && 1 < arg.length then
      let (given, waiting) ←
        if Text.startsWith "--" arg then takeLong choices arg else takeLetters choices (arg.drop 1)
      let rest ← argumentsFrom choices waiting args
      return { rest with options := given ++ rest.options }
    else
      let rest ← argumentsFrom choices none args
      return { rest with others := arg :: rest.others }

def Arguments.ofTexts (choices : List Choice) (args : List Text) : Except Stop Arguments :=
  argumentsFrom (helpChoice :: choices) none args

/-! ## Help -/

def Choice.forms (c : Choice) : Text :=
  match c.value with
  | some v => Text.join ", " ((c.short?.map fun s => s ++ " " ++ v).toList ++ [c.long ++ "=" ++ v])
  | none => Text.join ", " (c.short?.toList ++ [c.long])

def helpColumn (choices : List Choice) : Nat :=
  Nat.min 24 ((choices.map fun c => c.forms.length).foldl Nat.max 0 + 4)

/-- The forms of an option and what it is for: on one line, or on two if the forms are long. -/
def Choice.helpText (column : Nat) (c : Choice) : Text :=
  let forms := c.forms
  let lead : Text :=
    if column < forms.length + 4 then "  " ++ forms ++ "\n" ++ Text.repeated column ' '
    else "  " ++ forms ++ Text.repeated (column - forms.length - 2) ' '
  lead ++ c.help ++ "\n"

def usageLine (usage : Text) : Text := "Usage: " ++ usage ++ "\n\n"

def helpText (usage : Text) (choices : List Choice) : Text :=
  let all := helpChoice :: choices
  usageLine usage ++ "Options:\n" ++ Text.concat (all.map (Choice.helpText (helpColumn all)))

/-- What the user is shown whose arguments cannot be understood. -/
def errorText (program usage : Text) (e : OptionError) : Text :=
  usageLine usage ++ program ++ ": error: " ++ e.message ++ "\n"

end Retouch.Command
