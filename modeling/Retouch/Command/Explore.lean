import Retouch.Command.Options
import Retouch.Language.Grammar
import Retouch.Language.Symbol
import Retouch.Files.Store
import Retouch.Syntax.Source
import Retouch.Text.Encoding

/-!
# The command that finds patterns

It shows the trees of a snippet of code one after the other, small ones first, until the user
accepts one, and prints a pattern that matches exactly this tree.
-/

namespace Retouch.Command

/-! ## Patterns of trees -/

mutual
def patternText {α : Type} : Tree α → Text
  | .leaf _ l => l.value.quoted
  | .node _ k cs =>
    (Language.symbolName? k).getD [] ++ "< " ++ Text.join " " (patternTexts cs) ++ " >"

def patternTexts {α : Type} : List (Tree α) → List Text
  | [] => []
  | t :: ts => patternText t :: patternTexts ts
end

mutual
def innerNodes {α : Type} : Tree α → List (Tree α)
  | .leaf _ _ => []
  | .node tag k cs => innerNodesOf cs ++ [.node tag k cs]

def innerNodesOf {α : Type} : List (Tree α) → List (Tree α)
  | [] => []
  | t :: ts => innerNodes t ++ innerNodesOf ts
end

/-! ## The dialogue -/

/-- What has come of the dialogue: what was printed, and whether the answers ran out. -/
structure Dialogue where
  printed : Text
  unanswered : Bool := false
deriving DecidableEq, Repr

/-- Show trees until one is accepted: an answer with anything but blanks accepts it. -/
def dialogue : List SyntaxTree → List Text → Dialogue
  | [], _ => { printed := [] }
  | t :: _, [] => { printed := Text.quoted t.text ++ "\n", unanswered := true }
  | t :: ts, answer :: answers =>
    let shown := Text.quoted t.text ++ "\n"
    if (Text.strip answer).isEmpty then
      let rest := dialogue ts answers
      { rest with printed := shown ++ rest.printed }
    else { printed := shown ++ patternText t ++ "\n" }

/-! ## The command -/

def exploreChoices : List Choice :=
  [{ letter := some 'f', name := "file", value := some "FILE"
     help := "Read a code snippet from the specified file" }]

inductive ExploreEnding where
  | status (n : Nat)
  | exit (code : Nat)
  | unparsable (e : SourceError)
  | unreadable (e : Files.FileError)
  | undecodable
  | unanswered
deriving DecidableEq, Repr

structure ExploreResult where
  ending : ExploreEnding
  printed : Text := []
  complaints : Text := []
deriving DecidableEq, Repr

def snippetOf (store : Files.Store) (file : Text) : Except ExploreEnding Text :=
  match store.read file with
  | .error e => .error (.unreadable e)
  | .ok bytes =>
    match Text.Cookie.Encoding.utf8.decode? bytes with
    | none => .error .undecodable
    | some t => .ok (Text.unifyNewlines t)

def exploreSnippet (input snippet : Text) : ExploreResult :=
  match Source.parseLines Language.grammar .collapsed (Text.newlineLines snippet) with
  | .error e => { ending := .unparsable e }
  | .ok source =>
    let d := dialogue (innerNodes source.tree) (Text.newlineLines input)
    { ending := if d.unanswered then .unanswered else .status 0, printed := d.printed }

def explore (program : Text) (args : List Text) (store : Files.Store) (input : Text) :
    ExploreResult :=
  let usage := program ++ " [options] [string]"
  match Arguments.ofTexts exploreChoices args with
  | .error .help => { ending := .exit 0, printed := helpText usage exploreChoices }
  | .error (.error e) => { ending := .exit 2, complaints := errorText program usage e }
  | .ok a =>
    match (a.values "file").getLast?.filter (! ·.isEmpty), a.others with
    | some file, _ =>
      match snippetOf store file with
      | .error e => { ending := e }
      | .ok t => exploreSnippet input t
    | none, _ :: snippet :: _ => exploreSnippet input (snippet ++ "\n")
    | none, _ =>
      { ending := .status 1
        complaints := "You must specify an input file or an input string\n" }

end Retouch.Command
