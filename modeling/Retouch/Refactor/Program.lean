import Retouch.Language.Grammar
import Retouch.Refactor.Catalog
import Retouch.Refactor.Features
import Retouch.Syntax.Source

/-!
# Changing programs

A program is scanned for the features it switches on, parsed with the grammar that these ask for,
and changed by a team of fixers.
-/

namespace Retouch

/-- Fixers, and how programs are read for them. -/
structure Tool where
  team : Team
  /-- Is `print` a function in all programs? -/
  printIsFunction : Bool := false

inductive ProgramError where
  /-- The program cannot be scanned for features. -/
  | unscannable (e : ScanError)
  | unparsable (e : SourceError)
  | faulty (f : Fault)
deriving Repr

/-- A program after the fixers went through it. -/
structure Program where
  root : NodeId
  forest : Forest
deriving Repr, Inhabited

namespace Program

def tree (p : Program) : Tree NodeId := p.forest.view p.root

def text (p : Program) : Text := p.tree.text

def changed (p : Program) : Bool := (p.forest.cell p.root).changed

end Program

/-- What came of the work on a program, and the messages of the fixers, with those from before. -/
structure Report (ε α : Type) where
  result : Except ε α
  log : List Text

namespace Tool

def grammarFor (tool : Tool) (features : List Text) : Grammar :=
  if tool.printIsFunction || features.contains "print_function".toList then
    Language.grammarWithoutPrint
  else Language.grammar

def changeTree (tool : Tool) (job : Job) (file : Text) (root : NodeId) : Except Fault Bool × Job :=
  match (tool.team.change file root).run job with
  | .ok b job => (.ok b, job)
  | .error e job => (.error e, job)

def changeSource (tool : Tool) (job : Job) (file : Text) (source : Source) :
    Report Fault Program :=
  let (root, forest) := Forest.ofTree source.tree
  let (result, job) := tool.changeTree { job with forest, names := source.names } file root
  ⟨result.map fun _ => ⟨root, job.forest⟩, job.log⟩

def changeText (tool : Tool) (job : Job) (file text : Text) : Report ProgramError Program :=
  match Features.detect text with
  | .error e => ⟨.error (.unscannable e), job.log⟩
  | .ok features =>
    match Source.parse (tool.grammarFor features) .collapsed text with
    | .error e => ⟨.error (.unparsable e), job.log⟩
    | .ok source =>
      let r := tool.changeSource { job with features := some features } file source
      ⟨r.result.mapError .faulty, r.log⟩

end Tool

end Retouch
