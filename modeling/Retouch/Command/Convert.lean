import Retouch.Command.Options
import Retouch.Refactor.Session

/-!
# The command that changes programs

It takes files and directories, or a program from its input, and shows the differences that the
fixers make or writes them back to the files.
-/

namespace Retouch.Command

def convertChoices (program : Text) : List Choice := [
  { letter := some 'd', name := "doctests_only", help := "Fix up doctests only" },
  { letter := some 'f', name := "fix", value := some "FIX"
    help := "Each FIX specifies a transformation; default: all" },
  { letter := some 'j', name := "processes", value := some "PROCESSES", isNumber := true
    help := "Run " ++ program ++ " concurrently" },
  { letter := some 'x', name := "nofix", value := some "NOFIX"
    help := "Prevent a fixer from being run." },
  { letter := some 'l', name := "list-fixes"
    help := "List available transformations (fixes/fix_*.py)" },
  { letter := some 'p', name := "print-function"
    help := "Modify the grammar so that print() is a function" },
  { letter := some 'v', name := "verbose", help := "More verbose logging" },
  { name := "no-diffs", help := "Don't show diffs of the refactoring" },
  { letter := some 'w', name := "write", help := "Write back modified files" },
  { letter := some 'n', name := "nobackups"
    help := "Don't write backups for modified files." }]

structure Surroundings where
  store : Files.Store := {}
  input : Text := []
  /-- Can only ASCII characters be printed? -/
  printsAscii : Bool := false

inductive Ending where
  /-- It has done its work, and suggests a status. -/
  | status (n : Nat)
  | exit (code : Nat)
  | unloadable (e : LoadError)
  | failure (e : Failure)

structure Result where
  ending : Ending
  printed : Text := []
  complaints : Text := []
  store : Files.Store

/-- What the user is told, a line for each notice; less important messages only if asked for. -/
def noticeText (verbose : Bool) : Notice → Text
  | .message .debug text => if verbose then "RefactoringTool: " ++ text ++ "\n" else []
  | .message _ text => "RefactoringTool: " ++ text ++ "\n"
  | .warning text => "WARNING: " ++ text ++ "\n"

def loadNotice (n : LoadNote) : Notice :=
  match n with
  | .skipped _ => .message .info n.message
  | .added _ => .message .debug n.message

/-- The modules of the fixers to run, and of those that were asked for by name. -/
def chosenModules (available : List Text) (package : Text) (fix nofix : List Text) :
    List Text × List Text :=
  let named := (fix.filter (· != "all".toList)).map (Catalog.moduleIn package)
  let unwanted := nofix.map (Catalog.moduleIn package)
  let all := if fix.isEmpty || fix.contains "all".toList then available else []
  let requested := (all ++ named).eraseDups.filter fun m => !unwanted.contains m
  (Text.sorted requested, Text.sorted named.eraseDups)

def mannerOf (a : Arguments) (s : Surroundings) : Manner where
  interactive := true
  showsDifferences := !a.has "no-diffs"
  printsAscii := s.printsAscii
  keepsBackups := !a.has "nobackups"
  writes := a.has "write"
  doctestsOnly := a.has "doctests_only"

def convertItems (tool : Tool) (m : Manner) (items : List Text) (input : Text) : Work Nat := do
  if items.contains "-".toList then
    Work.changeInput tool { m with doctestsOnly := false } input
  else Work.changeItems tool m items
  Work.summarize
  return if (← get).errors.isEmpty then 0 else 1

def convertWith (catalog : Catalog) (package : Text) (a : Arguments) (s : Surroundings)
    (available : List Text) : Result :=
  let (modules, named) := chosenModules available package (a.values "fix") (a.values "nofix")
  let (notes, team) := catalog.team (.these named) modules
  let begun := notes.map loadNotice
  let show_ := fun notices => Text.concat (List.map (noticeText (a.has "verbose")) notices)
  match team with
  | .error e => { ending := .unloadable e, complaints := show_ begun, store := s.store }
  | .ok team =>
    let tool : Tool := { team, printIsFunction := a.has "print-function" }
    let work := convertItems tool (mannerOf a s) a.others s.input
    match work.run { store := s.store, notices := begun } with
    | .ok n t =>
      { ending := .status n, printed := t.printed, complaints := show_ t.notices, store := t.store }
    | .error e t =>
      { ending := .failure e, printed := t.printed, complaints := show_ t.notices, store := t.store }

def Result.after (printed complaints : Text) (r : Result) : Result :=
  { r with printed := printed ++ r.printed, complaints := complaints ++ r.complaints }

def fixerList (titles : List Text) : Text :=
  "Available transformations for the -f/--fix option:\n" ++
    Text.concat (titles.map (· ++ ['\n']))

def convertArguments (catalog : Catalog) (package : Text) (a : Arguments) (s : Surroundings) :
    Result :=
  let listed := if a.has "list-fixes" then fixerList ((catalog.titles? package).getD []) else []
  let ended (n : Nat) (complaints : Text) : Result :=
    { ending := .status n, complaints, store := s.store }
  Result.after listed [] <|
    if a.others.isEmpty then
      if a.has "list-fixes" then ended 0 []
      else ended 2 "At least one file or directory argument required.\nUse --help to show usage.\n"
    else if a.others.contains "-".toList && a.has "write" then ended 2 "Can't write to stdin.\n"
    else convertWith catalog package a s ((catalog.modules? package).getD [])

def convert (program : Text) (catalog : Catalog) (package : Text) (args : List Text)
    (s : Surroundings) : Result :=
  let usage := program ++ " [options] file|dir ..."
  let refused (e : OptionError) : Result :=
    { ending := .exit 2, complaints := errorText program usage e, store := s.store }
  match Arguments.ofTexts (convertChoices program) args with
  | .error .help =>
    { ending := .exit 0, printed := helpText usage (convertChoices program), store := s.store }
  | .error (.error e) => refused e
  | .ok a =>
    let warning : Text := if a.has "no-diffs" && !a.has "write" then
      noticeText true
        (.warning "not writing files and not printing diffs; that's not very useful") else []
    Result.after [] warning <|
      if a.has "nobackups" && !a.has "write" then refused (.unsuitable "Can't use -n without -w")
      else convertArguments catalog package a s

end Retouch.Command
