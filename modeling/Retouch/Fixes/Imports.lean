import Retouch.Fixes.Iteration
import Retouch.Text.Quoted

/-!
# Imports

Fixers for import statements: modules that got another name, imports from the package itself, and
imports of features that need no import any more.
-/

namespace Retouch.Fixes

open Build Language.Symbol
open Retouch.Forest (setLead)

/-! ## Features -/

/-- Imports of features are taken out, after the fixers that look for them. -/
def future : Fixer := Fixer.onRequest <| Fixer.ranked 10 <|
  .ofPattern "future" "import_from< 'from' module_name=\"__future__\" 'import' any >" fun i _ => do
    let new ← blankLine
    setLead new (← leadOf i)
    return .put new

/-! ## Imports from the package itself -/

def joinedValues : List (Tree NodeId) → Attempt Text
  | [] => .ok []
  | t :: ts => do
    match ← Query.value t with
    | .text v => return v ++ (← joinedValues ts)
    | _ => throw .wrongForm

mutual
def importedModules : Tree NodeId → Attempt (List Text)
  | .leaf _ l =>
    if l.kind = Kind.name then
      match l.value with
      | .text v => .ok [v]
      | _ => .error .missing
    else .error .unmet
  | .node _ k cs =>
    if k = dottedName then return [← joinedValues cs]
    else if k = dottedAsName then firstImported cs
    else if k = dottedAsNames then allImported (cs.length % 2 == 1) cs
    else .error .unmet

def firstImported : List (Tree NodeId) → Attempt (List Text)
  | [] => .error .outOfRange
  | t :: _ => importedModules t

/-- The modules that every other one of some trees names, where the last one counts. -/
def allImported : (counts : Bool) → List (Tree NodeId) → Attempt (List Text)
  | _, [] => .ok []
  | false, _ :: ts => allImported true ts
  | true, t :: ts => do return (← importedModules t) ++ (← allImported false ts)
end

/-- Is a module probably one of the package in which the file lies?  The first part of its name has
to be that of something that can be imported and lies beside the file. -/
def isLocal (store : Files.Store) (file module : Text) : Bool :=
  let base := Files.below (Files.directoryOf file) (Text.cut '.' module).1
  store.exists? (Files.below (Files.directoryOf base) "__init__.py") &&
    ([".py", "/", ".pyc", ".so", ".sl", ".pyd"] : List Text).any fun e => store.exists? (base ++ e)

def isLocalHere (module : Text) : Fix Bool := do
  let job ← get
  let file ← orFault .missing job.memory.file
  return isLocal job.store file module

def leadingLeaf (i : NodeId) : Edit NodeId := do orFault .outOfRange (Forest.firstLeaf? (← get) i)

/-- Imports of modules from the package itself say so, by a dot before their name. -/
def imports : Fixer :=
  { Fixer.onRequest <| .ofPattern "import" "
  import_from< 'from' imp=any 'import' ['('] any [')'] >
  | import_name< 'import' imp=any >" fun i m => do
      if (← get).memory.flag then return .keep
      let what ← m.one "imp"
      if (← kindOf i) = importFrom then
        let first ← leadingLeaf what
        let module ← valueText first
        if ← isLocalHere module then
          Forest.setValue first ('.' :: module)
          Forest.touch first
        return .keep
      let locals ← (← attempt (importedModules (← viewOf what))).mapM isLocalHere
      if locals.contains false then
        if locals.contains true then Fixer.warn i "absolute and local imports together"
        return .keep
      let new ← fromImport "." [what]
      setLead new (← leadOf i)
      return .put new
    with
    start := fun _ => do
      let features ← orFault .missing (← get).features
      modify fun job =>
        { job with memory.flag := features.contains "absolute_import".toList } }

/-! ## Modules with another name -/

abbrev Renames := List (Text × Text)

def Renames.ofStrings (l : List (String × String)) : Renames :=
  l.map fun (a, b) => (a.toList, b.toList)

def alternatives (names : List Text) : Text :=
  "(" ++ Text.join "|" (names.map Text.quoted) ++ ")"

def moduleNamed (name : Text) : Text := "module_name='" ++ name ++ "'"

/-- The pattern for imports of the modules, and for uses of what they hold. -/
def moduleUse (names : List Text) : Text :=
  let modules := Text.join " | " (names.map moduleNamed)
  let multiple : Text := "multiple_imports=dotted_as_names< any* "
  "name_import=import_name< 'import' ((" ++ modules ++ ") | " ++
    multiple ++ "(" ++ modules ++ ") any* >) >" ++
  "|import_from< 'from' (" ++ modules ++ ") 'import' ['('] " ++
    "( any | import_as_name< any 'as' any > | import_as_names< any* >)  [')'] >" ++
  "|import_name< 'import' (dotted_as_name< (" ++ modules ++ ") 'as' any > | " ++
    multiple ++ "dotted_as_name< (" ++ modules ++ ") 'as' any > any* >) >" ++
  "|power< bare_with_attr=" ++ alternatives names ++ " trailer<'.' any > any* >"

def isWithin (p : Pattern) (i : NodeId) : Fix Bool := do
  (← get).forest.ancestors i |>.anyM (Fixer.matches? p)

/-- Match a tree that is not part of a larger match; uses of modules may be. -/
def matchOutermost (p : Pattern) (i : NodeId) : Fix (Option Captures) := do
  match ← Fixer.matchAt p i with
  | none => return none
  | some m =>
    if m.has "bare_with_attr" then return some m
    if ← isWithin p i then return none
    return some m

/-- Rename the modules that an import statement names, one after the other, or the module whose
member is used.  The first argument bounds how many. -/
def renameModules (table : Renames) (p : Pattern) : Nat → NodeId → Captures → Fix Unit
  | 0, _, _ => pure ()
  | fuel + 1, i, m => do
    match m.one? "module_name" with
    | some module =>
      let old ← valueText module
      let new ← orFault .unknown (table.lookup old)
      rename module new
      if m.has "name_import" then
        modify fun job =>
          { job with memory.renamed := OrderedMap.insert job.memory.renamed old new }
      if m.has "multiple_imports" then
        match ← matchOutermost p i with
        | some m => renameModules table p fuel i m
        | none => pure ()
    | none =>
      let module ← m.first "bare_with_attr"
      let old ← valueText module
      match OrderedMap.get? (← get).memory.renamed old with
      | some new => rename module new
      | none => pure ()

/-- A fixer that renames modules where they are imported, and where something is taken from
them after a plain import. -/
def renamedModules (title : Text) (rank : Nat) (table : Renames) : Fixer :=
  let p := Context.fixed (moduleUse (table.map Prod.fst))
  { title, rank, explicit := true
    pattern := some p
    recognise := matchOutermost p
    transform := fun i m => do
      renameModules table p ((← viewOf i).leaves.length + 1) i m
      return .keep }

def moduleTable : Renames := .ofStrings [
  ("StringIO", "io"), ("cStringIO", "io"), ("cPickle", "pickle"), ("__builtin__", "builtins"),
  ("copy_reg", "copyreg"), ("Queue", "queue"), ("SocketServer", "socketserver"),
  ("ConfigParser", "configparser"), ("repr", "reprlib"), ("FileDialog", "tkinter.filedialog"),
  ("tkFileDialog", "tkinter.filedialog"), ("SimpleDialog", "tkinter.simpledialog"),
  ("tkSimpleDialog", "tkinter.simpledialog"), ("tkColorChooser", "tkinter.colorchooser"),
  ("tkCommonDialog", "tkinter.commondialog"), ("Dialog", "tkinter.dialog"),
  ("Tkdnd", "tkinter.dnd"), ("tkFont", "tkinter.font"), ("tkMessageBox", "tkinter.messagebox"),
  ("ScrolledText", "tkinter.scrolledtext"), ("Tkconstants", "tkinter.constants"),
  ("Tix", "tkinter.tix"), ("ttk", "tkinter.ttk"), ("Tkinter", "tkinter"),
  ("markupbase", "_markupbase"), ("_winreg", "winreg"), ("thread", "_thread"),
  ("dummy_thread", "_dummy_thread"), ("dbhash", "dbm.bsd"), ("dumbdbm", "dbm.dumb"),
  ("dbm", "dbm.ndbm"), ("gdbm", "dbm.gnu"), ("xmlrpclib", "xmlrpc.client"),
  ("DocXMLRPCServer", "xmlrpc.server"), ("SimpleXMLRPCServer", "xmlrpc.server"),
  ("httplib", "http.client"), ("htmlentitydefs", "html.entities"), ("HTMLParser", "html.parser"),
  ("Cookie", "http.cookies"), ("cookielib", "http.cookiejar"), ("BaseHTTPServer", "http.server"),
  ("SimpleHTTPServer", "http.server"), ("CGIHTTPServer", "http.server"),
  ("commands", "subprocess"), ("UserString", "collections"), ("UserList", "collections"),
  ("urlparse", "urllib.parse"), ("robotparser", "urllib.robotparser")]

def renamedLibrary : Fixer := renamedModules "imports" 6 moduleTable

def lateModuleTable : Renames := .ofStrings [("whichdb", "dbm"), ("anydbm", "dbm")]

/-- The modules whose new name is an old name of another module are renamed after it. -/
def renamedDatabases : Fixer := renamedModules "imports2" 7 lateModuleTable

/-! ## Members with another name -/

def memberTable : List ((Text × Text) × Text) :=
  [(("sys".toList, "maxint".toList), "maxsize".toList)]

def memberUse (module member : Text) : Text :=
  let m := Text.quoted module
  let a := Text.quoted member
  "import_from< 'from' module_name=" ++ m ++ " 'import' ( attr_name=" ++ a ++
    " | import_as_name< attr_name=" ++ a ++ " 'as' any >) >" ++
  "|power< module_name=" ++ m ++ " trailer< '.' attr_name=" ++ a ++ " > any* >"

def renames : Fixer :=
  let p := Context.fixed (Text.join "|" (memberTable.map fun ((m, a), _) => memberUse m a))
  { title := "renames", order := .pre, explicit := true
    pattern := some p
    recognise := fun i => do
      match ← Fixer.matchAt p i with
      | none => return none
      | some m => if ← isWithin p i then return none else return some m
    transform := fun _ m => do
      let module ← valueText (← m.one "module_name")
      let member ← m.one "attr_name"
      rename member (← orFault .unknown (memberTable.lookup (module, ← valueText member)))
      return .keep }

end Retouch.Fixes
