import Retouch.Files.Store
import Retouch.Fixer.Build
import Retouch.Fixer.Context

/-!
# Fixers

A fixer recognises trees of one form and changes them.  It works on the forest of the program, keeps
a memory of its own while it goes through one program, and can leave messages for the user.
-/

namespace Retouch

/-! ## The state of the work -/

/-- What a fixer remembers while it goes through a program. -/
structure Memory where
  /-- The name of the file, once the fixer has begun with it. -/
  file : Option Text := none
  /-- The number that the next new name is tried with. -/
  counter : Nat := 1
  /-- Was nothing said about this file so far? -/
  silent : Bool := true
  /-- Is the fixer to stand back, because of an import that was found?  Not known at first. -/
  standsBack : Option Bool := none
  /-- Modules whose uses are to be renamed. -/
  renamed : OrderedMap Text Text := []
  /-- A condition on the program that was found out at the beginning or on the way. -/
  flag : Bool := false
  noted : Option NodeId := none
deriving Repr, Inhabited

structure Job where
  forest : Forest := {}
  /-- The names that the program uses, and those that were made up for it. -/
  names : List Text := []
  log : List Text := []
  memory : Memory := {}
  /-- The memories of all fixers, while they are not at work. -/
  shelf : List Memory := []
  /-- The features that the program switches on, if these were looked for. -/
  features : Option (List Text) := none
  /-- The files and directories that exist. -/
  store : Files.Store := {}
deriving Repr, Inhabited

abbrev Fix := EStateM Fault Job

/-- An edit of the forest is a step. -/
instance : MonadLift Edit Fix where
  monadLift e := fun job =>
    let forest := job.forest
    let job := { job with forest := {} }
    match e forest with
    | .ok a f => .ok a { job with forest := f }
    | .error x f => .error x { job with forest := f }

def attempt {α : Type} : Attempt α → Fix α
  | .ok a => pure a
  | .error e => throw e

/-! ## Looking at the forest -/

def kindOf (i : NodeId) : Edit Kind := return (← get).kind i

def childrenOf (i : NodeId) : Edit (List NodeId) := return (← get).children i

def leadOf (i : NodeId) : Edit Text := return (← get).leadOf i

def textOf (i : NodeId) : Edit Text := return (← get).text i

def viewOf (i : NodeId) : Edit (Tree NodeId) := return (← get).view i

def parentOf (i : NodeId) : Edit (Option NodeId) := return (← get).parent? i

def aboveOf (i : NodeId) : Edit NodeId := do orFault .missing ((← get).parent? i)

def valueText (i : NodeId) : Edit Text := do
  match ← Forest.valueOf i with
  | .text t => return t
  | _ => throw .wrongForm

def isLeafAt (i : NodeId) : Edit Bool := return (← get).isLeaf i

def cloneAll : List NodeId → Edit (List NodeId)
  | [] => return []
  | i :: is => do
    let c ← Forest.clone i
    return c :: (← cloneAll is)

def replaceBy (old new : NodeId) : Edit Unit := Forest.replace old [new]

/-- Put a name in the place of a tree, with the same blanks and comments before it. -/
def rename (i : NodeId) (new : Text) : Edit Unit := do
  replaceBy i (← Build.name new (← leadOf i))

/-- A copy of a tree as the argument of a function, where the call takes over the blanks and
comments before the tree. -/
def wrapped (function : Text) (i : NodeId) : Edit NodeId := do
  let c ← Forest.clone i
  Forest.setLead c []
  Build.call (← Build.name function) [c] (some (← leadOf i))

/-! ## What was matched -/

/-- What a name of a pattern was bound to. -/
inductive Capture where
  | one (i : NodeId)
  | many (is : List NodeId)
deriving Repr, Inhabited

abbrev Captures := OrderedMap Text Capture

namespace Captures

def ofBindings (b : Bindings NodeId) : Captures :=
  b.map fun (name, bound) =>
    match bound with
    | .one t => (name, .one t.tag)
    | .many ts => (name, .many (ts.map Tree.tag))

def has (m : Captures) (name : Text) : Bool := OrderedMap.has m name

def one? (m : Captures) (name : Text) : Option NodeId :=
  match OrderedMap.get? m name with
  | some (.one i) => some i
  | _ => none

def one (m : Captures) (name : Text) : Fix NodeId := orFault .unknown (m.one? name)

def many (m : Captures) (name : Text) : List NodeId :=
  match OrderedMap.get? m name with
  | some (.many is) => is
  | some (.one i) => [i]
  | none => []

def first (m : Captures) (name : Text) : Fix NodeId := orFault .outOfRange (m.many name).head?

end Captures

/-! ## Fixers -/

/-- When a fixer wants to see the trees. -/
inductive Order where
  /-- Before those that want to see the smaller trees first. -/
  | pre
  | post
  | other (name : Text)
deriving DecidableEq, Repr

inductive Outcome where
  /-- It stays, perhaps changed in itself. -/
  | keep
  | put (i : NodeId)
deriving Repr

structure Fixer where
  title : Text
  /-- The pattern of the trees it recognises, by whose heads they are found. -/
  pattern : Option Pattern := none
  /-- Without a pattern, the kind of the trees it wants to see. -/
  accepts : Option Kind := none
  order : Order := .post
  /-- Fixers with a lower rank come first. -/
  rank : Nat := 5
  /-- Does it only run if it is asked for by name? -/
  explicit : Bool := false
  /-- What it does before it goes through a program. -/
  start : NodeId → Fix Unit := fun _ => pure ()
  /-- What it sees in a tree that it recognises. -/
  recognise : NodeId → Fix (Option Captures)
  /-- What it does with a tree that it recognised. -/
  transform : NodeId → Captures → Fix Outcome

namespace Fixer

/-- Match a tree, which is bound to `node` itself. -/
def matchAt (p : Pattern) (i : NodeId) : Fix (Option Captures) := do
  match p.matchTree (← viewOf i) true with
  | .no => return none
  | .fail => throw .wrongForm
  | .yes names => return some (OrderedMap.update [("node".toList, .one i)] (Captures.ofBindings names))

def matches? (p : Pattern) (i : NodeId) : Fix Bool := return (← matchAt p i).isSome

def ofPattern (title : Text) (pattern : Text) (transform : NodeId → Captures → Fix Outcome) :
    Fixer :=
  let p := Context.fixed pattern
  { title, pattern := some p, recognise := matchAt p, transform }

def onRequest (f : Fixer) : Fixer := { f with explicit := true }

def ranked (n : Nat) (f : Fixer) : Fixer := { f with rank := n }

/-! ## Names and messages -/

/-- A name that is not in use, from a template; the first argument bounds the numbers tried. -/
def newNameWith (template : Text) : Nat → Text → Fix Text
  | 0, name => return name
  | fuel + 1, name => do
    let job ← get
    if job.names.contains name then
      let n := job.memory.counter
      set { job with memory := { job.memory with counter := n + 1 } }
      newNameWith template fuel (template ++ Text.ofNat n)
    else
      set { job with names := job.names ++ [name] }
      return name

/-- A name that is not in use: the template, or else the template with a number. -/
def newName (template : Text := "xxx_todo_changeme") : Fix Text := do
  let job ← get
  newNameWith template (job.names.length + 1) template

/-- Leave a message for the user.  The first one about a file is headed by its name. -/
def say (message : Text) : Fix Unit := do
  let job ← get
  match job.memory.file with
  | none => throw .missing
  | some file =>
    let heading : List Text :=
      if job.memory.silent then ["### In file " ++ file ++ " ###"] else []
    set { job with
      memory := { job.memory with silent := false }
      log := job.log ++ heading ++ [message] }

def lineOf (i : NodeId) : Fix Nat := do orFault .wrongForm (← viewOf i).line?

def warn (i : NodeId) (reason : Text) : Fix Unit := do
  say ("Line " ++ Text.ofNat (← lineOf i) ++ ": " ++ reason)

/-- Tell the user that a tree cannot be converted, and why. -/
def cannotConvert (i : NodeId) (reason : Text := []) : Fix Unit := do
  let t ← viewOf i
  let line ← match t.line? with
    | some n => pure n
    | none => throw .wrongForm
  say ("Line " ++ Text.ofNat line ++ ": could not convert: " ++ t.text.drop t.lead.length)
  if !reason.isEmpty then say reason

def begin (file : Text) : Fix Unit :=
  modify fun job => { job with memory := { file := some file } }

/-- Is the fixer to stand back because the program imports the name, given with its package?  Once
found out, the answer stays. -/
def standsBack (path : Text) (i : NodeId) : Fix Bool := do
  let job ← get
  if job.memory.file.isNone then throw .missing
  match job.memory.standsBack with
  | some b => return b
  | none =>
    let (package, name) := Text.cutLast '.' path
    let b ← Build.isImported (some (package.getD [])) name i
    modify fun job => { job with memory := { job.memory with standsBack := some b } }
    return b

end Fixer

end Retouch
