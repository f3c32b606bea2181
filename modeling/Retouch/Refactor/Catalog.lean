import Retouch.Refactor.Traversal
import Retouch.Text.Quoted

/-!
# Catalogs of fixers

Fixers are asked for by the names of modules.  A module holds the fixer whose name is made from its
own: the part after the last dot without `fix_`, with its words in capitals after `Fix`.
-/

namespace Retouch

/-! ## Names -/

def isTitleLetter (c : Char) : Bool := c.isAlpha

/-- The text with a capital at the beginning of each word, and small letters elsewhere. -/
def capitalised : (inWord : Bool) → Text → Text
  | _, [] => []
  | inWord, c :: cs =>
    (if inWord then c.toLower else c.toUpper) :: capitalised (isTitleLetter c) cs

def classNameOf (title : Text) : Text :=
  "Fix" ++ Text.concat ((Text.splitOn '_' title).map (capitalised false))

def moduleLead : Text := "fix_"

def titleOf (module : Text) : Text :=
  let last := (Text.cutLast '.' module).2
  if Text.startsWith moduleLead last then last.drop moduleLead.length else last

/-! ## Catalogs -/

abbrev Catalog := List (Text × List Fixer)

namespace Catalog

def moduleIn (package title : Text) : Text := package ++ "." ++ moduleLead ++ title

def ofPackage (package : Text) (fixers : List Fixer) : Catalog :=
  (package, []) :: fixers.map fun f => (moduleIn package f.title, [f])

def titles? (c : Catalog) (package : Text) : Option (List Text) :=
  if (c.lookup package).isNone then none
  else
    let lead := package ++ "." ++ moduleLead
    some ((c.filter fun (m, _) => Text.startsWith lead m).map fun (m, _) => m.drop lead.length)

def modules? (c : Catalog) (package : Text) : Option (List Text) :=
  (c.titles? package).map fun ts => ts.map (moduleIn package)

end Catalog

/-! ## Choosing fixers -/

inductive LoadError where
  | noModule (module : Text)
  /-- The module does not hold the fixer of its name. -/
  | noFixer (title : Text)
  /-- The fixer wants to see the trees in an order that is not known. -/
  | badOrder (order : Text)
deriving DecidableEq, Repr

def LoadError.message : LoadError → Text
  | .noModule module => "No module named " ++ Text.quoted module
  | .noFixer title => "Can't find " ++ title ++ "." ++ classNameOf title
  | .badOrder order => "Illegal fixer order: " ++ Text.quoted order

/-- Which of the fixers that only run on request were asked for. -/
inductive Request where
  | all
  | these (modules : List Text)
deriving DecidableEq, Repr

def Request.includes : Request → Text → Bool
  | .all, _ => true
  | .these modules, m => modules.contains m

/-- What was found out about a fixer while it was loaded. -/
inductive LoadNote where
  /-- It is not used, because it was not asked for. -/
  | skipped (title : Text)
  | added (title : Text)
deriving DecidableEq, Repr

def LoadNote.message : LoadNote → Text
  | .skipped title => "Skipping implicit fixer: " ++ title
  | .added title => "Adding transformation: " ++ title

def Catalog.fixerOf (c : Catalog) (module : Text) : Except LoadError Fixer :=
  match c.lookup module with
  | none => .error (.noModule module)
  | some fs =>
    let title := titleOf module
    match fs.find? fun f => f.title == title with
    | none => .error (.noFixer title)
    | some f => .ok f

/-- Load the fixers of modules.  An error ends the loading; the notes made before it stay. -/
def Catalog.load (c : Catalog) (request : Request) : List Text → List LoadNote × Except LoadError (List Fixer)
  | [] => ([], .ok [])
  | m :: ms =>
    match c.fixerOf m with
    | .error e => ([], .error e)
    | .ok f =>
      let title := titleOf m
      if f.explicit && !request.includes m then
        let (notes, rest) := c.load request ms
        (.skipped title :: notes, rest)
      else
        match f.order with
        | .other o => ([.added title], .error (.badOrder o))
        | _ =>
          let (notes, rest) := c.load request ms
          (.added title :: notes, rest.map (f :: ·))

/-- Fixers in the order of their ranks, where fixers of one rank keep their order. -/
def byRank (fs : List Fixer) : List Fixer := fs.mergeSort fun a b => a.rank ≤ b.rank

def Team.ofFixers (fs : List Fixer) : Team :=
  let pre := byRank (fs.filter fun f => f.order = .pre)
  let post := byRank (fs.filter fun f => f.order = .post)
  { pre := Worker.number 0 pre, post := Worker.number pre.length post }

def Catalog.team (c : Catalog) (request : Request) (modules : List Text) :
    List LoadNote × Except LoadError Team :=
  let (notes, fixers) := c.load request modules
  (notes, fixers.map Team.ofFixers)

end Retouch
