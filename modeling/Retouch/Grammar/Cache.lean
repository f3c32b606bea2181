import Retouch.Grammar.Tables

/-!
# Saved tables

Making the tables of a grammar takes time, so they are saved in a file next to the grammar.  The
saved tables are used as long as they are at least as new as the grammar.
-/

namespace Retouch.Grammar.Cache

inductive Content where
  | text (t : Text)
  | tables (g : Grammar)

structure File where
  content : Content
  time : Int

/-- The files of a directory, and a clock that is later than every change so far. -/
structure Directory where
  files : OrderedMap Text File := []
  clock : Int := 10000000000

namespace Directory

def has (d : Directory) (name : Text) : Bool := OrderedMap.has d.files name

def write (d : Directory) (name : Text) (content : Content) : Directory :=
  ⟨OrderedMap.insert d.files name ⟨content, d.clock⟩, d.clock + 1⟩

def touch (d : Directory) (name : Text) (time : Int) : Directory :=
  { d with files := d.files.map fun e => if e.1 == name then (e.1, { e.2 with time }) else e }

def remove (d : Directory) (name : Text) : Directory :=
  { d with files := OrderedMap.erase d.files name }

/-- Was the file `a` written since the file `b`?  A missing `a` was not, and every file was written
since a missing `b`. -/
def newer (d : Directory) (a b : Text) : Bool :=
  match OrderedMap.get? d.files a, OrderedMap.get? d.files b with
  | none, _ => false
  | some _, none => true
  | some x, some y => y.time ≤ x.time

/-- Can a file of this name be written?  There are no directories below this one. -/
def writable (name : Text) : Bool := !name.contains '/'

end Directory

inductive Error where
  | missing
  | notText
  | grammar (e : Grammar.Error)
  | emptyTables
  /-- The file of saved tables holds no tables. -/
  | noTables

/-- What loading gives: the tables, a log, and the directory afterwards. -/
structure Outcome where
  result : Except Error Grammar
  log : List Text
  after : Directory

def save (d : Directory) (saved : Text) (g : Grammar) : List Text × Directory :=
  let note : Text := "Writing grammar tables to " ++ saved
  if Directory.writable saved then ([note], d.write saved (.tables g))
  else ([note, "Writing failed"], d)

def generate (d : Directory) (file saved : Text) (saving : Bool) : Outcome :=
  let note : Text := "Generating grammar tables from " ++ file
  match OrderedMap.get? d.files file with
  | none => ⟨.error .missing, [note], d⟩
  | some ⟨.tables _, _⟩ => ⟨.error .notText, [note], d⟩
  | some ⟨.text t, _⟩ =>
    match Grammar.ofText (Text.unifyNewlines t) with
    | .error e => ⟨.error (.grammar e), [note], d⟩
    | .ok g =>
      if saving then
        let (notes, after) := save d saved g
        ⟨.ok g, note :: notes, after⟩
      else ⟨.ok g, [note], d⟩

def restore (d : Directory) (saved : Text) : Outcome :=
  match OrderedMap.get? d.files saved with
  | none => ⟨.error .missing, [], d⟩
  | some ⟨.tables g, _⟩ => ⟨.ok g, [], d⟩
  | some ⟨.text t, _⟩ => ⟨.error (if t.isEmpty then .emptyTables else .noTables), [], d⟩

/-- The tables of a grammar file: the saved ones if they are new enough, unless new ones are asked
for. -/
def load (d : Directory) (file saved : Text) (saving force : Bool) : Outcome :=
  if force || !d.newer saved file then generate d file saved saving else restore d saved

end Retouch.Grammar.Cache
