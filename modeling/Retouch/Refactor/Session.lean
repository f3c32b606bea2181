import Retouch.Refactor.Doctest
import Retouch.Text.Difference
import Retouch.Text.Encoding

/-!
# Sessions

In a session a tool goes through files and directories.  It keeps a list of what it changed and
messages for the user, and can write the changed programs back to their files.
-/

namespace Retouch

open Retouch.Files (FileError)
open Retouch.Text.Cookie (Bytes Encoding)

/-! ## What can go wrong -/

inductive Failure where
  | program (e : ProgramError)
  | file (e : FileError)
  /-- The declared encoding cannot be used. -/
  | cookie (e : Text.Cookie.Error)
  | noEncoding (name : Text)
  /-- The bytes of a file are not those of characters. -/
  | undecodable
  /-- The encoding of a file has not all of the characters. -/
  | unencodable
deriving Repr

/-! ## The state of a session -/

inductive Level where
  | debug
  | info
  | error
deriving DecidableEq, Repr

inductive Notice where
  | message (level : Level) (text : Text)
  | warning (text : Text)
deriving DecidableEq, Repr

/-- A program before and after the fixers went through it. -/
structure Output where
  file : Text
  old : Text
  new : Text
deriving DecidableEq, Repr

def Output.equal (o : Output) : Bool := o.old == o.new

structure Session where
  store : Files.Store := {}
  notices : List Notice := []
  log : List Text := []
  /-- The files that were changed, or would be. -/
  modified : List Text := []
  wrote : Bool := false
  errors : List Text := []
  outputs : List Output := []
  printed : Text := []
deriving Inhabited

structure Manner where
  /-- Are errors noted and changes reported, instead of a stop at the first error? -/
  interactive : Bool := false
  showsDifferences : Bool := true
  /-- Can only ASCII characters be printed? -/
  printsAscii : Bool := false
  keepsBackups : Bool := true
  writes : Bool := false
  /-- Are only the examples in documentation changed? -/
  doctestsOnly : Bool := false

abbrev Work := EStateM Failure Session

namespace Work

def tell (level : Level) (text : Text) : Work Unit :=
  modify fun s => { s with notices := s.notices ++ [.message level text] }

def noteError (m : Manner) (text : Text) (e : Failure) : Work Unit := do
  if m.interactive then
    tell .error text
    modify fun s => { s with errors := s.errors ++ [text] }
  else throw e

/-! ## Reading and writing -/

def byteLines : Bytes → List Bytes
  | [] => []
  | b :: bs =>
    if b = 10 then [b] :: byteLines bs
    else
      match byteLines bs with
      | [] => [[b]]
      | l :: ls => (b :: l) :: ls

/-- The text of a program and its encoding, by what it declares itself; nothing if the file cannot be
opened.  All line ends become newlines. -/
def readProgram (m : Manner) (path : Text) : Work (Option (Text × Encoding)) := do
  match (← get).store.read path with
  | .error e =>
    noteError m ("Can't open " ++ path ++ ": " ++ e.message path) (.file e)
    return none
  | .ok bytes =>
    match Text.Cookie.detect (byteLines bytes) with
    | .error e => throw (.cookie e)
    | .ok (name, _) =>
      match Encoding.ofName? name with
      | none => throw (.noEncoding name)
      | some encoding =>
        match encoding.decode? bytes with
        | none => throw .undecodable
        | some text => return some (Text.unifyNewlines text, encoding)

def alterStore (g : Files.Store → Files.Store) : Work Unit :=
  modify fun s => { s with store := g s.store }

def makeBackup (path : Text) : Work Unit := do
  let backup := path ++ ".bak"
  let store := (← get).store
  if store.isDirectory backup then tell .info ("Can't remove backup " ++ backup)
  match (store.find path).toRead, (store.find backup).toWrite with
  | .ok old, .ok new => alterStore (·.rename old new)
  | _, _ => tell .info ("Can't rename " ++ path ++ " to " ++ backup)

def writeProgram (m : Manner) (path text : Text) (encoding : Encoding) : Work Unit := do
  if m.interactive && m.keepsBackups then makeBackup path
  match ((← get).store.find path).toWrite with
  | .error e => noteError m ("Can't create " ++ path ++ ": " ++ e.message path) (.file e)
  | .ok parts =>
    alterStore (·.write parts [])
    match encoding.encode? text with
    | none => throw .unencodable
    | some bytes =>
      alterStore (·.write parts bytes)
      tell .debug ("Wrote changes to " ++ path)
      modify fun s => { s with wrote := true }

/-! ## Reporting -/

def printLine (line : Text) : Work Unit :=
  modify fun s => { s with printed := s.printed ++ line ++ "\n" }

/-- Print the lines of the differences of a file, up to one that cannot be printed. -/
def printDifferences (m : Manner) (file : Text) : List Text → Work Unit
  | [] => pure ()
  | line :: lines => do
    if m.printsAscii && line.any fun c => 128 ≤ c.toNat then
      modify fun s => { s with
        notices := s.notices ++ [.warning ("couldn't encode " ++ file ++ "'s diff for your terminal")] }
    else
      printLine line
      printDifferences m file lines

def report (m : Manner) (o : Output) : Work Unit := do
  modify fun s => { s with outputs := s.outputs ++ [o] }
  if m.interactive then
    if o.equal then tell .info ("No changes to " ++ o.file)
    else
      tell .info ("Refactored " ++ o.file)
      if m.showsDifferences then
        printDifferences m o.file
          (Text.Difference.unified (o.file ++ "\t(original)") (o.file ++ "\t(refactored)")
            (Text.bareLines o.old) (Text.bareLines o.new))

/-- Handle a changed program.  It is written back if it has an encoding, which is that of its
file. -/
def handle (m : Manner) (file new old : Text) (encoding : Option Encoding) : Work Unit := do
  let o : Output := ⟨file, old, new⟩
  report m o
  if o.equal then tell .debug ("No changes to " ++ file)
  else
    match m.writes, encoding with
    | true, some e => writeProgram m file new e
    | _, _ => tell .debug ("Not writing changes to " ++ file)

def noteModified (file : Text) : Work Unit :=
  modify fun s => { s with modified := s.modified ++ [file] }

/-! ## Programs -/

def freshJob : Work Job := do
  return { store := (← get).store }

def addLog (log : List Text) : Work Unit :=
  modify fun s => { s with log := s.log ++ log }

/-- Change a program; nothing if it cannot be parsed. -/
def changeText (tool : Tool) (m : Manner) (file text : Text) : Work (Option Program) := do
  let r := tool.changeText (← freshJob) file text
  let tellBegin := tell .debug ("Refactoring " ++ file)
  addLog r.log
  match r.result with
  | .ok p =>
    tellBegin
    return some p
  | .error (.unparsable e) =>
    let (kind, details) := e.shown
    noteError m ("Can't parse " ++ file ++ ": " ++ kind ++ ": " ++ details)
      (.program (.unparsable e))
    return none
  | .error (.faulty f) =>
    tellBegin
    throw (.program (.faulty f))
  | .error e => throw (.program e)

def changeDoctests (tool : Tool) (file text : Text) : Work Text := do
  let r := tool.changeDoctests (← freshJob) file text
  addLog r.log
  match r.result with
  | .ok t => return t
  | .error f => throw (.program (.faulty f))

/-- Go through a file.  The program is given an empty line at its end, which is taken away
afterwards. -/
def changeFile (tool : Tool) (m : Manner) (file : Text) : Work Unit := do
  match ← readProgram m file with
  | none => pure ()
  | some (text, encoding) =>
    let old := text ++ "\n"
    if m.doctestsOnly then
      tell .debug ("Refactoring doctests in " ++ file)
      let new ← changeDoctests tool file old
      if new ≠ old then
        noteModified file
        handle m file new old (some encoding)
      else tell .debug ("No doctest changes in " ++ file)
    else
      match ← changeText tool m file old with
      | none => tell .debug ("No changes in " ++ file)
      | some p =>
        if p.changed then
          noteModified file
          match ← readProgram m file with
          | none => pure ()
          | some (before, _) => handle m file p.text.dropLast before (some encoding)
        else tell .debug ("No changes in " ++ file)

def changeInput (tool : Tool) (m : Manner) (text : Text) : Work Unit := do
  let file : Text := "<stdin>"
  if m.doctestsOnly then
    tell .debug "Refactoring doctests in stdin"
    let new ← changeDoctests tool file text
    if new ≠ text then
      noteModified file
      handle m file new text none
    else tell .debug "No doctest changes in stdin"
  else
    match ← changeText tool m file text with
    | none => tell .debug "No changes in stdin"
    | some p =>
      if p.changed then
        noteModified file
        handle m file p.text text none
      else tell .debug "No changes in stdin"

/-! ## Files and directories -/

def isProgramName (name : Text) : Bool :=
  !Text.startsWith "." name && Text.endsWith "py" (Files.extensionOf name)

def changeFiles (tool : Tool) (m : Manner) : List Text → Work Unit
  | [] => pure ()
  | f :: fs => do
    changeFile tool m f
    changeFiles tool m fs

/-- Go through directories: the programs in one, and then the directories in it, except for those
whose names begin with a dot.  The first argument bounds how many. -/
def changeDirectories (tool : Tool) (m : Manner) : Nat → List Text → Work Unit
  | 0, _ => pure ()
  | _ + 1, [] => pure ()
  | fuel + 1, path :: rest => do
    tell .debug ("Descending into " ++ path)
    let store := (← get).store
    match store.find path with
    | .directory parts =>
      changeFiles tool m (((store.filesIn parts).filter isProgramName).map (Files.below path))
      let inside := (store.directoriesIn parts).filter fun d => !Text.startsWith "." d
      changeDirectories tool m fuel (inside.map (Files.below path) ++ rest)
    | _ => changeDirectories tool m fuel rest

def changeItem (tool : Tool) (m : Manner) (item : Text) : Work Unit := do
  let store := (← get).store
  if store.isDirectory item then
    changeDirectories tool m (store.directories.length + 2) [item]
  else changeFile tool m item

def changeItems (tool : Tool) (m : Manner) : List Text → Work Unit
  | [] => pure ()
  | item :: items => do
    changeItem tool m item
    changeItems tool m items

def tellAll (texts : List Text) : Work Unit :=
  modify fun s => { s with notices := s.notices ++ texts.map (Notice.message .info) }

def summarize : Work Unit := do
  let s ← get
  let were : Text := if s.wrote then "were" else "need to be"
  if s.modified.isEmpty then tell .info ("No files " ++ were ++ " modified.")
  else tellAll (("Files that " ++ were ++ " modified:") :: s.modified)
  if !s.log.isEmpty then tellAll ("Warnings/messages while refactoring:".toList :: s.log)
  match s.errors.length with
  | 0 => pure ()
  | 1 => tellAll ("There was 1 error:".toList :: s.errors)
  | n => tellAll (("There were " ++ Text.ofNat n ++ " errors:") :: s.errors)

end Work

end Retouch
