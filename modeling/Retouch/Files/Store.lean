import Retouch.Files.Path
import Retouch.OrderedMap
import Retouch.Text.Cookie
import Retouch.Text.Quoted

/-!
# Stores of files

Files and directories below a working directory.  What lies outside of it is not known, except that
there are directories.
-/

namespace Retouch.Files

open Retouch.Text.Cookie (Bytes)

/-- Files and directories below the working directory, by the parts of their paths. -/
structure Store where
  files : OrderedMap (List Text) Bytes := []
  directories : List (List Text) := []
deriving Repr, Inhabited

inductive Place where
  | file (parts : List Text)
  | directory (parts : List Text)
  /-- A directory that is not below the working directory, nor this itself. -/
  | outside
  /-- Nothing has this name, but something could. -/
  | free (parts : List Text)
  /-- There is no directory in which something could have this name. -/
  | missing
  /-- What stands where a directory should is a file. -/
  | notDirectory
deriving DecidableEq, Repr

inductive FileError where
  | missing
  | notDirectory
  | isDirectory
deriving DecidableEq, Repr

def FileError.message (path : Text) : FileError → Text
  | .missing => "[Errno 2] No such file or directory: " ++ Text.quoted path
  | .notDirectory => "[Errno 20] Not a directory: " ++ Text.quoted path
  | .isDirectory => "[Errno 21] Is a directory: " ++ Text.quoted path

namespace Place

def toRead : Place → Except FileError (List Text)
  | .file parts => .ok parts
  | .directory _ | .outside => .error .isDirectory
  | .notDirectory => .error .notDirectory
  | .free _ | .missing => .error .missing

def toWrite : Place → Except FileError (List Text)
  | .free parts => .ok parts
  | place => place.toRead

end Place

namespace Store

def above (parts : List Text) : List (List Text) :=
  ((List.range parts.length).map (parts.take ·)).drop 1

def write (s : Store) (parts : List Text) (content : Bytes) : Store :=
  { files := OrderedMap.insert s.files parts content
    directories := (above parts).foldl insertNew s.directories }

def remove (s : Store) (parts : List Text) : Store :=
  { s with files := OrderedMap.erase s.files parts }

def makeDirectory (s : Store) (parts : List Text) : Store :=
  { s with directories := (above parts ++ [parts]).foldl insertNew s.directories }

def lookUp (s : Store) (parts : List Text) : Place :=
  if OrderedMap.has s.files parts then .file parts
  else if parts.isEmpty || s.directories.contains parts then .directory parts
  else .free parts

def goTo (s : Store) : Place → Text → Place
  | .directory parts, part =>
    if part = "..".toList then if parts.isEmpty then .outside else .directory parts.dropLast
    else s.lookUp (parts ++ [part])
  | .outside, part => if part = "..".toList then .outside else .missing
  | .file _, _ => .notDirectory
  | .free _, _ => .missing
  | .missing, _ => .missing
  | .notDirectory, _ => .notDirectory

def asksForDirectory (path : Text) : Bool :=
  ((Text.splitOn '/' path).getLast?.map fun p => p.isEmpty || p == ['.']).getD false

def find (s : Store) (path : Text) : Place :=
  if path.isEmpty then .missing
  else
    let start := if Text.startsWith "/" path then .outside else .directory []
    match (partsOf path).foldl s.goTo start, asksForDirectory path with
    | .file _, true => .notDirectory
    | .free _, true => .missing
    | place, _ => place

def exists? (s : Store) (path : Text) : Bool :=
  match s.find path with
  | .file _ | .directory _ | .outside => true
  | _ => false

def isDirectory (s : Store) (path : Text) : Bool :=
  match s.find path with
  | .directory _ | .outside => true
  | _ => false

def contentOf? (s : Store) (parts : List Text) : Option Bytes := OrderedMap.get? s.files parts

def rename (s : Store) (old new : List Text) : Store :=
  (s.remove old).write new ((s.contentOf? old).getD [])

def read (s : Store) (path : Text) : Except FileError Bytes :=
  (s.find path).toRead.map fun parts => (s.contentOf? parts).getD []

def namesIn (parts : List Text) (paths : List (List Text)) : List Text :=
  paths.filterMap fun p => if p.dropLast = parts then p.getLast? else none

/-- The files that lie directly in a directory, in the order of their names. -/
def filesIn (s : Store) (parts : List Text) : List Text :=
  Text.sorted (namesIn parts (OrderedMap.keys s.files))

/-- The directories that lie directly in a directory, in the order of their names. -/
def directoriesIn (s : Store) (parts : List Text) : List Text :=
  Text.sorted (namesIn parts s.directories)

end Store

end Retouch.Files
