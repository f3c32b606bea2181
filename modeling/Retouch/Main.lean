import Retouch.Command.Convert
import Retouch.Command.Explore
import Retouch.Fixes

/-!
# The command line

`retouch` changes the programs that its arguments name.  After the word `explore` it shows, part by
part, the patterns that a snippet of a program would match.

All decisions are made by `Retouch.Command` on a store of files.  Here the store is filled with the
files that the arguments name by paths below the working directory, and what has become of it is
written back.
-/

namespace Retouch.CommandLine

def program : Text := "retouch"

def package : Text := "retouch.fixes"

def catalog : Catalog := Catalog.ofPackage package Fixes.all

def isBelow (name : Text) : Bool :=
  !name.isEmpty && !Text.startsWith "/" name && !(Files.partsOf name).contains "..".toList

/-- The files that are named, as far as they can be read. -/
def readStore (names : List Text) : IO Files.Store := do
  let mut store : Files.Store := {}
  for name in names.filter isBelow do
    match ← (IO.FS.readBinFile (String.ofList name)).toBaseIO with
    | .ok bytes => store := store.write (Files.partsOf name) bytes.toList
    | .error _ => pure ()
  return store

def writeStore (old new : Files.Store) : IO Unit := do
  for (parts, bytes) in new.files do
    if old.contentOf? parts != some bytes then
      IO.FS.writeBinFile (String.ofList (Text.join ['/'] parts)) ⟨bytes.toArray⟩

def readInput (wanted : Bool) : IO Text := do
  let stdin ← IO.getStdin
  let mut input : List Text := []
  let mut more := wanted
  while more do
    let line ← stdin.getLine
    more := !line.isEmpty
    input := line.toList :: input
  return Text.concat input.reverse

/-- Print what a command has to say, and end with its status or with what stopped it. -/
def finish (printed complaints : Text) (outcome : Except Text Nat) : IO UInt32 := do
  IO.print (String.ofList printed)
  IO.eprint (String.ofList complaints)
  match outcome with
  | .ok status => return UInt32.ofNat status
  | .error reason =>
    IO.eprintln (String.ofList (program ++ ": " ++ reason))
    return 1

def reasonOf : Failure → Text
  | .program _ => "a program cannot be changed"
  | .file e => e.message []
  | .cookie e => e.message
  | .noEncoding name => "unknown encoding: " ++ name
  | .undecodable => "a file cannot be decoded"
  | .unencodable => "a program cannot be encoded"

def convert (args : List Text) : IO UInt32 := do
  let store ← readStore args
  let input ← readInput (args.contains "-".toList)
  let result := Command.convert program catalog package args { store, input }
  writeStore store result.store
  finish result.printed result.complaints <| match result.ending with
    | .status n | .exit n => .ok n
    | .unloadable e => .error e.message
    | .failure e => .error (reasonOf e)

/-- Show patterns.  The snippet is given by the arguments; the answers to the questions about it are
read from the input. -/
def explore (args : List Text) : IO UInt32 := do
  let result := Command.explore program args (← readStore args) (← readInput true)
  finish result.printed result.complaints <| match result.ending with
    | .status n | .exit n => .ok n
    | .unparsable _ => .error "the snippet cannot be parsed"
    | .unreadable e => .error (e.message [])
    | .undecodable => .error "the snippet cannot be decoded"
    | .unanswered => .error "there is no answer"

end Retouch.CommandLine

def main (args : List String) : IO UInt32 :=
  match args.map String.toList with
  | first :: rest =>
    if first = "explore".toList then Retouch.CommandLine.explore (first :: rest)
    else Retouch.CommandLine.convert (first :: rest)
  | [] => Retouch.CommandLine.convert []
