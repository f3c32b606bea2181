import Retouch.Text.Basic

/-!
# Paths

Paths are texts whose parts are divided by slashes.  They are kept as they were given, because they
are shown to the user.
-/

namespace Retouch.Files

def withoutSlashes (path : Text) : Text :=
  if path.all (· == '/') then path else Text.dropEnd (· == '/') path

/-- The directory part of a path: what stands before its last slash. -/
def directoryOf (path : Text) : Text :=
  withoutSlashes (Text.dropEnd (· != '/') path)

def baseOf (path : Text) : Text := (path.reverse.takeWhile (· != '/')).reverse

/-- A path below a directory.  A path that begins with a slash stands for itself. -/
def below (directory path : Text) : Text :=
  if Text.startsWith "/" path then path
  else if directory.isEmpty || Text.endsWith "/" directory then directory ++ path
  else directory ++ "/" ++ path

/-- The ending of a name from its last dot, where dots at its beginning do not count. -/
def extensionOf (name : Text) : Text :=
  let rest := (baseOf name).dropWhile (· == '.')
  if rest.contains '.' then '.' :: (rest.reverse.takeWhile (· != '.')).reverse else []

/-- The parts of a path that name something: neither empty nor a single dot. -/
def partsOf (path : Text) : List Text :=
  (Text.splitOn '/' path).filter fun p => !p.isEmpty && p != ['.']

end Retouch.Files
