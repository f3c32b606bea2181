import Retouch.Fixes.Imports

/-!
# Imports of the web modules

Two modules of the standard library were divided into several.  A statement that imports their
members becomes one statement for each of the new modules, and a use of a member names the module in
which it is now.
-/

namespace Retouch.Fixes

open Retouch.Build

/-- A new module and the members of the old one that are in it. -/
structure Division where
  module : Text
  members : List Text
deriving DecidableEq, Repr, Inhabited

def Division.ofStrings (module : String) (members : List String) : Division :=
  ⟨module.toList, members.map String.toList⟩

def addressParts : Division := .ofStrings "urllib.parse"
  ["quote", "quote_plus", "unquote", "unquote_plus", "urlencode", "splitattr", "splithost",
    "splitnport", "splitpasswd", "splitport", "splitquery", "splittag", "splittype", "splituser",
    "splitvalue"]

def webTable : List (Text × List Division) := [
  ("urllib".toList, [
    .ofStrings "urllib.request" ["URLOpener", "FancyURLOpener", "urlretrieve", "_urlopener",
      "urlopen", "urlcleanup", "pathname2url", "url2pathname"],
    addressParts,
    .ofStrings "urllib.error" ["ContentTooShortError"]]),
  ("urllib2".toList, [
    .ofStrings "urllib.request" ["urlopen", "install_opener", "build_opener", "Request",
      "OpenerDirector", "BaseHandler", "HTTPDefaultErrorHandler", "HTTPRedirectHandler",
      "HTTPCookieProcessor", "ProxyHandler", "HTTPPasswordMgr", "HTTPPasswordMgrWithDefaultRealm",
      "AbstractBasicAuthHandler", "HTTPBasicAuthHandler", "ProxyBasicAuthHandler",
      "AbstractDigestAuthHandler", "HTTPDigestAuthHandler", "ProxyDigestAuthHandler",
      "HTTPHandler", "HTTPSHandler", "FileHandler", "FTPHandler", "CacheFTPHandler",
      "UnknownHandler"],
    .ofStrings "urllib.error" ["URLError", "HTTPError"],
    addressParts])]

/-- The pattern for imports of an old module, and for uses of the members in one of the new ones. -/
def webUse (old : Text) (d : Division) : Text :=
  let o := Text.quoted old
  let members := alternatives d.members
  "import_name< 'import' (module=" ++ o ++ " | dotted_as_names< any* module=" ++ o ++ " any* >) >" ++
  "|import_from< 'from' mod_member=" ++ o ++ " 'import' ( member=" ++ members ++
    " | import_as_name< member=" ++ members ++ " 'as' any > | import_as_names< members=any*  >) >" ++
  "|import_from< 'from' module_star=" ++ o ++ " 'import' star='*' >" ++
  "|import_name< 'import' dotted_as_name< module_as=" ++ o ++ " 'as' any > >" ++
  "|power< bare_with_attr=" ++ o ++ " trailer< '.' member=" ++ members ++ " > any* >"

def webPattern : Pattern :=
  Context.fixed (Text.join "|" (webTable.flatMap fun (old, ds) => ds.map (webUse old)))

def divisionsOf (old : Text) : Fix (List Division) := orFault .unknown (webTable.lookup old)

def homeOf? (ds : List Division) (member : Text) : Option Text :=
  (ds.find? fun d => d.members.contains member).map Division.module

/-- The members by the new modules in which they are, in the order in which they come. -/
def grouped (ds : List Division) (members : List Text) : OrderedMap Text (List Text) :=
  members.foldl (fun groups member =>
    (ds.filter fun d => d.members.contains member).foldl
      (fun groups d => OrderedMap.alter groups d.module [] (· ++ [member])) groups) []

def namesWithCommas (lead : Text) : List Text → Edit (List NodeId)
  | [] => return []
  | [n] => return [← name n lead]
  | n :: ns => do
    let first ← name n lead
    return first :: (← comma) :: (← namesWithCommas lead ns)

def importLines (lead : Text) : List (Text × List Text) → Edit (List NodeId)
  | [] => return []
  | [(module, members)] => return [← fromImport module (← namesWithCommas lead members)]
  | (module, members) :: rest => do
    let first ← fromImport module (← namesWithCommas lead members)
    return first :: (← newline) :: (← importLines lead rest)

def renameToHome (i module member : NodeId) : Fix Unit := do
  match homeOf? (← divisionsOf (← valueText module)) (← valueText member) with
  | some new => rename module new
  | none => Fixer.cannotConvert i "This is an invalid module element"

def divideImport (i module : NodeId) (members : List NodeId) : Fix Unit := do
  let values ← members.mapM fun n => (valueText n : Edit Text)
  let ds ← divisionsOf (← valueText module)
  match grouped ds (values.filter (· != ",".toList)) with
  | [] => Fixer.cannotConvert i "All module elements are invalid"
  | groups =>
    let new ← importLines (← leadOf module) groups
    Forest.replace i new

def webImports : Fixer where
  title := "urllib"
  rank := 6
  explicit := true
  pattern := some webPattern
  recognise := matchOutermost webPattern
  transform := fun i m => do
    if let some module := m.one? "module" then
      let ds ← divisionsOf (← valueText module)
      let new ← namesWithCommas (← leadOf module) (ds.map Division.module)
      Forest.replace module new
    else if let some module := m.one? "mod_member" then
      match (m.many "member").head? with
      | some member => renameToHome i module member
      | none => divideImport i module (m.many "members")
    else if let some module := m.one? "bare_with_attr" then
      renameToHome i module (← m.first "member")
    else if m.has "module_star" then Fixer.cannotConvert i "Cannot handle star imports."
    else if m.has "module_as" then Fixer.cannotConvert i "This module is now multiple modules"
    return .keep

end Retouch.Fixes
