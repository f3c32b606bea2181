import Retouch.Fixer.Basic

/-!
# Samples

Fixers that do little or nothing.  They serve to try out how fixers are ordered and chosen.
-/

namespace Retouch.Fixes.Samples

def idle (title : Text) : Fixer where
  title
  recognise := fun _ => return none
  transform := fun _ _ => return .keep

def first : Fixer := (idle "first").ranked 1

def last : Fixer := (idle "last").ranked 10

def preorder : Fixer := { idle "preorder" with order := .pre }

def explicit : Fixer :=
  { (idle "explicit").onRequest with recognise := fun _ => throw .wrongForm }

def badOrder : Fixer := { idle "bad_order" with order := .other "crazy" }

/-- Functions named `parrot` are renamed to `cheese`. -/
def parrot : Fixer :=
  .ofPattern "parrot" "funcdef < 'def' name='parrot' any* >" fun _ m => do
    let old ← m.one "name"
    replaceBy old (← Build.name "cheese" (← leadOf old))
    return .keep

end Retouch.Fixes.Samples
