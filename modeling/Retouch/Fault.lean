import Retouch.Text.Basic

/-!
# Faults

What can go wrong while trees are edited.  A fault ends the edit where it occurs; the changes made
before it stay.
-/

namespace Retouch

inductive Fault where
  /-- A condition that has to hold does not. -/
  | unmet
  /-- Something is asked for that a tree of this form does not have. -/
  | missing
  /-- A child is asked for where there are fewer. -/
  | outOfRange
  | unknown
  /-- Something has the wrong form for what is done with it. -/
  | wrongForm
  /-- There are more or fewer parts than expected. -/
  | miscounted
  /-- The edit itself refuses what it was given, and says why. -/
  | refused (message : Text)
  /-- The edit has come to something that it is not made for, and says what. -/
  | unexpected (message : Text)
  | notProvided
deriving DecidableEq, Repr

abbrev Attempt := Except Fault

def orFault {m : Type → Type} [Monad m] [MonadExcept Fault m] {α : Type} (f : Fault) :
    Option α → m α
  | some a => pure a
  | none => throw f

/-- Go on only if the condition holds. -/
def ensure {m : Type → Type} [Monad m] [MonadExcept Fault m] (b : Bool) : m Unit :=
  if b then pure () else throw .unmet

end Retouch
