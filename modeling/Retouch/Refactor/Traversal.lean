import Retouch.Forest.Walk
import Retouch.Refactor.Dispatch

/-!
# Going through a program

Every fixer begins with the program as a whole.  Then each tree is offered to the fixers that ask
for it: first to those that want to see trees before the others, then to the others, for whom small
trees come before the larger ones around them.
-/

namespace Retouch

def Worker.atWork {α : Type} (w : Worker) (act : Fix α) : Fix α := do
  modify fun job => { job with memory := job.shelf.getD w.slot {} }
  try act finally
    modify fun job => { job with shelf := job.shelf.set w.slot job.memory }

def Worker.treat (w : Worker) (i : NodeId) : Fix NodeId := w.atWork do
  match ← w.fixer.recognise i with
  | none => return i
  | some m =>
    match ← w.fixer.transform i m with
    | .keep => return i
    | .put new =>
      replaceBy i new
      return new

/-- Offer a tree to fixers, one after the other; each sees what the one before it made. -/
def offer : List Worker → NodeId → Fix Unit
  | [], _ => pure ()
  | w :: ws, i => do offer ws (← w.treat i)

/-- Offer the trees that a walk comes by to fixers.  The walk goes on through the tree as it has
become.  The second argument bounds how many trees are offered. -/
def traverse (ws : List Worker) : Nat → Walk → Fix Unit
  | 0, _ => pure ()
  | fuel + 1, walk => do
    match walk.next (← get).forest with
    | none => pure ()
    | some (i, walk) =>
      offer (← orFault .unknown (fixersFor ws (← kindOf i))) i
      traverse ws fuel walk

def beginAll (file : Text) (root : NodeId) : List Worker → Fix Unit
  | [] => pure ()
  | w :: ws => do
    w.atWork do
      Fixer.begin file
      w.fixer.start root
    beginAll file root ws

/-- Fixers in the order in which they are tried: those that see trees before the others, and the
others. -/
structure Team where
  pre : List Worker := []
  post : List Worker := []

def Forest.walkLimit (f : Forest) : Nat := (f.size + 16) * (f.size + 16)

/-- Change the program with the given root; tells whether anything was changed. -/
def Team.change (team : Team) (file : Text) (root : NodeId) : Fix Bool := do
  let all := team.pre ++ team.post
  modify fun job => { job with shelf := all.map fun _ => {} }
  beginAll file root all
  traverse team.pre (← get).forest.walkLimit (.rootFirst root)
  traverse team.post (← get).forest.walkLimit (.upward root)
  return ((← get).forest.cell root).changed

end Retouch
