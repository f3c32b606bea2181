import Retouch.Text.Basic

/-!
# Differences between texts

The differences between two lists of lines, in the unified form.  The lists are aligned by their
longest common run of lines, and then in the same way before and after it.  In a long list a line
that occurs very often does not begin a run.
-/

namespace Retouch.Text.Difference

/-! ## Common runs -/

/-- A run of lines that both lists have: where it starts in the first and in the second list, and
its length. -/
structure Run where
  left : Nat
  right : Nat
  length : Nat
deriving DecidableEq, Repr, Inhabited

/-- The part of both lists that is compared: from and up to a place in each. -/
structure Window where
  left : Nat
  leftEnd : Nat
  right : Nat
  rightEnd : Nat
deriving DecidableEq, Repr

/-- The places of a line in a list.  In a list of at least two hundred lines, one that stands at more
than one place in a hundred, and one more, has none. -/
def placesOf (lines : Array Text) (line : Text) : List Nat :=
  let places := (List.range lines.size).filter fun j => lines[j]? == some line
  if 200 ≤ lines.size && lines.size / 100 + 1 < places.length then [] else places

/-- The lengths of the runs that end at a line of the first list, by the places in the second list at
which they end, from those for the line before. -/
def runsEnding (w : Window) (before : List (Nat × Nat)) (places : List Nat) : List (Nat × Nat) :=
  (places.filter fun j => w.right ≤ j && j < w.rightEnd).map fun j =>
    (j, (if j = 0 then 0 else (before.lookup (j - 1)).getD 0) + 1)

/-- The longer one of the best run so far and those that end at a line; the earlier one of two. -/
def bestOf (i : Nat) (best : Run) (runs : List (Nat × Nat)) : Run :=
  runs.foldl (fun best (j, k) => if best.length < k then ⟨i + 1 - k, j + 1 - k, k⟩ else best) best

/-- The longest run among those found at the lines of the first list, given with their numbers and
their places in the second list. -/
def longestFrom (w : Window) : List (Nat × List Nat) → List (Nat × Nat) → Run → Run
  | [], _, best => best
  | (i, places) :: rest, before, best =>
    let runs := runsEnding w before places
    longestFrom w rest runs (bestOf i best runs)

/-- The run made longer at its beginning, as far as the lines agree.  The last argument bounds by how
much. -/
def extendLeft (a b : Array Text) (w : Window) (r : Run) : Nat → Run
  | 0 => r
  | n + 1 =>
    if w.left < r.left && w.right < r.right && a[r.left - 1]? == b[r.right - 1]? then
      extendLeft a b w ⟨r.left - 1, r.right - 1, r.length + 1⟩ n
    else r

/-- The run made longer at its end, as far as the lines agree. -/
def extendRight (a b : Array Text) (w : Window) (r : Run) : Nat → Run
  | 0 => r
  | n + 1 =>
    if r.left + r.length < w.leftEnd && r.right + r.length < w.rightEnd &&
        a[r.left + r.length]? == b[r.right + r.length]? then
      extendRight a b w { r with length := r.length + 1 } n
    else r

/-- The longest common run in a window; `places` has the places of the lines of the first list. -/
def longestRun (a b : Array Text) (places : Array (List Nat)) (w : Window) : Run :=
  let numbered := (List.range (w.leftEnd - w.left)).map fun n =>
    (w.left + n, places.getD (w.left + n) [])
  let best := longestFrom w numbered [] ⟨w.left, w.right, 0⟩
  extendRight a b w (extendLeft a b w best a.size) a.size

/-- The common runs in a window, in their order.  The first argument bounds how often it is
divided. -/
def runsIn (a b : Array Text) (places : Array (List Nat)) : Nat → Window → List Run
  | 0, _ => []
  | fuel + 1, w =>
    let r := longestRun a b places w
    if r.length = 0 then []
    else
      let before := if w.left < r.left && w.right < r.right then
        runsIn a b places fuel ⟨w.left, r.left, w.right, r.right⟩ else []
      let after := if r.left + r.length < w.leftEnd && r.right + r.length < w.rightEnd then
        runsIn a b places fuel
          ⟨r.left + r.length, w.leftEnd, r.right + r.length, w.rightEnd⟩ else []
      before ++ [r] ++ after

def joinRuns : List Run → List Run
  | [] => []
  | r :: rs =>
    match joinRuns rs with
    | [] => [r]
    | s :: ss =>
      if r.left + r.length = s.left ∧ r.right + r.length = s.right then
        ⟨r.left, r.right, r.length + s.length⟩ :: ss
      else r :: s :: ss

def commonRuns (a b : Array Text) : List Run :=
  let places := a.map (placesOf b)
  joinRuns (runsIn a b places (a.size + b.size + 1) ⟨0, a.size, 0, b.size⟩)

/-! ## Changes -/

/-- A part of both lists, which is either the same in both or not. -/
structure Change where
  same : Bool
  window : Window
deriving DecidableEq, Repr

def changesFrom (i j leftEnd rightEnd : Nat) : List Run → List Change
  | [] => if i < leftEnd ∨ j < rightEnd then [⟨false, ⟨i, leftEnd, j, rightEnd⟩⟩] else []
  | r :: rs =>
    (if i < r.left ∨ j < r.right then [⟨false, ⟨i, r.left, j, r.right⟩⟩] else []) ++
      ⟨true, ⟨r.left, r.left + r.length, r.right, r.right + r.length⟩⟩ ::
      changesFrom (r.left + r.length) (r.right + r.length) leftEnd rightEnd rs

def margin : Nat := 3

def lastLines (w : Window) : Window :=
  { w with left := Nat.max w.left (w.leftEnd - margin), right := Nat.max w.right (w.rightEnd - margin) }

def firstLines (w : Window) : Window :=
  { w with
    leftEnd := Nat.min w.leftEnd (w.left + margin)
    rightEnd := Nat.min w.rightEnd (w.right + margin) }

/-- The changes in groups: parts that are the same are cut where they are longer than what is shown
after one change and before the next. -/
def groupsFrom (group : List Change) : List Change → List (List Change)
  | [] => if group.any (! ·.same) then [group] else []
  | c :: cs =>
    if c.same && 2 * margin < c.window.leftEnd - c.window.left then
      (group ++ [⟨true, firstLines c.window⟩]) ::
        groupsFrom [⟨true, lastLines c.window⟩] cs
    else groupsFrom (group ++ [c]) cs

/-- A part at the beginning that is the same is cut down to its last lines. -/
def trimStart : List Change → List Change
  | ⟨true, w⟩ :: cs => ⟨true, lastLines w⟩ :: cs
  | cs => cs

def trimEnd : List Change → List Change
  | [] => []
  | [⟨true, w⟩] => [⟨true, firstLines w⟩]
  | c :: cs => c :: trimEnd cs

def groups (a b : Array Text) : List (List Change) :=
  groupsFrom [] (trimEnd (trimStart (changesFrom 0 0 a.size b.size (commonRuns a b))))

/-! ## The unified form -/

/-- The lines of a range, counted from one: the first one and how many. -/
def rangeText (start stop : Nat) : Text :=
  let length := stop - start
  if length = 1 then ofNat (start + 1)
  else ofNat (if length = 0 then start else start + 1) ++ "," ++ ofNat length

def marked (mark : Char) (lines : Array Text) (start stop : Nat) : List Text :=
  (lines.extract start stop).toList.map (mark :: ·)

def changeLines (a b : Array Text) (c : Change) : List Text :=
  let w := c.window
  if c.same then marked ' ' a w.left w.leftEnd
  else marked '-' a w.left w.leftEnd ++ marked '+' b w.right w.rightEnd

def groupLines (a b : Array Text) (group : List Change) : List Text :=
  match group.head?, group.getLast? with
  | some first, some last =>
    ("@@ -" ++ rangeText first.window.left last.window.leftEnd ++ " +" ++
      rangeText first.window.right last.window.rightEnd ++ " @@") ::
      group.flatMap (changeLines a b)
  | _, _ => []

/-- The differences between two lists of lines in the unified form, with the titles of both. -/
def unified (oldTitle newTitle : Text) (old new : List Text) : List Text :=
  let a := old.toArray
  let b := new.toArray
  match groups a b with
  | [] => []
  | gs => ("--- " ++ oldTitle) :: ("+++ " ++ newTitle) :: gs.flatMap (groupLines a b)

end Retouch.Text.Difference
