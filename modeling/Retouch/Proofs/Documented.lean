import Retouch.Proofs.Lines
import Retouch.Proofs.Maps
import Retouch.Refactor.Doctest

/-!
# Examples in documented texts

The parts of a text are its lines, with those of each example taken together as far as they go on
(`Blocks`).  Every line of an example has the prompt that is taken off before it is parsed, so changing
a text changes nothing but its examples.
-/

namespace Retouch

namespace Doctest

open List

def Blank (indent : Text) : Prop := ∀ c ∈ indent, Text.isBlank c = true

/-- The lines from a row on, in parts.  An example begins with blanks and the prompt; the lines after
it belong to it up to the first that does not go on with it. -/
inductive Blocks : Nat → List Text → List Part → Prop
  | nil (row : Nat) : Blocks row [] []
  | plain {row : Nat} {line : Text} {lines : List Text} {ps : List Part} (stays : begins line = false)
    (rest : Blocks (row + 1) lines ps) : Blocks row (line :: lines) (.plain line :: ps)
  | block {row : Nat} {indent body : Text} {lines : List Text} {ps : List Part}
    (blank : Blank indent)
    (rest : Blocks (row + 1 + (lines.takeWhile (goesOn indent)).length)
      (lines.dropWhile (goesOn indent)) ps) :
    Blocks row ((indent ++ (firstPrompt ++ body)) :: lines) (.example
      ⟨row, indent, (indent ++ (firstPrompt ++ body)) :: lines.takeWhile (goesOn indent)⟩ :: ps)

variable {row : Nat} {indent line : Text} {lines : List Text} {e : Example} {ps : List Part}
  {tool : Tool} {job : Job} {file : Text}

/-! ## Where the examples are -/

theorem goesOn_iff : goesOn indent line = true ↔
    (∃ body, line = indent ++ (nextPrompt ++ body)) ∨ line = indent ++ ['.', '.', '.', '\n'] := by
  rw [goesOn, Bool.or_eq_true, Text.startsWith, isPrefixOf_iff_prefix, beq_iff_eq,
    append_assoc indent]
  refine or_congr (exists_congr fun body => ?_) .rfl
  rw [append_assoc, eq_comm]

theorem begins_of_goesOn (blank : Blank indent) (h : goesOn indent line = true) :
    begins line = false := by
  obtain ⟨_, rfl⟩ | rfl := goesOn_iff.1 h
  all_goals
    rw [begins, Text.stripStart, dropWhile_append_of_pos blank]
    rfl

theorem indexOf?_append (blank : Blank indent) (body : Text) :
    Text.indexOf? firstPrompt (indent ++ (firstPrompt ++ body)) = some indent.length := by
  induction indent with
  | nil => rfl
  | cons c indent ih =>
    obtain ⟨first, blank⟩ := forall_mem_cons.1 blank
    have other : ('>' == c) = false := beq_false_of_ne fun same => by
      rw [← same] at first
      cases first
    have unlike : Text.startsWith firstPrompt (c :: (indent ++ (firstPrompt ++ body))) = false := by
      show ('>' == c && _) = false
      rw [other, Bool.false_and]
    rw [cons_append, Text.indexOf?, unlike, ih blank]
    rfl

theorem exists_of_begins (h : begins line = true) (row : Nat) :
    ∃ indent body, Blank indent ∧ line = indent ++ (firstPrompt ++ body) ∧
      Example.beginning row line = ⟨row, indent, [line]⟩ := by
  obtain ⟨body, found⟩ := isPrefixOf_iff_prefix.1 h
  obtain ⟨indent, blank, rfl⟩ : ∃ indent, Blank indent ∧ line = indent ++ (firstPrompt ++ body) :=
    ⟨line.takeWhile Text.isBlank, all_eq_true.1 (all_takeWhile ..), by
      rw [found, Text.stripStart, takeWhile_append_dropWhile]⟩
  refine ⟨indent, body, blank, rfl, ?_⟩
  rw [Example.beginning, indexOf?_append blank, Option.getD_some, take_left]

theorem partsFrom_some (blank : Blank e.indent) :
    partsFrom row (some e) lines =
      .example { e with lines := e.lines ++ lines.takeWhile (goesOn e.indent) } ::
        partsFrom (row + (lines.takeWhile (goesOn e.indent)).length) none
          (lines.dropWhile (goesOn e.indent)) := by
  induction lines generalizing row e with
  | nil => simp [partsFrom]
  | cons line lines ih =>
    cases goes : goesOn e.indent line with
    | true =>
      rw [takeWhile_cons_of_pos goes, dropWhile_cons_of_pos goes, partsFrom,
        begins_of_goesOn blank goes]
      simp only [goes]
      rw [@ih (row + 1) { e with lines := e.lines ++ [line] } blank, append_assoc,
        Nat.add_right_comm]
      rfl
    | false =>
      have stops : ¬ goesOn e.indent line = true := by rw [goes]; nofun
      rw [takeWhile_cons_of_neg stops, dropWhile_cons_of_neg stops, partsFrom, partsFrom]
      simp only [goes]
      cases begins line <;> simp

theorem blocks_partsFrom (row : Nat) (lines : List Text) :
    Blocks row lines (partsFrom row none lines) := by
  match lines with
  | [] => exact .nil row
  | line :: lines =>
    cases start : begins line with
    | false =>
      rw [partsFrom, start]
      exact .plain start (blocks_partsFrom ..)
    | true =>
      obtain ⟨_, _, blank, rfl, beginning⟩ := exists_of_begins start row
      rw [partsFrom, start, beginning, partsFrom_some blank]
      exact .block blank (blocks_partsFrom ..)
termination_by lines.length
decreasing_by
  · simp
  · exact Nat.lt_succ_of_le (dropWhile_suffix _).length_le

/-! ## What they become -/

def Part.given : Part → List Text
  | .plain line => [line]
  | .example e => e.lines

theorem Blocks.given (h : Blocks row lines ps) : (ps.map Part.given).flatten = lines := by
  induction h with
  | nil => rfl
  | plain _ _ ih =>
    rw [map_cons, flatten_cons, ih]
    rfl
  | block _ _ ih =>
    rw [map_cons, flatten_cons, ih, Part.given, cons_append, takeWhile_append_dropWhile]

theorem unprompted_of_goesOn (h : goesOn indent line = true) :
    ∃ l, unprompted (indent ++ nextPrompt) line = .ok l := by
  have bare : .stripEnd (indent ++ nextPrompt) = indent ++ ['.', '.', '.'] := by
    show ((indent ++ nextPrompt).reverse.dropWhile Text.isBlank).reverse = _
    rw [reverse_append]
    show (['.', '.', '.'] ++ indent.reverse).reverse = _
    rw [reverse_append, reverse_reverse]
    rfl
  rw [unprompted]
  split
  · exact ⟨_, rfl⟩
  · rename_i unlike
    obtain ⟨body, rfl⟩ | rfl := goesOn_iff.1 h
    · refine absurd ( isPrefixOf_iff_prefix.2 ?_) unlike
      exact ⟨body, append_assoc ..⟩
    · exact ⟨['\n'], by rw [bare, append_assoc]; exact if_pos rfl⟩

theorem mapM_unprompted (h : ∀ l ∈ lines, goesOn indent l = true) :
    ∃ program, lines.mapM (unprompted (indent ++ nextPrompt)) = .ok program := by
  induction lines with
  | nil => exact ⟨[], rfl⟩
  | cons l lines ih =>
    obtain ⟨first, rest⟩ := forall_mem_cons.1 h
    obtain ⟨l', eq⟩ := unprompted_of_goesOn first
    obtain ⟨program, eqs⟩ := ih rest
    exact ⟨l' :: program, by rw [mapM_cons, eq, eqs]; rfl⟩

theorem Blocks.program (h : Blocks row lines ps) (member : .example e ∈ ps) :
    ∃ program, e.program = .ok program := by
  induction h with
  | nil => cases member
  | plain _ _ ih =>
    obtain - | ⟨_, member⟩ := member
    exact ih member
  | @block row indent body lines ps _ _ ih =>
    obtain - | ⟨_, member⟩ := member
    · obtain ⟨program, eq⟩ := mapM_unprompted
        (all_eq_true.1 (all_takeWhile (l := lines) (p := goesOn indent)))
      obtain ⟨l, first⟩ :
          ∃ l, unprompted (indent ++ firstPrompt) (indent ++ (firstPrompt ++ body)) = .ok l :=
        ⟨_, if_pos ( isPrefixOf_iff_prefix.2 ⟨body, append_assoc ..⟩)⟩
      refine ⟨l :: program, ?_⟩
      simp only [Example.program, first, eq]
      rfl
    · exact ih member

def Changes (tool : Tool) (job : Job) (file : Text) (e : Example) (p : Program) : Prop :=
  ∃ log source, e.source? (tool.grammarFor []) = some source ∧
    (tool.changeSource { job with log, features := none } file source).result = .ok p

/-- An example becomes what it is changed to if its program changes, and stays otherwise. -/
def Becomes (tool : Tool) (job : Job) (file : Text) : Part → List Text → Prop
  | .plain line, new => new = [line]
  | .example e, new => ∃ p, Changes tool job file e p ∧
      (if p.changed then e.changedLines p.text else .ok e.lines) = .ok new

theorem changes_of_changeExample {log : List Text} {new : List Text}
    (h : (changeExample tool { job with log } file e).result = .ok new) :
    Becomes tool job file (.example e) new := by
  rw [changeExample] at h
  split at h
  · cases h
  · rename_i source parsed
    simp only at h
    split at h
    · cases h
    · rename_i p done
      exact ⟨p, ⟨log, source, parsed, done⟩, h⟩

theorem becomes_of_changeParts {log out : List Text}
    (h : (changeParts tool { job with log } file ps).result = .ok out) :
    ∃ news, ps.Forall₂ (Becomes tool job file) news ∧ out = news.flatten := by
  induction ps generalizing log out with
  | nil =>
    cases h
    exact ⟨[], .nil, rfl⟩
  | cons part ps ih =>
    obtain line | e := part
    · obtain ⟨rest, found, rfl⟩ := map_eq_ok.1 h
      obtain ⟨news, become, rfl⟩ := ih found
      exact ⟨[line] :: news, .cons rfl become, rfl⟩
    · simp only [changeParts] at h
      split at h
      · cases h
      · rename_i new changed
        obtain ⟨rest, found, rfl⟩ := map_eq_ok.1 h
        obtain ⟨news, become, rfl⟩ := ih found
        exact ⟨new :: news, .cons (changes_of_changeExample changed) become, rfl⟩

theorem given_of_becomes {news : List (List Text)} (h : ps.Forall₂ (Becomes tool job file) news)
    (same : ∀ e p, .example e ∈ ps → Changes tool job file e p → p.changed = false) :
    news = ps.map Part.given := by
  induction h with
  | nil => rfl
  | @cons part new ps news first _ ih =>
    rw [map_cons, ← ih fun e p member => same e p (mem_cons_of_mem _ member)]
    congr 1
    obtain _ | e := part
    · exact first
    · obtain ⟨p, changes, rest⟩ := first
      rw [same e p mem_cons_self changes] at rest
      cases rest
      rfl

end Doctest

open Doctest

/-- **Changing the examples of a documented text** changes nothing else.  The text is cut into lines and
examples, each as long as its lines go on; every line of an example has its prompt; and where the
tool comes to an end, the lines stay and each example becomes what its program is changed to, or stays
if the program does. -/
theorem Tool.changeDoctests_parts (tool : Tool) (job : Job) (file text : Text) :
    Blocks 1 (Text.lines text) (parts text) ∧
    (∀ e, .example e ∈ parts text → ∃ program, e.program = .ok program) ∧
    ∀ out, (tool.changeDoctests job file text).result = .ok out →
      ∃ news, (parts text).Forall₂ (Becomes tool job file) news ∧ out = Text.concat news.flatten ∧
        ((∀ e p, .example e ∈ parts text → Changes tool job file e p → p.changed = false) →
          out = text) := by
  have blocks := blocks_partsFrom 1 (Text.lines text)
  refine ⟨blocks, fun e => blocks.program, fun out h => ?_⟩
  obtain ⟨lines, found, rfl⟩ := map_eq_ok.1 h
  obtain ⟨news, become, rfl⟩ := becomes_of_changeParts found
  refine ⟨news, become, rfl, fun same => ?_⟩
  rw [given_of_becomes become same, show ((parts text).map Part.given).flatten = _ from blocks.given]
  exact Text.flatten_lines text

example : parts "Sum:\n >>> f(1,\n ... 2)\n 3\n" = [.plain "Sum:\n",
    .example ⟨2, " ", [" >>> f(1,\n", " ... 2)\n"]⟩, .plain " 3\n"] := by decide

end Retouch
