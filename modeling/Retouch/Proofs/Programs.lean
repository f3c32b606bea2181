import Retouch.Proofs.LanguageTables
import Retouch.Proofs.LexemeStops
import Retouch.Proofs.Lines

/-!
# Reading programs

A program that is parsed keeps its text (`Source.text_of_parse`).  The two ways to give a text to the
parser, by its lines and by its newlines, differ only in where lines end
(`Source.parse_eq_parseLines_iff`).  Where a line without a newline has nothing but blanks, and a
statement could begin, the text ends for the scanner (`Scan.scan_blank`), so that a form feed between
statements hides the rest of a program.
-/

namespace Retouch

namespace Scan

/-! ## Where the scanner stops -/

def after (s : State) : List Text → Option State
  | [] => some s
  | line :: lines =>
    match scanLine s line with
    | (_, .next s') => after s' lines
    | _ => none

/-- A statement can begin after the lines: no bracket or string is open, and the last line is not
continued. -/
def Rests (lines : List Text) : Prop :=
  ∃ s, after {} lines = some s ∧ s.opened = none ∧ s.depth = 0 ∧ s.continued = false

variable {blank : Text}

theorem leadingBlanks_of_separators (h : Lexeme.IsGap blank) (n column : Nat) :
    (leadingBlanks n column blank).1 = n + blank.length := by
  induction blank generalizing n column with
  | nil => rfl
  | cons c cs ih =>
    obtain ⟨hc, hcs⟩ := List.forall_mem_cons.1 h
    have step : ∀ column, (leadingBlanks (n + 1) column cs).1 = n + (c :: cs).length := by
      intro column
      rw [ih hcs, List.length_cons]
      omega
    unfold leadingBlanks
    repeat' split
    iterate 3 exact step _
    simp_all [Lexeme.isSeparator]

theorem scanLine_blank {s : State} (opened : s.opened = none) (depth : s.depth = 0)
    (continued : s.continued = false) (h : Lexeme.IsGap blank) :
    scanLine s blank = ([], .finish) := by
  have none : blank.drop (leadingBlanks 0 0 blank).1 = [] := by
    rw [leadingBlanks_of_separators h, zero_add, List.drop_length]
  unfold scanLine
  simp [opened, depth, continued, none]

theorem scanFromState_blank {s s' : State} {read : List Text} (hs : after s read = some s')
    (opened : s'.opened = none) (depth : s'.depth = 0) (continued : s'.continued = false)
    (h : Lexeme.IsGap blank) (rest : List Text) :
    scanFromState s (read ++ blank :: rest) = scanFromState s read := by
  induction read generalizing s with
  | nil =>
    cases hs
    rw [List.nil_append, scanFromState, scanFromState, scanLine_blank opened depth continued h,
      scanLine_blank opened depth continued (List.forall_mem_nil _)]
  | cons line lines ih =>
    unfold after at hs
    rw [List.cons_append, scanFromState, scanFromState]
    split at hs
    · rename_i step
      rw [step]
      simp [ih hs]
    · cases hs

/-- Nothing after such a line is scanned. -/
theorem scan_blank {read : List Text} (hr : Rests read) (h : Lexeme.IsGap blank)
    (rest : List Text) : scan (read ++ blank :: rest) = scan read := by
  obtain ⟨s, hs, opened, depth, continued⟩ := hr
  exact scanFromState_blank hs opened depth continued h rest

end Scan

namespace Source

/-! ## The text of a parsed program -/

/-- **Parsing keeps the text.**  A program that is empty or ends in a newline is the text of its tree,
with all blanks, comments and continued lines, and no token is found before the place that the text
has reached.  The same holds for a program given as a whole, if its only line ends are newlines. -/
theorem text_of_parse {g : Grammar} (hg : g ∈ [Language.grammar, Language.grammarWithoutPrint])
    {t : Text} (ht : t = [] ∨ t.getLast? = some '\n') :
    ((∀ source, parseLines g .collapsed (Text.newlineLines t) = .ok source → source.tree.text = t) ∧
      ∀ reached start,
        parseLines g .collapsed (Text.newlineLines t) ≠ .error (.misplaced reached start)) ∧
    ((∀ c ∈ t, Text.isLineEnd c = true → c = '\n') →
      (∀ source, parse g .collapsed t = .ok source → source.tree.text = t) ∧
      ∀ reached start, parse g .collapsed t ≠ .error (.misplaced reached start)) := by
  have closed := Language.closed_of_mem hg
  have isLine := Text.isLine_newlineLines ht
  have read : (∀ source, parseLines g .collapsed (Text.newlineLines t) = .ok source →
      source.tree.text = t) := by
    intro source h
    obtain ⟨_, text, _⟩ := parseLines_ok closed isLine h
    rw [text, Text.flatten_newlineLines]
  have placed := parseLines_not_misplaced closed.stray .collapsed isLine
  refine ⟨⟨read, placed⟩, fun newlines => ?_⟩
  rw [parse, Text.lines_eq_newlineLines (Text.plain_of_newlines newlines)]
  exact ⟨read, placed⟩

theorem text_of_parse_sample : ∃ source,
    parse Language.grammar .collapsed Language.sample = .ok source ∧
      source.tree.text = Language.sample := by
  obtain ⟨_, _, parsed⟩ := Language.ofText_grammarText
  have newlines : ∀ c ∈ Language.sample, Text.isLineEnd c = true → c = '\n' :=
    Lexeme.forall_mem_of_all (by decide)
  obtain ⟨-, given⟩ := text_of_parse (List.mem_cons_self ..) (t := Language.sample) (.inr rfl)
  exact ⟨_, parsed, (given newlines).1 _ parsed⟩

/-! ## Two ways to take lines -/

theorem parse_blank (g : Grammar) (shape : Shape) {t : Text} {read : List Text} {blank : Text}
    {rest : List Text} (lines : Text.lines t = read ++ blank :: rest) (hr : Scan.Rests read)
    (h : Lexeme.IsGap blank) :
    parse g shape t = parseLines g shape read := by
  rw [parse, lines, parseLines, Scan.scan_blank hr h, parseLines]

/-- **Two ways to give a text to the parser.**  They have the same lines exactly where every line end
other than a newline stands before a newline or at the very end, and there they give the same tree or
the same error.  Elsewhere a line can have no newline, and one that has nothing but blanks then ends
the text, if a statement could begin there: all that comes after it is lost. -/
theorem parse_eq_parseLines_iff (t : Text) :
    (Text.lines t = Text.newlineLines t ↔ Text.Plain t) ∧
    (Text.Plain t → ∀ g shape, parse g shape t = parseLines g shape (Text.newlineLines t)) ∧
    ∀ read blank rest, Text.lines t = read ++ blank :: rest → Scan.Rests read →
      (∀ c ∈ blank, Lexeme.isSeparator c = true) →
      ∀ g shape, parse g shape t = parseLines g shape read := by
  refine ⟨Text.lines_eq_newlineLines_iff t, fun plain g shape => ?_, ?_⟩
  · rw [parse, Text.lines_eq_newlineLines plain]
  · intro read blank rest lines hr h g shape
    exact parse_blank g shape lines hr h

end Source

end Retouch
