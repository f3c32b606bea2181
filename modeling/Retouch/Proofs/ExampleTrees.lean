import Retouch.Proofs.LanguageTables
import Retouch.Proofs.Lines
import Retouch.Refactor.Doctest

/-!
# Examples are parsed where they stand

The tokens of an example are moved down to the row of its first line.  What the parser is given of them
begins with a newline for each row before, and each token stands as many rows further down as there are
newlines before it (`Source.given_row`).  So the text of the tree is these newlines and the lines of the
example, and its leaves know their lines in the whole text (`Doctest.parseAt_ok`).
-/

namespace Retouch

open List
open Scan (IsLine Laid Piece)

/-! ## Tokens that are moved down -/

namespace Position

def down (rows : Nat) (p : Position) : Position := { p with row := p.row + rows }

end Position

namespace Doctest

theorem placeAfter_shifted (rows : Nat) (t : Token) :
    Source.placeAfter (shifted rows t) = (Source.placeAfter t).down rows := by
  show (if t.text.getLast? = some '\n' then _ else _) = Position.down rows (if _ then _ else _)
  split
  · exact congrArg (Position.mk · 0) (add_right_comm ..)
  · rfl

theorem laid_shifted {p : Position} {ts : List Token} {ps : List Piece} (h : Laid p ts ps) (rows : Nat) :
    Laid (p.down rows) (ts.map (shifted rows)) ps := by
  induction h with
  | nil => exact .nil
  | @cons p t piece ts ps stands _ ih =>
    rw [← placeAfter_shifted] at ih
    refine .cons ⟨stands.kind, stands.text, ?_, stands.gap, stands.onRow, ?_⟩ ih
    · exact congrArg (Position.down rows) stands.start
    · rw [placeAfter_shifted]
      exact (congrArg (· + rows) stands.rows).trans (add_right_comm ..)

end Doctest

/-! ## What stands before tokens -/

namespace Source

variable {cursor : Cursor} {ts : List Token} {ps : List Piece}

def Cursor.below (rows : Nat) : Cursor := ⟨Position.down rows ⟨1, 0⟩, replicate rows '\n'⟩

theorem moveTo_below {t : Token} {rows : Nat} (h : t.start.row = 1 + rows) :
    Cursor.moveTo {} t = (Cursor.below rows).moveTo t := by
  obtain ⟨_, _, ⟨_, column⟩, _⟩ := t
  cases h
  cases rows with
  | zero => rfl
  | succ rows =>
    cases column <;> simp [Cursor.moveTo, Cursor.below, Position.down, Position.le, Text.repeated]

theorem given_below {rows : Nat} (laid : Laid (Cursor.below rows).place ts ps) {more : List Token}
    (rest : more = [] ∨ ∃ p ∈ ps, p.kind = Kind.stray) :
    given {} (ts ++ more) = given (Cursor.below rows) (ts ++ more) := by
  cases laid with
  | nil =>
    obtain rfl | ⟨p, ⟨⟩, -⟩ := rest
    rfl
  | cons stands =>
    rw [cons_append, given, moveTo_below (by rw [stands.start]; rfl), given]

/-- A token stands as many rows further down as there are newlines before it. -/
theorem given_row (laid : Laid cursor.place ts ps) {a b : List Input} {i : Input}
    (h : given cursor ts = a ++ i :: b) :
    ∃ before, a.flatMap (fun t => t.lead ++ t.value) ++ i.lead = cursor.lead ++ before ∧
      i.start.row = cursor.place.row + before.count '\n' := by
  induction ts generalizing cursor ps a with
  | nil => cases a <;> cases h
  | cons t ts ih =>
    cases laid with
    | @cons _ _ piece _ ps stands laid =>
    have here : t.start.row = cursor.place.row := by rw [stands.start]
    have gap := count_eq_zero.2 stands.onRow
    have after := stands.rows
    unfold given at h
    rw [moveTo_eq stands.start stands.gap] at h
    simp only at h
    split at h
    · obtain ⟨before, eq, row⟩ := @ih ⟨placeAfter t, cursor.lead ++ piece.gap ++ t.text⟩ ps laid a h
      refine ⟨piece.gap ++ t.text ++ before, by rw [eq]; simp only [append_assoc], ?_⟩
      simp only at row
      simp only [count_append]
      omega
    · split at h
      · cases a <;> cases h
      · cases a with
        | nil =>
          cases h
          exact ⟨piece.gap, rfl, by rw [gap, here]; rfl⟩
        | cons first a =>
          obtain ⟨rfl, later⟩ := cons.inj h
          obtain ⟨before, eq, row⟩ := @ih ⟨placeAfter t, []⟩ ps laid a later
          refine ⟨piece.gap ++ t.text ++ before, ?_, ?_⟩
          · rw [flatMap_cons, append_assoc, eq]
            simp
          · simp only at row
            simp only [count_append]
            omega

theorem parseScan_below {g : Grammar} (hg : OrderedMap.get? g.tokens Kind.stray = none) (shape : Shape)
    {rows : Nat} {more : List Token} (laid : Laid (Cursor.below rows).place ts ps)
    (rest : more = [] ∨ ∃ p ∈ ps, p.kind = Kind.stray) (failure : Option ScanError) :
    ∃ ins : List Input, ins.map Input.unplaced = Scan.offered (replicate rows '\n') ps ∧
      (parseScan g shape ⟨ts ++ more, failure⟩).result.toOption =
        ((begun? g).bind (Parser.accepts g shape ins)).map (Parser.State.source g) := by
  obtain ⟨ins, offered, read⟩ := @parseFrom_laid g shape ps hg failure ts more _ laid rest
  refine ⟨ins, offered, ?_⟩
  unfold parseScan begun?
  cases Parser.setUp g none {} with
  | mk r state =>
  cases r with
  | error e => rfl
  | ok _ =>
    obtain ⟨-, read⟩ := read state ⟨0, [], [], ⟨0, 0⟩⟩
    rwa [parseFrom_given, ← given_below laid rest, ← parseFrom_given] at read

end Source

namespace Doctest

theorem isLine_unprompted {lead line new : Text} (last : lead.getLast? = some ' ')
    (hl : IsLine line) (h : unprompted lead line = .ok new) : IsLine new := by
  unfold unprompted at h
  split at h
  · rename_i begins
    cases h
    obtain ⟨_, rfl⟩ := isPrefixOf_iff_prefix.1 begins
    rw [drop_left]
    refine (Scan.IsTail.of_append (.inr hl)).resolve_left ?_
    rintro rfl
    obtain ⟨_, eq, -⟩ := hl
    rw [append_nil] at eq
    rw [eq, getLast?_concat] at last
    cases last
  · split at h
    · cases h
      exact ⟨[], rfl, not_mem_nil⟩
    · cases h

theorem isLine_program {e : Example} {program : List Text} (h : e.program = .ok program)
    (hl : ∀ l ∈ e.lines, IsLine l) : ∀ l ∈ program, IsLine l := by
  have prompted : ∀ (prompt : Text), (e.indent ++ (prompt ++ [' '])).getLast? = some ' ' := by simp
  have later : ∀ {lines news : List Text}, (∀ l ∈ lines, IsLine l) →
      lines.mapM (unprompted (e.indent ++ nextPrompt)) = .ok news → ∀ l ∈ news, IsLine l := by
    intro lines news hl h
    induction lines generalizing news with
    | nil =>
      cases h
      exact nofun
    | cons l lines ih =>
      obtain ⟨first, rest⟩ := forall_mem_cons.1 hl
      rw [mapM_cons] at h
      obtain ⟨new, eq, h⟩ := bind_eq_ok.1 h
      obtain ⟨news, eqs, h⟩ := bind_eq_ok.1 h
      cases h
      exact forall_mem_cons.2 ⟨isLine_unprompted (prompted "...") first eq, ih rest eqs⟩
  unfold Example.program at h
  split at h
  · cases h
    exact nofun
  · rename_i first rest lines
    rw [lines] at hl
    obtain ⟨hfirst, hrest⟩ := forall_mem_cons.1 hl
    obtain ⟨new, eq, h⟩ := bind_eq_ok.1 h
    obtain ⟨news, eqs, h⟩ := bind_eq_ok.1 h
    cases h
    exact forall_mem_cons.2 ⟨isLine_unprompted (prompted ">>>") hfirst eq, later hrest eqs⟩

/-- **An example is parsed where it stands.**  The text of its tree is a newline for each line before it
and then its lines without their prompts, and every leaf has the number of its line in the whole text. -/
theorem parseAt_ok {g : Grammar} (hg : g ∈ Language.grammars) {e : Example} {program : List Text}
    (stripped : e.program = .ok program) (ended : ∀ l ∈ e.lines, IsLine l) {row : Nat} {source : Source}
    (h : parseAt g row program = .ok source) :
    source.tree.text = replicate (row - 1) '\n' ++ program.flatten ∧
    ∀ a l b, source.tree.leaves = a ++ l :: b →
      ∃ before, (a.map Leaf.text).flatten ++ l.lead = replicate (row - 1) '\n' ++ before ∧
        l.line = row - 1 + (1 + before.count '\n') := by
  have closed := Language.closed_of_mem hg
  have hl := isLine_program stripped ended
  simp only [parseAt] at h
  generalize row - 1 = rows at h ⊢
  obtain ⟨ps, e, scans⟩ := Scan.exists_scans {} [] [] program (.inl rfl) hl (fun _ => rfl)
  obtain ⟨ts, more, tokens, laid, rest⟩ := scans.laid_scan hl
  have moved : Laid (Source.Cursor.below rows).place (ts.map (shifted rows)) ps := laid_shifted laid rows
  rw [tokens, map_append] at h
  obtain ⟨ins, offered, read⟩ := Source.parseScan_below closed.stray .collapsed moved
    (rest.imp (congrArg (map (shifted rows))) scans.stray_mem) (scan program).failure
  rw [h] at read
  obtain ⟨rfl, -, text, -⟩ := Source.tree_of_accepts closed hl scans offered read.symm
  obtain rfl : more = [] := rest.resolve_right nofun
  refine ⟨text, fun a l b split => ?_⟩
  obtain ⟨-, ins, ⟨later, whole⟩, leaves, -⟩ := Source.parseScan_ok closed.predictive h
  rw [leaves] at split
  obtain ⟨front, back, rfl, rfl, leaf⟩ := map_eq_append_iff.1 split
  obtain ⟨i, after, rfl, rfl, rfl⟩ := map_eq_cons_iff.1 leaf
  rw [map_nil, append_nil, ← append_nil (map _ _), Source.given_below moved (.inl rfl), append_nil] at whole
  rw [append_assoc, cons_append] at whole
  obtain ⟨before, eq, row⟩ := Source.given_row moved whole.symm
  refine ⟨before, ?_, ?_⟩
  · rw [← flatMap_def, flatMap_map]
    exact eq
  · exact row.trans (by simp [Source.Cursor.below, Position.down]; omega)

theorem parseAt_one (g : Grammar) (lines : List Text) :
    parseAt g 1 lines = Source.parseLines g .collapsed lines := by
  have still : ∀ t ∈ (scan lines).tokens, shifted 0 t = t := fun _ _ => rfl
  simp only [parseAt, map_congr_left still, map_id']
  rfl

def sampleExample : Example := ⟨1, " ", [" >>> x =\\\n", " ...  f(a ,b = 1-2) #!\n"]⟩

theorem parseAt_ok_sample : ∃ source,
    parseAt Language.grammar 1 (Text.lines Language.sample) = .ok source ∧
    source.tree.text = Language.sample ∧
    ∀ a l b, source.tree.leaves = a ++ l :: b →
      ∃ before, (a.map Leaf.text).flatten ++ l.lead = before ∧ l.line = 1 + before.count '\n' := by
  obtain ⟨-, -, parsed⟩ := Language.ofText_grammarText
  have here : parseAt Language.grammar 1 (Text.lines Language.sample) = .ok Language.sampleSource := by
    rw [parseAt_one]
    exact parsed
  have stripped : sampleExample.program = .ok (Text.lines Language.sample) := by decide
  have ended : ∀ l ∈ sampleExample.lines, IsLine l :=
    forall_mem_cons.2 ⟨⟨" >>> x =\\", rfl, by decide⟩,
      forall_mem_singleton.2 ⟨" ...  f(a ,b = 1-2) #!", rfl, by decide⟩⟩
  obtain ⟨text, rows⟩ := parseAt_ok (mem_cons_self ..) stripped ended here
  refine ⟨_, here, text.trans (Text.flatten_lines _), fun a l b split => ?_⟩
  obtain ⟨before, eq, row⟩ := rows a l b split
  exact ⟨before, eq, row.trans (Nat.zero_add _)⟩

end Doctest

end Retouch
