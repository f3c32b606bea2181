import Mathlib.Data.List.Basic
import Retouch.Proofs.Reading

/-!
# Tokens are laid one after the other

Scanning gives the pieces of the reading as tokens, and each token starts where the one before it
stops, after the separators between them (`Scans.laid`).  A token that ends in a newline stops at the
start of the next row, which is where the next token is looked for.
-/

namespace Retouch.Scan

open List

/-- The token is the piece, from a place on.  The place after it is a row further down for each newline
in it. -/
structure Stands (p : Position) (t : Token) (piece : Piece) : Prop where
  kind : t.kind = piece.kind
  text : t.text = piece.text
  start : t.start = ⟨p.row, p.column + piece.gap.length⟩
  gap : (t.line.drop p.column).take piece.gap.length = piece.gap
  onRow : '\n' ∉ piece.gap
  rows : (Source.placeAfter t).row = t.start.row + t.text.count '\n'

/-- The tokens are the pieces laid out from a place on. -/
inductive Laid : Position → List Token → List Piece → Prop
  | nil {p : Position} : Laid p [] []
  | cons {p : Position} {t : Token} {piece : Piece} {ts : List Token} {ps : List Piece}
      (stands : Stands p t piece) (rest : Laid (Source.placeAfter t) ts ps) :
      Laid p (t :: ts) (piece :: ps)

/-- A scan gives the pieces of a reading from a place on.  After a stray character there can be any
tokens. -/
def Gives (s : Scan) (p : Position) (ps : List Piece) (e : End) : Prop :=
  ∃ ts more, s.tokens = ts ++ more ∧ Laid p ts ps ∧
    (e ≠ .stray → more = [] ∧ (s.failure = none ↔ e = .complete))

def resume (r : List Token × State) (lines : List Text) : Scan :=
  ⟨r.1 ++ (scanFromState r.2 lines).tokens, (scanFromState r.2 lines).failure⟩

/-- The state has the flow, and no string is open. -/
structure State.Flows (state : State) (f : Flow) : Prop where
  depth : state.depth = f.depth
  continued : state.continued = f.continued
  indents : state.indents = f.indents
  opened : state.opened = none
  mustContinue : state.mustContinue = false

variable {t : Token} {e : End} {s : Scan} {piece : Piece} {p : Position}

theorem Gives.cons {ps : List Piece}
    (h : Gives s (Source.placeAfter t) ps e) (stands : Stands p t piece) :
    Gives ⟨t :: s.tokens, s.failure⟩ p (piece :: ps) e := by
  obtain ⟨ts, more, eq, laid, ending⟩ := h
  exact ⟨t :: ts, more, by rw [eq, cons_append], .cons stands laid, ending⟩

variable {lines : List Text} {ps : List Piece} {x cs gap line before : Text} {state : State} {col : Nat}

theorem Gives.cons_resume {r : List Token × State}
    (h : Gives (resume r lines) (Source.placeAfter t) ps e) (stands : Stands p t piece) :
    Gives (resume (t :: r.1, r.2) lines) p (piece :: ps) e :=
  h.cons stands

/-- The place where the next token is looked for: the start of the next row, if nothing is left of
the line. -/
def nextPlace (row col : Nat) (cs : Text) : Position :=
  if cs = [] then ⟨row + 1, 0⟩ else ⟨row, col⟩

theorem placeAfter_eq {row : Nat} (last : t.text.getLast? = some '\n' ↔ cs = [])
    (stop : t.stop = ⟨row, col⟩) : Source.placeAfter t = nextPlace row col cs := by
  unfold Source.placeAfter nextPlace
  by_cases h : cs = []
  · rw [if_pos h, if_pos (last.2 h), stop]
  · rw [if_neg h, if_neg (mt last.1 h), stop]

theorem IsLine.count_newline (h : IsLine line) : line.count '\n' = 1 := by
  obtain ⟨_, rfl, none⟩ := h
  rw [count_append, count_eq_zero.2 none]
  rfl

theorem IsLine.newline_notMem (h : IsLine (x ++ cs)) (more : cs ≠ []) : '\n' ∉ x := by
  obtain ⟨body, eq, none⟩ := h
  have long := congrArg length eq
  have pos := length_pos_iff.2 more
  rw [length_append, length_append, length_singleton] at long
  have front := prefix_of_prefix_length_le ⟨cs, eq⟩ (prefix_append body ['\n']) (by omega)
  exact fun mem => none (front.subset mem)

theorem IsTail.row_nextPlace (h : IsTail (x ++ cs)) (hx : x ≠ []) (row col : Nat) :
    (nextPlace row col cs).row = row + x.count '\n' := by
  have line := h.resolve_left fun nil => hx (append_eq_nil_iff.1 nil).1
  unfold nextPlace
  split
  · rename_i nil
    rw [nil, append_nil] at line
    rw [line.count_newline]
  · rename_i more
    rw [count_eq_zero.2 (line.newline_notMem more)]
    rfl

theorem rows_of_tail {r : Text} (h : IsTail (t.text ++ r)) (same : t.stop.row = t.start.row) :
    (Source.placeAfter t).row = t.start.row + t.text.count '\n' := by
  by_cases none : t.text = []
  · simp [Source.placeAfter, none, same]
  · rw [placeAfter_eq (h.getLast?_iff none) rfl, h.row_nextPlace none, same]

/-! ## Steps along a line -/

theorem isString_of_triple (h : isTripleOpening x = true) : isString x = true := by
  obtain ⟨q, rest, opening, quote, -⟩ := Lexeme.tripleOpening?_eq_some.1 (eq_of_beq h)
  rw [isString, opening]
  exact quote

theorem plainKind_ne_endMarker (depth : Int) (x : Text) : plainKind depth x ≠ Kind.endMarker := by
  unfold plainKind
  repeat' split
  all_goals decide

theorem scanFrom_lexes (h : Lexeme.Lexes gap x cs) (line : Text) (state : State) (col : Nat) :
    scanFrom line state col (gap ++ (x ++ cs)) =
      (if isTripleOpening x then
        match (closingOf x).find? cs with
        | some n =>
          let r := scanFrom line state (col + gap.length + x.length + n) (cs.drop n)
          (⟨Kind.string, x ++ cs.take n, ⟨state.row, col + gap.length⟩,
            ⟨state.row, col + gap.length + x.length + n⟩, line⟩ :: r.1, r.2)
        | none => ([], state.opening ⟨x ++ cs, ⟨state.row, col + gap.length⟩, line, closingOf x⟩
            state.mustContinue)
      else if isString x then
        if x.getLast? = some '\n' then
          ([], state.opening ⟨x ++ cs, ⟨state.row, col + gap.length⟩, line, closingOf x⟩ true)
        else
          let r := scanFrom line state (col + gap.length + x.length) cs
          (⟨Kind.string, x, ⟨state.row, col + gap.length⟩,
            ⟨state.row, col + gap.length + x.length⟩, line⟩ :: r.1, r.2)
      else
        let r := scanFrom line (state.past x) (col + gap.length + x.length) cs
        (⟨plainKind state.depth x, x, ⟨state.row, col + gap.length⟩,
          ⟨state.row, col + gap.length + x.length⟩, line⟩ :: r.1, r.2)) := by
  obtain ⟨c, tail, hc⟩ : ∃ c tail, gap ++ (x ++ cs) = c :: tail := by
    cases hx : gap ++ (x ++ cs) with
    | nil => simp [h.nonempty] at hx
    | cons c tail => exact ⟨c, tail, rfl⟩
  rw [hc, scanFrom, ← hc]
  simp only [h.next?, drop_left, take_left]
  split
  · cases (closingOf x).find? cs with
    | none => rfl
    | some n => simp [take_append, take_of_length_le (Nat.le_add_right _ _)]
  · rfl

/-! ## Strings over several lines -/

theorem scanFromState_next {final : State} {ts : List Token}
    (h : scanLine state line = (ts, .next final)) :
    scanFromState state (line :: lines) = resume (ts, final) lines := by
  rw [scanFromState, h]
  rfl

section OpenString

variable {state : State} {string : OpenString} {line : Text}

theorem scanLine_closes (ho : state.opened = some string) (hline : line ≠ []) {n : Nat}
    (found : string.closing.find? line = some n) :
    scanLine state line =
      (⟨Kind.string, string.text ++ line.take n, string.start, ⟨state.row + 1, n⟩,
        string.lines ++ line⟩ ::
          (scanFrom line { state.onRow with opened := none, mustContinue := false } n (line.drop n)).1,
        .next (scanFrom line { state.onRow with opened := none, mustContinue := false } n
          (line.drop n)).2) := by
  simp [scanLine, ho, hline, found, State.onRow]

theorem scanLine_goesOn (ho : state.opened = some string) (hline : line ≠ [])
    (found : string.closing.find? line = none)
    (goesOn : ¬stops state.mustContinue line = true) :
    scanLine state line = ([], .next (state.goOn string line)) := by
  simp only [scanLine, ho, hline, found, goesOn]
  rfl

theorem scanLine_stops (ho : state.opened = some string) (hline : line ≠ [])
    (found : string.closing.find? line = none)
    (stops : stops state.mustContinue line = true) :
    scanLine state line =
      ([⟨Kind.stray, string.text ++ line, string.start, ⟨state.row + 1, line.length⟩, string.lines⟩],
        .next { state.onRow with opened := none }) := by
  simp only [scanLine, ho, hline, if_false, found, stops, if_true, State.onRow]

end OpenString

/-- What a scan makes of a string that begins with `x`: one token, and the scan goes on after it; or a
stray token, where the string stops although it had to go on; or an error. -/
def Strings (x : Text) (start : Position) (front : Text) (state : State) (s : Scan) : StringEnd → Prop
  | .closed more rest lines => ∃ line row col shown, line.drop col = rest ∧ front <+: shown ∧
      ((x ++ more).getLast? = some '\n' ↔ rest = []) ∧
      (nextPlace row col rest).row = start.row + (x ++ more).count '\n' ∧
      s = ⟨⟨Kind.string, x ++ more, start, ⟨row, col⟩, shown⟩ ::
          (resume (scanFrom line { state with row } col rest) lines).tokens,
        (resume (scanFrom line { state with row } col rest) lines).failure⟩
  | .stray more => ∃ stop shown ts, front <+: shown ∧
      (Source.placeAfter ⟨Kind.stray, x ++ more, start, stop, shown⟩).row =
        start.row + (x ++ more).count '\n' ∧
      s.tokens = ⟨Kind.stray, x ++ more, start, stop, shown⟩ :: ts
  | .unclosed => ∃ e, s = ⟨[], some e⟩

theorem Strings.after {y front front' : Text} {start : Position}
    {e : StringEnd} (h : Strings (x ++ y) start front' state s e) (longer : front <+: front') :
    Strings x start front state s (e.after y) := by
  cases e with
  | closed more rest lines =>
    obtain ⟨line, row, col, shown, eq, pre, last, rows, next⟩ := h
    rw [append_assoc] at last rows next
    exact ⟨line, row, col, shown, eq, longer.trans pre, last, rows, next⟩
  | stray more =>
    obtain ⟨stop, shown, ts, pre, rows, eq⟩ := h
    rw [append_assoc] at rows eq
    exact ⟨stop, shown, ts, longer.trans pre, rows, eq⟩
  | unclosed => exact h

theorem scanFromState_opened {string : OpenString}
    (ho : state.opened = some string) (hl : ∀ l ∈ lines, IsLine l)
    (rows : string.start.row + string.text.count '\n' = state.row + 1) :
    Strings string.text string.start string.lines { state with opened := none, mustContinue := false }
      (scanFromState state lines) (stringEnd string.closing state.mustContinue lines) := by
  induction lines generalizing state string with
  | nil => exact ⟨.openString string.start, by simp [scanFromState, scanLine, ho]⟩
  | cons line lines ih =>
    obtain ⟨hline, hlines⟩ := forall_mem_cons.1 hl
    -- the string with the first part of the line
    have longer : ∀ front rest, front ++ rest = line → front ≠ [] →
        ((string.text ++ front).getLast? = some '\n' ↔ rest = []) ∧
        ∀ col, (nextPlace (state.row + 1) col rest).row =
          string.start.row + (string.text ++ front).count '\n' := by
      rintro front rest rfl some
      have tail : IsTail (front ++ rest) := .inr hline
      refine ⟨?_, fun col => ?_⟩
      · rw [getLast?_append_of_ne_nil _ some]
        exact tail.getLast?_iff some
      · rw [tail.row_nextPlace some, count_append, ← Nat.add_assoc, rows]
    unfold stringEnd
    split
    · rename_i n found
      obtain ⟨last, after⟩ := longer _ _ (take_append_drop n line) (Lexeme.Closing.take_ne_nil found)
      refine ⟨line, state.row + 1, n, string.lines ++ line, rfl, prefix_append _ _, last, after n, ?_⟩
      rw [scanFromState_next (scanLine_closes ho hline.ne_nil found)]
      rfl
    · rename_i found
      split
      · rename_i stops
        rw [scanFromState_next (scanLine_stops ho hline.ne_nil found stops)]
        obtain ⟨last, after⟩ := longer line [] (append_nil line) hline.ne_nil
        refine ⟨⟨state.row + 1, line.length⟩, string.lines, _, prefix_refl _, ?_, rfl⟩
        rw [placeAfter_eq last rfl]
        exact after line.length
      · rename_i goesOn
        rw [scanFromState_next (scanLine_goesOn ho hline.ne_nil found goesOn)]
        refine (@ih (state.goOn string line) _ rfl hlines ?_).after (prefix_append _ _)
        rw [count_append, ← Nat.add_assoc, rows, hline.count_newline]
        rfl

/-! ## Tokens at the ends of a line -/

theorem Laid.dedents {here : Position} {ts : List Token} (h : Laid here ts ps) (line : Text)
    (indents : List Nat) :
    Laid here (indents.map (fun _ => ⟨Kind.dedent, [], here, here, line⟩) ++ ts)
      (indents.map (fun _ => ⟨[], Kind.dedent, []⟩) ++ ps) := by
  induction indents with
  | nil => exact h
  | cons _ _ ih => exact .cons ⟨rfl, rfl, rfl, rfl, not_mem_nil, rfl⟩ ih

theorem gives_closingTokens (state : State) :
    Gives ⟨closingTokens state, none⟩ ⟨state.row + 1, 0⟩
      (state.indents.map (fun _ => ⟨[], Kind.dedent, []⟩) ++ [⟨[], Kind.endMarker, []⟩])
      .complete :=
  ⟨closingTokens state, [], (append_nil _).symm,
    .dedents (.cons ⟨rfl, rfl, rfl, rfl, not_mem_nil, rfl⟩ .nil) _ state.indents, fun _ => ⟨rfl, iff_of_true rfl rfl⟩⟩

theorem gives_nothing (error : ScanError) : Gives ⟨[], some error⟩ p [] .broken :=
  ⟨[], [], rfl, .nil, fun _ => ⟨rfl, iff_of_false nofun nofun⟩⟩

variable {blanks rest : Text}

theorem Gives.blankLine {row : Nat}
    (hline : IsLine (blanks ++ rest)) (blank : isBlankRest rest = true)
    (h : Gives s ⟨row + 1, 0⟩ ps e) :
    Gives ⟨blankLineTokens row blanks.length (blanks ++ rest) rest ++ s.tokens, s.failure⟩ ⟨row, 0⟩
      (blankPieces blanks rest ++ ps) e := by
  have tail := IsTail.of_append (.inr hline)
  have hrest : rest ≠ [] := by
    rintro rfl
    cases blank
  have free := hline.newline_notMem hrest
  have ends := (IsTail.getLast?_iff (by rw [append_nil]; exact tail) hrest).2 rfl
  unfold blankLineTokens blankPieces
  split
  · obtain ⟨comment, hc⟩ : ∃ comment, comment = commentOf rest := ⟨_, rfl⟩
    simp only [← hc]
    have stops : comment.getLast? ≠ some '\n' := by
      rw [hc]
      exact getLast?_comment_ne rest
    have after : (rest.drop comment.length).getLast? = some '\n' := by
      rw [hc]
      exact getLast?_drop_comment ends
    have whole : IsTail (comment ++ rest.drop comment.length) := by
      rwa [hc, prefix_iff_eq_append.1 (commentOf_isPrefix rest)]
    refine cons (cons ?_ ⟨rfl, rfl, ?_, ?_, not_mem_nil, rows_of_tail (r := []) ?_ rfl⟩)
      ⟨rfl, rfl, ?_, ?_, free, rows_of_tail whole rfl⟩
    · simp only [Source.placeAfter, after]
      exact h
    · simp [Source.placeAfter, stops]
    · simp
    · simpa using whole.of_append
    · simp
    · simp
  · refine cons ?_ ⟨rfl, rfl, ?_, ?_, free, rows_of_tail (r := []) (by simpa using tail) rfl⟩
    · simp only [Source.placeAfter, ends]
      exact h
    · simp
    · simp

theorem blockTokens_gives {row column : Nat} {indents after : List Nat}
    {qs : List Piece} (hline : line.take blanks.length = blanks)
    (all : Lexeme.IsGap blanks)
    (h : blockPieces blanks column indents = some (qs, before, after)) :
    ∃ blocks, blockTokens row blanks.length column line indents = .ok (blocks, after) ∧
      before.length ≤ blanks.length ∧
      ∀ s ps e, Gives s ⟨row, blanks.length - before.length⟩ ps e →
        Gives ⟨blocks ++ s.tokens, s.failure⟩ ⟨row, 0⟩ (qs ++ ps) e := by
  have free := newline_notMem_gap all
  unfold blockPieces at h
  unfold blockTokens
  split at h
  · rename_i deeper
    cases h
    rw [if_pos deeper]
    refine ⟨_, rfl, Nat.zero_le _, fun s ps e hs => .cons ?_ ⟨rfl, hline, rfl, rfl, not_mem_nil, ?_⟩⟩
    all_goals simp only [Source.placeAfter, hline, mt mem_of_getLast? free, if_false]
    · exact hs
    · rw [count_eq_zero.2 free, Nat.add_zero]
  · rename_i deeper
    rw [if_neg deeper]
    split at h
    · rename_i lower
      rw [if_pos lower]
      split at h
      · rename_i known
        rw [if_pos known]
        cases h
        refine ⟨_, rfl, Nat.zero_le _, fun s ps e hs => ?_⟩
        -- the column is less than that of the innermost block, so at least one block is closed
        cases indents with
        | nil => exact absurd lower (Nat.not_lt_zero _)
        | cons innermost outer =>
          rw [takeWhile_cons_of_pos (by simpa using lower)]
          obtain ⟨ts, more, eq, laid, ending⟩ := hs
          have others := laid.dedents line (outer.takeWhile (column < ·))
          refine ⟨⟨.dedent, [], ⟨row, blanks.length⟩, ⟨row, blanks.length⟩, line⟩ :: (_ ++ ts), more,
            ?_, .cons ⟨rfl, rfl, ?_, hline, free, rfl⟩ others, ending⟩
          · rw [eq, map_cons, cons_append, cons_append, append_assoc]
            rfl
          · simp
      · cases h
    · rename_i lower
      rw [if_neg lower]
      cases h
      refine ⟨_, rfl, Nat.le_refl _, fun s ps e hs => ?_⟩
      rwa [Nat.sub_self] at hs

theorem blockTokens_error {row column : Nat} {indents : List Nat}
    (h : blockPieces blanks column indents = none) :
    ∃ e, blockTokens row blanks.length column line indents = .error e := by
  unfold blockPieces at h
  unfold blockTokens
  repeat' split at h
  all_goals cases h
  rename_i deeper lower unknown
  rw [if_neg deeper, if_pos lower, if_neg unknown]
  exact ⟨_, rfl⟩

section Lines

variable {state : State} {f : Flow}

theorem State.Flows.between (h : state.Flows f) :
    (state.depth = 0 && !state.continued) = f.between := by
  rw [h.depth, h.continued]
  rfl

theorem scanLine_inner (h : state.Flows f) (inside : f.between = false)
    (hline : line ≠ []) :
    scanLine state line =
      ((scanFrom line { state.onRow with continued := false } 0 line).1,
        .next (scanFrom line { state.onRow with continued := false } 0 line).2) := by
  rw [← h.between] at inside
  simp [scanLine, h.opened, inside, hline, State.onRow]

theorem scanLine_between (h : state.Flows f) (between : f.between = true) {blanks rest : Text}
    {column : Nat} (indented : leadingBlanks 0 0 (blanks ++ rest) = (blanks.length, column))
    (hrest : rest ≠ []) :
    scanLine state (blanks ++ rest) =
      if isBlankRest rest then
        (blankLineTokens (state.row + 1) blanks.length (blanks ++ rest) rest, .next state.onRow)
      else
        match blockTokens (state.row + 1) blanks.length column (blanks ++ rest) f.indents with
        | .error e => ([], .fail e)
        | .ok (blocks, indents) =>
          (blocks ++ (scanFrom (blanks ++ rest) { state.onRow with indents } blanks.length rest).1,
            .next (scanFrom (blanks ++ rest) { state.onRow with indents } blanks.length rest).2) := by
  rw [← h.between] at between
  cases blocks : blockTokens (state.row + 1) blanks.length column (blanks ++ rest) f.indents <;>
    simp [scanLine, h.opened, between, indented, hrest, h.indents, blocks, State.onRow]

end Lines

/-! ## Scanning gives the pieces of the reading -/

theorem resume_nil (state : State) (lines : List Text) :
    resume ([], state) lines = scanFromState state lines := rfl

theorem leadingBlanks_separators {column : Nat}
    (h : leadingBlanks 0 0 (blanks ++ rest) = (blanks.length, column)) :
    Lexeme.IsGap blanks := by
  obtain ⟨_, _, eq, count, _⟩ := leadingBlanks_spec 0 0 (blanks ++ rest)
  rw [h, Nat.zero_add] at count
  rwa [(append_inj eq count).1]

theorem drop_lexeme (here : line.drop col = before ++ (gap ++ (x ++ cs))) :
    line.drop (col + before.length + gap.length + x.length) = cs := by
  rw [← drop_drop, ← drop_drop, ← drop_drop, here, drop_left, drop_left, drop_left]

theorem scanFrom_string (lexes : Lexeme.Lexes gap x cs) (isString : isString x = true)
    (opened : state.opened = none) (must : state.mustContinue = false) (hcs : IsTail (x ++ cs))
    (hl : ∀ l ∈ lines, IsLine l) (here : line.drop col = before ++ (gap ++ (x ++ cs))) :
    Strings x ⟨state.row, col + before.length + gap.length⟩ line state
      (resume (scanFrom line state (col + before.length) (gap ++ (x ++ cs))) lines)
      (stringFrom x cs lines) := by
  have same : { state with opened := none, mustContinue := false } = state := by rw [← opened, ← must]
  have whole := hcs.resolve_left fun nil => lexes.nonempty (append_eq_nil_iff.1 nil).1
  have later : ∀ m, Strings x ⟨state.row, col + before.length + gap.length⟩ line state
      (resume ([], state.opening
        ⟨x ++ cs, ⟨state.row, col + before.length + gap.length⟩, line, closingOf x⟩ m) lines)
      ((stringEnd (closingOf x) m lines).after cs) := by
    intro m
    have ended := (@scanFromState_opened lines (state.opening
      ⟨x ++ cs, ⟨state.row, col + before.length + gap.length⟩, line, closingOf x⟩ m) _ rfl hl
      (congrArg (state.row + ·) whole.count_newline)).after (prefix_refl line)
    simp only [State.opening, same] at ended
    exact ended
  rw [scanFrom_lexes lexes, stringFrom]
  by_cases triple : isTripleOpening x = true
  · rw [if_pos triple, if_pos triple]
    cases found : (closingOf x).find? cs with
    | some n =>
      have some : x ++ cs.take n ≠ [] := by simp [lexes.nonempty]
      have tail : IsTail ((x ++ cs.take n) ++ cs.drop n) := by
        rwa [append_assoc, take_append_drop]
      refine ⟨line, state.row, _, line, ?_, prefix_refl _, tail.getLast?_iff some,
        tail.row_nextPlace some _ _, rfl⟩
      rw [← drop_drop, drop_lexeme here]
    | none =>
      rw [← must]
      exact later state.mustContinue
  · rw [if_neg triple, if_neg triple, if_pos isString]
    by_cases ends : x.getLast? = some '\n'
    · rw [if_pos ends, if_pos ends]
      exact later true
    · rw [if_neg ends, if_neg ends]
      refine ⟨line, state.row, _, line, drop_lexeme here, prefix_refl _, ?_⟩
      rw [append_nil]
      exact ⟨hcs.getLast?_iff lexes.nonempty, hcs.row_nextPlace lexes.nonempty _ _, rfl⟩

theorem scanFrom_nil (line : Text) (state : State) (col : Nat) :
    scanFrom line state col [] = ([], state) := by
  rw [scanFrom]

theorem scanFromState_nil {f : Flow} (h : state.Flows f) :
    scanFromState state [] =
      if f.between then ⟨closingTokens state, none⟩
      else ⟨[], some (.openStatement ⟨state.row + 1, 0⟩)⟩ := by
  have hb := h.between
  cases hf : f.between with
  | true =>
    rw [hf] at hb
    simp [scanFromState, scanLine, h.opened, hb]
  | false =>
    rw [hf] at hb
    simp only [scanFromState, scanLine, h.opened, hb]
    rfl

theorem take_drop_of_prefix {shown front : Text} (pre : line <+: shown)
    (h : line.drop col = front ++ rest) (nonempty : front ++ rest ≠ []) :
    (shown.drop col).take front.length = front := by
  obtain ⟨_, rfl⟩ := pre
  have bound : col ≤ line.length := by
    by_contra far
    rw [drop_eq_nil_of_le (Nat.le_of_not_le far)] at h
    exact nonempty h.symm
  rw [drop_append_of_le_length bound, h, append_assoc, take_left]

theorem stands_lexeme {row : Nat} {k : Kind} {y : Text} (lexes : Lexeme.Lexes gap x cs)
    (hcs : IsTail (gap ++ (x ++ cs))) (hb : '\n' ∉ before)
    (here : line.drop col = before ++ (gap ++ (x ++ cs))) (kind : t.kind = k) (text : t.text = y)
    (start : t.start = ⟨row, col + before.length + gap.length⟩) (shown : line <+: t.line)
    (rows : (Source.placeAfter t).row = t.start.row + t.text.count '\n') :
    Stands (nextPlace row col (gap ++ (x ++ cs))) t ⟨before ++ gap, k, y⟩ := by
  have some : x ++ cs ≠ [] := by simp [lexes.nonempty]
  have line := hcs.resolve_left fun nil => some (append_eq_nil_iff.1 nil).2
  rw [nextPlace, if_neg line.ne_nil]
  refine ⟨kind, text, ?_, ?_, not_mem_append hb (line.newline_notMem some), rows⟩
  · rw [start, length_append, Nat.add_assoc]
  · exact take_drop_of_prefix shown (by rw [here, append_assoc]) (by simp [lexes.nonempty])

/-- **Scanning gives the pieces of the reading, laid one after the other.** -/
theorem Scans.laid {f : Flow} (h : Scans f before cs lines ps e) (hcs : IsTail cs)
    (hl : ∀ l ∈ lines, IsLine l) (hb : '\n' ∉ before) (state : State) (flows : state.Flows f)
    (line : Text) (col : Nat) (here : cs ≠ [] → line.drop col = before ++ cs) :
    Gives (resume (scanFrom line state (col + before.length) cs) lines)
      (nextPlace state.row col cs) ps e := by
  induction h generalizing state line col with
  | finish between =>
    rw [scanFrom_nil, resume_nil, scanFromState_nil flows, if_pos between, ← flows.indents]
    exact gives_closingTokens state
  | unfinished inside =>
    rw [scanFrom_nil, resume_nil, scanFromState_nil flows, inside]
    exact gives_nothing _
  | inner inside _ ih =>
    obtain ⟨hline, hlines⟩ := forall_mem_cons.1 hl
    rw [scanFrom_nil, resume_nil, scanFromState_next (scanLine_inner flows inside hline.ne_nil)]
    have := ih (.inr hline) hlines not_mem_nil { state.onRow with continued := false }
      ⟨flows.depth, rfl, flows.indents, flows.opened, flows.mustContinue⟩ _ 0 (fun _ => rfl)
    rwa [nextPlace, if_neg hline.ne_nil] at this
  | blankLine between indented blank _ ih =>
    obtain ⟨hline, hlines⟩ := forall_mem_cons.1 hl
    have hrest := hline.rest_ne_nil (leadingBlanks_separators indented)
    have step := scanLine_between flows between indented hrest
    rw [if_pos blank] at step
    rw [scanFrom_nil, resume_nil, scanFromState_next step]
    refine .blankLine hline blank ?_
    have := ih (.inl rfl) hlines not_mem_nil state.onRow
      ⟨flows.depth, flows.continued, flows.indents, flows.opened, flows.mustContinue⟩
      line 0 (absurd rfl)
    rwa [scanFrom_nil] at this
  | misindented between indented full blocks =>
    obtain ⟨hline, hlines⟩ := forall_mem_cons.1 hl
    have hrest := hline.rest_ne_nil (leadingBlanks_separators indented)
    have step := scanLine_between flows between indented hrest
    obtain ⟨e, he⟩ := blockTokens_error blocks
    rw [if_neg (by rw [full]; decide), he] at step
    rw [scanFrom_nil, resume_nil, scanFromState, step]
    exact gives_nothing _
  | @line f blanks rest before column indents lines qs ps e between indented full blocks _ ih =>
    obtain ⟨hline, hlines⟩ := forall_mem_cons.1 hl
    have all := leadingBlanks_separators indented
    have hrest := hline.rest_ne_nil all
    have step := scanLine_between flows between indented hrest
    obtain ⟨_, he, shorter, gives⟩ :=
      @blockTokens_gives (blanks ++ rest) _ _ (state.row + 1) _ _ _ _ (take_left) all blocks
    rw [if_neg (by rw [full]; decide), he] at step
    rw [scanFrom_nil, resume_nil, scanFromState_next step]
    have whole := chars_blockPieces blocks
    have left : (blanks ++ rest).drop (blanks.length - before.length) = before ++ rest := by
      rw [← whole, append_assoc, length_append, Nat.add_sub_cancel, drop_left]
    have free : '\n' ∉ before := fun mem =>
      newline_notMem_gap all (whole ▸ mem_append_right _ mem)
    have := ih (.of_append (.inr hline)) hlines free { state.onRow with indents }
      ⟨flows.depth, flows.continued, rfl, flows.opened, flows.mustContinue⟩ _ _ (fun _ => left)
    rw [nextPlace, if_neg hrest, Nat.sub_add_cancel shorter] at this
    have := gives _ _ _ this
    rwa [resume, ← append_assoc] at this
  | @stray f before cs c lines none =>
    have hp := here (by simp)
    have step : scanFrom line state (col + before.length) (c :: cs) =
        (⟨.stray, [c], ⟨state.row, col + before.length⟩, ⟨state.row, col + before.length + 1⟩,
          line⟩ :: (scanFrom line state (col + before.length + 1) cs).1,
          (scanFrom line state (col + before.length + 1) cs).2) := by
      rw [scanFrom, none]
    rw [step]
    refine ⟨[_], _, rfl, .cons ⟨rfl, rfl, rfl, ?_, hb, rows_of_tail hcs rfl⟩ .nil, absurd rfl⟩
    simp [nextPlace, hp]
  | @string f before gap x cs more rest lines lines' ps e lexes isString closed _ ih =>
    have hp := here (by simp [lexes.nonempty])
    have ended := scanFrom_string lexes isString flows.opened flows.mustContinue hcs.of_append hl hp
    rw [closed] at ended
    obtain ⟨line', row, col', shown, left, pre, last, rows, eq⟩ := ended
    obtain ⟨tail, _, good, _⟩ := stringFrom_closed closed hcs.of_append.of_append hl
    rw [eq]
    have := ih tail good not_mem_nil { state with row }
      ⟨flows.depth, flows.continued, flows.indents, flows.opened, flows.mustContinue⟩ line' col'
      (fun _ => left)
    refine .cons ?_ (stands_lexeme lexes hcs hb hp rfl rfl rfl pre ?_)
    · rwa [placeAfter_eq last rfl]
    · rwa [placeAfter_eq last rfl]
  | @strayString f before gap x cs more lines lexes isString stray =>
    have hp := here (by simp [lexes.nonempty])
    have ended := scanFrom_string lexes isString flows.opened flows.mustContinue hcs.of_append hl hp
    rw [stray] at ended
    obtain ⟨_, shown, ts, pre, rows, eq⟩ := ended
    exact ⟨[_], ts, eq, .cons (stands_lexeme lexes hcs hb hp rfl rfl rfl pre rows) .nil, absurd rfl⟩
  | openString lexes isString unclosed =>
    have ended := scanFrom_string lexes isString flows.opened flows.mustContinue hcs.of_append hl
      (here (by simp [lexes.nonempty]))
    rw [unclosed] at ended
    obtain ⟨e, eq⟩ := ended
    rw [eq]
    exact gives_nothing _
  | @plain f before gap x cs lines ps e lexes isString _ ih =>
    have hp := here (by simp [lexes.nonempty])
    have triple : ¬isTripleOpening x = true := fun h =>
      absurd (isString_of_triple h) (by rw [isString]; decide)
    have := ih hcs.of_append.of_append hl not_mem_nil (state.past x)
      ⟨by rw [State.past, flows.depth]; rfl, by rw [State.past, flows.continued]; rfl, flows.indents,
        flows.opened, flows.mustContinue⟩ line _ (fun _ => drop_lexeme hp)
    rw [scanFrom_lexes lexes, if_neg triple, if_neg (by rw [isString]; decide)]
    refine .cons_resume ?_ (stands_lexeme lexes hcs hb hp ?_ rfl rfl (prefix_refl _)
      (rows_of_tail hcs.of_append rfl))
    · rwa [placeAfter_eq (hcs.of_append.getLast?_iff lexes.nonempty) rfl]
    · rw [flows.depth]

end Retouch.Scan
