import Retouch.Proofs.LexemeLocality
import Retouch.Syntax.Source

/-!
# Reading a text without places

`Scans` says how a text falls into pieces: a piece is a token without its place, together with the
separators before it.  Every text whose lines end in newlines is read in some way (`exists_scans`),
and scanning it gives exactly those pieces, each laid where the one before it stops (`Scans.laid`).
The reading ends at the first stray character, as no program has one.
-/

namespace Retouch.Scan

open List

/-! ## Lines -/

def IsLine (l : Text) : Prop := ∃ body, l = body ++ ['\n'] ∧ '\n' ∉ body

def IsTail (cs : Text) : Prop := cs = [] ∨ IsLine cs

theorem IsLine.ne_nil {l : Text} (h : IsLine l) : l ≠ [] := by
  obtain ⟨_, rfl, _⟩ := h
  simp

variable {cs rest more : Text} {lines : List Text}

theorem IsTail.of_append {x : Text} (h : IsTail (x ++ cs)) : IsTail cs := by
  rcases h with nil | ⟨_, eq, free⟩
  · exact .inl (append_eq_nil_iff.1 nil).2
  · rcases eq_nil_or_concat cs with rfl | ⟨front, c, rfl⟩
    · exact .inl rfl
    · rw [concat_eq_append, ← append_assoc] at eq
      obtain ⟨rfl, last⟩ := append_inj' eq rfl
      refine .inr ⟨front, ?_, fun mem => free (mem_append_right _ mem)⟩
      rw [concat_eq_append, last]

theorem IsTail.getLast?_iff {x cs : Text} (h : IsTail (x ++ cs)) (hx : x ≠ []) :
    x.getLast? = some '\n' ↔ cs = [] := by
  rcases h with nil | ⟨_, eq, free⟩
  · exact absurd (append_eq_nil_iff.1 nil).1 hx
  · constructor
    · intro last
      by_contra hcs
      rcases eq_nil_or_concat cs with rfl | ⟨_, c, rfl⟩
      · exact hcs rfl
      · rw [concat_eq_append, ← append_assoc] at eq
        obtain ⟨rfl, _⟩ := append_inj' eq rfl
        exact free (mem_append_left _ (mem_of_getLast? last))
    · rintro rfl
      rw [append_nil] at eq
      rw [eq, getLast?_concat]

/-! ## Pieces -/

/-- A token without its place, and the separators before it. -/
structure Piece where
  gap : Text
  kind : Kind
  text : Text
deriving DecidableEq, Repr

def Piece.chars (p : Piece) : Text := p.gap ++ p.text

/-- The state of a scan without places, and without a string that is open. -/
structure Flow where
  depth : Int := 0
  continued : Bool := false
  indents : List Nat := []
deriving DecidableEq, Repr

def Flow.between (f : Flow) : Bool := f.depth = 0 && !f.continued

def Flow.after (f : Flow) (lexeme : Text) : Flow :=
  { f with
    depth := f.depth + depthChange lexeme
    continued := f.continued || Lexeme.headIs (· == '\\') lexeme }

/-- How a reading ends. -/
inductive End where
  | complete
  | broken
  | stray
deriving DecidableEq, Repr

/-- The pieces of a line on which nothing but a comment stands, or nothing at all. -/
def blankPieces (blanks rest : Text) : List Piece :=
  if Lexeme.headIs (· == '#') rest then
    let comment := commentOf rest
    [⟨blanks, Kind.comment, comment⟩, ⟨[], Kind.lineBreak, rest.drop comment.length⟩]
  else [⟨blanks, Kind.lineBreak, rest⟩]

/-- The pieces that open or close blocks before a line indented by `blanks` to `column`, the blanks
that are left for the first token of the line, and the blocks open then. -/
def blockPieces (blanks : Text) (column : Nat) (indents : List Nat) :
    Option (List Piece × Text × List Nat) :=
  if indents.headD 0 < column then some ([⟨[], Kind.indent, blanks⟩], [], column :: indents)
  else if column < indents.headD 0 then
    if column = 0 ∨ column ∈ indents then
      some (⟨blanks, Kind.dedent, []⟩ ::
          (indents.takeWhile (column < ·)).tail.map (fun _ => ⟨[], Kind.dedent, []⟩),
        [], indents.dropWhile (column < ·))
    else none
  else some ([], blanks, indents)

/-- How a string goes on after its first lexeme. -/
inductive StringEnd where
  /-- It is closed after more characters; the rest of the line and the lines after it. -/
  | closed (more rest : Text) (lines : List Text)
  /-- It stops at a line that had to end in a backslash. -/
  | stray (more : Text)
  | unclosed
deriving DecidableEq, Repr

def StringEnd.after (front : Text) : StringEnd → StringEnd
  | closed more rest lines => closed (front ++ more) rest lines
  | stray more => stray (front ++ more)
  | unclosed => unclosed

def stringEnd (closing : Lexeme.Closing) (mustContinue : Bool) : List Text → StringEnd
  | [] => .unclosed
  | line :: lines =>
    match closing.find? line with
    | some n => .closed (line.take n) (line.drop n) lines
    | none =>
      if stops mustContinue line then .stray line
      else (stringEnd closing mustContinue lines).after line

/-- How the string that begins with a lexeme goes on, first on the rest of its line. -/
def stringFrom (lexeme rest : Text) (lines : List Text) : StringEnd :=
  if isTripleOpening lexeme then
    match (closingOf lexeme).find? rest with
    | some n => .closed (rest.take n) (rest.drop n) lines
    | none => (stringEnd (closingOf lexeme) false lines).after rest
  else if lexeme.getLast? = some '\n' then (stringEnd (closingOf lexeme) true lines).after rest
  else .closed [] rest lines

/-- A text is read in pieces from within a line on: `before` are blanks of the line that no piece has
taken yet, `cs` is the rest of the line, and `lines` are the lines after it. -/
inductive Scans : Flow → Text → Text → List Text → List Piece → End → Prop
  /-- The text ends between statements: the blocks are closed. -/
  | finish {f : Flow} (between : f.between = true) :
      Scans f [] [] [] (f.indents.map (fun _ => ⟨[], Kind.dedent, []⟩) ++
        [⟨[], Kind.endMarker, []⟩]) .complete
  | unfinished {f : Flow} (inside : f.between = false) : Scans f [] [] [] [] .broken
  | inner {f : Flow} {line : Text} {lines : List Text} {ps : List Piece} {e : End}
      (inside : f.between = false) (rest : Scans { f with continued := false } [] line lines ps e) :
      Scans f [] [] (line :: lines) ps e
  | blankLine {f : Flow} {blanks rest : Text} {column : Nat} {lines : List Text} {ps : List Piece}
      {e : End} (between : f.between = true)
      (indented : leadingBlanks 0 0 (blanks ++ rest) = (blanks.length, column))
      (blank : isBlankRest rest = true) (later : Scans f [] [] lines ps e) :
      Scans f [] [] ((blanks ++ rest) :: lines) (blankPieces blanks rest ++ ps) e
  /-- A line begins a statement, and is indented like no block around it. -/
  | misindented {f : Flow} {blanks rest : Text} {column : Nat} {lines : List Text}
      (between : f.between = true)
      (indented : leadingBlanks 0 0 (blanks ++ rest) = (blanks.length, column))
      (full : isBlankRest rest = false) (blocks : blockPieces blanks column f.indents = none) :
      Scans f [] [] ((blanks ++ rest) :: lines) [] .broken
  | line {f : Flow} {blanks rest before : Text} {column : Nat} {indents : List Nat}
      {lines : List Text} {qs ps : List Piece} {e : End} (between : f.between = true)
      (indented : leadingBlanks 0 0 (blanks ++ rest) = (blanks.length, column))
      (full : isBlankRest rest = false)
      (blocks : blockPieces blanks column f.indents = some (qs, before, indents))
      (tokens : Scans { f with indents } before rest lines ps e) :
      Scans f [] [] ((blanks ++ rest) :: lines) (qs ++ ps) e
  | stray {f : Flow} {before cs : Text} {c : Char} {lines : List Text}
      (none : Lexeme.next? (c :: cs) = none) :
      Scans f before (c :: cs) lines [⟨before, Kind.stray, [c]⟩] .stray
  | string {f : Flow} {before gap x cs more rest : Text} {lines lines' : List Text}
      {ps : List Piece} {e : End} (lexes : Lexeme.Lexes gap x cs) (isString : isString x = true)
      (closed : stringFrom x cs lines = .closed more rest lines')
      (tokens : Scans f [] rest lines' ps e) :
      Scans f before (gap ++ (x ++ cs)) lines (⟨before ++ gap, Kind.string, x ++ more⟩ :: ps) e
  /-- A string that stops where it had to go on. -/
  | strayString {f : Flow} {before gap x cs more : Text} {lines : List Text}
      (lexes : Lexeme.Lexes gap x cs) (isString : isString x = true)
      (stray : stringFrom x cs lines = .stray more) :
      Scans f before (gap ++ (x ++ cs)) lines [⟨before ++ gap, Kind.stray, x ++ more⟩] .stray
  | openString {f : Flow} {before gap x cs : Text} {lines : List Text}
      (lexes : Lexeme.Lexes gap x cs) (isString : isString x = true)
      (unclosed : stringFrom x cs lines = .unclosed) :
      Scans f before (gap ++ (x ++ cs)) lines [] .broken
  | plain {f : Flow} {before gap x cs : Text} {lines : List Text} {ps : List Piece} {e : End}
      (lexes : Lexeme.Lexes gap x cs) (isString : isString x = false)
      (tokens : Scans (f.after x) [] cs lines ps e) :
      Scans f before (gap ++ (x ++ cs)) lines (⟨before ++ gap, plainKind f.depth x, x⟩ :: ps) e

/-! ## Every text is read -/

theorem leadingBlanks_spec (n col : Nat) (l : Text) :
    ∃ blanks rest, l = blanks ++ rest ∧ (leadingBlanks n col l).1 = n + blanks.length ∧
      Lexeme.IsGap blanks := by
  induction l generalizing n col with
  | nil => exact ⟨[], [], rfl, rfl, nofun⟩
  | cons c cs ih =>
    unfold leadingBlanks
    have step : ∀ col', Lexeme.isSeparator c = true → ∃ blanks rest, c :: cs = blanks ++ rest ∧
        (leadingBlanks (n + 1) col' cs).1 = n + blanks.length ∧
        Lexeme.IsGap blanks := by
      intro col' hc
      obtain ⟨blanks, rest, rfl, _, all⟩ := ih (n + 1) col'
      refine ⟨c :: blanks, rest, rfl, ?_, ?_⟩
      · rw [length_cons]
        omega
      · exact forall_mem_cons.2 ⟨hc, all⟩
    split_ifs with space tab feed
    · exact step _ (by rw [space]; rfl)
    · exact step _ (by rw [tab]; rfl)
    · exact step _ (by rw [feed]; rfl)
    · exact ⟨[], c :: cs, rfl, rfl, nofun⟩

theorem newline_notMem_gap {gap : Text} (h : Lexeme.IsGap gap) : '\n' ∉ gap :=
  fun mem => absurd (h _ mem) (by decide)

theorem IsLine.rest_ne_nil {blanks : Text} (h : IsLine (blanks ++ rest))
    (all : Lexeme.IsGap blanks) : rest ≠ [] := by
  rintro rfl
  obtain ⟨_, eq, _⟩ := h
  rw [append_nil] at eq
  refine newline_notMem_gap all ?_
  rw [eq]
  exact mem_append_right _ mem_cons_self

theorem StringEnd.after_eq_closed {front : Text} {e : StringEnd}
    (h : e.after front = .closed more rest lines) :
    ∃ more', e = .closed more' rest lines ∧ more = front ++ more' := by
  cases e with
  | closed more' rest' lines' =>
    cases h
    exact ⟨more', rfl, rfl⟩
  | stray more' | unclosed => cases h

theorem stringEnd_closed {closing : Lexeme.Closing} {must : Bool} {lines' : List Text}
    (h : stringEnd closing must lines = .closed more rest lines') (hl : ∀ l ∈ lines, IsLine l) :
    IsTail rest ∧ lines'.length < lines.length ∧ (∀ l ∈ lines', IsLine l) ∧
      more ++ (rest ++ lines'.flatten) = lines.flatten := by
  induction lines generalizing more with
  | nil => cases h
  | cons line lines ih =>
    obtain ⟨hline, hlines⟩ := forall_mem_cons.1 hl
    unfold stringEnd at h
    split at h
    · rename_i n _
      cases h
      refine ⟨?_, Nat.lt_succ_self _, hlines, ?_⟩
      · exact .of_append (x := line.take n) (by rw [take_append_drop]; exact .inr hline)
      · rw [← append_assoc, take_append_drop, flatten_cons]
    · split at h
      · cases h
      · obtain ⟨_, he, rfl⟩ := StringEnd.after_eq_closed h
        obtain ⟨tail, shorter, good, text⟩ := ih he hlines
        refine ⟨tail, Nat.lt_succ_of_lt shorter, good, ?_⟩
        rw [append_assoc, text, flatten_cons]

theorem stringFrom_closed {x : Text} {lines' : List Text}
    (h : stringFrom x cs lines = .closed more rest lines') (hcs : IsTail cs)
    (hl : ∀ l ∈ lines, IsLine l) :
    IsTail rest ∧ (lines'.length < lines.length ∨ lines' = lines ∧ rest.length ≤ cs.length) ∧
      (∀ l ∈ lines', IsLine l) ∧ more ++ (rest ++ lines'.flatten) = cs ++ lines.flatten := by
  have later : ∀ {closing must}, (stringEnd closing must lines).after cs = .closed more rest lines' →
      IsTail rest ∧ (lines'.length < lines.length ∨ lines' = lines ∧ rest.length ≤ cs.length) ∧
      (∀ l ∈ lines', IsLine l) ∧ more ++ (rest ++ lines'.flatten) = cs ++ lines.flatten := by
    intro closing must h
    obtain ⟨_, he, rfl⟩ := StringEnd.after_eq_closed h
    obtain ⟨tail, shorter, good, text⟩ := stringEnd_closed he hl
    exact ⟨tail, .inl shorter, good, by rw [append_assoc, text]⟩
  unfold stringFrom at h
  split at h
  · split at h
    · rename_i n _
      cases h
      refine ⟨?_, .inr ⟨rfl, ?_⟩, hl, ?_⟩
      · exact .of_append (x := cs.take n) (by rw [take_append_drop]; exact hcs)
      · rw [length_drop]
        omega
      · rw [← append_assoc, take_append_drop]
    · exact later h
  · split at h
    · exact later h
    · cases h
      exact ⟨hcs, .inr ⟨rfl, Nat.le_refl _⟩, hl, rfl⟩

/-- Every text whose lines end in newlines is read in some way. -/
theorem exists_scans (f : Flow) (before cs : Text) (lines : List Text) (hcs : IsTail cs)
    (hl : ∀ l ∈ lines, IsLine l) (hb : cs = [] → before = []) :
    ∃ ps e, Scans f before cs lines ps e := by
  -- each step takes characters or goes on to the next line
  induction hn : cs.length + lines.flatten.length + lines.length using Nat.strongRecOn
    generalizing f before cs lines with
  | _ n ih =>
  subst hn
  cases hc : cs with
  | nil =>
    rw [hb hc]
    cases lines with
    | nil =>
      cases hf : f.between with
      | true => exact ⟨_, _, .finish hf⟩
      | false => exact ⟨_, _, .unfinished hf⟩
    | cons line lines =>
      obtain ⟨hline, hlines⟩ := forall_mem_cons.1 hl
      have shorter : ∀ k ≤ line.length, k + lines.flatten.length + lines.length <
          cs.length + (line :: lines).flatten.length + (line :: lines).length := by
        simp only [flatten_cons, length_append, length_cons]
        omega
      cases hf : f.between with
      | false =>
        obtain ⟨ps, e, h⟩ := ih _ (shorter _ (Nat.le_refl _)) { f with continued := false } [] line
          lines (.inr hline) hlines (fun _ => rfl) rfl
        exact ⟨ps, e, .inner hf h⟩
      | true =>
        obtain ⟨blanks, rest, rfl, count, all⟩ := leadingBlanks_spec 0 0 line
        obtain ⟨column, hcol⟩ : ∃ column,
            leadingBlanks 0 0 (blanks ++ rest) = (blanks.length, column) := by
          refine ⟨(leadingBlanks 0 0 (blanks ++ rest)).2, Prod.ext ?_ rfl⟩
          rw [count, Nat.zero_add]
        cases hblank : isBlankRest rest with
        | true =>
          obtain ⟨ps, e, h⟩ := ih _ (shorter _ (Nat.zero_le _)) f [] [] lines (.inl rfl) hlines
            (fun _ => rfl) rfl
          exact ⟨_, e, .blankLine hf hcol hblank h⟩
        | false =>
          cases hblocks : blockPieces blanks column f.indents with
          | none => exact ⟨_, _, .misindented hf hcol hblank hblocks⟩
          | some blocks =>
            obtain ⟨qs, before', indents⟩ := blocks
            obtain ⟨ps, e, h⟩ := ih _ (shorter rest.length (by simp)) { f with indents } before' rest
              lines (.of_append (.inr hline)) hlines
              (fun none => absurd none (hline.rest_ne_nil all)) rfl
            exact ⟨_, e, .line hf hcol hblank hblocks h⟩
  | cons c tail =>
    rw [← hc]
    cases hn : Lexeme.next? cs with
    | none =>
      rw [hc] at hn ⊢
      exact ⟨_, _, .stray hn⟩
    | some next =>
      obtain ⟨gap, x, rest, rfl, lexes⟩ := Lexeme.lexes_of_next? hn
      have hx := length_pos_iff.2 lexes.nonempty
      cases hs : isString x with
      | false =>
        have shorter : rest.length + lines.flatten.length + lines.length <
            (gap ++ (x ++ rest)).length + lines.flatten.length + lines.length := by
          simp only [length_append]
          omega
        obtain ⟨ps, e, h⟩ := ih _ shorter (f.after x) [] rest lines hcs.of_append.of_append hl
          (fun _ => rfl) rfl
        exact ⟨_, e, .plain lexes hs h⟩
      | true =>
        cases hstr : stringFrom x rest lines with
        | stray more => exact ⟨_, _, .strayString lexes hs hstr⟩
        | unclosed => exact ⟨_, _, .openString lexes hs hstr⟩
        | closed more left lines' =>
          obtain ⟨tail, fewer, good, text⟩ := stringFrom_closed hstr hcs.of_append.of_append hl
          have shorter : left.length + lines'.flatten.length + lines'.length <
              (gap ++ (x ++ rest)).length + lines.flatten.length + lines.length := by
            have := congrArg length text
            simp only [length_append] at this ⊢
            rcases fewer with fewer | ⟨rfl, _⟩ <;> omega
          obtain ⟨ps, e, h⟩ := ih _ shorter f [] left lines' tail good (fun _ => rfl) rfl
          exact ⟨_, e, .string lexes hs hstr h⟩

/-! ## A complete reading has all of the text -/

theorem dropEnd_isPrefix (p : Char → Bool) (t : Text) : Text.dropEnd p t <+: t := by
  have := dropWhile_suffix (l := t.reverse) p
  rwa [← reverse_prefix, reverse_reverse] at this

theorem mem_dropEnd {p : Char → Bool} {c : Char} {t : Text} (mem : c ∈ t) (other : p c = false) :
    c ∈ Text.dropEnd p t := by
  rw [← mem_reverse, ← takeWhile_append_dropWhile (p := p) (l := t.reverse), mem_append] at mem
  rcases mem with mem | mem
  · rw [all_eq_true.1 all_takeWhile c mem] at other
    cases other
  · exact mem_reverse.2 mem

theorem commentOf_isPrefix (rest : Text) : commentOf rest <+: rest := dropEnd_isPrefix _ rest

theorem getLast?_comment_ne (rest : Text) : (commentOf rest).getLast? ≠ some '\n' := by
  intro last
  rw [commentOf, Text.dropEnd, getLast?_reverse] at last
  have kept := head?_dropWhile_not (fun c => c == '\r' || c == '\n') rest.reverse
  rw [last] at kept
  cases kept

theorem getLast?_drop_comment (ends : rest.getLast? = some '\n') :
    (rest.drop (commentOf rest).length).getLast? = some '\n' := by
  have whole := prefix_iff_eq_append.1 (commentOf_isPrefix rest)
  rw [← whole, getLast?_append] at ends
  cases last : (rest.drop (commentOf rest).length).getLast? with
  | none =>
    rw [last] at ends
    exact absurd ends (getLast?_comment_ne rest)
  | some c => rwa [last] at ends

theorem chars_blankPieces (blanks rest : Text) :
    (blankPieces blanks rest).flatMap Piece.chars = blanks ++ rest := by
  unfold blankPieces
  split
  · have := prefix_iff_eq_append.1 (commentOf_isPrefix rest)
    simpa [Piece.chars] using this
  · simp [Piece.chars]

theorem mem_blockPieces {blanks before : Text} {column : Nat} {indents after : List Nat}
    {qs : List Piece} (h : blockPieces blanks column indents = some (qs, before, after)) :
    ∀ q ∈ qs, q = ⟨[], Kind.indent, blanks⟩ ∨ ∃ gap, q = ⟨gap, Kind.dedent, []⟩ := by
  unfold blockPieces at h
  repeat' split at h
  all_goals cases h
  · exact forall_mem_singleton.2 (.inl rfl)
  · refine forall_mem_cons.2 ⟨.inr ⟨blanks, rfl⟩, fun q hq => ?_⟩
    obtain ⟨_, _, rfl⟩ := mem_map.1 hq
    exact .inr ⟨[], rfl⟩
  · exact nofun

theorem blankPieces_kind (blanks rest : Text) :
    ∀ q ∈ blankPieces blanks rest, q.kind = Kind.comment ∨ q.kind = Kind.lineBreak := by
  unfold blankPieces
  split <;> simp

theorem chars_blockPieces {blanks before : Text} {column : Nat} {indents after : List Nat}
    {qs : List Piece} (h : blockPieces blanks column indents = some (qs, before, after)) :
    qs.flatMap Piece.chars ++ before = blanks := by
  unfold blockPieces at h
  repeat' split at h
  all_goals cases h
  · simp [Piece.chars]
  · have none : ∀ l : List Nat,
        (l.map fun _ => (⟨[], .dedent, []⟩ : Piece)).flatMap Piece.chars = [] := by
      simp [Piece.chars]
    simp only [flatMap_cons, none, Piece.chars, append_nil]
  · rfl

theorem Scans.text {f : Flow} {before : Text} {ps : List Piece} {e : End}
    (h : Scans f before cs lines ps e) (hcs : IsTail cs) (hl : ∀ l ∈ lines, IsLine l)
    (he : e = .complete) : before ++ (cs ++ lines.flatten) = ps.flatMap Piece.chars := by
  induction h with
  | finish _ => simp [Piece.chars]
  | unfinished | misindented | stray | strayString | openString => cases he
  | inner _ _ ih =>
    obtain ⟨hline, hlines⟩ := forall_mem_cons.1 hl
    exact ih (.inr hline) hlines he
  | blankLine _ _ _ _ ih =>
    rw [flatMap_append, chars_blankPieces, ← ih hcs (forall_mem_cons.1 hl).2 he]
    simp
  | line _ _ _ blocks _ ih =>
    obtain ⟨hline, hlines⟩ := forall_mem_cons.1 hl
    rw [flatMap_append, ← ih (.of_append (.inr hline)) hlines he]
    conv_lhs => rw [← chars_blockPieces blocks]
    simp
  | string _ _ closed _ ih =>
    obtain ⟨tail, _, good, text⟩ := stringFrom_closed closed hcs.of_append.of_append hl
    rw [flatMap_cons, ← ih tail good he]
    simp [Piece.chars, text]
  | plain _ _ _ ih =>
    rw [flatMap_cons, ← ih hcs.of_append.of_append hl he]
    simp [Piece.chars]

end Retouch.Scan
