import Retouch.Proofs.Lines
import Retouch.Proofs.ScanSteps

/-!
# Tokens cover the text

A place is a row and a column; it stands for an offset into the text (`Text.offset`).  For every text,
whether scanning it fails or not, each token has exactly the characters between the places where it
starts and stops, the tokens come in order, and between two of them stand separators only
(`Scan.scan_covers`).  So no character is lost between the lines of a string, the blanks that open a
block, the comments and the rest: the text is the tokens with separators between them.

The argument follows the steps of the scanner.  What is covered from one place to another is a
relation (`Scan.Covers`) that a step extends by a token; a string that is open has the characters from
its start to the next row (`Scan.State.Holds`).
-/

namespace Retouch

open List

/-! ## Places in a text -/

namespace Position

theorem le_iff {a b : Position} :
    a.le b = true ↔ a.row < b.row ∨ a.row = b.row ∧ a.column ≤ b.column := by
  simp [le]

theorem le_refl (a : Position) : a.le a = true := le_iff.2 (.inr ⟨rfl, Nat.le_refl _⟩)

theorem le_trans {a b c : Position} (h : a.le b = true) (h' : b.le c = true) : a.le c = true := by
  rw [le_iff] at h h' ⊢
  omega

theorem le_of_column {row a b : Nat} (h : a ≤ b) : le ⟨row, a⟩ ⟨row, b⟩ = true :=
  le_iff.2 (.inr ⟨rfl, h⟩)

theorem le_of_row {row row' a b : Nat} (h : row < row') : le ⟨row, a⟩ ⟨row', b⟩ = true :=
  le_iff.2 (.inl h)

end Position

namespace Text

/-- How many characters stand before a place, in a text that is given as its lines. -/
def offset (lines : List Text) (p : Position) : Nat :=
  (lines.take (p.row - 1)).flatten.length + p.column

/-- The lines have such a place.  The place after the last line is one of them. -/
def HasPlace (lines : List Text) (p : Position) : Prop :=
  0 < p.row ∧ p.column ≤ (lines.getD (p.row - 1) []).length

def upTo (lines : List Text) (p : Position) : Text := lines.flatten.take (offset lines p)

def between (lines : List Text) (p q : Position) : Text := (upTo lines q).drop (offset lines p)

variable {lines : List Text} {row : Nat} {line : Text}

theorem upTo_row (here : lines[row]? = some line) (col : Nat) (inside : col ≤ line.length) :
    upTo lines ⟨row + 1, col⟩ = (lines.take row).flatten ++ line.take col := by
  obtain ⟨bound, rfl⟩ := List.getElem?_eq_some_iff.1 here
  have parts : lines.flatten =
      (lines.take row).flatten ++ (lines[row] ++ (lines.drop (row + 1)).flatten) := by
    rw [← flatten_cons, ← drop_eq_getElem_cons bound, ← flatten_append, take_append_drop]
  rw [upTo, offset, parts, Nat.add_sub_cancel, take_length_add_append,
    take_append_of_le_length inside]

theorem upTo_nextRow (here : lines[row]? = some line) :
    upTo lines ⟨row + 1 + 1, 0⟩ = upTo lines ⟨row + 1, line.length⟩ := by
  have size : offset lines ⟨row + 1 + 1, 0⟩ = offset lines ⟨row + 1, line.length⟩ := by
    simp [offset, take_add_one, here]
  rw [upTo, size, upTo]

variable {p : Position}

theorem HasPlace.length_upTo (h : HasPlace lines p) : (upTo lines p).length = offset lines p := by
  obtain ⟨row, col⟩ := p
  obtain ⟨pos, inside⟩ := h
  cases row with
  | zero => cases pos
  | succ row =>
    rw [Nat.add_sub_cancel, getD_eq_getElem?_getD] at inside
    cases here : lines[row]? with
    | some line =>
      replace inside : col ≤ line.length := by rwa [here] at inside
      rw [upTo_row here col inside, offset, length_append, length_take_of_le inside,
        Nat.add_sub_cancel]
    | none =>
      obtain rfl : col = 0 := by simpa [here] using inside
      have all := take_of_length_le (getElem?_eq_none_iff.1 here)
      rw [upTo, length_take, offset, Nat.add_sub_cancel, all]
      exact Nat.min_self _

theorem newline_mem_of_mem_dropLast {t l : Text} (h : l ∈ (newlineLines t).dropLast) : '\n' ∈ l := by
  induction t generalizing l with
  | nil => cases h
  | cons c cs ih =>
    unfold newlineLines at h
    rcases rest : newlineLines cs with _ | ⟨l', _ | ⟨l'', ls⟩⟩
    · split at h <;> simp [rest, consLine] at h
    · split at h <;> simp_all [consLine]
    · rw [rest] at h ih
      split at h
      · rcases mem_cons.1 h with rfl | h
        · exact mem_singleton.2 rfl
        · exact ih h
      · rcases mem_cons.1 h with rfl | h
        · exact mem_cons_of_mem _ (ih (mem_cons_self ..))
        · exact ih (mem_cons_of_mem _ h)

theorem drop_offset_row (lines : List Text) (row : Nat) :
    lines.flatten.drop (offset lines ⟨row + 1, 0⟩) = (lines.drop row).flatten := by
  have parts : lines.flatten = (lines.take row).flatten ++ (lines.drop row).flatten := by
    rw [← flatten_append, take_append_drop]
  rw [offset, Nat.add_zero, Nat.add_sub_cancel, parts, drop_left]

/-- The text goes from one place to a later one, and has the given characters between them. -/
structure Spans (lines : List Text) (p : Position) (x : Text) (q : Position) : Prop where
  order : p.le q = true
  place : HasPlace lines q
  text : upTo lines q = upTo lines p ++ x

theorem Spans.refl (h : HasPlace lines p) : Spans lines p [] p :=
  ⟨Position.le_refl p, h, (append_nil _).symm⟩

theorem Spans.trans {q r : Position} {x y : Text} (h : Spans lines p x q) (h' : Spans lines q y r) :
    Spans lines p (x ++ y) r :=
  ⟨Position.le_trans h.order h'.order, h'.place, by rw [h'.text, h.text, append_assoc]⟩

theorem Spans.eq_between {q : Position} {x : Text} (h : Spans lines p x q) (place : HasPlace lines p) :
    x = between lines p q := by
  rw [between, h.text, ← place.length_upTo, drop_left]

theorem hasPlace_row {front rest : Text} (here : lines[row]? = some (front ++ rest)) :
    HasPlace lines ⟨row + 1, front.length⟩ := by
  refine ⟨Nat.succ_pos _, ?_⟩
  rw [Nat.add_sub_cancel, getD_eq_getElem?_getD, here]
  simp

/-- A token can start at the place: it is not behind a newline that ends its row. -/
structure CanStart (lines : List Text) (p : Position) : Prop where
  place : HasPlace lines p
  before : 0 < p.column → (lines.getD (p.row - 1) []).getLast? = some '\n' →
    p.column < (lines.getD (p.row - 1) []).length

theorem canStart_row {front rest : Text} (here : lines[row]? = some (front ++ rest))
    (more : rest = [] → front.getLast? ≠ some '\n') : CanStart lines ⟨row + 1, front.length⟩ := by
  refine ⟨hasPlace_row here, fun _ newline => ?_⟩
  rw [Nat.add_sub_cancel, getD_eq_getElem?_getD, here] at newline ⊢
  cases rest with
  | nil => exact absurd ((append_nil front) ▸ newline) (more rfl)
  | cons c rest => simp

theorem canStart_beginning (row : Nat) : CanStart lines ⟨row + 1, 0⟩ :=
  ⟨⟨Nat.succ_pos _, Nat.zero_le _⟩, nofun⟩

theorem spans_row (front x rest : Text) (here : lines[row]? = some (front ++ (x ++ rest))) :
    Spans lines ⟨row + 1, front.length⟩ x ⟨row + 1, front.length + x.length⟩ := by
  have here' : lines[row]? = some ((front ++ x) ++ rest) := by rw [here, append_assoc]
  have place := hasPlace_row here'
  have text := upTo_row here' (front ++ x).length (by simp)
  rw [length_append] at place
  rw [take_left, length_append] at text
  refine ⟨Position.le_of_column (Nat.le_add_right _ _), place, ?_⟩
  rw [text, upTo_row here _ (by simp), take_left, append_assoc]

theorem spans_nextRow (here : lines[row]? = some line) :
    Spans lines ⟨row + 1, line.length⟩ [] ⟨row + 1 + 1, 0⟩ :=
  ⟨Position.le_of_row (Nat.lt_succ_self _), ⟨Nat.succ_pos _, Nat.zero_le _⟩, by
    rw [upTo_nextRow here, append_nil]⟩

theorem spans_rest (front rest : Text) (here : lines[row]? = some (front ++ rest)) :
    Spans lines ⟨row + 1, front.length⟩ rest ⟨row + 1 + 1, 0⟩ := by
  have whole := spans_row front rest [] (by rwa [append_nil])
  have next := spans_nextRow here
  rw [length_append] at next
  simpa using whole.trans next

end Text

namespace Scan

open Text

/-! ## Covered parts -/

variable {lines : List Text} {row : Nat}

def Apart (lines : List Text) (p q : Position) : Prop :=
  ∃ gap, Spans lines p gap q ∧ ∀ c ∈ gap, Lexeme.isSeparator c = true

variable {p q : Position} {ts : List Token} {s : State}

theorem Apart.refl (h : HasPlace lines p) : Apart lines p p :=
  ⟨[], .refl h, nofun⟩

theorem Apart.trans {r : Position} (h : Apart lines p q) (h' : Apart lines q r) : Apart lines p r := by
  obtain ⟨gap, spans, blank⟩ := h
  obtain ⟨gap', spans', blank'⟩ := h'
  exact ⟨gap ++ gap', spans.trans spans', forall_mem_append.2 ⟨blank, blank'⟩⟩

theorem Apart.of_between (h : Apart lines p q) (place : HasPlace lines p) :
    p.le q = true ∧ Lexeme.IsGap (between lines p q) := by
  obtain ⟨_, spans, blank⟩ := h
  rw [← spans.eq_between place]
  exact ⟨spans.order, blank⟩

/-- The token has the characters between its places. -/
structure Lies (lines : List Text) (t : Token) : Prop where
  start : CanStart lines t.start
  text : Spans lines t.start t.text t.stop
  stop : t.text ≠ [] → 0 < t.stop.column

/-- The tokens, with separators before, between and after them, are the text from one place to the
other. -/
def Covers (lines : List Text) : Position → List Token → Position → Prop
  | p, [], q => Apart lines p q
  | p, t :: ts, q => Apart lines p t.start ∧ Lies lines t ∧ Covers lines t.stop ts q

theorem Covers.after_gap {p' : Position} (gap : Apart lines p p') (h : Covers lines p' ts q) :
    Covers lines p ts q := by
  cases ts with
  | nil => exact gap.trans h
  | cons t ts => exact ⟨gap.trans h.1, h.2⟩

theorem Covers.append {p q r : Position} {ts us : List Token} (h : Covers lines p ts q)
    (h' : Covers lines q us r) : Covers lines p (ts ++ us) r := by
  induction ts generalizing p with
  | nil => exact h'.after_gap h
  | cons t ts ih => exact ⟨h.1, h.2.1, ih h.2.2⟩

theorem Covers.cons_row (front gap rest : Text) {t : Token} {stop : Nat}
    (here : lines[row]? = some (front ++ (gap ++ (t.text ++ rest))))
    (blank : Lexeme.IsGap gap)
    (more : t.text ++ rest = [] → (front ++ gap).getLast? ≠ some '\n')
    (start : t.start = ⟨row + 1, front.length + gap.length⟩)
    (size : stop = front.length + gap.length + t.text.length) (ends : t.stop = ⟨row + 1, stop⟩)
    (later : Covers lines ⟨row + 1, stop⟩ ts q) : Covers lines ⟨row + 1, front.length⟩ (t :: ts) q := by
  have parts : lines[row]? = some ((front ++ gap) ++ (t.text ++ rest)) := by rw [here, append_assoc]
  have place := canStart_row parts more
  have text := spans_row (front ++ gap) t.text rest parts
  rw [length_append, ← start] at text place
  rw [← size, ← ends] at text
  refine ⟨⟨gap, ?_, blank⟩, ⟨place, text, fun some => ?_⟩, ends ▸ later⟩
  · rw [start]
    exact spans_row front gap _ here
  · rw [ends, size]
    exact Nat.add_pos_right _ (length_pos_iff.2 some)

theorem covers_here (place : CanStart lines p) (h : ∀ t ∈ ts, t.text = [] ∧ t.start = p ∧ t.stop = p) :
    Covers lines p ts p := by
  induction ts with
  | nil => exact .refl place.place
  | cons t ts ih =>
    obtain ⟨⟨text, start, stop⟩, later⟩ := forall_mem_cons.1 h
    refine ⟨?_, ⟨start ▸ place, ?_, absurd text⟩, stop ▸ ih later⟩
    · rw [start]
      exact .refl place.place
    · rw [text, start, stop]
      exact .refl place.place

theorem Covers.spans (h : Covers lines p ts q) :
    ∀ t ∈ ts, HasPlace lines t.start ∧ Spans lines t.start t.text t.stop := by
  induction ts generalizing p with
  | nil => exact nofun
  | cons t ts ih =>
    obtain ⟨-, lies, later⟩ := h
    exact forall_mem_cons.2 ⟨⟨lies.start.place, lies.text⟩, ih later⟩

theorem Covers.head (h : Covers lines p ts q) : ∀ t ∈ ts.head?, Apart lines p t.start := by
  cases ts with
  | nil => exact nofun
  | cons t ts =>
    rintro _ ⟨⟩
    exact h.1

theorem Covers.isChain (h : Covers lines p ts q) :
    ts.IsChain fun a b => HasPlace lines a.stop ∧ Apart lines a.stop b.start := by
  induction ts generalizing p with
  | nil => exact .nil
  | cons t ts ih =>
    cases ts with
    | nil => exact .singleton t
    | cons u us => exact .cons_cons ⟨h.2.1.text.place, h.2.2.1⟩ (ih h.2.2)

/-! ## Along a line -/

/-- The place that a state has reached: the start of the open string, or else the next row. -/
def State.reach (s : State) : Position :=
  match s.opened with
  | some string => string.start
  | none => ⟨s.row + 1, 0⟩

theorem State.reach_of_closed (s : State) (closed : s.opened = none) : s.reach = ⟨s.row + 1, 0⟩ := by
  rw [reach, closed]

theorem State.reach_of_opened {string : OpenString} (opened : s.opened = some string) :
    s.reach = string.start := by
  rw [reach, opened]

/-- The string that is open has the characters from its start to the next row. -/
def State.Holds (lines : List Text) (s : State) : Prop :=
  ∀ string, s.opened = some string →
    CanStart lines string.start ∧ Spans lines string.start string.text ⟨s.row + 1, 0⟩

theorem State.holds_of_closed (closed : s.opened = none) : s.Holds lines := by
  intro _ opened
  rw [closed] at opened
  cases opened

theorem State.Holds.canStart_reach (h : s.Holds lines) : CanStart lines s.reach := by
  cases opened : s.opened with
  | none =>
    rw [reach_of_closed _ opened]
    exact canStart_beginning _
  | some string =>
    rw [reach_of_opened opened]
    exact (h string opened).1

theorem RowSteps.covers {line : Text} {s' : State} {col : Nat} {cs : Text}
    (h : RowSteps line s col cs ts s') (onRow : s.row = row + 1) (closed : s.opened = none)
    (front : Text) (size : col = front.length) (here : lines[row]? = some (front ++ cs)) :
    Covers lines ⟨row + 1, col⟩ ts s'.reach ∧ s'.Holds lines := by
  induction h generalizing front with
  | done =>
    refine ⟨?_, State.holds_of_closed closed⟩
    rw [State.reach_of_closed _ closed, onRow, size]
    exact ⟨[], spans_rest front [] here, nofun⟩
  | @stray s _ _ c cs _ _ _ ih =>
    subst size
    obtain ⟨covers, holds⟩ := ih onRow closed (front ++ [c]) (by simp)
      (by rw [here, append_assoc]; rfl)
    exact ⟨.cons_row front [] cs here nofun nofun (by simp [onRow]) rfl (by simp [onRow]) covers, holds⟩
  | @string s _ _ stop gap x more cs _ lexes _ _ stops _ ih =>
    subst size
    have parts : lines[row]? = some (front ++ (gap ++ ((x ++ more) ++ cs))) := by
      rw [here, append_assoc x]
    obtain ⟨covers, holds⟩ := ih onRow closed (front ++ (gap ++ (x ++ more)))
      (by simp [stops, Nat.add_assoc])
      (by rw [parts]; simp only [append_assoc])
    exact ⟨.cons_row front gap cs parts lexes.blank (by simp [lexes.nonempty]) (by simp [onRow]) stops
      (by simp [onRow]) covers, holds⟩
  | @opening s _ gap x cs must lexes _ =>
    subst size
    refine ⟨?_, ?_⟩
    · rw [onRow]
      exact ⟨gap, spans_row front gap _ here, lexes.blank⟩
    · rintro _ ⟨⟩
      rw [← append_assoc] at here
      have place := canStart_row here (by simp [lexes.nonempty])
      have text := spans_rest _ _ here
      rw [length_append, ← onRow] at text place
      exact ⟨place, text⟩
  | @plain s _ _ stop gap x cs _ lexes _ stops _ ih =>
    subst size
    obtain ⟨covers, holds⟩ := ih onRow closed (front ++ (gap ++ x))
      (by simp [stops, Nat.add_assoc])
      (by rw [here]; simp only [append_assoc])
    exact ⟨.cons_row front gap cs here lexes.blank (by simp [lexes.nonempty]) (by simp [onRow]) stops
      (by simp [onRow]) covers, holds⟩

/-! ## From line to line -/

theorem blankLineTokens_covers {blanks rest : Text} (here : lines[row]? = some (blanks ++ rest))
    (blank : Lexeme.IsGap blanks) :
    Covers lines ⟨row + 1, 0⟩ (blankLineTokens (row + 1) blanks.length (blanks ++ rest) rest)
      ⟨row + 1 + 1, 0⟩ := by
  have ended : Covers lines ⟨row + 1, (blanks ++ rest).length⟩ [] ⟨row + 1 + 1, 0⟩ :=
    ⟨[], spans_nextRow here, nofun⟩
  have stops : blanks.getLast? ≠ some '\n' :=
    fun last => absurd (blank _ (mem_of_getLast? last)) (by decide)
  unfold blankLineTokens
  split
  · obtain ⟨comment, found⟩ : ∃ comment, comment = commentOf rest := ⟨_, rfl⟩
    have stops' := found ▸ getLast?_comment_ne rest
    obtain ⟨after, rfl⟩ := found ▸ commentOf_isPrefix rest
    simp only [← found, drop_left]
    have lineBreak : Covers lines ⟨row + 1, (blanks ++ comment).length⟩
        [⟨.lineBreak, after, ⟨row + 1, blanks.length + comment.length⟩,
          ⟨row + 1, (blanks ++ (comment ++ after)).length⟩, blanks ++ (comment ++ after)⟩]
        ⟨row + 1 + 1, 0⟩ := by
      refine .cons_row (blanks ++ comment) [] [] (by rw [here]; simp) nofun (fun _ last => ?_) (by simp)
        (by simp; omega) rfl ended
      rw [append_nil, getLast?_append] at last
      rcases Option.or_eq_some_iff.1 last with last | ⟨_, last⟩
      · exact stops' last
      · exact stops last
    rw [length_append] at lineBreak
    exact .cons_row [] blanks after here blank (fun _ => stops) (by simp) (by simp) rfl lineBreak
  · exact .cons_row [] blanks [] (by rw [here]; simp) blank (fun _ => stops) (by simp) (by simp) rfl ended

theorem blockTokens_covers {column : Nat} {blanks rest : Text} {indents indents' : List Nat}
    {blocks : List Token} (here : lines[row]? = some (blanks ++ rest)) (more : rest ≠ [])
    (blank : Lexeme.IsGap blanks)
    (h : blockTokens (row + 1) blanks.length column (blanks ++ rest) indents =
      .ok (blocks, indents')) :
    Covers lines ⟨row + 1, 0⟩ blocks ⟨row + 1, blanks.length⟩ := by
  have place := canStart_row here (absurd · more)
  have gap : Apart lines ⟨row + 1, 0⟩ ⟨row + 1, blanks.length⟩ := by
    have spans := spans_row [] blanks rest here
    rw [length_nil, Nat.zero_add] at spans
    exact ⟨blanks, spans, blank⟩
  unfold blockTokens at h
  repeat' split at h
  all_goals cases h
  · exact .cons_row [] [] rest (by simpa using here) nofun nofun rfl (by simp) rfl
      (covers_here place nofun)
  · refine (covers_here place fun t mem => ?_).after_gap gap
    obtain ⟨_, _, rfl⟩ := mem_map.1 mem
    exact ⟨rfl, rfl, rfl⟩
  · exact gap

theorem LineStep.covers {s' : State} {line : Text} (h : LineStep s line ts (.next s'))
    (here : lines[s.row]? = some line) (holds : s.Holds lines) :
    Covers lines s.reach ts s'.reach ∧ s'.Holds lines := by
  -- the string that is open, with the first part of the line
  have longer : ∀ {string front rest}, s.opened = some string → line = front ++ rest →
      Apart lines s.reach string.start ∧ CanStart lines string.start ∧
        Spans lines string.start (string.text ++ front) ⟨s.row + 1, front.length⟩ := by
    rintro string front rest opened rfl
    obtain ⟨place, text⟩ := holds string opened
    have part := spans_row [] front rest here
    rw [length_nil, Nat.zero_add] at part
    refine ⟨?_, place, text.trans part⟩
    rw [State.reach_of_opened opened]
    exact .refl place.place
  cases h with
  | closes opened taken _ tokens =>
    obtain ⟨covers, holds'⟩ := tokens.covers rfl rfl _ rfl here
    obtain ⟨before, place, text⟩ := longer opened rfl
    exact ⟨⟨before, ⟨place, text, fun _ => length_pos_iff.2 taken⟩, covers⟩, holds'⟩
  | stops opened taken =>
    obtain ⟨before, place, text⟩ := longer opened (append_nil _).symm
    exact ⟨⟨before, ⟨place, text, fun _ => length_pos_iff.2 taken⟩, [], spans_nextRow here, nofun⟩,
      State.holds_of_closed rfl⟩
  | goesOn opened =>
    obtain ⟨place, text⟩ := holds _ opened
    obtain ⟨before, -⟩ := longer opened (append_nil _).symm
    refine ⟨before, ?_⟩
    rintro _ ⟨⟩
    exact ⟨place, text.trans (spans_rest [] line here)⟩
  | blank closed _ separators _ =>
    refine ⟨?_, State.holds_of_closed closed⟩
    rw [State.reach_of_closed _ closed, s.onRow.reach_of_closed closed]
    exact blankLineTokens_covers here separators
  | statement closed _ more indented opens tokens =>
    obtain ⟨covers, holds'⟩ := tokens.covers rfl closed _ rfl here
    refine ⟨?_, holds'⟩
    rw [State.reach_of_closed _ closed]
    exact (blockTokens_covers here more (leadingBlanks_separators indented) opens).append covers
  | inner closed tokens =>
    obtain ⟨covers, holds'⟩ := tokens.covers rfl closed [] rfl here
    refine ⟨?_, holds'⟩
    rwa [State.reach_of_closed _ closed]

/-! ## Whole texts -/

theorem closingTokens_covers (s : State) :
    Covers lines ⟨s.row + 1, 0⟩ (closingTokens s) ⟨s.row + 1, 0⟩ := by
  refine covers_here (canStart_beginning _) fun t mem => ?_
  rcases mem_append.1 mem with mem | mem
  · obtain ⟨_, _, rfl⟩ := mem_map.1 mem
    exact ⟨rfl, rfl, rfl⟩
  · obtain rfl := mem_singleton.1 mem
    exact ⟨rfl, rfl, rfl⟩

theorem Runs.covers {later : List Text} {e : Option ScanError} (h : Runs s later ts e)
    (rest : lines.drop s.row = later) (holds : s.Holds lines) :
    ∃ q, Covers lines s.reach ts q ∧ CanStart lines q ∧ (e = none → (∃ last ∈ ts.getLast?, last.stop = q) ∧
      ∃ row, q = ⟨row + 1, 0⟩ ∧ Lexeme.IsGap ((lines.drop row).headD [])) := by
  induction h with
  | @next s s' line later ts us e step _ ih =>
    have here : lines[s.row]? = some line := by
      rw [← head?_drop, rest]
      rfl
    obtain ⟨covers, holds'⟩ := step.covers here holds
    obtain ⟨q, covers', place, ends⟩ := ih (by rw [step.row, ← tail_drop, rest]; rfl) holds'
    refine ⟨q, covers.append covers', place, fun complete => ?_⟩
    obtain ⟨⟨last, found, stop⟩, blank⟩ := ends complete
    refine ⟨⟨last, ?_, stop⟩, blank⟩
    rw [getLast?_append, found]
    rfl
  | @finish s _ closed _ blank =>
    rw [State.reach_of_closed _ closed]
    refine ⟨_, closingTokens_covers s, canStart_beginning _,
      fun _ => ⟨⟨_, getLast?_concat, rfl⟩, s.row, rfl, rest ▸ blank⟩⟩
  | fail e => exact ⟨_, .refl holds.canStart_reach.place, holds.canStart_reach, nofun⟩

/-- Blanks that are a whole line of a text are the last one, as they have no newline. -/
theorem separators_of_head {t : Text} {row : Nat}
    (blank : Lexeme.IsGap (((newlineLines t).drop row).headD [])) :
    Lexeme.IsGap ((newlineLines t).drop row).flatten := by
  match rest : (newlineLines t).drop row with
  | [] => exact nofun
  | [line] => simpa [rest] using blank
  | line :: next :: later =>
    have mem : line ∈ (newlineLines t).dropLast := by
      rw [← take_append_drop row (newlineLines t), rest]
      simp
    rw [rest] at blank
    exact absurd (blank _ (newline_mem_of_mem_dropLast mem)) (by decide)

/-- **The tokens of a text cover it.** -/
theorem scan_covers (t : Text) :
    let lines := newlineLines t
    let tokens := (scan lines).tokens
    lines.flatten = t ∧
      (∀ token ∈ tokens, HasPlace lines token.start ∧ HasPlace lines token.stop ∧
        token.start.le token.stop = true ∧ token.text = between lines token.start token.stop) ∧
      tokens.IsChain (fun a b => a.stop.le b.start = true ∧
        ∀ c ∈ between lines a.stop b.start, Lexeme.isSeparator c = true) ∧
      (∀ first ∈ tokens.head?,
        ∀ c ∈ between lines ⟨1, 0⟩ first.start, Lexeme.isSeparator c = true) ∧
      ((scan lines).failure = none → ∃ last ∈ tokens.getLast?,
        ∀ c ∈ t.drop (offset lines last.stop), Lexeme.isSeparator c = true) := by
  obtain ⟨q, covers, -, ends⟩ := (scanFromState_runs {} (newlineLines t)).covers rfl
    (State.holds_of_closed rfl)
  refine ⟨flatten_newlineLines t, fun token mem => ?_, ?_, fun first mem => ?_, fun complete => ?_⟩
  · obtain ⟨place, text⟩ := covers.spans token mem
    exact ⟨place, text.place, text.order, text.eq_between place⟩
  · exact covers.isChain.imp fun a b h => h.2.of_between h.1
  · exact ((covers.head first mem).of_between ⟨Nat.succ_pos _, Nat.zero_le _⟩).2
  · obtain ⟨⟨last, found, rfl⟩, row, stop, blank⟩ := ends complete
    have rest := drop_offset_row (newlineLines t) row
    rw [flatten_newlineLines] at rest
    refine ⟨last, found, ?_⟩
    rw [stop, rest]
    exact separators_of_head blank

end Scan

end Retouch
