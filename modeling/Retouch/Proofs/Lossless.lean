import Retouch.Proofs.ParserRuns
import Retouch.Proofs.Placing

/-!
# Parsing keeps the text

The parser is given each token with all that stands before it (`parseLines_reading`), and since tokens
are laid one after the other no place is ever passed (`parseLines_not_misplaced`).  The leaves of the tree
are then all of the tokens (`parseLines_ok`), and put together they are the text.
-/

namespace Retouch

open List OrderedMap

/-- What the text of programs needs of the tables: a program ends with the end of the text, and no
program has a stray character. -/
structure Grammar.Closed (g : Grammar) : Prop where
  predictive : g.Predictive
  ending : ∀ shape tree, Derives g shape g.start tree →
    ∀ l, tree.leaves.getLast? = some l → l.kind = Kind.endMarker
  stray : get? g.tokens Kind.stray = none

namespace Scan

/-! ## The end of the text -/

variable {before : Text}

variable {lines : List Text} {ps : List Piece} {e : End}

theorem Scans.endMarker {f : Flow} {cs : Text}
    (h : Scans f before cs lines ps e) {ps₁ ps₂ : List Piece} {p : Piece} (hp : ps = ps₁ ++ p :: ps₂)
    (marker : p.kind = Kind.endMarker) : e = .complete ∧ ps₂ = [] := by
  -- pieces that are no markers are passed over
  have skip : ∀ (qs : List Piece) {ps ps₁ : List Piece}, (∀ q ∈ qs, q.kind ≠ Kind.endMarker) →
      qs ++ ps = ps₁ ++ p :: ps₂ → ∃ ps₁', ps = ps₁' ++ p :: ps₂ := by
    intro qs ps ps₁ none eq
    rcases append_eq_append_iff.1 eq with ⟨as, rfl, rest⟩ | ⟨as, rfl, rest⟩
    · exact ⟨as, rest⟩
    · cases as with
      | nil => exact ⟨[], rest.symm⟩
      | cons a as =>
        cases rest
        exact absurd marker (none p (by simp))
  induction h generalizing ps₁ with
  | finish _ =>
    obtain ⟨ps₁', eq⟩ := skip _ (by simp [Kind.dedent, Kind.endMarker]) hp
    cases ps₁' with
    | nil =>
      cases eq
      exact ⟨rfl, rfl⟩
    | cons _ ps₁' =>
      have := congrArg length eq
      simp at this
  | unfinished | misindented | openString => simp at hp
  | inner _ _ ih => exact ih hp
  | blankLine _ _ _ _ ih =>
    obtain ⟨ps₁', eq⟩ := skip _ (fun q hq => by
      rcases blankPieces_kind _ _ q hq with h | h <;> rw [h] <;> decide) hp
    exact ih eq
  | line _ _ _ blocks _ ih =>
    obtain ⟨ps₁', eq⟩ := skip _ (fun q hq => by
      obtain rfl | ⟨_, rfl⟩ := mem_blockPieces blocks q hq <;> nofun) hp
    exact ih eq
  | stray | strayString =>
    obtain ⟨ps₁', eq⟩ := skip [_] (by simp [Kind.stray, Kind.endMarker]) hp
    simp at eq
  | string _ _ _ _ ih =>
    obtain ⟨ps₁', eq⟩ := skip [_] (by simp [Kind.string, Kind.endMarker]) hp
    exact ih eq
  | plain _ _ _ ih =>
    obtain ⟨ps₁', eq⟩ := skip [_] (by simpa using plainKind_ne_endMarker _ _) hp
    exact ih eq

theorem Scans.stray_mem {f : Flow} {cs : Text}
    (h : Scans f before cs lines ps e) (he : e = .stray) : ∃ p ∈ ps, p.kind = Kind.stray := by
  induction h with
  | finish | unfinished | misindented | openString => cases he
  | inner _ _ ih => exact ih he
  | blankLine _ _ _ _ ih | line _ _ _ _ _ ih =>
    obtain ⟨p, hp, stray⟩ := ih he
    exact ⟨p, mem_append_right _ hp, stray⟩
  | stray | strayString => exact ⟨_, mem_singleton_self _, rfl⟩
  | string _ _ _ _ ih | plain _ _ _ ih =>
    obtain ⟨p, hp, stray⟩ := ih he
    exact ⟨p, mem_cons_of_mem _ hp, stray⟩

theorem Scans.laid_scan (h : Scans {} [] [] lines ps e) (hl : ∀ l ∈ lines, IsLine l) :
    ∃ ts more, (scan lines).tokens = ts ++ more ∧ Laid ⟨1, 0⟩ ts ps ∧ (more = [] ∨ e = .stray) := by
  obtain ⟨ts, more, tokens, laid, ending⟩ :=
    h.laid (.inl rfl) hl not_mem_nil {} ⟨rfl, rfl, rfl, rfl, rfl⟩ [] 0 (absurd rfl)
  rw [scanFrom_nil] at tokens
  exact ⟨ts, more, tokens, laid, or_iff_not_imp_right.2 fun complete => (ending complete).1⟩

end Scan

/-! ## What the parser is given -/

def Input.unplaced (t : Input) : Input := { t with start := ⟨0, 0⟩ }

namespace Scan

def Piece.isTrivia (p : Piece) : Bool := p.kind == Kind.comment || p.kind == Kind.lineBreak

/-- The kind by which the parser knows a piece.  A mark that is no operator counts as stray. -/
def Piece.parserKind (p : Piece) : Kind :=
  if p.kind = Kind.operator then (Kind.ofOperator? p.text).getD Kind.stray else p.kind

/-- What the parser is given of pieces, apart from places, if `lead` stands before them. -/
def offered (lead : Text) : List Piece → List Input
  | [] => []
  | p :: ps =>
    if p.isTrivia then offered (lead ++ p.chars) ps
    else ⟨p.parserKind, p.text, lead ++ p.gap, ⟨0, 0⟩⟩ :: offered [] ps

theorem Piece.kind_of_parserKind {p : Piece} (h : p.parserKind = Kind.endMarker) :
    p.kind = Kind.endMarker := by
  unfold parserKind at h
  split at h
  · cases found : Kind.ofOperator? p.text with
    | none => rw [found] at h; cases h
    | some k =>
      rw [found] at h
      have all : ∀ e ∈ Kind.operators, e.2 ≠ .endMarker := by decide
      exact absurd h (all (p.text, k) (mem_of_get? found))
  · exact h

theorem offered_split {lead : Text} {ps : List Piece} {a b : List Input} {t : Input}
    (h : offered lead ps = a ++ t :: b) :
    ∃ ps₁ p ps₂, ps = ps₁ ++ p :: ps₂ ∧ p.parserKind = t.kind ∧ offered [] ps₂ = b := by
  induction ps generalizing lead a with
  | nil => cases a <;> cases h
  | cons p ps ih =>
    unfold offered at h
    split at h
    · obtain ⟨ps₁, q, ps₂, rfl, found⟩ := ih h
      exact ⟨p :: ps₁, q, ps₂, rfl, found⟩
    · cases a with
      | nil =>
        cases h
        exact ⟨[], p, ps, rfl, rfl, rfl⟩
      | cons _ a =>
        obtain ⟨ps₁, q, ps₂, rfl, found⟩ := ih (cons.inj h).2
        exact ⟨p :: ps₁, q, ps₂, rfl, found⟩

theorem offered_text (lead : Text) (ps : List Piece) {p : Piece} (h : p.isTrivia = false) :
    (offered lead (ps ++ [p])).flatMap (fun t => t.lead ++ t.value) =
      lead ++ (ps ++ [p]).flatMap Piece.chars := by
  induction ps generalizing lead with
  | nil => simp [offered, h, Piece.chars]
  | cons q ps ih =>
    rw [cons_append, offered]
    split
    · rw [ih]
      simp
    · rw [flatMap_cons, ih]
      simp [Piece.chars]

theorem offered_unplaced (lead : Text) (ps : List Piece) :
    (offered lead ps).map Input.unplaced = offered lead ps := by
  induction ps generalizing lead with
  | nil => rfl
  | cons p ps ih =>
    unfold offered
    split
    · exact ih _
    · rw [map_cons, ih]
      rfl

end Scan

namespace Parser

variable {g : Grammar} {shape : Shape}

theorem addToken_stray (hg : get? g.tokens Kind.stray = none) {t : Input}
    (ht : t.kind = Kind.stray) (shape : Shape) (s : State) :
    ∃ e s', addToken g shape t s = (.error e, s') := by
  unfold addToken
  have none : classify g t = none := by
    simp only [classify]
    rwa [ht]
  split
  · exact ⟨_, _, rfl⟩
  · simp only [none]
    exact ⟨_, _, rfl⟩

theorem accepts_stray (hg : get? g.tokens Kind.stray = none) {t : Input}
    (ht : t.kind = Kind.stray) (ins : List Input) (s : State) :
    accepts g shape (t :: ins) s = none := by
  obtain ⟨e, s', err⟩ := addToken_stray hg ht shape s
  rw [accepts, err]

end Parser

namespace Source

open Scan (Laid Piece)

theorem moveTo_eq {c : Cursor} {t : Token} {gap : Text}
    (start : t.start = ⟨c.place.row, c.place.column + gap.length⟩)
    (hgap : (t.line.drop c.place.column).take gap.length = gap) :
    c.moveTo t = .ok ⟨t.start, c.lead ++ gap⟩ := by
  unfold Cursor.moveTo
  by_cases none : gap = []
  · rw [none, length_nil, Nat.add_zero] at start
    rw [if_pos start, start, none, append_nil]
  · have pos := length_pos_iff.2 none
    have moved : t.start ≠ c.place := by
      rw [start]
      intro same
      have := congrArg Position.column same
      simp only at this
      omega
    have forward : c.place.le t.start = true := by
      rw [start]
      simp [Position.le]
    rw [if_neg moved, if_neg (by simp [forward])]
    simp [start, hgap, Text.repeated]

variable {g : Grammar} {shape : Shape}

theorem parserKind_eq {t : Token} {p : Piece} (kind : t.kind = p.kind) (text : t.text = p.text) :
    parserKind t = .ok p.parserKind ∨
      p.parserKind = Kind.stray ∧ parserKind t = .error (.unknownOperator t.text) := by
  unfold parserKind Piece.parserKind
  rw [kind, text]
  split
  · cases Kind.ofOperator? p.text with
    | none => exact .inr ⟨rfl, rfl⟩
    | some k => exact .inl rfl
  · exact .inl rfl

variable {ps : List Piece}

theorem parseFrom_laid (hg : get? g.tokens Kind.stray = none)
    {failure : Option ScanError} {ts more : List Token} {cursor : Cursor}
    (laid : Laid cursor.place ts ps) (rest : more = [] ∨ ∃ p ∈ ps, p.kind = Kind.stray) :
    ∃ ins : List Input, ins.map Input.unplaced = Scan.offered cursor.lead ps ∧ ∀ state last,
      (∀ a b, (parseFrom g shape failure state cursor last (ts ++ more)).result ≠
        .error (.misplaced a b)) ∧
      (parseFrom g shape failure state cursor last (ts ++ more)).result.toOption =
        (Parser.accepts g shape ins state).map (Parser.State.source g) := by
  induction ts generalizing cursor ps with
  | nil =>
    cases laid
    rcases rest with rfl | ⟨p, hp, _⟩
    · refine ⟨[], rfl, fun state last => ?_⟩
      unfold parseFrom
      simp only [append_nil]
      split <;> exact ⟨by rintro _ _ ⟨⟩, rfl⟩
    · cases hp
  | cons t ts ih =>
    cases laid with
    | @cons _ _ piece _ ps stands laid =>
    obtain ⟨kind, text, start, gap, -, -⟩ := stands
    have same : isTrivia t = piece.isTrivia := by rw [isTrivia, kind, Piece.isTrivia]
    have onward : piece.kind ≠ .stray → (more = [] ∨ ∃ p ∈ ps, p.kind = .stray) := by
      refine fun other => rest.imp_right ?_
      rintro ⟨p, hp, stray⟩
      rcases mem_cons.1 hp with rfl | hp
      · exact absurd stray other
      · exact ⟨p, hp, stray⟩
    by_cases trivia : piece.isTrivia = true
    · have other : piece.kind ≠ .stray := by
        intro stray
        rw [Piece.isTrivia, stray] at trivia
        cases trivia
      obtain ⟨ins, given, read⟩ := @ih ps ⟨placeAfter t, cursor.lead ++ piece.gap ++ t.text⟩ laid (onward other)
      refine ⟨ins, ?_, fun state last => ?_⟩
      · rw [given, Scan.offered, if_pos trivia, text, Piece.chars, append_assoc]
      · rw [cons_append, parseFrom, moveTo_eq start gap]
        simp only
        rw [if_pos (same.trans trivia)]
        exact read state _
    · let input : Input := ⟨piece.parserKind, t.text, cursor.lead ++ piece.gap, t.start⟩
      have given : ∀ ins : List Input, ins.map .unplaced = Scan.offered [] ps →
          (input :: ins).map .unplaced = Scan.offered cursor.lead (piece :: ps) := by
        intro ins h
        rw [map_cons, h, Scan.offered, if_neg (by simp [trivia]), ← text]
        rfl
      by_cases stray : piece.parserKind = .stray
      · refine ⟨input :: Scan.offered [] ps, given _ (Scan.offered_unplaced _ _), fun state last => ?_⟩
        rw [Parser.accepts_stray hg stray, cons_append, parseFrom, moveTo_eq start gap]
        simp only [same, trivia]
        rcases parserKind_eq kind text with known | ⟨_, unknown⟩
        · obtain ⟨e, s', err⟩ := Parser.addToken_stray hg (t := input) stray shape state
          rw [known]
          simp only
          rw [err]
          exact ⟨by rintro _ _ ⟨⟩, rfl⟩
        · rw [unknown]
          exact ⟨by rintro _ _ ⟨⟩, rfl⟩
      · have other : piece.kind ≠ .stray := fun hs => stray (by rw [Piece.parserKind, hs]; rfl)
        have known := (parserKind_eq kind text).resolve_right fun h => stray h.1
        obtain ⟨ins, given', read⟩ := @ih ps ⟨placeAfter t, []⟩ laid (onward other)
        refine ⟨input :: ins, given ins given', fun state last => ?_⟩
        rw [cons_append, parseFrom, moveTo_eq start gap]
        simp only [same, trivia, known, Parser.accepts]
        cases ha : Parser.addToken g shape input state with
        | mk r state' =>
        cases r with
        | error e => exact ⟨by rintro _ _ ⟨⟩, rfl⟩
        | ok done =>
          cases done with
          | true => exact ⟨by rintro _ _ ⟨⟩, rfl⟩
          | false => exact read state' input

/-- The state of the parser before the first token, if the tables have a start. -/
def begun? (g : Grammar) : Option Parser.State :=
  match Parser.setUp g none {} with
  | (.ok (), s) => some s
  | (.error _, _) => none

variable {lines : List Text}

/-- What is known of the parse of lines: the parser is given a reading, piece by piece. -/
theorem parseLines_reading (hg : get? g.tokens Kind.stray = none) (shape : Shape)
    (hl : ∀ l ∈ lines, Scan.IsLine l) {e : Scan.End}
    (scans : Scan.Scans {} [] [] lines ps e) :
    ∃ ins : List Input, ins.map Input.unplaced = Scan.offered [] ps ∧
      (∀ a b, parseLines g shape lines ≠ .error (.misplaced a b)) ∧
      (parseLines g shape lines).toOption =
        ((begun? g).bind (Parser.accepts g shape ins)).map (Parser.State.source g) := by
  obtain ⟨ts, more, tokens, laid, rest⟩ := scans.laid_scan hl
  obtain ⟨ins, given, read⟩ := @parseFrom_laid _ shape ps hg (scan lines).failure
    ts more {} laid (rest.imp_right scans.stray_mem)
  refine ⟨ins, given, ?_⟩
  unfold parseLines parseScan begun?
  cases Parser.setUp g none {} with
  | mk r state =>
  cases r with
  | error e => exact ⟨nofun, rfl⟩
  | ok _ =>
    rw [tokens]
    exact read _ _

/-- No token of lines is found before the place that the text has reached. -/
theorem parseLines_not_misplaced (hg : get? g.tokens Kind.stray = none) (shape : Shape)
    (hl : ∀ l ∈ lines, Scan.IsLine l) (reached start : Position) :
    parseLines g shape lines ≠ .error (.misplaced reached start) := by
  obtain ⟨ps, e, scans⟩ := Scan.exists_scans {} [] [] lines (.inl rfl) hl (fun _ => rfl)
  obtain ⟨_, _, placed, _⟩ := parseLines_reading hg shape hl scans
  exact placed reached start

theorem text_of_leaves {tree : SyntaxTree} {ins : List Input}
    (h : tree.leaves = ins.map Input.token) :
    tree.text = (ins.map Input.unplaced).flatMap fun t => t.lead ++ t.value := by
  rw [Tree.text_eq_leaves, h, map_map, flatMap_map]
  rfl

theorem tree_of_accepts (hg : g.Closed) (hl : ∀ l ∈ lines, Scan.IsLine l) {e : Scan.End}
    (scans : Scan.Scans {} [] [] lines ps e) {lead : Text} {ins : List Input}
    (given : ins.map Input.unplaced = Scan.offered lead ps) {s : Source}
    (h : ((begun? g).bind (Parser.accepts g shape ins)).map (Parser.State.source g) = some s) :
    e = .complete ∧ Derives g shape g.start s.tree ∧ s.tree.text = lead ++ lines.flatten ∧
      s.tree.leaves = ins.map Input.token := by
  obtain ⟨s', accepted, rfl⟩ := Option.map_eq_some_iff.1 h
  obtain ⟨s₀, begun, accepted⟩ := Option.bind_eq_some_iff.1 accepted
  have setUp : Parser.setUp g none {} = (.ok (), s₀) := by
    unfold begun? at begun
    split at begun <;> cases begun
    assumption
  obtain ⟨sound, ready⟩ := @Parser.setUp_sound g shape _ _ _ setUp
  obtain ⟨a, t, b, tree, rfl, root, derived, leaves, -⟩ :=
    Parser.accepts_sound hg.predictive sound ready accepted
  -- the last token marks the end of the text, so that nothing comes after it
  have marker := hg.ending shape tree derived t.token (by rw [leaves, map_append]; exact getLast?_concat)
  obtain ⟨ps₁, p, _, rfl, kind, after⟩ :=
    Scan.offered_split (given.symm.trans (by rw [map_append, map_cons]))
  have hp := Piece.kind_of_parserKind (kind.trans marker)
  obtain ⟨rfl, rfl⟩ := scans.endMarker rfl hp
  have nothing := map_eq_nil_iff.1 after.symm
  subst nothing
  have tree_eq : (s'.source g).tree = tree := by rw [Parser.State.source, root]; rfl
  refine ⟨rfl, tree_eq ▸ derived, ?_, tree_eq ▸ leaves⟩
  rw [tree_eq, text_of_leaves leaves, given,
    Scan.offered_text lead ps₁ (by rw [Piece.isTrivia, hp]; rfl)]
  exact congrArg (lead ++ ·) (scans.text (.inl rfl) hl rfl).symm

/-- The tree of parsed lines derives from the start, and its leaves are a whole reading of the
lines. -/
theorem parseLines_ok (hg : g.Closed) (hl : ∀ l ∈ lines, Scan.IsLine l) {s : Source}
    (h : parseLines g shape lines = .ok s) :
    Derives g shape g.start s.tree ∧ s.tree.text = lines.flatten ∧
    ∃ ps ins, Scan.Scans {} [] [] lines ps .complete ∧
      ins.map Input.unplaced = Scan.offered [] ps ∧ s.tree.leaves = ins.map Input.token ∧
      ((begun? g).bind (Parser.accepts g shape ins)).map (Parser.State.source g) = some s := by
  obtain ⟨ps, e, scans⟩ := Scan.exists_scans {} [] [] lines (.inl rfl) hl (fun _ => rfl)
  obtain ⟨ins, given, _, parsed⟩ := parseLines_reading hg.stray shape hl scans
  rw [h] at parsed
  obtain ⟨rfl, derived, text, leaves⟩ := tree_of_accepts hg hl scans given parsed.symm
  exact ⟨derived, text, ps, ins, scans, given, leaves, parsed.symm⟩

end Source

end Retouch
