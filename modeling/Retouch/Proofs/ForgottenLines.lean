import Retouch.Proofs.ScanSteps

/-!
# What a scan keeps of the lines that it has read

Scanning knows its place only by the row, so lines that are read further down give the same tokens
further down (`Scan.scanFromState_lower`).  Where no string or bracket is open and no line has to go on,
the lines read so far matter for the later ones through the blocks that are open, and through one thing
more: whether a string over several lines was given up because a line of it did not end in a backslash.
The state still says then that strings have to go on, and a string in three quotes is given up at its
second line.  What follows is the same after two texts if and only if this is (`Scan.scan_forgets_iff`).
-/

namespace Retouch

open List

def Position.lower (k : Nat) (p : Position) : Position := ⟨k + p.row, p.column⟩

def Token.lower (k : Nat) (t : Token) : Token :=
  { t with start := t.start.lower k, stop := t.stop.lower k }

def ScanError.lower (k : Nat) : ScanError → ScanError
  | openString start => openString (start.lower k)
  | openStatement at_ => openStatement (at_.lower k)
  | unindent at_ line => unindent (at_.lower k) line

namespace Scan

def lower (k : Nat) (s : Scan) : Scan := ⟨s.tokens.map (.lower k), s.failure.map (.lower k)⟩

def State.lower (k : Nat) (s : State) : State :=
  { s with
    row := k + s.row
    opened := s.opened.map fun string => { string with start := string.start.lower k } }

def Outcome.lower (k : Nat) : Outcome → Outcome
  | next s => next (s.lower k)
  | finish => finish
  | fail e => fail (e.lower k)

/-! ## Further down -/

theorem scanFrom_lower (k : Nat) (line : Text) (s : State) (col : Nat) (cs : Text) :
    scanFrom line (s.lower k) col cs =
      ((scanFrom line s col cs).1.map (.lower k), (scanFrom line s col cs).2.lower k) := by
  induction cs using Lexeme.lexeme_induction generalizing s col with
  | nil => rw [scanFrom_nil, scanFrom_nil, map_nil]
  | stray c cs none ih =>
    rw [scanFrom, scanFrom, none]
    exact congrArg (fun r => (_ :: r.1, r.2)) (ih s _)
  | lexeme gap x rest lexes later =>
    rw [scanFrom_lexes lexes, scanFrom_lexes lexes]
    split
    · split
      · exact congrArg (fun r => (_ :: r.1, r.2)) (later _ (drop_suffix _ _) s _)
      · rfl
    · split
      · split
        · rfl
        · exact congrArg (fun r => (_ :: r.1, r.2)) (later _ suffix_rfl s _)
      · exact congrArg (fun r => (_ :: r.1, r.2)) (later _ suffix_rfl (s.past x) _)

theorem blankLineTokens_lower (k row col : Nat) (line rest : Text) :
    blankLineTokens (k + row) col line rest = (blankLineTokens row col line rest).map (.lower k) := by
  unfold blankLineTokens
  split <;> rfl

theorem blockTokens_lower (k row col column : Nat) (line : Text) (indents : List Nat) :
    blockTokens (k + row) col column line indents =
      ((blockTokens row col column line indents).mapError (.lower k)).map (Prod.map (map (.lower k)) id) := by
  unfold blockTokens
  split_ifs
  · rfl
  · exact congrArg (fun ts => Except.ok (ts, _)) (by rw [map_map]; rfl)
  · rfl
  · rfl

theorem scanLine_lower (k : Nat) (s : State) (line : Text) :
    scanLine (s.lower k) line = Prod.map (map (.lower k)) (.lower k) (scanLine s line) := by
  obtain ⟨row, depth, continued, _ | string, must, indents⟩ := s
  · unfold scanLine State.lower
    dsimp only [Option.map_none]
    split
    · split
      · rfl
      · split
        · rfl
        · split
          · exact congrArg (·, _) (blankLineTokens_lower k (row + 1) _ _ _)
          · rw [Nat.add_assoc, blockTokens_lower]
            cases blockTokens (row + 1) _ _ line indents with
            | error => rfl
            | ok r =>
              have rest := scanFrom_lower k line ⟨row + 1, depth, continued, none, must, r.2⟩
              refine (congrArg (fun x => (_ ++ x.1, Outcome.next x.2)) (rest _ _)).trans ?_
              exact congrArg (·, _) map_append.symm
    · split
      · rfl
      · exact congrArg (fun r => (r.1, Outcome.next r.2))
          (scanFrom_lower k line ⟨row + 1, depth, false, none, must, indents⟩ 0 line)
  · unfold scanLine State.lower
    dsimp only [Option.map_some]
    split
    · rfl
    · split
      · exact congrArg (fun r => (_ :: r.1, Outcome.next r.2))
          (scanFrom_lower k line ⟨row + 1, depth, continued, none, false, indents⟩ _ _)
      · split <;> rfl

theorem scanFromState_lower (k : Nat) (s : State) (lines : List Text) :
    scanFromState (s.lower k) lines = (scanFromState s lines).lower k := by
  induction lines generalizing s with
  | nil =>
    rw [scanFromState, scanFromState, scanLine_lower]
    rcases scanLine s [] with ⟨ts, _ | _ | _⟩
    · rfl
    · simp [lower, Outcome.lower, closingTokens, State.lower, Token.lower, Position.lower, Nat.add_assoc]
    · rfl
  | cons line lines ih =>
    rw [scanFromState, scanFromState, scanLine_lower]
    rcases scanLine s line with ⟨ts, s' | _ | _⟩
    · simp [lower, Outcome.lower, ih]
    · simp [lower, Outcome.lower, closingTokens, State.lower, Token.lower, Position.lower, Nat.add_assoc]
    · rfl

/-! ## Lines that are read -/

/-- Scanning the lines gives the tokens and leads to a state. -/
inductive Passes : State → List Text → List Token → State → Prop
  | nil {s : State} : Passes s [] [] s
  | next {s s' s'' : State} {line : Text} {lines : List Text} {ts us : List Token}
      (step : scanLine s line = (ts, .next s')) (rest : Passes s' lines us s'') :
      Passes s (line :: lines) (ts ++ us) s''

variable {s s' : State} {ts us : List Token}

theorem Passes.row {lines : List Text} (h : Passes s lines us s') : s'.row = lines.length + s.row := by
  induction h with
  | nil => exact (Nat.zero_add _).symm
  | @next s _ _ line _ _ _ step _ ih =>
    have first := scanLine_lineStep s line
    rw [step] at first
    rw [ih, first.row, length_cons]
    omega

theorem Passes.scan_append {read : List Text} (h : Passes s read us s') (lines : List Text) :
    scanFromState s (read ++ lines) = resume (us, s') lines := by
  induction h with
  | nil => rfl
  | next step _ ih =>
    rw [cons_append, scanFromState_next step, resume, ih]
    simp [resume]

/-! ## Between statements -/

def following (ts : List Token) (s : Scan) : Scan := ⟨ts ++ s.tokens, s.failure⟩

/-- No string or bracket is open and no line has to go on. -/
structure State.Rests (s : State) : Prop where
  opened : s.opened = none
  depth : s.depth = 0
  continued : s.continued = false

/-- A line that opens a string. -/
def quotes : Text := ['\'', '\'', '\'', '\n']

theorem blockTokens_zero (row : Nat) (line : Text) (indents : List Nat) :
    ∃ r, blockTokens row 0 0 line indents = .ok r := by
  unfold blockTokens
  rw [if_neg (Nat.not_lt_zero _)]
  split
  · exact ⟨_, if_pos (.inl rfl)⟩
  · exact ⟨_, rfl⟩

theorem scanFrom_quotes (s : State) : scanFrom quotes s 0 quotes =
    ([], s.opening ⟨quotes, ⟨s.row, 0⟩, quotes, .triple '\''⟩ s.mustContinue) := by
  have lexes : Lexeme.Lexes [] ['\'', '\'', '\''] ['\n'] := ⟨nofun, by decide, rfl⟩
  exact scanFrom_lexes lexes quotes s 0

theorem scanLine_quotes (h : s.Rests) : ∃ ts indents, scanLine s quotes = (ts, .next
    ({ s.onRow with indents }.opening ⟨quotes, ⟨s.row + 1, 0⟩, quotes, .triple '\''⟩ s.mustContinue)) := by
  obtain ⟨⟨blocks, indents⟩, opens⟩ := blockTokens_zero (s.row + 1) quotes s.indents
  have blanks : leadingBlanks 0 0 quotes = (0, 0) := rfl
  have statement : isBlankRest quotes = false := rfl
  have begins : quotes ≠ [] := nofun
  refine ⟨blocks, indents, ?_⟩
  simp [scanLine, h.opened, h.depth, h.continued, blanks, opens, statement, begins, scanFrom_quotes, State.onRow]

theorem failure_quotes (h : s.Rests) :
    (scanFromState s [quotes, ['\n']]).failure = none ↔ s.mustContinue = true := by
  obtain ⟨ts, indents, step⟩ := scanLine_quotes h
  have found : (Lexeme.Closing.triple '\'').find? ['\n'] = none := by decide
  rw [scanFromState_next step, resume]
  generalize hs : State.opening { s.onRow with indents } _ s.mustContinue = s'
  have opened : s'.opened = some ⟨quotes, ⟨s.row + 1, 0⟩, quotes, .triple '\''⟩ := hs ▸ rfl
  have must : s'.mustContinue = s.mustContinue := hs ▸ rfl
  have depth : s'.depth = 0 := hs ▸ h.depth
  have continued : s'.continued = false := hs ▸ h.continued
  cases hm : s.mustContinue with
  | true =>
    have stops := scanLine_stops opened (by simp : ['\n'] ≠ []) found (by rw [must, hm]; rfl)
    rw [scanFromState_next stops]
    simp [resume, scanFromState, scanLine, State.onRow, depth, continued]
  | false =>
    have goesOn := scanLine_goesOn opened (by simp : ['\n'] ≠ []) found (by rw [must, hm]; decide)
    rw [scanFromState_next goesOn]
    simp [resume, scanFromState, scanLine, State.goOn]

theorem Passes.adds {read : List Text} (h : Passes {} read ts s) (closed : s.opened = none)
    (lines : List Text) :
    scan (read ++ lines) = ((scanFromState { s with row := 0 } lines).lower read.length).following ts := by
  have top : State.lower read.length { s with row := 0 } = s := by
    have row : s.row = read.length + 0 := h.row
    rw [State.lower, ← row, closed, Option.map_none, ← closed]
  rw [← scanFromState_lower, top]
  exact h.scan_append lines

/-- **Between statements a scan forgets all but one thing.**  After two texts with the same blocks open
it gives the same tokens, or fails in the same way, for all lines that can follow, if and only if it
remembers the same of strings that had to go on. -/
theorem scan_forgets_iff {read₁ read₂ : List Text} {ts₁ ts₂ : List Token} {s₁ s₂ : State}
    (first : Passes {} read₁ ts₁ s₁) (second : Passes {} read₂ ts₂ s₂) (rests₁ : s₁.Rests)
    (rests₂ : s₂.Rests) (blocks : s₁.indents = s₂.indents) :
    (∀ lines, ∃ given : Scan,
      scan (read₁ ++ lines) = (given.lower read₁.length).following ts₁ ∧
      scan (read₂ ++ lines) = (given.lower read₂.length).following ts₂) ↔
    s₁.mustContinue = s₂.mustContinue := by
  constructor
  · intro same
    obtain ⟨given, eq₁, eq₂⟩ := same [quotes, ['\n']]
    have fails₁ := congrArg (·.failure = none) ((first.scan_append _).symm.trans eq₁)
    have fails₂ := congrArg (·.failure = none) ((second.scan_append _).symm.trans eq₂)
    simp only [resume, following, lower, Option.map_eq_none_iff, failure_quotes rests₁,
      failure_quotes rests₂] at fails₁ fails₂
    rw [Bool.eq_iff_iff, fails₁, fails₂]
  · intro same lines
    have top : ({ s₁ with row := 0 } : State) = { s₂ with row := 0 } := by
      rw [blocks, same, rests₁.opened, rests₁.depth, rests₁.continued, rests₂.opened, rests₂.depth,
        rests₂.continued]
    refine ⟨_, first.adds rests₁.opened lines, ?_⟩
    rw [top]
    exact second.adds rests₂.opened lines

def givenUp : List Text := [['\'', '\\', '\n'], ['\n']]

/-- After a string that was given up the lines that follow do not give what they give alone. -/
theorem scan_forgets_iff_givenUp : ∃ ts s, Passes {} givenUp ts s ∧ s.Rests ∧ s.indents = [] ∧
    ¬ ∀ lines, ∃ given : Scan, scan (givenUp ++ lines) = (given.lower 2).following ts ∧
      scan lines = (given.lower 0).following [] := by
  have opens : scanLine {} ['\'', '\\', '\n'] = ([], .next ⟨1, 0, false,
      some ⟨['\'', '\\', '\n'], ⟨1, 0⟩, ['\'', '\\', '\n'], .single '\''⟩, true, []⟩) := by decide +kernel
  have passes : Passes {} givenUp _ _ :=
    .next opens (.next (scanLine_stops rfl nofun (by decide) (by decide)) .nil)
  exact ⟨_, _, passes, ⟨rfl, rfl, rfl⟩, rfl,
    mt (scan_forgets_iff passes .nil ⟨rfl, rfl, rfl⟩ ⟨rfl, rfl, rfl⟩ rfl).1 (by decide)⟩

end Scan

end Retouch
