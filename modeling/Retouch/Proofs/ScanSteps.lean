import Retouch.Proofs.Placing

/-!
# Steps of the scanner

What scanning does, said once.  Along a line each step takes a stray character, a string, the rest of
the line as the beginning of a string, or another lexeme (`RowSteps`).  A line goes on with an open
string, has no statement, begins a statement or goes on with one; or the text ends there, or scanning
fails (`LineStep`).  Every scan is made of such steps, whether it fails or not (`scanFromState_runs`), and
so it is known what its tokens can be (`scan_made`).
-/

namespace Retouch.Scan

open List

open Lexeme (Lexes)

/-! ## Along a line -/

/-- Scanning the characters of a line from a column on gives the tokens and leads to a state. -/
inductive RowSteps (line : Text) : State → Nat → Text → List Token → State → Prop
  | done {s : State} {col : Nat} : RowSteps line s col [] [] s
  | stray {s s' : State} {col : Nat} {c : Char} {cs : Text} {ts : List Token}
      (none : Lexeme.next? (c :: cs) = none) (rest : RowSteps line s (col + 1) cs ts s') :
      RowSteps line s col (c :: cs)
        (⟨Kind.stray, [c], ⟨s.row, col⟩, ⟨s.row, col + 1⟩, line⟩ :: ts) s'
  /-- A string that is closed on the line after `more` characters. -/
  | string {s s' : State} {col stop : Nat} {gap x more cs : Text} {ts : List Token}
      (lexes : Lexes gap x (more ++ cs)) (isString : isString x = true)
      (closed : stringFrom x (more ++ cs) [] = .closed more cs [])
      (size : stop = col + gap.length + (x ++ more).length) (rest : RowSteps line s stop cs ts s') :
      RowSteps line s col (gap ++ (x ++ (more ++ cs)))
        (⟨Kind.string, x ++ more, ⟨s.row, col + gap.length⟩, ⟨s.row, stop⟩, line⟩ :: ts) s'
  /-- A string that goes on in the next line. -/
  | opening {s : State} {col : Nat} {gap x cs : Text} (must : Bool) (lexes : Lexes gap x cs)
      (isString : isString x = true) :
      RowSteps line s col (gap ++ (x ++ cs)) []
        (s.opening ⟨x ++ cs, ⟨s.row, col + gap.length⟩, line, closingOf x⟩ must)
  | plain {s s' : State} {col stop : Nat} {gap x cs : Text} {ts : List Token} (lexes : Lexes gap x cs)
      (isString : isString x = false) (size : stop = col + gap.length + x.length)
      (rest : RowSteps line (s.past x) stop cs ts s') :
      RowSteps line s col (gap ++ (x ++ cs))
        (⟨plainKind s.depth x, x, ⟨s.row, col + gap.length⟩, ⟨s.row, stop⟩, line⟩ :: ts) s'

theorem scanFrom_rowSteps (line : Text) (s : State) (col : Nat) (cs : Text) :
    RowSteps line s col cs (scanFrom line s col cs).1 (scanFrom line s col cs).2 := by
  induction cs using Lexeme.lexeme_induction generalizing s col with
  | nil =>
    rw [scanFrom]
    exact .done
  | stray c cs none ih =>
    rw [scanFrom, none]
    exact .stray none (ih s _)
  | lexeme gap x rest lexes later =>
    rw [scanFrom_lexes lexes]
    cases triple : isTripleOpening x with
    | true =>
      have isString := isString_of_triple triple
      cases closed : (closingOf x).find? rest with
      | none => exact .opening s.mustContinue lexes isString
      | some n =>
        have bound := Lexeme.Closing.find?_le closed
        have after := later (rest.drop n) (drop_suffix n rest) s (col + gap.length + x.length + n)
        conv in gap ++ (x ++ rest) => rw [← take_append_drop n rest]
        refine .string (by rwa [take_append_drop]) isString ?_ ?_ after
        · rw [take_append_drop, stringFrom, if_pos triple, closed]
        · rw [length_append, length_take_of_le bound, Nat.add_assoc]
    | false =>
      simp only [Bool.false_eq_true, if_false]
      cases isString : isString x with
      | true =>
        simp only [if_true]
        split
        · exact .opening true lexes isString
        · rename_i closed
          have alone : stringFrom x rest [] = .closed [] rest [] := by
            rw [stringFrom, triple, if_neg Bool.false_ne_true, if_neg closed]
          have step : RowSteps line s col (gap ++ (x ++ ([] ++ rest))) _ _ :=
            .string lexes isString alone rfl (later rest suffix_rfl s _)
          simpa only [append_nil, nil_append] using step
      | false =>
        exact .plain lexes isString rfl (later rest suffix_rfl _ _)

variable {col : Nat} {cs line : Text} {s s' : State} {ts : List Token}

theorem RowSteps.same (h : RowSteps line s col cs ts s') : s'.row = s.row ∧ s'.indents = s.indents := by
  induction h with
  | done | opening => exact ⟨rfl, rfl⟩
  | stray _ _ ih | string _ _ _ _ _ ih | plain _ _ _ _ ih => exact ih

/-! ## From line to line -/

/-- What scanning a line, or the end of the text if the line is empty, does from a state. -/
inductive LineStep (s : State) : Text → List Token → Outcome → Prop
  | openString {string : OpenString} (opened : s.opened = some string) :
      LineStep s [] [] (.fail (.openString string.start))
  /-- A string is closed after `front`. -/
  | closes {string : OpenString} {front rest : Text} {ts : List Token} {s' : State}
      (opened : s.opened = some string) (taken : front ≠ [])
      (found : string.closing.find? (front ++ rest) = some front.length)
      (tokens : RowSteps (front ++ rest) { s.onRow with opened := none, mustContinue := false }
        front.length rest ts s') :
      LineStep s (front ++ rest) (⟨Kind.string, string.text ++ front, string.start,
        ⟨s.row + 1, front.length⟩, string.lines ++ (front ++ rest)⟩ :: ts) (.next s')
  /-- A string stops where it had to go on. -/
  | stops {string : OpenString} {line : Text} (opened : s.opened = some string) (taken : line ≠ [])
      (must : s.mustContinue = true) :
      LineStep s line
        [⟨Kind.stray, string.text ++ line, string.start, ⟨s.row + 1, line.length⟩, string.lines⟩]
        (.next { s.onRow with opened := none })
  | goesOn {string : OpenString} {line : Text} (opened : s.opened = some string) :
      LineStep s line [] (.next (s.goOn string line))
  /-- The text ends between statements, with blanks or none on its last line. -/
  | finish {line : Text} (closed : s.opened = none) (depth : s.depth = 0)
      (blank : ∀ c ∈ line, Lexeme.isSeparator c = true) : LineStep s line [] .finish
  | blank {blanks rest : Text} (closed : s.opened = none) (depth : s.depth = 0)
      (separators : ∀ c ∈ blanks, Lexeme.isSeparator c = true) (blank : isBlankRest rest = true) :
      LineStep s (blanks ++ rest) (blankLineTokens (s.row + 1) blanks.length (blanks ++ rest) rest)
        (.next s.onRow)
  /-- A line is indented like no block around it. -/
  | misindented {line : Text} {e : ScanError} (closed : s.opened = none) : LineStep s line [] (.fail e)
  | statement {blanks rest : Text} {column : Nat} {indents : List Nat} {blocks ts : List Token}
      {s' : State} (closed : s.opened = none) (depth : s.depth = 0) (more : rest ≠ [])
      (indented : leadingBlanks 0 0 (blanks ++ rest) = (blanks.length, column))
      (opens : blockTokens (s.row + 1) blanks.length column (blanks ++ rest) s.indents =
        .ok (blocks, indents))
      (tokens : RowSteps (blanks ++ rest) { s.onRow with indents } blanks.length rest ts s') :
      LineStep s (blanks ++ rest) (blocks ++ ts) (.next s')
  | openStatement (closed : s.opened = none) :
      LineStep s [] [] (.fail (.openStatement ⟨s.row + 1, 0⟩))
  | inner {line : Text} {ts : List Token} {s' : State} (closed : s.opened = none)
      (tokens : RowSteps line { s.onRow with continued := false } 0 line ts s') :
      LineStep s line ts (.next s')

theorem LineStep.row (h : LineStep s line ts (.next s')) : s'.row = s.row + 1 := by
  cases h with
  | closes _ _ _ tokens | statement _ _ _ _ _ tokens | inner _ tokens => exact tokens.same.1
  | stops | goesOn | blank => rfl

theorem scanLine_lineStep (s : State) (line : Text) :
    LineStep s line (scanLine s line).1 (scanLine s line).2 := by
  unfold scanLine
  simp only
  split
  · rename_i string opened
    split
    · rename_i empty
      rw [empty]
      exact .openString opened
    · rename_i taken
      split
      · rename_i n found
        have bound := Lexeme.Closing.find?_le found
        have size := length_take_of_le bound
        have tokens := scanFrom_rowSteps line { s.onRow with opened := none, mustContinue := false } n
          (line.drop n)
        have step : LineStep s (line.take n ++ line.drop n) _ _ :=
          .closes opened (Lexeme.Closing.take_ne_nil found) (by rw [take_append_drop, size, found])
            (by rwa [take_append_drop, size])
        rwa [take_append_drop, size] at step
      · split
        · rename_i stops
          exact .stops opened taken (Bool.and_eq_true_iff.1 (Bool.and_eq_true_iff.1 stops).1).1
        · exact .goesOn opened
  · rename_i closed
    obtain ⟨_, _, rfl, count, all⟩ := leadingBlanks_spec 0 0 line
    rw [Nat.zero_add] at count
    rw [count, drop_left]
    split
    · rename_i between
      have depth : s.depth = 0 := by simpa using (Bool.and_eq_true_iff.1 between).1
      split
      · rename_i empty
        refine .finish closed depth ?_
        rw [empty]
        exact forall_mem_nil _
      · split
        · rename_i empty
          refine .finish closed depth ?_
          rwa [empty, append_nil]
        · rename_i more
          split
          · rename_i blank
            exact .blank closed depth all blank
          · split
            · exact .misindented closed
            · rename_i opens
              exact .statement closed depth more (Prod.ext count rfl) opens (scanFrom_rowSteps _ _ _ _)
    · split
      · rename_i empty
        rw [empty]
        exact .openStatement closed
      · exact .inner closed (scanFrom_rowSteps _ _ _ _)

/-! ## Whole texts -/

/-- Scanning lines from a state gives the tokens, and the error if it fails. -/
inductive Runs : State → List Text → List Token → Option ScanError → Prop
  | next {s s' : State} {line : Text} {lines : List Text} {ts us : List Token} {e : Option ScanError}
      (step : LineStep s line ts (.next s')) (rest : Runs s' lines us e) :
      Runs s (line :: lines) (ts ++ us) e
  | finish {s : State} {lines : List Text} (closed : s.opened = none) (depth : s.depth = 0)
      (blank : ∀ c ∈ lines.headD [], Lexeme.isSeparator c = true) :
      Runs s lines (closingTokens s) none
  | fail {s : State} {lines : List Text} (e : ScanError) : Runs s lines [] (some e)

theorem LineStep.of_finish (h : LineStep s line ts .finish) : ts = [] ∧ s.opened = none ∧ s.depth = 0 ∧
      Lexeme.IsGap line := by
  cases h with
  | finish closed depth blank => exact ⟨rfl, closed, depth, blank⟩

theorem LineStep.of_fail {e : ScanError} (h : LineStep s line ts (.fail e)) : ts = [] := by
  cases h <;> rfl

theorem scanLine_nil_ne_next (s s' : State) : (scanLine s []).2 ≠ .next s' := by
  unfold scanLine
  simp only [if_true]
  split
  · rintro ⟨⟩
  · split <;> rintro ⟨⟩

/-- Scanning lines is such a run. -/
theorem scanFromState_runs (s : State) (lines : List Text) :
    Runs s lines (scanFromState s lines).tokens (scanFromState s lines).failure := by
  induction lines generalizing s with
  | nil =>
    have step := scanLine_lineStep s []
    have last := scanLine_nil_ne_next s
    unfold scanFromState
    generalize scanLine s [] = r at step last
    obtain ⟨ts, outcome⟩ := r
    cases outcome with
    | next s' => exact absurd rfl (last s')
    | finish =>
      obtain ⟨rfl, closed, depth, blank⟩ := step.of_finish
      exact .finish closed depth blank
    | fail e =>
      cases step.of_fail
      exact .fail e
  | cons line lines ih =>
    have step := scanLine_lineStep s line
    unfold scanFromState
    generalize scanLine s line = r at step
    obtain ⟨ts, outcome⟩ := r
    cases outcome with
    | next s' => exact .next step (ih s')
    | finish =>
      obtain ⟨rfl, closed, depth, blank⟩ := step.of_finish
      exact .finish closed depth blank
    | fail e =>
      cases step.of_fail
      exact .fail e

/-! ## What tokens are made of -/

/-- What a token of a scan can be. -/
inductive Made (t : Token) : Prop
  | loose (kind : t.kind = Kind.stray ∨ t.kind = Kind.comment ∨ t.kind = Kind.lineBreak)
  | mark (kind : t.kind = Kind.dedent ∨ t.kind = Kind.endMarker) (empty : t.text = [])
  | indent (kind : t.kind = Kind.indent) (blank : ∀ c ∈ t.text, Lexeme.isSeparator c = true)
  | string {x more : Text} (kind : t.kind = Kind.string) (text : t.text = x ++ more)
      (begins : isString x = true)
  | plain (depth : Int) (kind : t.kind = plainKind depth t.text)

def Inner (t : Token) : Prop := Made t ∧ t.kind ≠ Kind.endMarker

def State.Quoting (s : State) : Prop :=
  ∀ string, s.opened = some string → ∃ x more, string.text = x ++ more ∧ isString x = true

theorem RowSteps.made (h : RowSteps line s col cs ts s') (quoting : s.Quoting) :
    (∀ t ∈ ts, Inner t) ∧ s'.Quoting := by
  induction h with
  | done => exact ⟨nofun, quoting⟩
  | opening must lexes isString =>
    refine ⟨nofun, ?_⟩
    rintro _ ⟨⟩
    exact ⟨_, _, rfl, isString⟩
  | stray _ _ ih =>
    obtain ⟨later, after⟩ := ih quoting
    exact ⟨forall_mem_cons.2 ⟨⟨.loose (.inl rfl), nofun⟩, later⟩, after⟩
  | string _ isString _ _ _ ih =>
    obtain ⟨later, after⟩ := ih quoting
    exact ⟨forall_mem_cons.2 ⟨⟨.string rfl rfl isString, nofun⟩, later⟩, after⟩
  | plain _ _ _ _ ih =>
    obtain ⟨later, after⟩ := ih quoting
    exact ⟨forall_mem_cons.2 ⟨⟨.plain _ rfl, plainKind_ne_endMarker _ _⟩, later⟩, after⟩

theorem blankLineTokens_made (row col : Nat) (line rest : Text) :
    ∀ t ∈ blankLineTokens row col line rest, Inner t := by
  unfold blankLineTokens
  split
  · exact forall_mem_cons.2 ⟨⟨.loose (.inr (.inl rfl)), nofun⟩,
      forall_mem_singleton.2 ⟨.loose (.inr (.inr rfl)), nofun⟩⟩
  · exact forall_mem_singleton.2 ⟨.loose (.inr (.inr rfl)), nofun⟩

theorem blockTokens_made {row column : Nat} {blanks rest : Text} {indents indents' : List Nat}
    {blocks : List Token} (separators : Lexeme.IsGap blanks)
    (h : blockTokens row blanks.length column (blanks ++ rest) indents = .ok (blocks, indents')) :
    ∀ t ∈ blocks, Inner t := by
  unfold blockTokens at h
  repeat' split at h
  all_goals cases h
  · refine forall_mem_singleton.2 ⟨.indent rfl ?_, nofun⟩
    rwa [take_left]
  · intro t ht
    obtain ⟨_, _, rfl⟩ := mem_map.1 ht
    exact ⟨.mark (.inl rfl) rfl, nofun⟩
  · exact nofun

theorem LineStep.made (h : LineStep s line ts (.next s')) (quoting : s.Quoting) :
    (∀ t ∈ ts, Inner t) ∧ s'.Quoting := by
  cases h with
  | closes opened _ _ tokens =>
    obtain ⟨x, more, eq, isString⟩ := quoting _ opened
    obtain ⟨later, after⟩ := tokens.made nofun
    refine ⟨forall_mem_cons.2 ⟨?_, later⟩, after⟩
    rw [eq, append_assoc]
    exact ⟨.string rfl rfl isString, nofun⟩
  | stops => exact ⟨forall_mem_singleton.2 ⟨.loose (.inl rfl), nofun⟩, nofun⟩
  | @goesOn string line opened =>
    obtain ⟨x, more, eq, isString⟩ := quoting _ opened
    refine ⟨nofun, ?_⟩
    rintro _ ⟨⟩
    exact ⟨x, more ++ line, by simp only [eq, append_assoc], isString⟩
  | blank => exact ⟨blankLineTokens_made _ _ _ _, quoting⟩
  | statement _ _ _ indented opens tokens =>
    obtain ⟨later, after⟩ := tokens.made quoting
    exact ⟨forall_mem_append.2
      ⟨blockTokens_made (leadingBlanks_separators indented) opens, later⟩, after⟩
  | inner _ tokens => exact tokens.made quoting

theorem Runs.made {lines : List Text} {e : Option ScanError} (h : Runs s lines ts e)
    (quoting : s.Quoting) : ∃ front, (∀ t ∈ front, Inner t) ∧
      (ts = front ∧ e ≠ none ∨ ∃ p, ts = front ++ [⟨Kind.endMarker, [], p, p, []⟩] ∧ e = none) := by
  induction h with
  | next step _ ih =>
    obtain ⟨here, after⟩ := step.made quoting
    obtain ⟨front, later, ⟨rfl, broken⟩ | ⟨p, rfl, complete⟩⟩ := ih after
    · exact ⟨_, forall_mem_append.2 ⟨here, later⟩, .inl ⟨rfl, broken⟩⟩
    · exact ⟨_, forall_mem_append.2 ⟨here, later⟩, .inr ⟨p, (append_assoc ..).symm, complete⟩⟩
  | finish =>
    refine ⟨_, fun t ht => ?_, .inr ⟨_, rfl, rfl⟩⟩
    obtain ⟨_, _, rfl⟩ := mem_map.1 ht
    exact ⟨.mark (.inl rfl) rfl, nofun⟩
  | fail => exact ⟨[], nofun, .inl ⟨rfl, nofun⟩⟩

theorem scan_made (lines : List Text) : ∀ t ∈ (scan lines).tokens, Made t := by
  obtain ⟨_, inner, ⟨eq, -⟩ | ⟨p, eq, -⟩⟩ := (scanFromState_runs {} lines).made nofun
  all_goals rw [scan, eq]
  · exact fun t ht => (inner t ht).1
  · exact forall_mem_append.2
      ⟨fun t ht => (inner t ht).1, forall_mem_singleton.2 (.mark (.inr rfl) rfl)⟩

end Retouch.Scan
