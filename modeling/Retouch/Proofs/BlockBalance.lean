import Retouch.Proofs.Programs

/-!
# Blocks are balanced

The tokens of any lines open and close blocks like brackets, and never inside brackets
(`Scan.scan_balanced`): no block is closed that was not opened, blocks that are inside each other are
indented further and further, statements end and blocks open and close only where no bracket is open,
and if scanning does not fail all blocks are closed when the last token marks the end of the text.

What tokens may come next depends on a small state, the depth of brackets and the blocks that are open
(`Scan.Balance`).  Each step of the scanner gives tokens that are allowed there, so all that is said
about tokens follows from what one token does to the balance.
-/

namespace Retouch

open List

namespace Token

def isOpening (t : Token) : Bool :=
  t.kind == Kind.operator && (t.text == ['('] || t.text == ['['] || t.text == ['\x7b'])

def isClosing (t : Token) : Bool :=
  t.kind == Kind.operator && (t.text == [')'] || t.text == [']'] || t.text == ['\x7d'])

def bracketing (t : Token) : Int := [t].countP isOpening - [t].countP isClosing

theorem bracketing_of_kind {t : Token} (h : t.kind ≠ Kind.operator) : t.bracketing = 0 := by
  simp [bracketing, isOpening, isClosing, h]

end Token

namespace Lexeme

def brackets : List Char := ['(', '[', '\x7b', ')', ']', '\x7d']

theorem size?_bracket {c : Char} (h : c ∈ brackets) (cs : Text) : size? (c :: cs) = some 1 := by
  simp only [brackets, mem_cons, not_mem_nil, or_false] at h
  rcases h with rfl | rfl | rfl | rfl | rfl | rfl <;> rw [size?_sign (by decide)] <;> rfl

end Lexeme

namespace Scan

/-! ## What tokens leave open -/

/-- What the tokens so far leave open: brackets, the columns of the blocks, the innermost first, and
the text itself until the token that marks its end. -/
structure Balance where
  depth : Int
  blocks : List Nat
  ended : Bool

/-- A token is allowed, and leads to another balance. -/
inductive Balance.Step : Balance → Token → Balance → Prop
  | newline {d : Int} {bs : List Nat} {t : Token} (kind : t.kind = Kind.newline) (outside : d ≤ 0) :
      Step ⟨d, bs, false⟩ t ⟨d, bs, false⟩
  | indent {d : Int} {bs : List Nat} {t : Token} (column : Nat) (kind : t.kind = Kind.indent)
      (outside : d ≤ 0) (deeper : bs.headD 0 < column) :
      Step ⟨d, bs, false⟩ t ⟨d, column :: bs, false⟩
  | dedent {d : Int} {column : Nat} {bs : List Nat} {t : Token} (kind : t.kind = Kind.dedent)
      (outside : d ≤ 0) : Step ⟨d, column :: bs, false⟩ t ⟨d, bs, false⟩
  | finish {d : Int} {t : Token} (kind : t.kind = Kind.endMarker) :
      Step ⟨d, [], false⟩ t ⟨d, [], true⟩
  | other {d : Int} {bs : List Nat} {t : Token}
      (kind : t.kind ∉ [Kind.newline, Kind.indent, Kind.dedent, Kind.endMarker]) :
      Step ⟨d, bs, false⟩ t ⟨d + t.bracketing, bs, false⟩

/-- Tokens are allowed one after the other. -/
inductive Balance.Reads : Balance → List Token → Balance → Prop
  | nil {a : Balance} : Reads a [] a
  | cons {a b c : Balance} {t : Token} {ts : List Token} (step : Step a t b) (rest : Reads b ts c) :
      Reads a (t :: ts) c

namespace Balance

variable {a b c : Balance} {t : Token} {ts us : List Token}

theorem Reads.append (h : Reads a ts b) (h' : Reads b us c) : Reads a (ts ++ us) c := by
  induction h with
  | nil => exact h'
  | cons step _ ih => exact .cons step (ih h')

theorem Reads.split (h : Reads a (ts ++ us) c) : ∃ b, Reads a ts b ∧ Reads b us c := by
  induction ts generalizing a with
  | nil => exact ⟨a, .nil, h⟩
  | cons t ts ih =>
    obtain _ | ⟨step, rest⟩ := h
    obtain ⟨b, before, after⟩ := ih rest
    exact ⟨b, .cons step before, after⟩

theorem Reads.blocks (h : Reads a ts b) :
    a.blocks.length + ts.countP (·.kind == Kind.indent) =
      b.blocks.length + ts.countP (·.kind == Kind.dedent) := by
  induction h with
  | nil => rfl
  | cons step _ ih =>
    rw [countP_cons, countP_cons]
    cases step with
    | newline kind | finish kind =>
      rwa [kind]
    | indent _ kind | dedent kind =>
      simp only [kind] at ih ⊢
      simp [Kind.indent, Kind.dedent] at ih ⊢
      omega
    | other kind =>
      simp only [mem_cons, not_or] at kind
      simpa [kind] using ih

theorem Step.depth (h : Step a t b) : b.depth = a.depth + t.bracketing := by
  cases h with
  | newline kind | indent _ kind | dedent kind | finish kind =>
    rw [Token.bracketing_of_kind (by rw [kind]; decide), Int.add_zero]
  | other => rfl

theorem Reads.depth (h : Reads a ts b) :
    b.depth = a.depth + (ts.countP Token.isOpening - ts.countP Token.isClosing) := by
  induction h with
  | nil => simp
  | @cons _ _ _ t ts step _ ih =>
    have counts : ∀ p : Token → Bool, ([t] ++ ts).countP p = [t].countP p + ts.countP p :=
      fun p => countP_append
    rw [← singleton_append, ih, step.depth, Token.bracketing, counts, counts]
    omega

def Nested (b : Balance) : Prop := (b.blocks ++ [0]).Pairwise (· > ·)

theorem Step.nested (h : Step a t b) (nested : a.Nested) : b.Nested := by
  cases h with
  | newline | finish | other => exact nested
  | dedent => exact (pairwise_cons.1 nested).2
  | @indent _ bs _ column _ _ deeper =>
    refine pairwise_cons.2 ⟨fun other mem => ?_, nested⟩
    cases bs with
    | nil =>
      obtain rfl := mem_singleton.1 mem
      exact deeper
    | cons inner bs =>
      rcases mem_cons.1 mem with rfl | mem
      · exact deeper
      · exact lt_trans ((pairwise_cons.1 nested).1 other mem) deeper

theorem Reads.nested (h : Reads a ts b) (nested : a.Nested) : b.Nested := by
  induction h with
  | nil => exact nested
  | cons step _ ih => exact ih (step.nested nested)

theorem Reads.ended (h : Reads a ts b) (begun : a.ended = false) (ended : b.ended = true) :
    ∃ front last, ts = front ++ [last] ∧ last.kind = Kind.endMarker ∧
      ∀ t ∈ front, t.kind ≠ Kind.endMarker := by
  induction h with
  | nil => simp [begun] at ended
  | @cons _ _ _ t _ step rest ih =>
    cases step with
    | finish kind =>
      obtain _ | ⟨step, _⟩ := rest
      · exact ⟨[], t, rfl, kind, nofun⟩
      · cases step
    | newline kind | indent _ kind | dedent kind | other kind =>
      obtain ⟨front, last, rfl, marks, free⟩ := ih rfl ended
      refine ⟨t :: front, last, rfl, marks, forall_mem_cons.2 ⟨?_, free⟩⟩
      intro marks
      rw [marks] at kind
      revert kind
      decide

theorem Step.outside (h : Step a t b)
    (kind : t.kind = Kind.newline ∨ t.kind = Kind.indent ∨ t.kind = Kind.dedent) : a.depth ≤ 0 := by
  cases h with
  | newline _ outside | indent _ _ outside | dedent _ outside => exact outside
  | finish ends => exact absurd (ends ▸ kind) (by decide)
  | other others => exact absurd kind (by simp only [mem_cons] at others; tauto)

end Balance

/-! ## Along a line -/

open Balance (Reads)

def State.balance (s : State) : Balance := ⟨s.depth, s.indents, false⟩

theorem State.step_of_kind (s : State) {t : Token}
    (kind : t.kind ∈ [Kind.stray, Kind.string, Kind.comment, Kind.lineBreak]) :
    Balance.Step s.balance t s.balance := by
  obtain ⟨plain, other⟩ : t.kind ≠ .operator ∧
      t.kind ∉ [.newline, .indent, .dedent, .endMarker] := by
    generalize t.kind = k at kind
    revert k
    decide
  have step : Balance.Step s.balance t ⟨s.depth + t.bracketing, s.indents, false⟩ := .other other
  rwa [Token.bracketing_of_kind plain, Int.add_zero] at step

theorem bracketing_plain {gap x cs : Text} (lexes : Lexeme.Lexes gap x cs) (depth : Int)
    (start stop : Position) (line : Text) :
    (⟨plainKind depth x, x, start, stop, line⟩ : Token).bracketing = depthChange x := by
  obtain ⟨c, tail, rfl⟩ := exists_cons_of_ne_nil lexes.nonempty
  by_cases bracket : c ∈ Lexeme.brackets
  · have alone : tail = [] := by
      have size := lexes.size
      rw [cons_append, Lexeme.size?_bracket bracket] at size
      simpa using size.symm
    subst alone
    simp only [Lexeme.brackets, mem_cons, not_mem_nil, or_false] at bracket
    rcases bracket with rfl | rfl | rfl | rfl | rfl | rfl <;> rfl
  · simp only [Lexeme.brackets, mem_cons, not_or] at bracket
    simp [Token.bracketing, Token.isOpening, Token.isClosing, depthChange, bracket]

theorem plainKind_outside {depth : Int} {x : Text}
    (h : plainKind depth x ∈ [Kind.newline, Kind.indent, Kind.dedent, Kind.endMarker]) :
    plainKind depth x = Kind.newline ∧ depth ≤ 0 := by
  unfold plainKind at h ⊢
  split at h
  · exact absurd h (by decide)
  · split_ifs at h ⊢ with _ _ inside
    all_goals first
      | exact absurd h (by decide)
      | exact ⟨rfl, not_lt.1 inside⟩

variable {line : Text} {s s' : State} {ts : List Token}

theorem RowSteps.reads {col : Nat} {cs : Text} (h : RowSteps line s col cs ts s') :
    Reads s.balance ts s'.balance := by
  induction h with
  | done | opening => exact .nil
  | stray _ _ ih | string _ _ _ _ _ ih => exact .cons (State.step_of_kind _ (by simp)) ih
  | @plain s _ _ _ _ x _ _ lexes _ _ _ ih =>
    have depth : (s.past x).balance = ⟨s.depth + depthChange x, s.indents, false⟩ := rfl
    rw [depth, ← bracketing_plain lexes] at ih
    refine .cons ?_ ih
    by_cases kind : plainKind s.depth x ∈ [.newline, .indent, .dedent, .endMarker]
    · obtain ⟨newline, outside⟩ := plainKind_outside kind
      rw [Token.bracketing_of_kind, Int.add_zero]
      · exact .newline newline outside
      · exact fun operator => absurd (newline.symm.trans operator) (by decide)
    · exact .other kind

/-! ## From line to line -/

theorem blankLineTokens_reads (s : State) (row col : Nat) (line rest : Text) :
    Reads s.balance (blankLineTokens row col line rest) s.balance := by
  unfold blankLineTokens
  split
  · exact .cons (s.step_of_kind (by simp)) (.cons (s.step_of_kind (by simp)) .nil)
  · exact .cons (s.step_of_kind (by simp)) .nil

theorem reads_dedents {d : Int} (outside : d ≤ 0) (closed bs : List Nat) (p : Position) (line : Text) :
    Reads ⟨d, closed ++ bs, false⟩ (closed.map fun _ => ⟨Kind.dedent, [], p, p, line⟩)
      ⟨d, bs, false⟩ := by
  induction closed with
  | nil => exact .nil
  | cons _ _ ih => exact .cons (.dedent rfl outside) ih

theorem blockTokens_reads {d : Int} (outside : d ≤ 0) {row col column : Nat}
    {indents indents' : List Nat} {blocks : List Token}
    (h : blockTokens row col column line indents = .ok (blocks, indents')) :
    Reads ⟨d, indents, false⟩ blocks ⟨d, indents', false⟩ := by
  unfold blockTokens at h
  split at h
  · rename_i deeper
    cases h
    exact .cons (.indent column rfl outside deeper) .nil
  · repeat' split at h
    all_goals cases h
    · have dedents := reads_dedents outside (indents.takeWhile (column < ·))
        (indents.dropWhile (column < ·)) ⟨row, col⟩ line
      rwa [takeWhile_append_dropWhile] at dedents
    · exact .nil

theorem LineStep.reads (h : LineStep s line ts (.next s')) : Reads s.balance ts s'.balance := by
  cases h with
  | closes _ _ _ tokens => exact .cons (s.step_of_kind (by simp)) tokens.reads
  | stops => exact .cons (s.step_of_kind (by simp)) .nil
  | goesOn => exact .nil
  | blank => exact blankLineTokens_reads s _ _ _ _
  | statement _ depth _ _ opens tokens =>
    exact (blockTokens_reads (le_of_eq depth) opens).append tokens.reads
  | inner _ tokens => exact tokens.reads

/-! ## Whole texts -/

theorem closingTokens_reads (depth : s.depth = 0) :
    Reads s.balance (closingTokens s) ⟨s.depth, [], true⟩ := by
  have dedents := reads_dedents (le_of_eq depth) s.indents [] ⟨s.row + 1, 0⟩ []
  rw [append_nil] at dedents
  exact dedents.append (.cons (.finish rfl) .nil)

theorem Runs.reads {lines : List Text} {e : Option ScanError} (h : Runs s lines ts e) :
    ∃ b, Reads s.balance ts b ∧ (e = none → b.ended = true ∧ b.blocks = []) := by
  induction h with
  | next step _ ih =>
    obtain ⟨b, rest, ends⟩ := ih
    exact ⟨b, step.reads.append rest, ends⟩
  | finish _ depth _ => exact ⟨_, closingTokens_reads depth, fun _ => ⟨rfl, rfl⟩⟩
  | fail e => exact ⟨_, .nil, nofun⟩

theorem after_reads {lines : List Text} (h : after s lines = some s') :
    ∃ ts, Reads s.balance ts s'.balance := by
  induction lines generalizing s with
  | nil =>
    cases h
    exact ⟨[], .nil⟩
  | cons line lines ih =>
    have step := scanLine_lineStep s line
    unfold after at h
    split at h
    · rename_i next
      rw [next] at step
      obtain ⟨ts, rest⟩ := ih h
      exact ⟨_, step.reads.append rest⟩
    · cases h

/-- **The tokens of any lines open and close blocks in balance, and never inside brackets.** -/
theorem scan_balanced (lines : List Text) :
    let tokens := (scan lines).tokens
    (∀ before later, tokens = before ++ later →
      before.countP (·.kind == Kind.dedent) ≤ before.countP (·.kind == Kind.indent)) ∧
    (∀ read s, read <+: lines → after {} read = some s →
      (0 :: s.indents.reverse).Pairwise (· < ·)) ∧
    (∀ before t later, tokens = before ++ t :: later →
      (t.kind = Kind.newline ∨ t.kind = Kind.indent ∨ t.kind = Kind.dedent) →
      before.countP Token.isOpening ≤ before.countP Token.isClosing) ∧
    ((scan lines).failure = none →
      tokens.countP (·.kind == Kind.indent) = tokens.countP (·.kind == Kind.dedent) ∧
      ∃ front last, tokens = front ++ [last] ∧ last.kind = Kind.endMarker ∧
        ∀ t ∈ front, t.kind ≠ Kind.endMarker) := by
  obtain ⟨b, reads, ends⟩ := (scanFromState_runs {} lines).reads
  refine ⟨fun before later eq => ?_, fun read s _ found => ?_, fun before t later eq kind => ?_,
    fun complete => ?_⟩
  · obtain ⟨c, first, -⟩ := (eq ▸ reads : Reads _ (before ++ later) b).split
    have count := first.blocks
    simp only [State.balance, length_nil] at count
    omega
  · obtain ⟨ts, reads⟩ := after_reads found
    have nested : (s.indents ++ [0]).Pairwise (· > ·) := reads.nested (pairwise_singleton _ _)
    rw [← reverse_reverse (0 :: s.indents.reverse), pairwise_reverse]
    simpa using nested
  · obtain ⟨c, first, rest⟩ := (eq ▸ reads : Reads _ (before ++ t :: later) b).split
    obtain _ | ⟨step, -⟩ := rest
    have outside := step.outside kind
    rw [first.depth] at outside
    simp only [State.balance] at outside
    omega
  · obtain ⟨ended, closed⟩ := ends complete
    have count := reads.blocks
    simp only [State.balance, closed, length_nil, Nat.zero_add] at count
    exact ⟨count, reads.ended rfl ended⟩

end Scan

end Retouch
