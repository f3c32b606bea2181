import Retouch.Proofs.LeafSpacing
import Retouch.Proofs.Lines
import Retouch.Token.Unscan

/-!
# Tokens put back at their places

Tokens with places are put back with spaces between them.  For a text that ends in a newline and has
no tab and no form feed this gives the text again, if scanning it does not fail and no stray token goes
over several rows (`Unscan.untokenize_scan`).

What is put back is followed by a place of its own, which moves to the next row after the tokens that
end a line.  The argument is that each token starts there, after spaces (`Unscan.Restores`): a token
ends a line exactly if it has the newline of the row, apart from strings, which never end with their row.
Between two lines there are no characters without a token, or they are spaces and the string that is
open (`Unscan.Pending`).
-/

namespace Retouch

open List

/-! ## Lexemes that end a line -/

namespace Lexeme

theorem size?_backslash (cs : Text) : size? ('\\' :: cs) = continuation? ('\\' :: cs) := by
  rw [size?_sign (by decide)]
  simp [lineEnd?, isMark]

theorem newline_mem_of_lineEnd? {x cs : Text} (found : lineEnd? (x ++ cs) = some x.length) :
    '\n' ∈ x := by
  have mem : ∀ {cs : Text} {n : Nat}, lineEnd? cs = some n → '\n' ∈ cs.take n := by
    intro cs n h
    unfold lineEnd? at h
    split at h <;> cases h <;> simp
  have taken := mem found
  rwa [take_left] at taken

theorem newline_mem_of_head {x cs : Text} (found : size? (x ++ cs) = some x.length)
    (head : headIs (fun c => c == '\\' || c == '\r' || c == '\n') x = true) : '\n' ∈ x := by
  cases x with
  | nil => cases head
  | cons c x =>
    simp only [headIs, Bool.or_eq_true, beq_iff_eq, or_assoc] at head
    rcases head with rfl | rfl | rfl
    · rw [cons_append, size?_backslash] at found
      obtain ⟨_, k, eq, ends, size⟩ := continuation?_eq_some.1 found
      cases eq
      rw [← Nat.succ.inj size] at ends
      exact mem_cons_of_mem _ (newline_mem_of_lineEnd? ends)
    · rw [cons_append, size?_return] at found
      exact newline_mem_of_lineEnd? found
    · exact mem_cons_self

end Lexeme

namespace Scan

theorem IsTail.eq_nil_of_newline_mem {x cs : Text} (h : IsTail (x ++ cs)) (mem : '\n' ∈ x) :
    cs = [] := by
  obtain ⟨a, b, rfl⟩ := append_of_mem mem
  have tail : IsTail (a ++ ['\n'] ++ (b ++ cs)) := by simpa using h
  have none := (tail.getLast?_iff (by simp)).1 (by simp)
  exact (append_eq_nil_iff.1 none).2

end Scan

namespace Unscan

open Scan

theorem endsLine_plainKind (depth : Int) (x : Text) :
    endsLine (plainKind depth x) =
      Lexeme.headIs (fun c => c == '\\' || c == '\r' || c == '\n') x := by
  have lineEnd : endsLine (if 0 < depth then .lineBreak else .newline) = true := by
    split <;> rfl
  cases x with
  | nil => rfl
  | cons c x =>
    by_cases head : c = '\\' ∨ c = '\r' ∨ c = '\n'
    · rcases head with rfl | rfl | rfl
      · rfl
      · exact lineEnd
      · exact lineEnd
    · simp only [not_or] at head
      have other : Lexeme.headIs (fun c => c == '\\' || c == '\r' || c == '\n') (c :: x) = false := by
        simp [Lexeme.headIs, head]
      simp only [other, plainKind, beq_false_of_ne head.2.1, beq_false_of_ne head.2.2,
        beq_false_of_ne head.1, Bool.or_self, Bool.false_eq_true, if_false]
      split_ifs <;> rfl

variable {cs : Text} {p : Position} {ts : List Token} {s : State} {col row : Nat}

theorem endsLine_plainKind_iff {gap x : Text} (depth : Int) (lexes : Lexeme.Lexes gap x cs)
    (plain : isString x = false) (tail : IsTail (x ++ cs)) :
    endsLine (plainKind depth x) = true ↔ cs = [] := by
  have last := tail.getLast?_iff lexes.nonempty
  rw [endsLine_plainKind]
  constructor
  · intro head
    have newline := Lexeme.newline_mem_of_head lexes.size head
    exact tail.eq_nil_of_newline_mem newline
  · intro none
    exact Lexeme.newline_of_lexes lexes.size lexes.nonempty plain (mem_of_getLast? (last.2 none))

/-! ## What putting back restores -/

def goesOn (t : Token) : Position := if endsLine t.kind then ⟨t.stop.row + 1, 0⟩ else t.stop

/-- Put back from one place on, the tokens give the text and lead to the other place. -/
inductive Restores : Position → List Token → Text → Position → Prop
  | nil {p : Position} : Restores p [] [] p
  | cons {p q : Position} {t : Token} {ts : List Token} {cs : Text} (gap : Text)
      (blank : ∀ c ∈ gap, c = ' ') (start : t.start = ⟨p.row, p.column + gap.length⟩)
      (rest : Restores (goesOn t) ts cs q) : Restores p (t :: ts) (gap ++ (t.text ++ cs)) q

theorem Restores.append {q r : Position} {us : List Token} {ds : Text}
    (h : Restores p ts cs q) (h' : Restores q us ds r) : Restores p (ts ++ us) (cs ++ ds) r := by
  induction h with
  | nil => exact h'
  | cons gap blank start _ ih =>
    rw [append_assoc, append_assoc]
    exact .cons gap blank start (ih h')

theorem putBack_ofToken (whole : Option (List Piece)) {row col : Int} {t : Token} {ps : List Piece}
    (reached : ¬ row < t.start.row)
    (later : putBack whole (goesOn t).row (goesOn t).column ps = .ok cs) :
    putBack whole row col (Piece.ofToken true t :: ps) =
      .ok (Text.repeated (t.start.column - col).toNat ' ' ++ t.text ++ cs) := by
  rw [goesOn] at later
  rw [Piece.ofToken, if_pos rfl, putBack]
  simp only [if_neg reached]
  split at later
  · rename_i ends
    have later : putBack whole (t.stop.row + 1) 0 ps = .ok cs := later
    rw [if_pos ends, later]
    rfl
  · rename_i inside
    rw [if_neg inside, later]
    rfl

theorem putBack_of_restores (whole : Option (List Piece)) {q : Position} (h : Restores p ts cs q) :
    putBack whole p.row p.column (ts.map (Piece.ofToken true)) = .ok cs := by
  induction h with
  | nil => rfl
  | @cons p q t ts cs gap blank start _ ih =>
    have reached : ¬ (p.row : Int) < t.start.row := by
      rw [start]
      exact lt_irrefl _
    have size : ((t.start.column : Int) - p.column).toNat = gap.length := by
      simp only [start]
      omega
    have spaces : .repeated gap.length ' ' = gap := (eq_replicate_of_mem blank).symm
    rw [map_cons, putBack_ofToken whole reached ih, size, spaces, append_assoc]

/-! ## Along a line -/

/-- The characters that are read and not put back before the next line, from the place where they stand:
none, or spaces and the string that is open. -/
inductive Pending (s : State) : Position → Text → Prop
  | closed (closed : s.opened = none) : Pending s ⟨s.row + 1, 0⟩ []
  | opened {p : Position} {string : OpenString} {x cs : Text} (gap : Text)
      (opened : s.opened = some string) (text : cs = gap ++ string.text) (blank : ∀ c ∈ gap, c = ' ')
      (start : string.start = ⟨p.row, p.column + gap.length⟩) (past : p.row ≤ s.row)
      (quoted : isString x = true) (closing : string.closing = closingOf x) : Pending s p cs

/-- From a place on, the tokens give the first part of the text, and the rest is pending. -/
def PutsBack (p : Position) (ts : List Token) (cs : Text) (s : State) : Prop :=
  ∃ x y q, cs = x ++ y ∧ Restores p ts x q ∧ Pending s q y

theorem PutsBack.cons {t : Token} (gap : Text)
    (blank : ∀ c ∈ gap, c = ' ') (start : t.start = ⟨p.row, p.column + gap.length⟩)
    (h : PutsBack (goesOn t) ts cs s) : PutsBack p (t :: ts) (gap ++ (t.text ++ cs)) s := by
  obtain ⟨x, y, q, rfl, restores, pending⟩ := h
  exact ⟨gap ++ (t.text ++ x), y, q, by simp only [append_assoc], .cons gap blank start restores,
    pending⟩

theorem PutsBack.here {us : List Token} (empty : ∀ t ∈ ts, t.text = [] ∧ t.start = p ∧ goesOn t = p)
    (h : PutsBack p us cs s) : PutsBack p (ts ++ us) cs s := by
  induction ts with
  | nil => exact h
  | cons t ts ih =>
    obtain ⟨⟨text, start, after⟩, later⟩ := forall_mem_cons.1 empty
    have step : PutsBack p (t :: (ts ++ us)) ([] ++ (t.text ++ cs)) s :=
      .cons [] nofun start (after ▸ ih later)
    rwa [text] at step

theorem PutsBack.after_gap (gap : Text) (blank : ∀ c ∈ gap, c = ' ') (onRow : s.row = row)
    (h : PutsBack ⟨row, col + gap.length⟩ ts cs s) : PutsBack ⟨row, col⟩ ts (gap ++ cs) s := by
  have both : ∀ {more : Text}, (∀ c ∈ more, c = ' ') → ∀ c ∈ gap ++ more, c = ' ' :=
    fun more => forall_mem_append.2 ⟨blank, more⟩
  obtain ⟨x, y, q, rfl, restores, pending⟩ := h
  generalize place : (⟨row, col + gap.length⟩ : Position) = p at restores
  cases restores with
  | nil =>
    subst place
    generalize place : (⟨row, col + gap.length⟩ : Position) = p at pending
    cases pending with
    | closed =>
      have := congrArg Position.row place
      simp only at this
      omega
    | opened more opened text blank' start past quoted closing =>
      subst place
      exact ⟨[], gap ++ y, ⟨row, col⟩, rfl, .nil, .opened (gap ++ more) opened
        (by rw [text, append_assoc]) (both blank') (by simp [start, add_assoc]) past quoted
        closing⟩
  | @cons _ _ t ts cs more blank' start later =>
    subst place
    refine ⟨(gap ++ more) ++ (t.text ++ cs), y, q, by simp only [append_assoc],
      .cons _ (both blank') (by simp [start, add_assoc]) later, pending⟩

def Spaced (cs : Text) : Prop := ∀ c ∈ cs, Lexeme.isSeparator c = true → c = ' '

theorem Spaced.of_append {a b : Text} (h : Spaced (a ++ b)) : Spaced a ∧ Spaced b :=
  forall_mem_append.1 h

theorem Spaced.blank {gap : Text} (h : Spaced gap) (separators : Lexeme.IsGap gap) :
    ∀ c ∈ gap, c = ' ' := fun c mem => h c mem (separators c mem)

theorem nextPlace_of_ne (h : cs ≠ []) : nextPlace row col cs = ⟨row, col⟩ :=
  if_neg h

theorem rowSteps_putsBack {line : Text} {s' : State} (h : RowSteps line s col cs ts s')
    (closed : s.opened = none) (tail : IsTail cs) (spaced : Spaced cs) :
    PutsBack (nextPlace s.row col cs) ts cs s' := by
  induction h with
  | done => exact ⟨[], [], _, rfl, .nil, .closed closed⟩
  | @stray s s' col c cs ts none _ ih =>
    have more : cs ≠ [] := by
      rintro rfl
      have newline := (@IsTail.getLast?_iff [c] [] tail (cons_ne_nil _ _)).2 rfl
      obtain rfl := Option.some.inj newline
      exact absurd none (by decide)
    have later := ih closed (.of_append (x := [c]) tail) (Spaced.of_append (a := [c]) spaced).2
    rw [nextPlace_of_ne more] at later
    exact .cons (t := ⟨.stray, [c], _, _, line⟩) [] nofun rfl later
  | @string s s' col stop gap x more cs ts lexes quoted ends size _ ih =>
    obtain ⟨blanks, spaced⟩ := spaced.of_append
    have left := stringFrom_rest_ne_nil quoted lexes.nonempty ends tail.of_append nofun
    have later := ih closed tail.of_append.of_append.of_append spaced.of_append.2.of_append.2
    rw [nextPlace_of_ne left] at later
    rw [nextPlace_of_ne (by simp [lexes.nonempty]), ← append_assoc x]
    exact .cons (t := ⟨.string, x ++ more, _, _, line⟩) gap (blanks.blank lexes.blank) rfl later
  | @opening s col gap x cs must lexes quoted =>
    rw [nextPlace_of_ne (by simp [lexes.nonempty])]
    exact ⟨[], _, _, rfl, .nil, .opened gap rfl rfl (spaced.of_append.1.blank lexes.blank) rfl
      (le_refl _) quoted rfl⟩
  | @plain s s' col stop gap x cs ts lexes plain size _ ih =>
    obtain ⟨blanks, spaced⟩ := spaced.of_append
    have later := ih closed tail.of_append.of_append spaced.of_append.2
    rw [nextPlace_of_ne (by simp [lexes.nonempty])]
    refine .cons (t := ⟨plainKind s.depth x, x, _, _, line⟩) gap (blanks.blank lexes.blank) rfl ?_
    have ends := endsLine_plainKind_iff s.depth lexes plain tail.of_append
    rw [goesOn]
    by_cases none : cs = []
    · rw [if_pos (ends.2 none)]
      rwa [nextPlace, if_pos none] at later
    · rw [if_neg (mt ends.1 none)]
      rwa [nextPlace_of_ne none] at later

/-! ## From line to line -/

theorem blankLineTokens_putsBack {blanks rest : Text} (closed : s.opened = none)
    (blank : ∀ c ∈ blanks, c = ' ') :
    PutsBack ⟨s.row, 0⟩ (blankLineTokens s.row blanks.length (blanks ++ rest) rest) (blanks ++ rest)
      s := by
  have done : PutsBack ⟨s.row + 1, 0⟩ [] [] s := ⟨[], [], _, rfl, .nil, .closed closed⟩
  unfold blankLineTokens
  split
  · obtain ⟨comment, found⟩ : ∃ comment, comment = commentOf rest := ⟨_, rfl⟩
    obtain ⟨after, rfl⟩ := found ▸ commentOf_isPrefix rest
    simp only [← found, drop_left]
    have lineBreak : PutsBack ⟨s.row, blanks.length + comment.length⟩
        [⟨.lineBreak, after, ⟨s.row, blanks.length + comment.length⟩,
          ⟨s.row, (blanks ++ (comment ++ after)).length⟩, blanks ++ (comment ++ after)⟩]
        ([] ++ (after ++ [])) s := .cons [] nofun rfl done
    rw [append_nil] at lineBreak
    refine .cons (t := ⟨.comment, comment, _, _, _⟩) blanks blank ?_ lineBreak
    rw [zero_add]
  · have lineBreak : PutsBack ⟨s.row, 0⟩ [⟨.lineBreak, rest, ⟨s.row, blanks.length⟩,
        ⟨s.row, (blanks ++ rest).length⟩, blanks ++ rest⟩] (blanks ++ (rest ++ [])) s :=
      .cons blanks blank (by rw [zero_add]) done
    rwa [append_nil] at lineBreak

theorem blockTokens_putsBack {column : Nat} {blanks rest : Text} {indents indents' : List Nat}
    {blocks : List Token} (blank : ∀ c ∈ blanks, c = ' ')
    (opens : blockTokens row blanks.length column (blanks ++ rest) indents = .ok (blocks, indents'))
    (onRow : s.row = row) (h : PutsBack ⟨row, blanks.length⟩ ts rest s) :
    PutsBack ⟨row, 0⟩ (blocks ++ ts) (blanks ++ rest) s := by
  have spaces : ∀ {us : List Token}, PutsBack ⟨row, blanks.length⟩ us rest s →
      PutsBack ⟨row, 0⟩ us (blanks ++ rest) s := fun _ =>
    .after_gap blanks blank onRow (by rwa [zero_add])
  unfold blockTokens at opens
  repeat' split at opens
  all_goals cases opens
  · rw [take_left]
    exact .cons (t := ⟨.indent, blanks, _, _, _⟩) [] nofun rfl h
  · refine spaces (h.here fun t mem => ?_)
    obtain ⟨_, _, rfl⟩ := mem_map.1 mem
    exact ⟨rfl, rfl, rfl⟩
  · exact spaces h

theorem lineStep_putsBack {s' : State} {line : Text} (h : LineStep s line ts (.next s'))
    (pending : Pending s p cs) (isLine : IsLine line) (spaced : Spaced line)
    (strays : ∀ t ∈ ts, t.kind = Kind.stray → t.start.row = t.stop.row) :
    PutsBack p ts (cs ++ line) s' := by
  have between : s.opened = none → p = ⟨s.row + 1, 0⟩ ∧ cs = [] := by
    intro closed
    cases pending with
    | closed => exact ⟨rfl, rfl⟩
    | opened _ opened =>
      rw [closed] at opened
      cases opened
  cases h with
  | @closes string front rest ts s' opened taken found tokens =>
    cases pending with
    | closed closed =>
      rw [closed] at opened
      cases opened
    | @opened _ _ x _ gap opened' text blank start past quoted closing =>
      cases opened.symm.trans opened'
      have left : rest ≠ [] := by
        rintro rfl
        rw [closing] at found
        have last := find?_closingOf_last quoted found
        rw [append_nil, take_length] at last
        exact last ((IsTail.getLast?_iff (.inr isLine) taken).2 rfl)
      have later := rowSteps_putsBack tokens rfl (.of_append (.inr isLine)) spaced.of_append.2
      rw [nextPlace_of_ne left] at later
      rw [text, append_assoc, ← append_assoc string.text]
      exact .cons (t := ⟨.string, string.text ++ front, _, _, _⟩) gap blank start later
  | stops opened =>
    -- the string began on an earlier row
    cases pending with
    | closed closed =>
      rw [closed] at opened
      cases opened
    | opened _ opened' _ _ start past =>
      cases opened.symm.trans opened'
      have row := strays _ mem_cons_self rfl
      simp only [start] at row
      omega
  | @goesOn string line opened =>
    cases pending with
    | closed closed =>
      rw [closed] at opened
      cases opened
    | opened gap opened' text blank start past quoted closing =>
      cases opened.symm.trans opened'
      exact ⟨[], cs ++ line, p, rfl, .nil, .opened gap rfl (by rw [text, append_assoc]) blank
        start (Nat.le_succ_of_le past) quoted closing⟩
  | @blank blanks rest closed _ separators _ =>
    obtain ⟨rfl, rfl⟩ := between closed
    exact blankLineTokens_putsBack (s := s.onRow) closed (spaced.of_append.1.blank separators)
  | @statement blanks rest column indents blocks ts s' closed _ more indented opens tokens =>
    obtain ⟨rfl, rfl⟩ := between closed
    have separators := leadingBlanks_separators indented
    have later := rowSteps_putsBack tokens closed (.of_append (.inr isLine)) spaced.of_append.2
    rw [nextPlace_of_ne more] at later
    rw [nil_append]
    exact blockTokens_putsBack (spaced.of_append.1.blank separators) opens tokens.same.1 later
  | inner closed tokens =>
    obtain ⟨rfl, rfl⟩ := between closed
    have later := rowSteps_putsBack tokens closed (.inr isLine) spaced
    rwa [nextPlace_of_ne isLine.ne_nil] at later

/-! ## Whole texts -/

theorem closingTokens_restores (s : State) :
    Restores ⟨s.row + 1, 0⟩ (closingTokens s) [] ⟨s.row + 1, 0⟩ := by
  have dedents : ∀ indents : List Nat, Restores ⟨s.row + 1, 0⟩
      (indents.map fun _ => ⟨.dedent, [], ⟨s.row + 1, 0⟩, ⟨s.row + 1, 0⟩, []⟩) []
      ⟨s.row + 1, 0⟩ := by
    intro indents
    induction indents with
    | nil => exact .nil
    | cons _ _ ih => exact .cons [] nofun rfl ih
  exact (dedents s.indents).append (.cons [] nofun rfl .nil)

theorem runs_restores {lines : List Text} {e : Option ScanError} (h : Runs s lines ts e)
    (done : e = none) (pending : Pending s p cs) (isLine : ∀ l ∈ lines, IsLine l)
    (spaced : ∀ l ∈ lines, Spaced l)
    (strays : ∀ t ∈ ts, t.kind = Kind.stray → t.start.row = t.stop.row) :
    ∃ q, Restores p ts (cs ++ lines.flatten) q := by
  induction h generalizing p cs with
  | @next s s' line lines ts us e step _ ih =>
    obtain ⟨here, later⟩ := forall_mem_cons.1 isLine
    obtain ⟨spaces, spaced⟩ := forall_mem_cons.1 spaced
    obtain ⟨strays, rest⟩ := forall_mem_append.1 strays
    obtain ⟨x, y, q, text, restores, pending'⟩ := lineStep_putsBack step pending here spaces strays
    obtain ⟨r, restores'⟩ := ih done pending' later spaced rest
    refine ⟨r, ?_⟩
    rw [flatten_cons, ← append_assoc, text, append_assoc]
    exact restores.append restores'
  | @finish s lines closed _ blank =>
    cases pending with
    | opened _ opened =>
      rw [closed] at opened
      cases opened
    | closed =>
      cases lines with
      | nil => exact ⟨_, closingTokens_restores s⟩
      | cons line lines =>
        obtain ⟨_, rfl, -⟩ := isLine line mem_cons_self
        exact absurd (blank '\n' (by simp)) (by decide)
  | fail e => cases done

/-- **Tokens put back at their places give the text again.** -/
theorem untokenize_scan (t : Text) (ended : t = [] ∨ t.getLast? = some '\n') (tab : '\t' ∉ t)
    (formFeed : '\x0c' ∉ t) (done : (scan (Text.newlineLines t)).failure = none)
    (strays : ∀ token ∈ (scan (Text.newlineLines t)).tokens, token.kind = Kind.stray →
      token.start.row = token.stop.row) (restart : Bool) :
    untokenize restart ((scan (Text.newlineLines t)).tokens.map (Piece.ofToken true)) = .ok t := by
  have spaced : ∀ l ∈ Text.newlineLines t, Spaced l := by
    intro l mem c inside separator
    have inText : c ∈ t := by
      rw [← Text.flatten_newlineLines t]
      exact mem_flatten.2 ⟨l, mem, inside⟩
    simp only [Lexeme.isSeparator, Bool.or_eq_true, beq_iff_eq, or_assoc] at separator
    rcases separator with space | feed | tab'
    · exact space
    · exact absurd (feed ▸ inText) formFeed
    · exact absurd (tab' ▸ inText) tab
  obtain ⟨q, restores⟩ := runs_restores (scanFromState_runs {} (Text.newlineLines t)) done
    (.closed rfl) (Text.isLine_newlineLines ended) spaced strays
  rw [nil_append, Text.flatten_newlineLines] at restores
  exact putBack_of_restores _ restores

/-- Blocks, a string and a statement that go over several lines, comments and a stray character. -/
def placedSample : Text :=
  "if x:\n    y = \"\"\"a\n  b\"\"\" \\\n  + 1  # c\n\n # d\nz = 2 ? (\n3)\n"

theorem untokenize_scan_sample :
    (scan (Text.newlineLines placedSample)).failure = none ∧
      ∀ restart, untokenize restart
        ((scan (Text.newlineLines placedSample)).tokens.map (Piece.ofToken true)) = .ok placedSample := by
  have done : (scan (Text.newlineLines placedSample)).failure = none := by decide +kernel
  have strays : ∀ token ∈ (scan (Text.newlineLines placedSample)).tokens, token.kind = Kind.stray →
      token.start.row = token.stop.row := by decide +kernel
  exact ⟨done, untokenize_scan placedSample (.inr (by decide)) (by decide) (by decide) done strays⟩

end Unscan

end Retouch
