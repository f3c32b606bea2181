import Retouch.Fixes.Spacing
import Retouch.Proofs.Alike
import Retouch.Proofs.LanguageTables

/-!
# Blanks before leaves

Between two leaves on a line, blanks can be changed to one blank, or taken away where the second leaf
can touch the first (`Leaf.Change`).  Such changes can be made one after the other
(`Leaf.Respaced.trans`).  As comments, continued lines and line ends stay as they are, a change before a
leaf is a change before the piece it was made of, so that a program with other blanks before its leaves
is parsed to the same tree (`Source.parseLines_respacedLeaves`).
-/

namespace Retouch

open List

open Retouch.Language (isLayout joinsEqual beginsEqual)

/-! ## Changes -/

namespace Leaf

variable {l : Leaf}

/-- What stands before a leaf is kept, or is blank and changed after the leaf `prev`, on its line. -/
def Change (prev : Option Leaf) (l : Leaf) (lead : Text) : Prop :=
  lead = l.lead ∨ Fixes.isOpen l.lead = true ∧ ∃ u, prev = some u ∧ isLayout u.kind = false ∧
    (lead = [' '] ∨ lead = [] ∧ Lexeme.Touches u.value.shown l.value.shown)

/-- Leaves with other blanks before them, where the leaf `prev` stands before the first one. -/
inductive Respaced : Option Leaf → List Leaf → List Leaf → Prop
  | nil {prev : Option Leaf} : Respaced prev [] []
  | cons {prev : Option Leaf} {l : Leaf} {lead : Text} {ls ls' : List Leaf}
      (change : Change prev l lead) (rest : Respaced (some l) ls ls') :
      Respaced prev (l :: ls) ({ l with lead } :: ls')

theorem Respaced.refl (prev : Option Leaf) (ls : List Leaf) : Respaced prev ls ls := by
  induction ls generalizing prev with
  | nil => exact .nil
  | cons l ls ih => exact .cons (.inl rfl) (ih (some l))

theorem Respaced.append {prev : Option Leaf} {as as' bs bs' : List Leaf} (h : Respaced prev as as')
    (later : Respaced (as.getLast?.or prev) bs bs') : Respaced prev (as ++ bs) (as' ++ bs') := by
  induction h with
  | nil => exact later
  | @cons prev l _ ls _ change _ ih =>
    refine .cons change (ih ?_)
    rw [getLast?_cons] at later
    cases hl : ls.getLast? with
    | none => rwa [hl] at later
    | some u => rwa [hl] at later

theorem Change.trans {prev prev' : Option Leaf} {lead lead' : Text}
    (same : prev'.map bare = prev.map bare) (h : Change prev l lead)
    (h' : Change prev' { l with lead } lead') : Change prev l lead' := by
  rcases h' with rfl | ⟨isOpen, u', rfl, layout, h'⟩
  · exact h
  · have isOpen : Fixes.isOpen l.lead = true := by
      rcases h with rfl | ⟨isOpen, -⟩
      · exact isOpen
      · exact isOpen
    cases prev with
    | none => cases same
    | some u =>
      have same := Option.some.inj same
      rw [kind_eq_of_bare same] at layout
      rw [value_eq_of_bare same] at h'
      exact .inr ⟨isOpen, u, rfl, layout, h'⟩

/-- Blanks can be changed again. -/
theorem Respaced.trans {prev prev' : Option Leaf} {as bs cs : List Leaf}
    (same : prev'.map bare = prev.map bare) (h : Respaced prev as bs) (h' : Respaced prev' bs cs) :
    Respaced prev as cs := by
  induction h generalizing prev' cs with
  | nil =>
    cases h'
    exact .nil
  | cons change _ ih =>
    cases h' with
    | cons change' rest' => exact .cons (change.trans same change') (ih (by rfl) rest')

end Leaf

/-! ## Lexemes by their first character -/

namespace Lexeme

theorem eq_of_head_equal {x : Text} (found : size? x = some x.length)
    (head : headIs (· == '=') x = true) : x = ['='] ∨ x = ['=', '='] := by
  cases x with
  | nil => cases head
  | cons c cs =>
    obtain rfl : c = '=' := by simpa [headIs] using head
    cases next : headIs (· == '=') cs with
    | false =>
      rw [size?_equals next] at found
      have none : cs = [] := by simpa using found.symm
      exact .inl (by rw [none])
    | true =>
      cases cs with
      | nil => cases next
      | cons d ds =>
        obtain rfl : d = '=' := by simpa [headIs] using next
        have two : size? ('=' :: '=' :: ds) = some 2 := @size?_joins ['='] rfl ds
        rw [two] at found
        have none : ds = [] := by simpa using found.symm
        exact .inr (by rw [none])

theorem size?_return (cs : Text) : size? ('\r' :: cs) = lineEnd? ('\r' :: cs) := by
  rw [size?_sign (by decide)]
  simp [continuation?, isMark]

theorem newline_mem_of_return {cs : Text} {n : Nat} (found : size? ('\r' :: cs) = some n) :
    '\n' ∈ cs := by
  rw [size?_return] at found
  unfold lineEnd? at found
  split at found
  · rename_i eq
    cases eq
  · rename_i eq
    cases eq
    exact mem_cons_self
  · cases found

theorem joins_of_head {x : Text} (head : headIs isAssignable x = false) : joins x = false := by
  by_contra joined
  have mem := mem_joiners (Bool.not_eq_false _ ▸ joined)
  fin_cases mem <;> cases head

end Lexeme

/-! ## Pieces of a reading -/

namespace Scan

def isFirm (c : Char) : Bool := c == '#' || c == '\\' || c == '\n'

variable {c : Char} {p : Piece} {x before : Text} {ps : List Piece}

theorem isOpen_of_isFirm {lead : Text} (mem : c ∈ lead) (firm : isFirm c = true) :
    Fixes.isOpen lead = false := by
  have some := ne_nil_of_mem mem
  by_contra isOpen
  simp only [Bool.not_eq_false, Fixes.isOpen, Fixes.isPlainBlank, Text.allBlank, Bool.or_eq_true,
    List.isEmpty_iff, some, false_or, Bool.and_eq_true, all_eq_true, Bool.not_eq_true',
    contains_eq_mem, decide_eq_false_iff_not] at isOpen
  obtain ⟨⟨-, blank⟩, line⟩ := isOpen
  simp only [isFirm, Bool.or_eq_true, beq_iff_eq] at firm
  rcases firm with (rfl | rfl) | rfl
  · exact absurd (blank _ mem) (by decide)
  · exact absurd (blank _ mem) (by decide)
  · exact line mem

/-- What is known of a piece from its kind: trivia is more than blanks, and the operators that an equal
sign would join, or that begin with one, have kinds of their own. -/
structure Piece.Regular (p : Piece) : Prop where
  trivia : p.isTrivia = true → ∃ c ∈ p.text, isFirm c = true
  joins : p.isTrivia = false → Lexeme.joins p.text = true → joinsEqual p.parserKind = true
  begins : p.isTrivia = false → Lexeme.headIs (· == '=') p.text = true →
    beginsEqual p.parserKind = true

theorem Piece.isTrivia_iff : p.isTrivia = true ↔ p.kind = Kind.comment ∨ p.kind = Kind.lineBreak := by
  simp [isTrivia]

theorem Piece.regular_trivia (trivia : p.isTrivia = true) (mem : c ∈ p.text) (firm : isFirm c = true) :
    p.Regular where
  trivia _ := ⟨c, mem, firm⟩
  joins other := by rw [trivia] at other; cases other
  begins other := by rw [trivia] at other; cases other

theorem Piece.regular_of_head (other : p.isTrivia = false)
    (head : Lexeme.headIs Lexeme.isAssignable p.text = false) : p.Regular where
  trivia trivia := by rw [other] at trivia; cases trivia
  joins _ joined := by rw [Lexeme.joins_of_head head] at joined; cases joined
  begins _ begins := by
    cases text : p.text with
    | nil => rw [text] at begins; cases begins
    | cons c cs =>
      rw [text] at begins head
      obtain rfl : c = '=' := by simpa [Lexeme.headIs] using begins
      cases head

theorem head_of_plainKind {depth : Int}
    (h : plainKind depth x = Kind.comment ∨ plainKind depth x = Kind.lineBreak) :
    ∃ c cs, x = c :: cs ∧ (c = '\r' ∨ isFirm c = true) := by
  cases x with
  | nil => rcases h with h | h <;> cases h
  | cons c cs =>
    refine ⟨c, cs, rfl, ?_⟩
    by_contra other
    simp only [isFirm, Bool.or_eq_true, beq_iff_eq, not_or] at other
    obtain ⟨ret, ⟨_, _⟩, line⟩ := other
    unfold plainKind at h
    simp only [ret, line, beq_iff_eq, Bool.or_eq_true, or_self, if_false] at h
    repeat' split at h
    all_goals rcases h with h | h <;> cases h

theorem regular_plain (gap : Text) (depth : Int) (found : Lexeme.size? x = some x.length) :
    Piece.Regular ⟨gap, plainKind depth x, x⟩ where
  trivia trivia := by
    obtain ⟨c, cs, rfl, rfl | firm⟩ := head_of_plainKind (Piece.isTrivia_iff.1 trivia)
    · exact ⟨'\n', mem_cons_of_mem _ (Lexeme.newline_mem_of_return found), rfl⟩
    · exact ⟨c, mem_cons_self, firm⟩
  joins _ joined := by
    have mem := Lexeme.mem_joiners joined
    fin_cases mem <;> rfl
  begins _ head := by
    rcases Lexeme.eq_of_head_equal found head with rfl | rfl <;> rfl

theorem headIs_of_isString (h : isString x = true) (more : Text) :
    Lexeme.headIs Lexeme.isAssignable (x ++ more) = false := by
  cases x with
  | nil => cases h
  | cons c cs =>
    by_contra other
    simp only [Bool.not_eq_false, cons_append, Lexeme.headIs, Lexeme.isAssignable,
      Bool.or_eq_true, beq_iff_eq, or_assoc] at other
    rcases other with rfl | rfl | rfl | rfl | rfl | rfl | rfl | rfl | rfl | rfl | rfl <;> cases h

theorem regular_blankPieces {blanks rest : Text} (hline : IsLine (blanks ++ rest))
    (blank : isBlankRest rest = true) : ∀ p ∈ blankPieces blanks rest, p.Regular := by
  have tail := IsTail.of_append (.inr hline)
  have ends : rest.getLast? = some '\n' := by
    refine (IsTail.getLast?_iff (by rw [append_nil]; exact tail) ?_).2 rfl
    rintro rfl
    cases blank
  unfold blankPieces
  split
  · rename_i hash
    have lineBreak : Piece.Regular ⟨[], .lineBreak,
        rest.drop (commentOf rest).length⟩ :=
      Piece.regular_trivia rfl (mem_of_getLast? (getLast?_drop_comment ends)) rfl
    have comment : Piece.Regular ⟨blanks, .comment, commentOf rest⟩ := by
      refine Piece.regular_trivia rfl (mem_dropEnd ?_ (c := '#') rfl) rfl
      cases rest with
      | nil => cases hash
      | cons c cs =>
        obtain rfl : c = '#' := by simpa [Lexeme.headIs] using hash
        exact mem_cons_self
    intro p hp
    rcases mem_pair.1 hp with rfl | rfl
    · exact comment
    · exact lineBreak
  · intro p hp
    cases mem_singleton.1 hp
    exact Piece.regular_trivia rfl (mem_of_getLast? ends) rfl

theorem regular_blockPieces {blanks : Text} {column : Nat} {indents after : List Nat} {qs : List Piece}
    (all : Lexeme.IsGap blanks)
    (h : blockPieces blanks column indents = some (qs, before, after)) : ∀ p ∈ qs, p.Regular := by
  intro p hp
  obtain rfl | ⟨_, rfl⟩ := mem_blockPieces h p hp
  · refine Piece.regular_of_head rfl ?_
    cases blanks with
    | nil => rfl
    | cons c cs =>
      have hc := all c mem_cons_self
      simp only [Lexeme.isSeparator, Bool.or_eq_true, beq_iff_eq, or_assoc] at hc
      rcases hc with rfl | rfl | rfl <;> rfl
  · exact Piece.regular_of_head rfl rfl

theorem Scans.regular {f : Flow} {cs : Text} {lines : List Text} {e : End}
    (h : Scans f before cs lines ps e) (hcs : IsTail cs) (hl : ∀ l ∈ lines, IsLine l)
    (he : e = .complete) : ∀ p ∈ ps, p.Regular := by
  induction h with
  | finish _ =>
    intro p hp
    rcases mem_append.1 hp with hp | hp
    · obtain ⟨_, _, rfl⟩ := mem_map.1 hp
      exact Piece.regular_of_head rfl rfl
    · cases mem_singleton.1 hp
      exact Piece.regular_of_head rfl rfl
  | unfinished | misindented | stray | strayString | openString => cases he
  | inner _ _ ih =>
    obtain ⟨hline, hlines⟩ := forall_mem_cons.1 hl
    exact ih (.inr hline) hlines he
  | blankLine _ _ blank _ ih =>
    obtain ⟨hline, hlines⟩ := forall_mem_cons.1 hl
    exact forall_mem_append.2 ⟨regular_blankPieces hline blank, ih hcs hlines he⟩
  | line _ indented _ blocks _ ih =>
    obtain ⟨hline, hlines⟩ := forall_mem_cons.1 hl
    exact forall_mem_append.2 ⟨regular_blockPieces (leadingBlanks_separators indented) blocks,
      ih (.of_append (.inr hline)) hlines he⟩
  | string _ isString closed _ ih =>
    obtain ⟨tail, _, good, _⟩ := stringFrom_closed closed hcs.of_append.of_append hl
    exact forall_mem_cons.2 ⟨Piece.regular_of_head rfl (headIs_of_isString isString _),
      ih tail good he⟩
  | plain lexes _ _ ih =>
    exact forall_mem_cons.2
      ⟨regular_plain _ _ (Lexeme.size?_local.cut lexes.size (le_refl _)),
        ih hcs.of_append.of_append hl he⟩

theorem Scans.isTrivia_getLast {f : Flow} {cs : Text} {lines : List Text} {e : End}
    (h : Scans f before cs lines ps e) (he : e = .complete) :
    ∃ p, ps.getLast? = some p ∧ p.isTrivia = false := by
  induction h with
  | finish _ => exact ⟨_, getLast?_concat, rfl⟩
  | unfinished | misindented | stray | strayString | openString => cases he
  | inner _ _ ih => exact ih he
  | blankLine _ _ _ _ ih | line _ _ _ _ _ ih =>
    obtain ⟨p, last, other⟩ := ih he
    exact ⟨p, by rw [getLast?_append, last, Option.some_or], other⟩
  | string _ _ _ _ ih | plain _ _ _ ih =>
    obtain ⟨p, last, other⟩ := ih he
    exact ⟨p, by rw [getLast?_cons, last, Option.getD_some], other⟩

/-! ## Leaves and pieces -/

theorem isInner_of_layout (other : p.isTrivia = false) (inner : isLayout p.parserKind = false) :
    p.after = some p.text := by
  have kind : p.kind ≠ .newline ∧ p.kind ≠ .indent ∧ p.kind ≠ .dedent := by
    refine ⟨?_, ?_, ?_⟩ <;>
    · intro kind
      rw [Piece.parserKind, kind] at inner
      cases inner
  have trivia := mt Piece.isTrivia_iff.2 (by rw [other]; rintro ⟨⟩)
  have isInner : p.isInner = true := by
    simp [Piece.isInner, kind, trivia]
  rw [Piece.after, if_pos isInner]

/-- **A change before a leaf is a change before its piece.**  Where trivia stands before the leaf,
nothing is changed. -/
theorem exists_respaced {ins : List Input} {lead : Text} {prev : Option Leaf} {prevText : Option Text}
    {ls : List Leaf} (regular : ∀ p ∈ ps, p.Regular)
    (last : ∀ p, ps.getLast? = some p → p.isTrivia = false)
    (given : ins.map Input.unplaced = offered lead ps)
    (h : Leaf.Respaced prev (ins.map Input.token) ls)
    (firm : lead = [] ∨ ps ≠ [] ∧ ∃ c ∈ lead, isFirm c = true)
    (tied : lead = [] → ∀ u, prev = some u → isLayout u.kind = false → prevText = some u.value.shown) :
    ∃ ps', Respaced prevText ps ps' ∧
      (ls.map Leaf.text).flatten = lead ++ ps'.flatMap Piece.chars := by
  induction ps generalizing ins lead prev prevText ls with
  | nil =>
    cases map_eq_nil_iff.1 given
    cases h
    obtain rfl := firm.resolve_right fun other => other.1 rfl
    exact ⟨[], .nil, rfl⟩
  | cons p ps ih =>
    obtain ⟨first, others⟩ := forall_mem_cons.1 regular
    have later : ∀ q, ps.getLast? = some q → q.isTrivia = false := by
      intro q hq
      exact last q (by rw [getLast?_cons, hq, Option.getD_some])
    cases trivia : p.isTrivia with
    | true =>
      obtain ⟨c, mem, hc⟩ := first.trivia trivia
      have mem : c ∈ lead ++ p.chars :=
        mem_append_right _ (mem_append_right _ mem)
      rw [offered, if_pos trivia] at given
      have more : ps ≠ [] := by
        rintro rfl
        rw [last p rfl] at trivia
        cases trivia
      obtain ⟨ps', respaced, text⟩ := ih others later given h (.inr ⟨more, c, mem, hc⟩)
        (fun none => absurd none (ne_nil_of_mem mem))
      refine ⟨p :: ps', .cons (.inl rfl) ?_, ?_⟩
      · exact respaced
      · rw [text, flatMap_cons, append_assoc]
    | false =>
      rw [offered, if_neg (by rw [trivia]; rintro ⟨⟩)] at given
      obtain ⟨t, ins, rfl, ht, given⟩ := map_eq_cons_iff.1 given
      have kind : t.kind = p.parserKind := congrArg Input.kind ht
      have value : t.value = p.text := congrArg Input.value ht
      have before : t.lead = lead ++ p.gap := congrArg Input.lead ht
      cases h with
      | @cons _ _ lead' _ ls change rest =>
        obtain ⟨gap, change, eq⟩ : ∃ gap, Change prevText p.text p.gap gap ∧ lead' = lead ++ gap := by
          rcases change with rfl | ⟨isOpen, u, hu, layout, change⟩
          · exact ⟨p.gap, .inl rfl, before⟩
          · have none : lead = [] := by
              refine firm.resolve_right ?_
              rintro ⟨_, c, mem, hc⟩
              rw [Input.token, before, isOpen_of_isFirm (mem_append_left _ mem) hc] at isOpen
              cases isOpen
            rw [Input.token, value] at change
            exact ⟨lead', .inr ⟨u.value.shown, tied none u hu layout, change⟩, by rw [none]; rfl⟩
        have after : ∀ u, some t.token = some u → isLayout u.kind = false →
            p.after = some u.value.shown := by
          intro u hu layout
          cases hu
          rw [Input.token, kind] at layout
          rw [isInner_of_layout trivia layout, Input.token, value]
          rfl
        obtain ⟨ps', respaced, text⟩ := ih others later given rest (.inl rfl) fun _ => after
        refine ⟨{ p with gap } :: ps', .cons change respaced, ?_⟩
        rw [map_cons, flatten_cons, text, eq]
        simp [Leaf.text, Piece.chars, Input.token, value, Value.shown]

end Scan

/-- **A program with other blanks before its leaves is parsed to the same tree.** -/
theorem Source.parseLines_respacedLeaves {g : Grammar} {shape : Shape} (hg : g.Closed)
    {lines : List Text} (hl : ∀ l ∈ lines, Scan.IsLine l) {s : Source}
    (h : parseLines g shape lines = .ok s) {ls : List Leaf}
    (respaced : Leaf.Respaced none s.tree.leaves ls) :
    ∃ lines' s', (∀ l ∈ lines', Scan.IsLine l) ∧ lines'.flatten = (ls.map Leaf.text).flatten ∧
      parseLines g shape lines' = .ok s' ∧ s'.tree.same s.tree = true := by
  obtain ⟨-, -, ps, _, scans, given, leaves, -⟩ := parseLines_ok hg hl h
  obtain ⟨p, last, other⟩ := scans.isTrivia_getLast rfl
  rw [leaves] at respaced
  obtain ⟨_, changed, text⟩ := Scan.exists_respaced (scans.regular (.inl rfl) hl rfl)
    (fun q hq => by cases last.symm.trans hq; exact other) given respaced (.inl rfl) nofun
  rw [text]
  exact parseLines_respaced hg.stray hl scans changed h

end Retouch
