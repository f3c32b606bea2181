import Retouch.Proofs.BlockBalance
import Retouch.Proofs.Coverage
import Retouch.Token.Unscan

/-!
# Joining tokens without places

Tokens of which only kind and text are known are joined from the second one on.  So the text that they
make has fewer characters that are no separators (`ink`) than they have, and their kinds and texts are
not those of the tokens of that text, unless the only one marks its end (`untokenize_pairs_iff`).
-/

namespace Retouch

open List

def ink (t : Text) : Nat := t.countP fun c => !Lexeme.isSeparator c

variable {t u : Text}

theorem ink_append (t u : Text) : ink (t ++ u) = ink t + ink u := countP_append

theorem ink_eq_zero (h : Lexeme.IsGap t) : ink t = 0 :=
  countP_eq_zero.2 fun c hc => by rw [h c hc]; nofun

theorem ink_pos {c : Char} (h : Lexeme.isSeparator c = false) (t : Text) : 0 < ink (c :: t) := by
  rw [ink, countP_cons_of_pos (by rw [h]; rfl)]
  exact Nat.succ_pos _

theorem Lexeme.Lexes.ink_pos {gap x rest : Text} (h : Lexes gap x rest) (more : Text) :
    0 < ink (x ++ more) := by
  cases x with
  | nil => exact absurd rfl h.nonempty
  | cons c x =>
    refine Retouch.ink_pos ?_ _
    by_contra separator
    have none := size?_separator (Bool.not_eq_false _ ▸ separator) (x ++ rest)
    rw [← cons_append, h.size] at none
    cases none

namespace Scan

variable {lines : List Text} {p q : Position} {ts : List Token} {s s' : State} {line : Text}

/-! ## What a text has -/

theorem Covers.ink_le (h : Covers lines p ts q) :
    ink (Text.upTo lines p) + ink (ts.flatMap Token.text) ≤ ink (Text.upTo lines q) := by
  induction ts generalizing p with
  | nil =>
    obtain ⟨gap, spans, -⟩ := h
    rw [spans.text, ink_append]
    exact Nat.le_add_right ..
  | cons t ts ih =>
    obtain ⟨⟨gap, before, -⟩, lies, later⟩ := h
    have := ih later
    rw [lies.text.text, before.text, ink_append, ink_append] at this
    rw [flatMap_cons, ink_append]
    omega

theorem ink_scan_le (lines : List Text) :
    ink ((scan lines).tokens.flatMap Token.text) ≤ ink lines.flatten := by
  obtain ⟨q, covers, -⟩ := (scanFromState_runs {} lines).covers rfl (State.holds_of_closed rfl)
  calc ink ((scan lines).tokens.flatMap Token.text)
    _ ≤ ink (.upTo lines q) := le_trans (Nat.le_add_left ..) covers.ink_le
    _ ≤ ink lines.flatten := (take_sublist ..).countP_le

/-! ## The first token -/

def bareKinds : List Kind := [Kind.indent, Kind.dedent, Kind.endMarker, Kind.stray]

/-- The first token has characters, and so has a string that is open where there is no token yet. -/
def Inked (ts : List Token) (s : State) : Prop :=
  (∀ t ∈ ts.head?, t.kind ∉ bareKinds → 0 < ink t.text) ∧
    (ts = [] → ∀ string, s.opened = some string → 0 < ink string.text)

theorem Inked.of_bare {t : Token} (h : t.kind ∈ bareKinds) : Inked (t :: ts) s :=
  ⟨by rintro _ ⟨⟩ other; exact absurd h other, nofun⟩

theorem Inked.of_pos {t : Token} (h : 0 < ink t.text) : Inked (t :: ts) s :=
  ⟨by rintro _ ⟨⟩ _; exact h, nofun⟩

theorem RowSteps.inked {col : Nat} {cs : Text} (h : RowSteps line s col cs ts s')
    (closed : s.opened = none) : Inked ts s' := by
  cases h with
  | done => exact ⟨nofun, fun _ string opened => by rw [closed] at opened; cases opened⟩
  | stray => exact .of_bare (by simp [bareKinds])
  | string lexes => exact .of_pos (lexes.ink_pos _)
  | opening _ lexes => exact ⟨nofun, by rintro _ _ ⟨⟩; exact lexes.ink_pos _⟩
  | plain lexes => exact .of_pos (by simpa using lexes.ink_pos [])

theorem blankLineTokens_inked (row col : Nat) (line : Text) {rest : Text}
    (blank : isBlankRest rest = true) : Inked (blankLineTokens row col line rest) s := by
  cases rest with
  | nil => cases blank
  | cons c rest =>
    unfold blankLineTokens
    split
    · rename_i hash
      obtain rfl : c = '#' := by simpa [Lexeme.headIs] using hash
      exact .of_pos (countP_pos_iff.2 ⟨'#', mem_dropEnd mem_cons_self rfl, rfl⟩)
    · refine .of_pos (ink_pos ?_ rest)
      simp only [isBlankRest, Lexeme.headIs, Bool.or_eq_true, beq_iff_eq, or_assoc] at blank
      rcases blank with rfl | rfl | rfl <;> rfl

theorem LineStep.inked (h : LineStep s line ts (.next s'))
    (opened : ∀ string, s.opened = some string → 0 < ink string.text) : Inked ts s' := by
  have longer : ∀ {string front}, s.opened = some string → 0 < ink (string.text ++ front) := by
    intro string front begun
    rw [ink_append]
    exact Nat.add_pos_left (opened string begun) _
  cases h with
  | closes begun => exact .of_pos (longer begun)
  | stops => exact .of_bare (by simp [bareKinds])
  | goesOn begun => exact ⟨nofun, by rintro _ _ ⟨⟩; exact longer begun⟩
  | blank _ _ _ blank => exact blankLineTokens_inked _ _ _ blank
  | statement closed _ _ _ opens tokens =>
    unfold blockTokens at opens
    repeat' split at opens
    all_goals cases opens
    · exact .of_bare (by simp [bareKinds])
    · cases indents : s.indents.takeWhile _ with
      | nil => exact tokens.inked closed
      | cons => exact .of_bare (by simp [bareKinds])
    · exact tokens.inked closed
  | inner closed tokens => exact tokens.inked closed

theorem Runs.inked {e : Option ScanError} (h : Runs s lines ts e)
    (opened : ∀ string, s.opened = some string → 0 < ink string.text) :
    ∀ t ∈ ts.head?, t.kind ∉ bareKinds → 0 < ink t.text := by
  induction h with
  | @next s s' line lines ts us e step _ ih =>
    obtain ⟨first, later⟩ := step.inked opened
    cases ts with
    | nil => exact ih (later rfl)
    | cons t ts => exact first
  | @finish s _ _ _ _ =>
    rw [closingTokens]
    cases s.indents <;> exact (Inked.of_bare (s := s) (by simp [bareKinds])).1
  | fail => exact nofun

end Scan

namespace Unscan

open Scan

variable {ts : List Token} {indents : List Text} {atStart : Bool} {out : Text}

theorem ink_spaced (k : Kind) (t : Text) : ink (spaced k t) = ink t := by
  unfold spaced
  split
  · rw [ink_append]
    rfl
  · rfl

theorem joinPairs_other {t : Token} (opens : t.kind ≠ Kind.indent) (closes : t.kind ≠ Kind.dedent)
    (atStart : Bool) (indents : List Text) (ps : List Piece) :
    ∃ gap later, (gap = [] ∨ gap ∈ indents) ∧
      joinPairs atStart indents (.ofToken false t :: ps) =
        (joinPairs later indents ps).map (gap ++ spaced t.kind t.text ++ ·) := by
  have eq : joinPairs atStart indents (.ofToken false t :: ps) = _ :=
    (if_neg opens).trans (if_neg closes)
  by_cases line : endsLine t.kind = true
  · exact ⟨[], true, .inl rfl, eq.trans (if_pos line)⟩
  · rw [if_neg line] at eq
    cases atStart with
    | false => exact ⟨[], false, .inl rfl, eq⟩
    | true =>
      cases indents with
      | nil => exact ⟨[], true, .inl rfl, eq⟩
      | cons inner outer => exact ⟨inner, false, .inr mem_cons_self, eq⟩

theorem ink_joinPairs_le (indented : ∀ t ∈ ts, t.kind = Kind.indent → ink t.text = 0)
    (inside : ∀ t ∈ indents, ink t = 0)
    (h : joinPairs atStart indents (ts.map (Piece.ofToken false)) = .ok out) :
    ink out ≤ ink (ts.flatMap Token.text) := by
  induction ts generalizing atStart indents out with
  | nil =>
    cases h
    exact le_refl _
  | cons t ts ih =>
    obtain ⟨first, later⟩ := forall_mem_cons.1 indented
    rw [flatMap_cons, ink_append]
    by_cases opens : t.kind = .indent
    · have next := (if_pos opens).symm.trans h
      refine Nat.le_add_left_of_le (ih later (forall_mem_cons.2 ⟨?_, inside⟩) next)
      rw [ink_spaced, first opens]
    by_cases closes : t.kind = .dedent
    · have next := ((if_neg opens).trans (if_pos closes)).symm.trans h
      cases indents with
      | nil => cases next
      | cons _ outer => exact Nat.le_add_left_of_le (ih later (forall_mem_cons.1 inside).2 next)
    · obtain ⟨gap, _, blank, eq⟩ := joinPairs_other opens closes atStart indents (ts.map _)
      obtain ⟨_, next, rfl⟩ := map_eq_ok.1 (eq.symm.trans h)
      have blanks := blank.elim (· ▸ rfl) (inside gap)
      rw [ink_append, ink_append, ink_spaced, blanks, zero_add]
      exact Nat.add_le_add_left (ih later inside next) _

theorem joinPairs_eq_noBlock (fewer : indents.length + ts.countP (·.kind == Kind.indent) <
      ts.countP (·.kind == Kind.dedent)) :
    joinPairs atStart indents (ts.map (Piece.ofToken false)) = .error .noBlock := by
  induction ts generalizing atStart indents with
  | nil => cases fewer
  | cons t ts ih =>
    rw [countP_cons, countP_cons] at fewer
    by_cases opens : t.kind = Kind.indent
    · rw [opens] at fewer
      refine (if_pos opens).trans (ih ?_)
      simp [Kind.indent, Kind.dedent] at fewer ⊢
      omega
    by_cases closes : t.kind = Kind.dedent
    · rw [closes] at fewer
      refine (if_neg opens).trans ((if_pos closes).trans ?_)
      cases indents with
      | nil => rfl
      | cons =>
        refine ih ?_
        simp at fewer ⊢
        omega
    · obtain ⟨_, _, -, eq⟩ := joinPairs_other opens closes atStart indents (ts.map _)
      rw [map_cons, eq, ih (by simpa [opens, closes] using fewer)]
      rfl

def pairs (lines : List Text) : List (Kind × Text) :=
  (scan lines).tokens.map fun t => (t.kind, t.text)

theorem ink_pairs {lines lines' : List Text} (h : pairs lines = pairs lines') :
    ink ((scan lines).tokens.flatMap Token.text) = ink ((scan lines').tokens.flatMap Token.text) := by
  have texts := congrArg (fun ps => (ps.map Prod.snd).flatten) h
  simp only [pairs, map_map] at texts
  exact congrArg ink texts

theorem blank_of_made {t : Token} (made : Made t) (kind : t.kind ∈ [Kind.indent, Kind.endMarker]) :
    Lexeme.IsGap t.text ∧ (t.kind = Kind.endMarker → t.text = []) := by
  have layout : t.kind ∈ [.newline, .indent, .dedent, .endMarker] := by
    revert kind
    simp +contextual [or_imp]
  cases made with
  | mark _ empty => exact ⟨by rw [empty]; nofun, fun _ => empty⟩
  | indent opens blank => exact ⟨blank, fun other => absurd (opens.symm.trans other) (by decide)⟩
  | loose other =>
    rcases other with other | other | other <;> exact absurd (other ▸ kind) (by decide)
  | string other => exact absurd (other ▸ kind) (by decide)
  | plain depth other =>
    have newline := other.trans (plainKind_outside (other ▸ layout)).1
    exact absurd (newline ▸ kind) (by decide)

theorem pairs_ne_of_ink {lines again : List Text} {t : Token} (split : (scan lines).tokens = t :: ts)
    (first : 0 < ink t.text)
    (joined : joinPairs atStart [] (ts.map (Piece.ofToken false)) = .ok again.flatten) :
    pairs again ≠ pairs lines := by
  intro same
  have indented : ∀ u ∈ ts, u.kind = .indent → ink u.text = 0 := fun u mem kind =>
    ink_eq_zero (blank_of_made (scan_made lines u (split ▸ mem_cons_of_mem t mem)) (by simp [kind])).1
  have less := calc ink ((scan lines).tokens.flatMap Token.text)
      _ = ink ((scan again).tokens.flatMap Token.text) := (ink_pairs same).symm
      _ ≤ ink again.flatten := ink_scan_le again
      _ ≤ ink (ts.flatMap Token.text) := ink_joinPairs_le indented (by simp) joined
  rw [split, flatMap_cons, ink_append] at less
  omega

/-- **Tokens without places do not give the text back.**  If the tokens of lines that can be scanned, as
kinds and texts, are joined to a text that has the same tokens, however it is cut into lines, then the
only one is that which marks the end. -/
theorem untokenize_pairs_iff (lines : List Text) (complete : (scan lines).failure = none)
    (regular : ∀ t ∈ (scan lines).tokens, t.kind ≠ Kind.stray) :
    (∃ again, untokenize false ((scan lines).tokens.map (.ofToken false)) = .ok again.flatten ∧
      pairs again = pairs lines) ↔ pairs lines = [(Kind.endMarker, [])] := by
  have runs : Runs {} lines (scan lines).tokens _ := scanFromState_runs {} lines
  obtain ⟨b, reads, ended⟩ := runs.reads
  obtain ⟨ended, blocks⟩ := ended complete
  have inked := runs.inked nofun
  have made := scan_made lines
  constructor
  · rintro ⟨again, joined, same⟩
    cases split : (scan lines).tokens with
    | nil =>
      rw [split] at reads
      cases reads
      cases ended
    | cons t ts =>
      rw [split] at reads inked joined made regular
      change joinPairs (endsLine t.kind) [] (ts.map (Piece.ofToken false)) = _ at joined
      have bare : t.kind ∈ bareKinds := by
        by_contra other
        exact pairs_ne_of_ink split (inked t rfl other) joined same
      obtain _ | ⟨step, rest⟩ := reads
      cases step with
      | newline kind => exact absurd (kind ▸ bare) (by decide)
      | indent _ kind =>
        have count := rest.blocks
        rw [blocks] at count
        cases joined.symm.trans (joinPairs_eq_noBlock (by simp at count ⊢; omega))
      | finish kind =>
        obtain _ | ⟨⟨⟩, -⟩ := rest
        have empty := (blank_of_made (made t mem_cons_self) (by simp [kind])).2 kind
        rw [pairs, split, map_singleton, kind, empty]
      | other kind =>
        have := regular t mem_cons_self
        simp_all [bareKinds]
  · intro only
    obtain ⟨t, split, eq⟩ := map_eq_singleton_iff.1 only
    refine ⟨[], ?_, only.symm⟩
    rw [split]
    rfl

/-- A text of blanks gives itself back. -/
theorem untokenize_pairs_blanks :
    ∃ again, untokenize false ((scan [[' ', ' ']]).tokens.map (.ofToken false)) = .ok again.flatten ∧
      pairs again = pairs [[' ', ' ']] :=
  (untokenize_pairs_iff [[' ', ' ']] (by decide +kernel) (by decide +kernel)).2 (by decide +kernel)

/-- A name on its line is lost. -/
theorem untokenize_pairs_name :
    untokenize false ((scan [['x', '\n']]).tokens.map (.ofToken false)) = .ok ['\n'] ∧
      pairs [['\n']] ≠ pairs [['x', '\n']] := by
  decide +kernel

end Unscan

end Retouch
