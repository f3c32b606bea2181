import Retouch.Proofs.LexemeGaps
import Retouch.Proofs.Reading

/-!
# Respacing

The blanks between two pieces on a line can be changed without changing what is read, if one piece
still ends where it did and the other one begins there (`Scans.respaced`).
-/

namespace Retouch.Scan

open List

/-! ## Changed pieces -/

/-- Can other pieces come after this one on its line, with blanks between them? -/
def Piece.isInner (p : Piece) : Bool :=
  !([Kind.newline, Kind.indent, Kind.dedent, Kind.comment, Kind.lineBreak].contains p.kind)

def Piece.after (p : Piece) : Option Text := if p.isInner then some p.text else none

/-- The separators `gap` before `text` are kept, or changed after the piece `prev`. -/
def Change (prev : Option Text) (text gap gap' : Text) : Prop :=
  gap' = gap ∨ ∃ u, prev = some u ∧ (gap' = [' '] ∨ gap' = [] ∧ Lexeme.Touches u text)

/-- Pieces with other blanks between them. -/
inductive Respaced : Option Text → List Piece → List Piece → Prop
  | nil {prev : Option Text} : Respaced prev [] []
  | cons {prev : Option Text} {p : Piece} {gap : Text} {ps ps' : List Piece}
      (change : Change prev p.text p.gap gap) (rest : Respaced p.after ps ps') :
      Respaced prev (p :: ps) ({ p with gap } :: ps')

variable {gap gap' more x cs cs' rest before : Text} {prev : Option Text} {ps : List Piece} {n : Nat}
  {lines lines' : List Text}

theorem Change.eq_of_none {text : Text} (h : Change none text gap gap') : gap' = gap := by
  rcases h with h | ⟨_, h, _⟩
  · exact h
  · cases h

theorem Change.of_append (hx : x ≠ []) (h : Change prev (x ++ more) gap gap') :
    Change prev x gap gap' := by
  unfold Change Lexeme.Touches at h
  simp only [Lexeme.headIs_append (length_pos_iff.2 hx)] at h
  exact h

theorem Respaced.split {qs ps' : List Piece} (h : Respaced none (qs ++ ps) ps')
    (hq : ∀ q ∈ qs, q.after = none) : ∃ ps₁, ps' = qs ++ ps₁ ∧ Respaced none ps ps₁ := by
  induction qs generalizing ps' with
  | nil => exact ⟨ps', rfl, h⟩
  | cons q qs ih =>
    obtain ⟨first, others⟩ := forall_mem_cons.1 hq
    cases h with
    | cons change rest =>
      obtain ⟨ps₁, rfl, others⟩ := ih (first ▸ rest) others
      rw [change.eq_of_none]
      exact ⟨ps₁, rfl, others⟩

def Agrees (prev : Option Text) (cs cs' : Text) : Prop :=
  match prev with
  | none => cs'.head? = cs.head? ∧ Lexeme.Later cs cs'
  | some u => Lexeme.LaterAfter u cs cs'

theorem Agrees.laterAfter {p : Piece} (h : Agrees p.after cs cs') :
    Lexeme.LaterAfter p.text cs cs' := by
  unfold Piece.after at h
  split at h
  · exact h
  · exact h.2.after _

theorem agrees_lexeme (hx : x ≠ []) (hprev : ∀ u, prev = some u → u ≠ [])
    (change : Change prev x gap gap') (later : Lexeme.LaterAfter x cs cs') :
    Agrees prev (gap ++ (x ++ cs)) (gap' ++ (x ++ cs')) := by
  rcases change with rfl | ⟨u, rfl, change⟩
  · have kept := later.later.append gap'
    cases prev with
    | none => exact ⟨by cases gap' <;> cases x <;> simp_all, kept⟩
    | some u => exact kept.after u
  · exact Lexeme.laterAfter_change (length_pos_iff.2 (hprev u rfl)) hx change

/-! ## Changed lines -/

theorem IsTail.isLine (h : IsTail cs) (ne : cs ≠ []) : IsLine cs := h.resolve_left ne

theorem IsTail.replace (h : IsTail (x ++ cs)) (h' : IsTail cs') (same : cs' = [] ↔ cs = []) :
    IsTail (x ++ cs') := by
  rcases h' with rfl | ⟨body', rfl, free'⟩
  · cases same.1 rfl
    exact h
  · have ne : cs ≠ [] := by simpa using same.2
    obtain ⟨_, eq, free⟩ := h.isLine (by simp [ne])
    refine .inr ⟨x ++ body', (append_assoc _ _ _).symm, fun mem => ?_⟩
    rcases mem_append.1 mem with mem | mem
    · obtain ⟨_, c, rfl⟩ := (eq_nil_or_concat cs).resolve_left ne
      rw [concat_eq_append, ← append_assoc] at eq
      obtain ⟨rfl, _⟩ := append_inj' eq rfl
      exact free (mem_append_left _ mem)
    · exact free' mem

theorem IsLine.replace (h : IsLine (x ++ cs)) (h' : IsTail cs') (same : cs' = [] ↔ cs = []) :
    IsLine (x ++ cs') := by
  refine (IsTail.replace (.inr h) h' same).isLine fun none => h.ne_nil ?_
  rw [append_eq_nil_iff] at none ⊢
  exact ⟨none.1, same.1 none.2⟩

theorem IsTail.append {gap cs : Text} (h : IsTail cs) (ne : cs ≠ []) (free : '\n' ∉ gap) :
    IsTail (gap ++ cs) := by
  obtain ⟨body, rfl, none⟩ := h.isLine ne
  exact .inr ⟨gap ++ body, (append_assoc _ _ _).symm, by simp [free, none]⟩

theorem le_leadingBlanks (n col : Nat) (l : Text) : n ≤ (leadingBlanks n col l).1 := by
  obtain ⟨_, _, _, eq, _⟩ := leadingBlanks_spec n col l
  omega

theorem leadingBlanks_congr {blanks rest' : Text} {col column : Nat}
    (h : leadingBlanks n col (blanks ++ rest) = (n + blanks.length, column))
    (same : rest'.head? = rest.head?) :
    leadingBlanks n col (blanks ++ rest') = (n + blanks.length, column) := by
  induction blanks generalizing n col with
  | nil =>
    cases rest with
    | nil =>
      cases rest' with
      | nil => exact h
      | cons c' rest' => cases same
    | cons c rest =>
      cases rest' with
      | nil => cases same
      | cons c' rest' =>
        have more : ∀ col' rest, leadingBlanks (n + 1) col' rest ≠ (n, column) := by
          intro col' rest eq
          have := le_leadingBlanks (n + 1) col' rest
          rw [eq] at this
          omega
        simp only [nil_append, leadingBlanks] at h ⊢
        repeat' split at h
        · exact absurd h (more _ _)
        · exact absurd h (more _ _)
        · exact absurd h (more _ _)
        · simp_all
  | cons c blanks ih =>
    have size : n + (c :: blanks).length = n + 1 + blanks.length := by
      rw [length_cons]
      omega
    rw [size] at h ⊢
    simp only [cons_append, leadingBlanks] at h ⊢
    repeat' split at h
    · rename_i hc
      rw [if_pos hc]
      exact ih h
    · rename_i hc ht
      rw [if_neg hc, if_pos ht]
      exact ih h
    · rename_i hc ht hf
      rw [if_neg hc, if_neg ht, if_pos hf]
      exact ih h
    · have := congrArg Prod.fst h
      omega

/-! ## Strings that go on -/

variable {closing : Lexeme.Closing}

theorem find?_take_append {line : Text} (h : closing.find? line = some n) (rest : Text) :
    closing.find? (line.take n ++ rest) = some n ∧ (line.take n ++ rest).take n = line.take n ∧
      (line.take n ++ rest).drop n = rest := by
  have size := length_take_of_le (Lexeme.Closing.find?_le h)
  exact ⟨closing.find?_exact rest h, take_left' size, drop_left' size⟩

theorem stringEnd_replace {must : Bool} (h : stringEnd closing must lines = .closed more rest lines')
    (hl : ∀ l ∈ lines, IsLine l) {rest₁ : Text} {lines₁ : List Text} (hr : IsTail rest₁)
    (same : rest₁ = [] ↔ rest = []) (hl₁ : ∀ l ∈ lines₁, IsLine l) :
    ∃ lines₂, stringEnd closing must lines₂ = .closed more rest₁ lines₁ ∧
      ∀ l ∈ lines₂, IsLine l := by
  induction lines generalizing more with
  | nil => cases h
  | cons line lines ih =>
    obtain ⟨hline, hlines⟩ := forall_mem_cons.1 hl
    unfold stringEnd at h
    split at h
    · rename_i n found
      cases h
      obtain ⟨again, front, back⟩ := find?_take_append found rest₁
      refine ⟨(line.take n ++ rest₁) :: lines₁, ?_, forall_mem_cons.2 ⟨?_, hl₁⟩⟩
      · rw [stringEnd, again]
        simp [front, back]
      · rw [← take_append_drop n line] at hline
        exact hline.replace hr same
    · rename_i none
      split at h
      · cases h
      · rename_i goes
        obtain ⟨_, he, rfl⟩ := StringEnd.after_eq_closed h
        obtain ⟨lines₂, closed, good⟩ := ih he hlines
        refine ⟨line :: lines₂, ?_, forall_mem_cons.2 ⟨hline, good⟩⟩
        rw [stringEnd, none]
        simp only [goes, closed]
        rfl

theorem stringFrom_replace (h : stringFrom x cs lines = .closed more rest lines') (hcs : IsTail cs)
    (hl : ∀ l ∈ lines, IsLine l) {rest₁ : Text} {lines₁ : List Text} (hr : IsTail rest₁)
    (same : rest₁ = [] ↔ rest = []) (hl₁ : ∀ l ∈ lines₁, IsLine l) :
    ∃ cs₂ lines₂, stringFrom x cs₂ lines₂ = .closed more rest₁ lines₁ ∧ IsTail cs₂ ∧
      (cs₂ = [] ↔ cs = []) ∧ (∀ l ∈ lines₂, IsLine l) ∧
      (cs₂ = cs ∨ cs = more ++ rest ∧ cs₂ = more ++ rest₁) := by
  unfold stringFrom at h
  split at h
  · rename_i triple
    split at h
    · rename_i n found
      cases h
      obtain ⟨again, front, back⟩ := find?_take_append found rest₁
      refine ⟨cs.take n ++ rest₁, lines₁, ?_, ?_, ?_, hl₁, .inr ⟨?_, rfl⟩⟩
      · rw [stringFrom, if_pos triple, again]
        simp [front, back]
      · rw [← take_append_drop n cs] at hcs
        exact hcs.replace hr same
      · conv_rhs => rw [← take_append_drop n cs]
        rw [append_eq_nil_iff, append_eq_nil_iff, same]
      · rw [take_append_drop]
    · rename_i none
      obtain ⟨more', he, rfl⟩ := StringEnd.after_eq_closed h
      obtain ⟨lines₂, closed, good⟩ := stringEnd_replace he hl hr same hl₁
      refine ⟨cs, lines₂, ?_, hcs, .rfl, good, .inl rfl⟩
      rw [stringFrom, if_pos triple, none]
      simp only [closed]
      rfl
  · rename_i triple
    split at h
    · rename_i open_
      obtain ⟨more', he, rfl⟩ := StringEnd.after_eq_closed h
      obtain ⟨lines₂, closed, good⟩ := stringEnd_replace he hl hr same hl₁
      refine ⟨cs, lines₂, ?_, hcs, .rfl, good, .inl rfl⟩
      rw [stringFrom, if_neg triple, if_pos open_, closed]
      rfl
    · rename_i closed
      cases h
      exact ⟨rest₁, lines₁, by rw [stringFrom, if_neg triple, if_neg closed], hr, same, hl₁,
        .inr ⟨rfl, rfl⟩⟩

theorem find?_closingOf_last (string : isString x = true) (h : (closingOf x).find? cs = some n) :
    (cs.take n).getLast? ≠ some '\n' := by
  have quote : ∀ q, ((x.drop (Lexeme.stringLetters x)).head?).getD '"' = q → q ≠ '\n' := by
    unfold isString at string
    cases hd : x.drop (Lexeme.stringLetters x) with
    | nil => rw [hd] at string; cases string
    | cons c rest =>
      rw [hd] at string
      simp only [Lexeme.headIs, Lexeme.isQuote, Bool.or_eq_true, beq_iff_eq] at string
      rcases string with rfl | rfl <;> simp
  intro last
  obtain ⟨q, mem, found⟩ := Lexeme.Closing.find?_last h
  rw [found] at last
  refine quote q ?_ (Option.some.inj last)
  unfold closingOf at mem
  dsimp only at mem
  split at mem <;> simpa [Lexeme.Closing.quotes, eq_comm] using mem

theorem drop_ne_nil_of_closed (string : isString x = true) (h : (closingOf x).find? cs = some n)
    (hcs : IsTail cs) : cs.drop n ≠ [] := by
  rw [← take_append_drop n cs] at hcs
  exact fun none => find?_closingOf_last string h
    ((hcs.getLast?_iff (Lexeme.Closing.take_ne_nil h)).2 none)

theorem stringEnd_rest_ne_nil (string : isString x = true) {must : Bool}
    (h : stringEnd (closingOf x) must lines = .closed more rest lines') (hl : ∀ l ∈ lines, IsLine l) :
    rest ≠ [] := by
  induction lines generalizing more with
  | nil => cases h
  | cons line lines ih =>
    obtain ⟨hline, hlines⟩ := forall_mem_cons.1 hl
    unfold stringEnd at h
    split at h
    · rename_i n found
      cases h
      exact drop_ne_nil_of_closed string found (.inr hline)
    · split at h
      · cases h
      · obtain ⟨_, he, rfl⟩ := StringEnd.after_eq_closed h
        exact ih he hlines

theorem stringFrom_rest_ne_nil (string : isString x = true) (hx : x ≠ [])
    (h : stringFrom x cs lines = .closed more rest lines') (hcs : IsTail (x ++ cs))
    (hl : ∀ l ∈ lines, IsLine l) : rest ≠ [] := by
  unfold stringFrom at h
  split at h
  · split at h
    · rename_i n found
      cases h
      exact drop_ne_nil_of_closed string found hcs.of_append
    · obtain ⟨more', he, rfl⟩ := StringEnd.after_eq_closed h
      exact stringEnd_rest_ne_nil string he hl
  · split at h
    · obtain ⟨more', he, rfl⟩ := StringEnd.after_eq_closed h
      exact stringEnd_rest_ne_nil string he hl
    · rename_i last
      cases h
      exact fun none => last ((hcs.getLast?_iff hx).2 none)

/-! ## Changed texts -/

theorem Scans.size?_isSome {f : Flow} (h : Scans f before cs lines ps .complete)
    (quote : Lexeme.headIs Lexeme.isQuote cs = true) : (Lexeme.size? cs).isSome = true := by
  have lexeme : ∀ {gap x cs : Text}, Lexeme.Lexes gap x cs →
      Lexeme.headIs Lexeme.isQuote (gap ++ (x ++ cs)) = true →
      (Lexeme.size? (gap ++ (x ++ cs))).isSome = true := by
    intro gap x cs lexes quote
    cases gap with
    | nil => rw [nil_append, lexes.size]; rfl
    | cons c gap =>
      have sep := lexes.blank c mem_cons_self
      simp only [cons_append, Lexeme.headIs, Lexeme.isQuote, Bool.or_eq_true, beq_iff_eq] at quote
      rcases quote with rfl | rfl
      · exact absurd sep (by decide)
      · exact absurd sep (by decide)
  cases h with
  | finish | inner | blankLine | line => cases quote
  | string lexes | plain lexes => exact lexeme lexes quote

theorem Change.of_before {new : Text} (h : Change prev x (before ++ gap) new)
    (first : before ≠ [] → prev = none) (blank : Lexeme.IsGap gap) :
    ∃ gap', new = before ++ gap' ∧ Change prev x gap gap' ∧ Lexeme.IsGap gap' := by
  rcases h with rfl | ⟨u, rfl, change⟩
  · exact ⟨gap, rfl, .inl rfl, blank⟩
  · have none : before = [] := by
      by_contra ne
      cases first ne
    refine ⟨new, by rw [none, nil_append], .inr ⟨u, rfl, change⟩, ?_⟩
    rcases change with rfl | ⟨rfl, _⟩
    · exact forall_mem_singleton.2 rfl
    · exact nofun

theorem after_eq_none_of_newline {depth : Int} (lexes : Lexeme.Lexes gap x cs)
    (plain : isString x = false) (newline : '\n' ∈ x) (gap' : Text) :
    Piece.after ⟨gap', plainKind depth x, x⟩ = none := by
  have head := Lexeme.newline_of_lexes lexes.size lexes.nonempty plain newline
  cases x with
  | nil => cases head
  | cons c x =>
    simp only [Lexeme.headIs, Bool.or_eq_true, beq_iff_eq, or_assoc] at head
    have kind : plainKind depth (c :: x) = .lineBreak ∨ plainKind depth (c :: x) = Kind.newline := by
      have line : (if 0 < depth then .lineBreak else Kind.newline) = .lineBreak ∨
          (if 0 < depth then .lineBreak else Kind.newline) = Kind.newline := by
        split
        · exact .inl rfl
        · exact .inr rfl
      rcases head with rfl | rfl | rfl
      · exact .inl rfl
      · exact line
      · exact line
    rcases kind with kind | kind <;> rw [kind] <;> rfl

theorem blockPieces_after {blanks : Text} {column : Nat} {indents after : List Nat} {qs : List Piece}
    (h : blockPieces blanks column indents = some (qs, before, after)) : ∀ q ∈ qs, q.after = none := by
  intro q hq
  obtain rfl | ⟨_, rfl⟩ := mem_blockPieces h q hq
  · rfl
  · rfl

theorem not_comment_of_isString (h : isString x = true) : Lexeme.headIs (· == '#') x = false := by
  cases x with
  | nil => rfl
  | cons c x =>
    by_contra comment
    cases (eq_of_beq (Bool.not_eq_false _ ▸ comment) : c = '#')
    cases h

theorem lexes_again {depth : Int} (lexes : Lexeme.Lexes gap x cs)
    (blank : Lexeme.IsGap gap') (closed : Lexeme.QuoteClosed (x ++ cs))
    (agrees : Agrees (Piece.after ⟨gap, plainKind depth x, x⟩) cs cs') : Lexeme.Lexes gap' x cs' := by
  refine ⟨blank, lexes.nonempty, ?_⟩
  cases comment : Lexeme.headIs (· == '#') x with
  | true =>
    have none : Piece.after ⟨gap, plainKind depth x, x⟩ = none := by
      cases x with
      | nil => cases comment
      | cons c x =>
        cases (eq_of_beq comment : c = '#')
        rfl
    rw [none] at agrees
    exact Lexeme.size?_comment comment lexes.size agrees.1
  | false =>
    exact agrees.laterAfter.size (length_pos_iff.2 lexes.nonempty) (le_refl _) comment
      closed lexes.size

/-- **The blanks between the pieces of a complete reading can be changed.**  What is read then are the
changed pieces. -/
theorem Scans.respaced {f : Flow} {ps' : List Piece} {e : End} (h : Scans f before cs lines ps e)
    (he : e = .complete) (hcs : IsTail cs) (hl : ∀ l ∈ lines, IsLine l) (hr : Respaced prev ps ps')
    (first : cs = [] ∨ before ≠ [] → prev = none) (hprev : ∀ u, prev = some u → u ≠ []) :
    ∃ cs' lines', Scans f before cs' lines' ps' .complete ∧ IsTail cs' ∧
      (∀ l ∈ lines', IsLine l) ∧ (cs' = [] ↔ cs = []) ∧ Agrees prev cs cs' := by
  induction h generalizing prev ps' with
  | unfinished | misindented | stray | strayString | openString => cases he
  | finish between =>
    cases first (.inl rfl)
    obtain ⟨ps₁, rfl, hr'⟩ := hr.split fun q hq => by
      obtain ⟨_, _, rfl⟩ := mem_map.1 hq
      rfl
    cases hr' with
    | cons change rest =>
      cases rest
      cases change.eq_of_none
      exact ⟨[], [], .finish between, .inl rfl, nofun, .rfl, rfl, .refl _⟩
  | inner inside rest ih =>
    cases first (.inl rfl)
    obtain ⟨hline, hlines⟩ := forall_mem_cons.1 hl
    obtain ⟨line', lines', scans, tail, good, same, _⟩ :=
      ih he (.inr hline) hlines hr (fun _ => rfl) hprev
    refine ⟨[], line' :: lines', .inner inside scans, .inl rfl, forall_mem_cons.2 ⟨?_, good⟩,
      .rfl, rfl, .refl _⟩
    exact tail.isLine fun none => hline.ne_nil (same.1 none)
  | @blankLine f blanks rest _ _ _ _ between indented blank _ ih =>
    cases first (.inl rfl)
    obtain ⟨hline, hlines⟩ := forall_mem_cons.1 hl
    obtain ⟨ps₁, rfl, hr'⟩ := hr.split fun q hq => by
      rcases blankPieces_kind _ _ q hq with kind | kind <;> simp [Piece.after, Piece.isInner, kind]
    obtain ⟨cs', lines', scans, tail, good, same, _⟩ := ih he hcs hlines hr' (fun _ => rfl) nofun
    cases same.2 rfl
    exact ⟨[], (blanks ++ rest) :: lines', .blankLine between indented blank scans, .inl rfl,
      forall_mem_cons.2 ⟨hline, good⟩, .rfl, rfl, .refl _⟩
  | @line f blanks rest before _ _ _ qs _ _ between indented full blocks _ ih =>
    cases first (.inl rfl)
    obtain ⟨hline, hlines⟩ := forall_mem_cons.1 hl
    obtain ⟨ps₁, rfl, hr'⟩ := hr.split (blockPieces_after blocks)
    obtain ⟨rest', lines', scans, tail, good, same, head, _⟩ :=
      ih he (.of_append (.inr hline)) hlines hr' (fun _ => rfl) nofun
    have full' : isBlankRest rest' = false := by
      rwa [isBlankRest, Lexeme.headIs_eq_of_head? head]
    rw [← Nat.zero_add blanks.length] at indented
    have indented' := leadingBlanks_congr indented head
    rw [Nat.zero_add] at indented'
    exact ⟨[], (blanks ++ rest') :: lines', .line between indented' full' blocks scans, .inl rfl,
      forall_mem_cons.2 ⟨hline.replace tail same, good⟩, .rfl, rfl, .refl _⟩
  | @string f before gap x cs more rest lines lines₁ _ _ lexes isString closed tokens ih =>
    subst he
    have hx := lexes.nonempty
    have line := hcs.of_append
    obtain ⟨tail₁, _, good₁, _⟩ := stringFrom_closed closed line.of_append hl
    have ne := stringFrom_rest_ne_nil isString hx closed line hl
    cases hr with
    | cons change hr =>
      obtain ⟨gap', rfl, change, blank⟩ := change.of_before (fun ne => first (.inr ne)) lexes.blank
      obtain ⟨rest', lines', scans, tail, good, same, agrees⟩ := ih rfl tail₁ good₁ hr
        (fun none => absurd (none.resolve_right (by simp)) ne) (fun u hu => by cases hu; simp [hx])
      obtain ⟨cs', _, closed', tail', same', good', place⟩ :=
        stringFrom_replace closed line.of_append hl tail same good
      have later : Lexeme.LaterAfter x cs cs' := by
        rcases place with rfl | ⟨rfl, rfl⟩
        · exact (Lexeme.Later.refl _).after x
        · exact agrees.laterAfter.of_append
      have size := later.size (length_pos_iff.2 hx) (le_refl _) (not_comment_of_isString isString)
        (Lexeme.quoteClosed_of_isString lexes.size isString) lexes.size
      exact ⟨_, _, .string ⟨blank, hx, size⟩ isString closed' scans,
        (line.replace tail' same').append (by simp [hx]) (newline_notMem_gap blank), good',
        by simp [hx], agrees_lexeme hx hprev (change.of_append hx) later⟩
  | @plain f before gap x cs lines _ _ lexes isString tokens ih =>
    subst he
    have hx := lexes.nonempty
    have line := hcs.of_append
    cases hr with
    | cons change hr =>
      obtain ⟨gap', rfl, change, blank⟩ := change.of_before (fun ne => first (.inr ne)) lexes.blank
      obtain ⟨cs', lines', scans, tail, good, same, agrees⟩ := ih rfl line.of_append hl hr
        (fun none => after_eq_none_of_newline lexes isString (mem_of_getLast?
          ((line.getLast?_iff hx).2 (none.resolve_right (by simp)))) _)
        (fun u hu => by
          unfold Piece.after at hu
          split at hu
          · cases hu
            exact hx
          · cases hu)
      have again := lexes_again lexes blank
        (Lexeme.quoteClosed_of_next lexes.size tokens.size?_isSome) agrees
      exact ⟨_, _, .plain again isString scans,
        (line.replace tail same).append (by simp [hx]) (newline_notMem_gap blank), good,
        by simp [hx], agrees_lexeme hx hprev change agrees.laterAfter⟩

end Retouch.Scan
