import Retouch.Proofs.PatternParsing

/-!
# Trees of the language of patterns

The tree of a text in the language derives from `Matcher` (`Made.derives_of_parseBy`).  For
every rule there is a lemma that says what the children of its trees are.
-/

namespace Retouch

open List

namespace Pattern.Language

open Grammar

variable {g : Grammar}

theorem Made.derives_of_parseBy (h : Made g) {text : Text} {tree : SyntaxTree}
    (parsed : parseBy g text = .ok tree) : Derives g .full matcher tree := by
  unfold parseBy at parsed
  split at parsed
  · rename_i source run
    cases parsed
    rw [← h.suits.start]
    exact (Source.parseScan_ok h.predictive run).1
  · cases parsed

/-! ## Children -/

def IsToken (k : Kind) (c : SyntaxTree) : Prop := ∃ t : Input, c = t.leaf ∧ t.kind = k

def LabelsToken (l : Label) (k : Kind) : Prop :=
  (∀ r ∈ languageRules, r.name ≠ l) ∧ l ≠ "'not'" ∧ l ≠ [] ∧ ∀ k' ∈ kinds, kindLabel k' = l → k' = k

instance (l : Label) (k : Kind) : Decidable (LabelsToken l k) :=
  inferInstanceAs (Decidable (_ ∧ _))

def LabelsSymbol (l : Label) (k : Kind) : Prop :=
  OrderedMap.get? symbols l = some k ∧ l ∉ terminals languageRules

instance (l : Label) (k : Kind) : Decidable (LabelsSymbol l k) := inferInstanceAs (Decidable (_ ∧ _))

abbrev Stands (g : Grammar) (l : Label) (c : SyntaxTree) : Prop :=
  RuleTables.StandsFor languageRules g .full l c

variable {c t : SyntaxTree} {k : Kind} {l : Label} {cs : List SyntaxTree}

theorem Made.isToken (h : Made g) (label : LabelsToken l k) (stands : Stands g l c) : IsToken k c := by
  obtain ⟨terminal, other, nonempty, only⟩ := label
  cases stands with
  | @token t i mem leaf classified number =>
    refine ⟨t, leaf, ?_⟩
    have eq := (h.eq_label_iff mem t).2 ⟨i, number, classified⟩
    unfold label at eq
    split at eq
    · exact absurd eq other
    · refine only t.kind ?_ eq.symm
      by_contra unknown
      exact nonempty (eq.trans (kindLabel_of_notMem unknown))
  | symbol mem name => exact absurd name (terminal _ mem)

theorem Made.derives (h : Made g) (label : LabelsSymbol l k) (stands : Stands g l c) :
    Derives g .full k c := by
  cases stands with
  | token mem => exact absurd mem label.2
  | symbol _ _ symbol derived =>
    rw [h.suits.symbols, label.1] at symbol
    cases symbol
    exact derived

/-! ### Labels and rules -/

def tokenLabels : List (Label × Kind) :=
  [("NAME", Kind.name), ("STRING", Kind.string), ("NUMBER", Kind.number),
    ("ENDMARKER", Kind.endMarker), ("'('", Kind.leftParen), ("')'", Kind.rightParen),
    ("'['", Kind.leftBracket), ("']'", Kind.rightBracket), ("'<'", 20), ("'>'", 21), ("'\x7b'", 26),
    ("'\x7d'", 27), ("'|'", 18), ("','", Kind.comma), ("'='", Kind.equal), ("'*'", Kind.star),
    ("'+'", Kind.plus)]

def ruleKinds : List Kind :=
  [matcher, alternatives, alternative, unit, negatedUnit, repeater, details]

theorem rules_checked : (∀ e ∈ tokenLabels, LabelsToken e.1 e.2) ∧
    (∀ e ∈ symbols, LabelsSymbol e.1 e.2) ∧
    languageRules.map (fun r => OrderedMap.get? symbols r.name) = ruleKinds.map some := by
  decide +kernel

theorem labelsToken (i : Nat) (h : tokenLabels[i]? = some (l, k)) : LabelsToken l k :=
  rules_checked.1 (l, k) (mem_of_getElem? h)

theorem labelsSymbol (i : Nat) (h : symbols[i]? = some (l, k)) : LabelsSymbol l k :=
  rules_checked.2.1 (l, k) (mem_of_getElem? h)

theorem rule_unique {i : Nat} {r r' : Rule} (kind : ruleKinds[i]? = some k)
    (rule : languageRules[i]? = some r') (mem : r ∈ languageRules)
    (symbol : OrderedMap.get? symbols r.name = some k) : r = r' := by
  obtain ⟨j, hj⟩ := mem_iff_getElem?.1 mem
  have known : (ruleKinds.map some)[j]? = some (some k) := by
    rw [← rules_checked.2.2, getElem?_map, hj, Option.map_some, symbol]
  have once : ruleKinds[j]? = some k := by
    rw [getElem?_map] at known
    obtain ⟨k', hk, eq⟩ := Option.map_eq_some_iff.1 known
    rw [hk, Option.some.inj eq]
  have distinct : ruleKinds.Nodup := by decide
  obtain rfl : i = j := by
    have bound := (List.getElem?_eq_some_iff.1 kind).1
    exact (getElem?_inj bound distinct).1 (kind.trans once.symm)
  rw [hj] at rule
  exact Option.some.inj rule

theorem Made.exists_word (h : Made g) (i : Nat) {name : Label} (rhs : Ebnf)
    (kind : ruleKinds[i]? = some k) (rule : languageRules[i]? = some ⟨name, rhs⟩)
    (derived : Derives g .full k t) :
    ∃ w ∈ rhs.language, ∃ cs, t = .node () k cs ∧ Forall₂ (Stands g) w cs := by
  obtain ⟨r, mem, symbol, w, word, cs, rfl, stands⟩ :=
    h.tables.exists_word_of_derives h.suits.looksAhead languageRules_faithful derived
  rw [h.suits.symbols] at symbol
  rw [rule_unique kind rule mem symbol] at word
  exact ⟨w, word, cs, rfl, stands⟩

theorem labels_name : LabelsToken "NAME" Kind.name := labelsToken 0 rfl

theorem labels_string : LabelsToken "STRING" Kind.string := labelsToken 1 rfl

theorem labels_number : LabelsToken "NUMBER" Kind.number := labelsToken 2 rfl

theorem labels_alternatives : LabelsSymbol "Alternatives" alternatives := labelsSymbol 2 rfl

theorem labels_alternative : LabelsSymbol "Alternative" alternative := labelsSymbol 1 rfl

theorem labels_details : LabelsSymbol "Details" details := labelsSymbol 3 rfl

theorem labels_repeater : LabelsSymbol "Repeater" repeater := labelsSymbol 5 rfl

theorem labels_leftParen : LabelsToken "'('" Kind.leftParen := labelsToken 4 rfl

theorem labels_rightParen : LabelsToken "')'" Kind.rightParen := labelsToken 5 rfl

section Words

variable {l : Label} {w : List Label} {cs : List SyntaxTree}

theorem stands_cons (h : Forall₂ (Stands g) (l :: w) cs) :
    ∃ c cs', cs = c :: cs' ∧ Stands g l c ∧ Forall₂ (Stands g) w cs' := by
  obtain ⟨c, cs', first, later, eq⟩ := forall₂_cons_left_iff.1 h
  exact ⟨c, cs', eq, first, later⟩

theorem stands_nil (h : Forall₂ (Stands g) [] cs) : cs = [] := forall₂_nil_left_iff.1 h

theorem stands_singleton (h : Forall₂ (Stands g) [l] cs) : ∃ c, cs = [c] ∧ Stands g l c := by
  obtain ⟨c, _, rfl, first, later⟩ := stands_cons h
  rw [stands_nil later]
  exact ⟨c, rfl, first⟩

theorem stands_append {w' : List Label} (h : Forall₂ (Stands g) (w ++ w') cs) :
    ∃ as bs, cs = as ++ bs ∧ Forall₂ (Stands g) w as ∧ Forall₂ (Stands g) w' bs := by
  have first := forall₂_take w.length h
  have later := forall₂_drop w.length h
  rw [take_left] at first
  rw [drop_left] at later
  exact ⟨_, _, (take_append_drop w.length cs).symm, first, later⟩

end Words

abbrev Is (g : Grammar) (k : Kind) (c : SyntaxTree) : Prop := Derives g .full k c

variable (h : Made g)
include h

theorem Made.matcher_children (derived : Is g matcher t) :
    ∃ a z, t = .node () matcher [a, z] ∧ Is g alternatives a ∧ IsToken Kind.endMarker z := by
  obtain ⟨_, ⟨_, rfl, _, rfl, rfl⟩, cs, rfl, stands⟩ :=
    h.exists_word 0 (.sequence (.label "Alternatives") (.label "ENDMARKER")) rfl rfl derived
  obtain ⟨a, _, rfl, ha, later⟩ := stands_cons stands
  obtain ⟨z, rfl, hz⟩ := stands_singleton later
  exact ⟨a, z, rfl, h.derives labels_alternatives ha, h.isToken (labelsToken 3 rfl) hz⟩

/-- Alternatives with a bar between each two. -/
inductive Alternated (g : Grammar) : List SyntaxTree → Prop
  | one {c : SyntaxTree} (first : Is g alternative c) : Alternated g [c]
  | more {c bar : SyntaxTree} {cs : List SyntaxTree} (first : Is g alternative c)
      (between : IsToken 18 bar) (later : Alternated g cs) : Alternated g (c :: bar :: cs)

theorem Made.alternatives_children (derived : Is g alternatives t) :
    ∃ cs, t = .node () alternatives cs ∧ Alternated g cs := by
  obtain ⟨_, ⟨_, rfl, w, word, rfl⟩, cs, rfl, stands⟩ := h.exists_word 1
    (.sequence (.label "Alternative") (.star (.sequence (.label "'|'") (.label "Alternative"))))
    rfl rfl derived
  refine ⟨cs, rfl, ?_⟩
  obtain ⟨parts, rfl, made⟩ := Language.mem_kstar.1 word
  obtain ⟨c, cs, rfl, hc, later⟩ := stands_cons stands
  clear stands derived word
  induction parts generalizing c cs with
  | nil =>
    rw [stands_nil later]
    exact .one (h.derives labels_alternative hc)
  | cons part parts ih =>
    obtain ⟨⟨_, rfl, _, rfl, rfl⟩, others⟩ := forall_mem_cons.1 made
    obtain ⟨_, _, rfl, hbar, later⟩ := stands_cons later
    obtain ⟨c', cs, rfl, hc', later⟩ := stands_cons later
    exact .more (h.derives labels_alternative hc) (h.isToken (labelsToken 12 rfl) hbar)
      (ih others c' cs hc' later)

theorem Made.alternative_children (derived : Is g alternative t) :
    ∃ cs, t = .node () alternative cs ∧ ∀ c ∈ cs, Is g unit c ∨ Is g negatedUnit c := by
  obtain ⟨w, word, cs, rfl, stands⟩ := h.exists_word 2
    (.plus (.alternatives [.label "Unit", .label "NegatedUnit"])) rfl rfl derived
  refine ⟨cs, rfl, fun c hc => ?_⟩
  have labels : ∀ l ∈ w, l = "Unit" ∨ l = "NegatedUnit" := by
    intro l hl
    have mem := Ebnf.mem_labels _ w word l hl
    simpa [Ebnf.labels, Ebnf.labelsAny] using mem
  obtain ⟨l, hl, hc⟩ := exists_of_forall₂_right stands hc
  rcases labels l hl with rfl | rfl
  · exact .inl (h.derives (labelsSymbol 6 rfl) hc)
  · exact .inr (h.derives (labelsSymbol 4 rfl) hc)

/-- What a unit is about: a literal, a name with or without details, or something in brackets. -/
inductive Basic (g : Grammar) : List SyntaxTree → Prop
  | string {c : SyntaxTree} (string : IsToken Kind.string c) : Basic g [c]
  | name {c : SyntaxTree} (name : IsToken Kind.name c) : Basic g [c]
  | details {c d : SyntaxTree} (name : IsToken Kind.name c) (inside : Is g details d) : Basic g [c, d]
  | bracketed {a b c : SyntaxTree} {k k' : Kind} (opening : IsToken k a) (inside : Is g alternatives b)
      (closing : IsToken k' c) (kind : k ∈ [Kind.leftParen, Kind.leftBracket]) (kind' : k' ≠ repeater) :
      Basic g [a, b, c]

theorem Made.bracketed_children {opening closing : Label} {k' : Kind}
    (labels : LabelsToken opening k) (labels' : LabelsToken closing k')
    (stands : Forall₂ (Stands g) [opening, "Alternatives", closing] cs) :
    ∃ a b c, cs = [a, b, c] ∧ IsToken k a ∧ Is g alternatives b ∧ IsToken k' c := by
  obtain ⟨a, _, rfl, ha, later⟩ := stands_cons stands
  obtain ⟨b, _, rfl, hb, later⟩ := stands_cons later
  obtain ⟨c, rfl, hc⟩ := stands_singleton later
  exact ⟨a, b, c, rfl, h.isToken labels ha, h.derives labels_alternatives hb, h.isToken labels' hc⟩

theorem Made.details_children (derived : Is g details t) :
    ∃ a b c, t = .node () details [a, b, c] ∧ IsToken 20 a ∧ Is g alternatives b ∧
      IsToken 21 c := by
  obtain ⟨_, ⟨_, ⟨_, rfl, _, rfl, rfl⟩, _, rfl, rfl⟩, cs, rfl, stands⟩ := h.exists_word 6
    (.sequence (.sequence (.label "'<'") (.label "Alternatives")) (.label "'>'")) rfl rfl derived
  obtain ⟨a, b, c, rfl, ha, hb, hc⟩ :=
    h.bracketed_children (labelsToken 8 rfl) (labelsToken 9 rfl) stands
  exact ⟨a, b, c, rfl, ha, hb, hc⟩

/-- The children of a repeater: a mark, or numbers in braces. -/
inductive Repeats : List SyntaxTree → Prop
  | star {c : SyntaxTree} (mark : IsToken Kind.star c) : Repeats [c]
  | plus {c : SyntaxTree} (mark : IsToken Kind.plus c) : Repeats [c]
  | exactly {a n c : SyntaxTree} {k : Kind} (opening : IsToken 26 a) (number : IsToken Kind.number n)
      (closing : IsToken k c) : Repeats [a, n, c]
  | between {a m b n c : SyntaxTree} {k k' : Kind} (opening : IsToken 26 a)
      (low : IsToken Kind.number m) (comma : IsToken k b) (high : IsToken Kind.number n)
      (closing : IsToken k' c) : Repeats [a, m, b, n, c]

theorem Made.repeater_children (derived : Is g repeater t) :
    ∃ cs, t = .node () repeater cs ∧ Repeats cs := by
  obtain ⟨w, word, cs, rfl, stands⟩ := h.exists_word 5
    (.alternatives [.label "'*'", .label "'+'",
      .sequence (.sequence (.sequence (.label "'\x7b'") (.label "NUMBER"))
        (.optional (.sequence (.label "','") (.label "NUMBER")))) (.label "'\x7d'")])
    rfl rfl derived
  refine ⟨cs, rfl, ?_⟩
  rcases word with rfl | rfl | word | none
  · obtain ⟨c, rfl, hc⟩ := stands_singleton stands
    exact .star (h.isToken (labelsToken 15 rfl) hc)
  · obtain ⟨c, rfl, hc⟩ := stands_singleton stands
    exact .plus (h.isToken (labelsToken 16 rfl) hc)
  · obtain ⟨_, ⟨_, ⟨_, rfl, _, rfl, rfl⟩, _, second, rfl⟩, _, rfl, rfl⟩ := word
    have opens := labelsToken 10 rfl
    have closes := labelsToken 11 rfl
    obtain ⟨a, _, rfl, ha, later⟩ := stands_cons stands
    obtain ⟨m, _, rfl, hm, later⟩ := stands_cons later
    rcases second with rfl | ⟨_, rfl, _, rfl, rfl⟩
    · obtain ⟨c, rfl, hc⟩ := stands_singleton later
      exact .exactly (h.isToken opens ha) (h.isToken labels_number hm) (h.isToken closes hc)
    · obtain ⟨b, _, rfl, hb, later⟩ := stands_cons later
      obtain ⟨n, _, rfl, hn, later⟩ := stands_cons later
      obtain ⟨c, rfl, hc⟩ := stands_singleton later
      exact .between (h.isToken opens ha) (h.isToken labels_number hm)
        (h.isToken (labelsToken 13 rfl) hb) (h.isToken labels_number hn) (h.isToken closes hc)
  · exact none.elim

theorem Made.basic_of_name {w : List Label}
    (word : w ∈ (Ebnf.sequence (.label "NAME") (.optional (.label "Details"))).language)
    (stands : Forall₂ (Stands g) w cs) : Basic g cs := by
  obtain ⟨_, rfl, _, second, rfl⟩ := word
  obtain ⟨c, _, rfl, hc, later⟩ := stands_cons stands
  rcases second with rfl | rfl
  · rw [stands_nil later]
    exact .name (h.isToken labels_name hc)
  · obtain ⟨d, rfl, hd⟩ := stands_singleton later
    exact .details (h.isToken labels_name hc) (h.derives labels_details hd)

theorem Made.basic_of_group {w : List Label}
    (word : w ∈ (Ebnf.sequence (.sequence (.label "'('") (.label "Alternatives"))
      (.label "')'")).language) (stands : Forall₂ (Stands g) w cs) : Basic g cs := by
  obtain ⟨_, ⟨_, rfl, _, rfl, rfl⟩, _, rfl, rfl⟩ := word
  obtain ⟨a, b, c, rfl, ha, hb, hc⟩ := h.bracketed_children labels_leftParen labels_rightParen stands
  exact .bracketed ha hb hc (by decide) (by decide)

theorem Made.basic_of_string (stands : Forall₂ (Stands g) [("STRING" : Text)] cs) :
    Basic g cs := by
  obtain ⟨c, rfl, hc⟩ := stands_singleton stands
  exact .string (h.isToken labels_string hc)

theorem Made.isToken_not (stands : Stands g "'not'" c) :
    IsToken Kind.name c ∧ leafText c = "not" := by
  have other : ∀ k ∈ kinds, kindLabel k ≠ "'not'" := by decide
  cases stands with
  | @token t i mem leaf classified number =>
    have eq := (h.eq_label_iff mem t).2 ⟨i, number, classified⟩
    unfold label at eq
    split at eq
    · rename_i word
      rw [leaf]
      exact ⟨⟨t, rfl, word.1⟩, word.2⟩
    · by_cases known : t.kind ∈ kinds
      · exact absurd eq.symm (other t.kind known)
      · exact absurd (eq.trans (kindLabel_of_notMem known)) (by decide)
  | symbol mem name => exact absurd name ((by decide : ∀ r ∈ languageRules, r.name ≠ "'not'") _ mem)

theorem Made.negatedUnit_children (derived : Is g negatedUnit t) :
    ∃ c cs, t = .node () negatedUnit (c :: cs) ∧ (IsToken Kind.name c ∧ leafText c = "not") ∧
      Basic g cs := by
  obtain ⟨_, ⟨_, rfl, w, word, rfl⟩, cs, rfl, stands⟩ := h.exists_word 4
    (.sequence (.label "'not'") (.alternatives [.label "STRING",
      .sequence (.label "NAME") (.optional (.label "Details")),
      .sequence (.sequence (.label "'('") (.label "Alternatives")) (.label "')'")]))
    rfl rfl derived
  obtain ⟨c, cs, rfl, hc, later⟩ := stands_cons stands
  refine ⟨c, cs, rfl, h.isToken_not hc, ?_⟩
  rcases word with rfl | word | word | none
  · exact h.basic_of_string later
  · exact h.basic_of_name word later
  · exact h.basic_of_group word later
  · exact none.elim

/-- The children of a unit: maybe a name and a token, what it is about, and maybe a repeater. -/
structure UnitOf (g : Grammar) (front basic back : List SyntaxTree) : Prop where
  front : front = [] ∨ ∃ n e, front = [n, e] ∧ IsToken Kind.name n ∧ IsToken Kind.equal e
  basic : Basic g basic
  back : back = [] ∨ ∃ r, back = [r] ∧ Is g repeater r

theorem Made.unit_children (derived : Is g unit t) :
    ∃ front basic back, t = .node () unit (front ++ (basic ++ back)) ∧ UnitOf g front basic back := by
  obtain ⟨_, ⟨_, named, _, word, rfl⟩, cs, rfl, stands⟩ := h.exists_word 3
    (.sequence (.optional (.sequence (.label "NAME") (.label "'='")))
      (.alternatives [.sequence (.label "STRING") (.optional (.label "Repeater")),
        .sequence (.sequence (.label "NAME") (.optional (.label "Details")))
          (.optional (.label "Repeater")),
        .sequence (.sequence (.sequence (.label "'('") (.label "Alternatives")) (.label "')'"))
          (.optional (.label "Repeater")),
        .sequence (.sequence (.label "'['") (.label "Alternatives")) (.label "']'")]))
    rfl rfl derived
  obtain ⟨front, cs, rfl, hfront, hcs⟩ := stands_append stands
  have front_eq : front = [] ∨ ∃ n e, front = [n, e] ∧ IsToken .name n ∧ IsToken .equal e := by
    rcases named with rfl | ⟨_, rfl, _, rfl, rfl⟩
    · exact .inl (stands_nil hfront)
    · obtain ⟨n, _, rfl, hn, later⟩ := stands_cons hfront
      obtain ⟨e, rfl, he⟩ := stands_singleton later
      exact .inr ⟨n, e, rfl, h.isToken labels_name hn, h.isToken (labelsToken 14 rfl) he⟩
  have repeated : ∀ {w cs}, w ∈ (Ebnf.optional (.label "Repeater")).language →
      Forall₂ (Stands g) w cs → cs = [] ∨ ∃ r, cs = [r] ∧ Is g repeater r := by
    rintro _ cs (rfl | rfl) stands
    · exact .inl (stands_nil stands)
    · obtain ⟨r, rfl, hr⟩ := stands_singleton stands
      exact .inr ⟨r, rfl, h.derives labels_repeater hr⟩
  rcases word with ⟨w, rfl, w', last, rfl⟩ | ⟨w, word, w', last, rfl⟩ | ⟨w, word, w', last, rfl⟩ |
    word | none
  · obtain ⟨basic, back, rfl, hbasic, hback⟩ := stands_append hcs
    exact ⟨front, basic, back, rfl, front_eq, h.basic_of_string hbasic, repeated last hback⟩
  · obtain ⟨basic, back, rfl, hbasic, hback⟩ := stands_append hcs
    exact ⟨front, basic, back, rfl, front_eq, h.basic_of_name word hbasic, repeated last hback⟩
  · obtain ⟨basic, back, rfl, hbasic, hback⟩ := stands_append hcs
    exact ⟨front, basic, back, rfl, front_eq, h.basic_of_group word hbasic, repeated last hback⟩
  · obtain ⟨_, ⟨_, rfl, _, rfl, rfl⟩, _, rfl, rfl⟩ := word
    obtain ⟨a, b, c, rfl, ha, hb, hc⟩ :=
      h.bracketed_children (labelsToken 6 rfl) (labelsToken 7 rfl) hcs
    exact ⟨front, [a, b, c], [], rfl, front_eq, .bracketed ha hb hc (by decide) (by decide), .inl rfl⟩
  · exact none.elim

end Pattern.Language

end Retouch
