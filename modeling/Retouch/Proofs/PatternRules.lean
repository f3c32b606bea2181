import Retouch.Pattern.Compile
import Retouch.Proofs.RuleTables

/-!
# The rules of the language of patterns

The rules of the language as expressions (`languageRules`), the label of a token in them
(`Language.label`), and what is checked of the tables that are made from them: one token of look-ahead
is enough, and every label of the rules is the label of one kind of tokens or the word `not`
(`Language.Suits`).  So a label of the rules is the label of a token exactly if the parser gives the
token the number of the label (`Language.Made.eq_label_iff`).
-/

namespace Retouch

open List OrderedMap

/-! ## The rules of the language -/

namespace Pattern

open Grammar

def languageRules : List Rule :=
  let details : Ebnf := .optional (.label "Details")
  let repeats : Ebnf := .optional (.label "Repeater")
  let inside (opening closing : Label) : Ebnf :=
    .sequence (.sequence (.label opening) (.label "Alternatives")) (.label closing)
  [⟨"Matcher", .sequence (.label "Alternatives") (.label "ENDMARKER")⟩,
    ⟨"Alternatives", .sequence (.label "Alternative")
      (.star (.sequence (.label "'|'") (.label "Alternative")))⟩,
    ⟨"Alternative", .plus (.alternatives [.label "Unit", .label "NegatedUnit"])⟩,
    ⟨"Unit", .sequence (.optional (.sequence (.label "NAME") (.label "'='")))
      (.alternatives [.sequence (.label "STRING") repeats,
        .sequence (.sequence (.label "NAME") details) repeats,
        .sequence (inside "'('" "')'") repeats,
        inside "'['" "']'"])⟩,
    ⟨"NegatedUnit", .sequence (.label "'not'")
      (.alternatives [.label "STRING", .sequence (.label "NAME") details, inside "'('" "')'"])⟩,
    ⟨"Repeater", .alternatives [.label "'*'", .label "'+'",
      .sequence (.sequence (.sequence (.label "'\x7b'") (.label "NUMBER"))
        (.optional (.sequence (.label "','") (.label "NUMBER")))) (.label "'\x7d'")]⟩,
    ⟨"Details", inside "'<'" "'>'"⟩]

namespace Language

/-! ## Labels of tokens -/

def kinds : List Kind := List.range 57 ++ [256]

/-- The label of a kind of tokens in the rules: the operator in quotes, or else the name. -/
def kindLabel (k : Kind) : Label :=
  match Kind.operators.find? fun op => op.2 = k with
  | some (op, _) => "'" ++ op ++ "'"
  | none => (Kind.tokenName? k).getD []

/-- The label of a token in the rules.  The name `not` is a word of its own. -/
def label (t : Input) : Label :=
  if t.kind = Kind.name ∧ t.value = "not" then "'not'" else kindLabel t.kind

variable {k : Kind}

theorem kindLabel_of_notMem (h : k ∉ kinds) : kindLabel k = [] := by
  have known : ∀ op ∈ Kind.operators, op.2 ∈ kinds := by decide
  have bounds : 57 ≤ k ∧ k ≠ 256 := by
    rwa [kinds, mem_append, mem_range, mem_singleton, not_or, not_lt] at h
  have none : Kind.operators.find? (fun op => op.2 = k) = none := by
    refine find?_eq_none.2 fun op hop same => h ?_
    rw [← of_decide_eq_true same]
    exact known op hop
  have unnamed : Kind.tokenNames[k]? = .none := getElem?_eq_none bounds.1
  rw [kindLabel, none]
  simp only [Kind.tokenName?, Kind.firstSymbol, bounds.2, unnamed]
  rfl

/-! ## What is checked of the tables -/

/-- Is the label of the rules the one label of a kind of tokens, or the word `not`? -/
def spells (g : Grammar) (l : Label) : Bool :=
  match meaning g.symbols l with
  | .ok (.token k) => has g.tokens k && kinds.contains k && l != "'not'" &&
      kinds.all fun k' => (kindLabel k' == l) == (k' == k)
  | .ok (.keyword w) => w == "not" && l == "'not'" && kinds.all fun k' => kindLabel k' != l
  | _ => false

def follow (g : Grammar) (k : Kind) : List Nat := (get? (followSets g 7) k).getD []

def symbols : OrderedMap Text Kind :=
  [("Matcher", matcher), ("Alternative", alternative), ("Alternatives", alternatives),
    ("Details", details), ("NegatedUnit", negatedUnit), ("Repeater", repeater), ("Unit", unit)]

/-- The tables fit the rules of the language. -/
@[mk_iff]
structure Suits (g : Grammar) : Prop where
  looksAhead : g.LooksAhead (follow g) (beginDepth g 7)
  start : g.start = matcher
  symbols : g.symbols = symbols
  keywords : keys g.keywords = [("not" : Text)]
  spelled : ∀ l ∈ terminals languageRules, spells g l = true

instance (g : Grammar) : Decidable (Suits g) := decidable_of_iff _ (suits_iff g).symm

-- The text is read once for all that is checked, as reading it takes the most time.
set_option maxRecDepth 100000 in
theorem languageText_checked :
    (match Reader.rules languageText, Grammar.ofText languageText with
      | .ok rules, .ok g => decide (rules = languageRules ∧ Suits g)
      | _, _ => false) = true := by
  decide +kernel

theorem rules_languageText : Reader.rules languageText = .ok languageRules := by
  have check := languageText_checked
  split at check
  · rename_i rules g read made
    rw [read, (of_decide_eq_true check).1]
  · cases check

theorem ofText_languageText : ofText languageText = .ok languageGrammar ∧
    Suits languageGrammar := by
  have check := languageText_checked
  split at check
  · rename_i rules g read made
    have eq : languageGrammar = g := by rw [languageGrammar, made]; rfl
    exact ⟨eq ▸ made, eq ▸ (of_decide_eq_true check).2⟩
  · cases check

theorem languageRules_faithful : ∀ r ∈ languageRules, r.rhs.Faithful := by
  have separate : ∀ r ∈ languageRules, r.rhs.Separate = true := by decide
  exact fun r hr => Ebnf.faithful_of_separate (separate r hr)

/-- The tables are made from the rules of the language. -/
structure Made (g : Grammar) : Prop where
  suits : Suits g
  predictive : g.Predictive
  labelled : Labelled g
  tables : RuleTables languageRules g

theorem made_languageGrammar : Made languageGrammar := by
  obtain ⟨made, suits⟩ := ofText_languageText
  obtain ⟨predictive, labelled⟩ := ofText_predictive made
  exact ⟨suits, predictive, labelled, ofText_ruleTables rules_languageText made (by decide)⟩

/-! ## Labels and their numbers -/

variable {g : Grammar}

theorem Suits.classify_eq (h : Suits g) (t : Input) : Parser.classify g t =
    if t.kind = Kind.name ∧ t.value = "not" then get? g.keywords "not"
    else get? g.tokens t.kind := by
  have has : ∀ w : Text, (get? g.keywords w).isSome = true ↔ w = "not" := by
    intro w
    have mem := has_iff_mem_keys g.keywords w
    rwa [h.keywords, mem_singleton] at mem
  unfold Parser.classify
  by_cases name : t.kind = .name
  · by_cases word : t.value = "not"
    · obtain ⟨i, hi⟩ := Option.isSome_iff_exists.1 ((has t.value).2 word)
      simp only [name, word, and_self, if_true, word ▸ hi]
    · have none := Option.not_isSome_iff_eq_none.1 (mt (has t.value).1 word)
      simp only [name, word, and_false, if_true, if_false, none]
  · simp [name]

theorem get?_tokens_ne (labelled : Labelled g) {w : Text} {i : Nat}
    (token : get? g.tokens k = some i) : get? g.keywords w ≠ some i := by
  intro keyword
  cases (labelled.token k i token).2.symm.trans (labelled.keyword w i keyword).2

theorem get?_tokens_injective (labelled : Labelled g) {k' : Kind} {i : Nat}
    (token : get? g.tokens k = some i) (token' : get? g.tokens k' = some i) :
    k' = k := by
  cases (labelled.token k i token).2.symm.trans (labelled.token k' i token').2
  rfl

/-- A label of the rules is the label of a token exactly if the parser gives it the same number. -/
theorem Made.eq_label_iff (h : Made g) {l : Label} (hl : l ∈ terminals languageRules) (t : Input) :
    l = label t ↔ ∃ i, Numbered g l i ∧ Parser.classify g t = some i := by
  have check := h.suits.spelled l hl
  unfold spells at check
  rw [label, h.suits.classify_eq]
  split at check
  · rename_i k token
    have number : ∀ i, Numbered g l i ↔ get? g.tokens k = some i := by
      intro i
      rw [Numbered, token]
    simp only [Bool.and_eq_true, all_eq_true, beq_iff_eq, bne_iff_ne, contains_iff_mem] at check
    obtain ⟨⟨⟨has, known⟩, other⟩, all⟩ := check
    simp only [number]
    split
    · refine iff_of_false other ?_
      rintro ⟨i, token, keyword⟩
      exact get?_tokens_ne h.labelled token keyword
    · have same : l = kindLabel t.kind ↔ t.kind = k := by
        by_cases mem : t.kind ∈ kinds
        · rw [eq_comm, ← beq_iff_eq, all _ mem, beq_iff_eq]
        · rw [kindLabel_of_notMem mem]
          refine iff_of_false ?_ fun eq => mem (eq ▸ known)
          rintro rfl
          cases token
      rw [same]
      constructor
      · rintro rfl
        obtain ⟨i, hi⟩ := Option.isSome_iff_exists.1 has
        exact ⟨i, hi, hi⟩
      · rintro ⟨i, token, token'⟩
        exact get?_tokens_injective h.labelled token token'
  · simp only [Bool.and_eq_true, all_eq_true, beq_iff_eq, bne_iff_ne] at check
    obtain ⟨⟨rfl, rfl⟩, all⟩ := check
    split
    · have has : has g.keywords ("not" : Text) = true := by
        rw [has_iff_mem_keys, h.suits.keywords]
        exact mem_singleton_self _
      obtain ⟨i, hi⟩ := Option.isSome_iff_exists.1 has
      exact iff_of_true rfl ⟨i, hi, hi⟩
    · refine iff_of_false (fun same => ?_) ?_
      · by_cases mem : t.kind ∈ kinds
        · exact all _ mem same.symm
        · rw [kindLabel_of_notMem mem] at same
          cases same
      · rintro ⟨i, keyword, token⟩
        exact get?_tokens_ne h.labelled token keyword
  · cases check

end Language

end Pattern

end Retouch
