import Retouch.Proofs.LanguageChecks
import Retouch.Proofs.Lossless
import Retouch.Proofs.Predictive

/-!
# The tables of the language

Each part of the check of the tables has a meaning for all programs: a program ends with the end of the
text (`closed_of_mem`), a line does not begin with a comma, a colon or an equal sign
(`isChain_layout_mark`), an operator between two operands is not at the start of a line
(`isChain_layout_operator`), and next to an equal sign stands nothing that would join it
(`isChain_joins_equal`, `isChain_equal_begins`).

The tables in which `print` is a plain name differ in their keywords only, which no part of the check
looks at.
-/

namespace Retouch.Language

open List OrderedMap

/-! ## The two grammars of programs -/

/-- The grammars of programs: `print` is a keyword in one and a plain name in the other. -/
def grammars : List Grammar := [grammar, grammarWithoutPrint]

theorem move_of_keywords (g : Grammar) (words : OrderedMap Text Nat) (label : Nat)
    (arcs : Grammar.State) :
    Parser.move { g with keywords := words } label arcs = Parser.move g label arcs := by
  induction arcs with
  | nil => rfl
  | cons arc arcs ih => simp [Parser.move, Parser.begun?, Grammar.labelKind, ih]

theorem faithful_of_keywords {g : Grammar} (predictive : g.Predictive) (labelled : g.Labelled)
    (tokens : ∀ e ∈ g.tokens, e.1 < Kind.firstSymbol) {words : OrderedMap Text Nat}
    (fewer : ∀ w i, get? words w = some i → get? g.keywords w = some i) :
    Grammar.Faithful { g with keywords := words } := by
  refine ⟨⟨?_, ?_⟩, ?_, ?_⟩
  · intro t i h
    rcases Grammar.classify_eq_some h with ⟨_, word⟩ | token
    · exact ne_of_gt (labelled.keyword _ i (fewer _ i word)).1
    · exact ne_of_gt (labelled.token _ i token).1
  · intro k table label entry first
    rw [move_of_keywords]
    exact predictive.first_moves k table label entry first
  · intro t i h
    rcases Grammar.classify_eq_some h with ⟨name, word⟩ | token
    · have label := (labelled.keyword _ i (fewer _ i word)).2
      rw [name]
      exact ⟨by simp [Grammar.labelKind, label], by decide⟩
    · have label := (labelled.token _ i token).2
      exact ⟨by simp [Grammar.labelKind, label], tokens _ (mem_of_get? token)⟩
  · obtain ⟨word, zero⟩ := labelled.zero
    simp [Grammar.labelKind, zero, Kind.firstSymbol]

theorem closes_of_fits {g : Grammar} (h : fits g = true) :
    closes g = true ∧ keepsMarks g = true ∧ keepsOperators g = true ∧ keepsEquals g = true ∧
      namesSymbols g = true ∧ keepsTop g = true ∧ keepsBrackets g = true := by
  simpa only [fits, Bool.and_eq_true, and_assoc] using h

variable {g : Grammar} {shape : Shape} {tree : SyntaxTree}

theorem faithful_of_fits {text : Text} (made : Grammar.ofText text = .ok g) (fit : fits g = true)
    (word : Text) : g.Faithful ∧ (g.dropKeyword word).Faithful := by
  obtain ⟨predictive, labelled⟩ := Grammar.ofText_predictive made
  have tokens : ∀ e ∈ g.tokens, e.1 < .firstSymbol := by
    have check := (closes_of_fits fit).1
    simp only [closes, Bool.and_eq_true, all_eq_true, decide_eq_true_eq] at check
    exact check.1.1
  exact ⟨faithful_of_keywords predictive labelled tokens fun _ _ found => found,
    faithful_of_keywords predictive labelled tokens fun _ _ found =>
      get?_of_get?_erase found⟩

theorem fits_dropKeyword (fit : fits g = true) (word : Text) : fits (g.dropKeyword word) = true := fit

section

variable (hg : g ∈ grammars)
include hg

theorem checked_of_mem : g.Faithful ∧ closes g = true ∧ keepsMarks g = true ∧
    keepsOperators g = true ∧ keepsEquals g = true ∧ namesSymbols g = true ∧ keepsTop g = true ∧
    keepsBrackets g = true := by
  obtain ⟨made, fit, _⟩ := ofText_grammarText
  obtain ⟨faithful, without⟩ := faithful_of_fits made fit "print"
  rw [grammars, mem_pair] at hg
  rcases hg with hg | hg
  · rw [hg]
    exact ⟨faithful, closes_of_fits fit⟩
  · rw [hg]
    exact ⟨without, closes_of_fits (fits_dropKeyword fit _)⟩

/-! ## What the check says of programs -/

/-- A program ends with the end of the text, and stray characters are no part of it. -/
theorem closed_of_mem : g.Closed := by
  obtain ⟨faithful, check, -⟩ := checked_of_mem hg
  simp only [closes, Bool.and_eq_true, all_eq_true] at check
  obtain ⟨⟨-, tokens⟩, ends⟩ := check
  refine ⟨faithful.predictive, ?_, ?_⟩
  · intro _ _ derived l hl
    by_contra other
    have member := (marks_ends faithful ends).node derived ⟨l, hl, by simpa using other⟩
    simp at member
  · have stray := tokens Kind.stray (by decide)
    simpa [has, get?, isProgramToken] using stray

theorem has_tokens_iff {k : Kind} : has g.tokens k = true ↔ isProgramToken k = true := by
  obtain ⟨-, check, -⟩ := checked_of_mem hg
  simp only [closes, Bool.and_eq_true, all_eq_true, mem_range, decide_eq_true_eq,
    beq_iff_eq] at check
  obtain ⟨⟨small, same⟩, -⟩ := check
  constructor
  · intro token
    obtain ⟨v, found⟩ := Option.isSome_iff_exists.1 token
    exact same k (small _ (mem_of_get? found)) ▸ token
  · intro token
    have below := decide_eq_true_iff.1 (Bool.and_eq_true_iff.1 token).1
    rwa [same k (lt_trans below (by decide))]

theorem isProgramKind_of_mem {k : Kind} (known : k ∈ g.symbols.map Prod.snd ∨ has g.tokens k = true) :
    isProgramKind k = true := by
  rw [isProgramKind, Bool.or_eq_true]
  rcases known with symbol | token
  · obtain ⟨e, he, rfl⟩ := mem_map.1 symbol
    obtain ⟨-, -, -, -, -, named, -⟩ := checked_of_mem hg
    exact .inl (all_eq_true.1 named e he)
  · exact .inr ((has_tokens_iff hg).1 token)

variable (h : Derives g shape g.start tree)
include h

/-- A line does not begin with a comma, a colon or an equal sign. -/
theorem isChain_layout_mark :
    (tree.leaves.IsChain fun l r => ¬(isLayout l.kind = true ∧ isMark r.kind = true)) ∧
      ∀ l, tree.leaves.head? = some l → isMark l.kind = false := by
  obtain ⟨faithful, -, check, -⟩ := checked_of_mem hg
  simp only [keepsMarks, Bool.and_eq_true] at check
  obtain ⟨⟨⟨ends, begins⟩, apart⟩, start⟩ := check
  refine ⟨h.neighbours faithful ends begins apart, fun l hl => ?_⟩
  by_contra mark
  have member := (marks_begins faithful begins).node h ⟨l, hl, by simpa using mark⟩
  simp [member] at start

/-- An operator that follows something in a node is not at the start of a line. -/
theorem isChain_layout_operator :
    ∀ n ∈ tree.nodes, n.children.IsChain fun c d =>
      ¬(EndsWith isLayout c ∧ IsLone isArithmetic d) := by
  obtain ⟨faithful, -, -, check, -⟩ := checked_of_mem hg
  simp only [keepsOperators, Bool.and_eq_true] at check
  exact h.siblings faithful check.2 (marks_ends faithful check.1.1) (marks_lone faithful check.1.2)

/-- No equal sign stands after an operator that it would join. -/
theorem isChain_joins_equal :
    tree.leaves.IsChain fun l r => ¬(joinsEqual l.kind = true ∧ (r.kind == Kind.equal) = true) := by
  obtain ⟨faithful, -, -, -, check, -⟩ := checked_of_mem hg
  simp only [keepsEquals, Bool.and_eq_true] at check
  exact h.neighbours faithful check.1.1.1.1.1 check.1.1.1.1.2 check.1.1.1.2

/-- No operator that begins with an equal sign stands after one. -/
theorem isChain_equal_begins :
    tree.leaves.IsChain fun l r => ¬((l.kind == Kind.equal) = true ∧ beginsEqual r.kind = true) := by
  obtain ⟨faithful, -, -, -, check, -⟩ := checked_of_mem hg
  simp only [keepsEquals, Bool.and_eq_true] at check
  refine (h.neighbours faithful check.1.1.2 check.1.2 check.2).imp fun l r apart both => ?_
  refine apart ⟨both.1, ?_⟩
  rw [cannotFollowEqual, both.2, Bool.true_or]

theorem isChain_equal_comma :
    ∀ n ∈ tree.nodes, n.children.IsChain fun c d =>
      ¬(EndsWith (· == Kind.equal) c ∧ BeginsWith (· == Kind.comma) d) := by
  obtain ⟨faithful, -, -, -, check, -⟩ := checked_of_mem hg
  simp only [keepsEquals, Bool.and_eq_true] at check
  intro n hn
  refine (h.siblings faithful check.2 (marks_ends faithful check.1.1.2)
    (marks_begins faithful check.1.2) n hn).imp fun c d apart both => ?_
  obtain ⟨l, first, comma⟩ := both.2
  exact apart ⟨both.1, l, first, Bool.or_eq_true_iff.2 (.inr comma)⟩

theorem not_isSign_of_root :
    ∀ c ∈ tree.children, ¬ IsLone isSign c := by
  obtain ⟨faithful, -, -, -, -, -, top, -⟩ := checked_of_mem hg
  rw [keepsTop, Bool.and_eq_true] at top
  exact h.root_lacks faithful top.1 top.2

end

end Retouch.Language
