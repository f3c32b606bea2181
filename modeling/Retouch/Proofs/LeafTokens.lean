import Retouch.Proofs.LanguageTables
import Retouch.Proofs.LexemeStops
import Retouch.Proofs.PatternTrees

/-!
# Leaves and the tokens they come from

The characters of a token tell whether it is an operator: a token that looks like one is one, or else
stands in no tree (`Scan.Made.telling`).  Numbers, names and strings begin with characters that begin no
operator, apart from numbers that begin with a point.  So a leaf of a program that looks like an
operator has the kind of that operator (`Source.kind_of_ofOperator?`), and the leaf that marks the end
of a program has no characters (`Source.exists_leaf_shown_eq_nil`).
-/

namespace Retouch

/-! ## Tokens that look like operators -/

namespace Kind

def operatorHeads : List Char :=
  ['(', ')', '[', ']', ':', ',', ';', '+', '-', '*', '/', '|', '&', '<', '>', '=', '.', '%', '\x60',
    '\x7b', '\x7d', '@', '!', '~', '^']

theorem operators_heads : ∀ op ∈ operators, (match op.1 with
    | [] => false
    | c :: cs => operatorHeads.contains c && (c != '.' || cs == [])) = true := by
  decide

theorem head_of_ofOperator? {x : Text} {k : Kind} (h : ofOperator? x = some k) :
    ∃ c cs, x = c :: cs ∧ c ∈ operatorHeads ∧ (c = '.' → cs = []) := by
  have check := operators_heads _ (@OrderedMap.mem_of_get? _ _ _ _ _ operators _ h)
  split at check
  · cases check
  · rename_i c cs eq
    simp only [Bool.and_eq_true, List.contains_iff_mem, Bool.or_eq_true, bne_iff_ne, beq_iff_eq] at check
    refine ⟨c, cs, eq, check.1, fun point => ?_⟩
    exact check.2.resolve_left fun other => other point

end Kind

namespace Scan

open Lexeme (isQuote isStringLetter forall_mem_of_all)

/-- A token that looks like an operator is one, or stands in no tree, and the mark of the end has no
characters. -/
structure Telling (t : Token) : Prop where
  operator : ∀ k, Kind.ofOperator? t.text = some k →
    t.kind = Kind.operator ∨ t.kind = Kind.stray ∨ t.kind = Kind.comment ∨ t.kind = Kind.lineBreak
  ending : t.kind = Kind.endMarker → t.text = []

theorem telling_of_heads {t : Token} (h : ∀ c ∈ Kind.operatorHeads, t.text.head? ≠ some c)
    (ending : t.kind = Kind.endMarker → t.text = []) : Telling t := by
  refine ⟨fun k found => ?_, ending⟩
  obtain ⟨c, cs, eq, mem, -⟩ := Kind.head_of_ofOperator? found
  rw [eq] at h
  exact absurd rfl (h c mem)

theorem head_of_isString {x : Text} (h : isString x = true) :
    ∃ c cs, x = c :: cs ∧ (isStringLetter c || isQuote c) = true := by
  cases x with
  | nil => cases h
  | cons c cs =>
    refine ⟨c, cs, rfl, ?_⟩
    by_cases none : Lexeme.stringLetters (c :: cs) = 0
    · rw [isString, none] at h
      rw [Bool.or_eq_true]
      exact .inr h
    · have letter := Lexeme.stringLetters_takes (c :: cs) c (by
        obtain ⟨n, eq⟩ := Nat.exists_eq_succ_of_ne_zero none
        rw [eq]
        exact List.mem_cons_self)
      rw [letter, Bool.true_or]

theorem operator_of_plainKind {depth : Int} {x : Text} {k : Kind} (found : Kind.ofOperator? x = some k) :
    plainKind depth x = Kind.operator := by
  have heads : ∀ c ∈ Kind.operatorHeads, c.isDigit = false ∧ (c == '\r' || c == '\n') = false ∧
      (c == '#') = false ∧ Lexeme.isNameStart c = false ∧ (c == '\\') = false :=
    forall_mem_of_all (by decide)
  obtain ⟨c, cs, rfl, mem, point⟩ := Kind.head_of_ofOperator? found
  obtain ⟨digit, lineEnd, comment, name, backslash⟩ := heads c mem
  have single : (c == '.' && c :: cs != ['.']) = false := by
    by_cases dot : c = '.'
    · rw [dot, point dot]
      rfl
    · rw [beq_false_of_ne dot, Bool.false_and]
  rw [plainKind]
  simp [digit, single, lineEnd, comment, name, backslash]

theorem Made.telling {t : Token} (h : Made t) : Telling t := by
  cases h with
  | loose kind =>
    refine ⟨fun _ _ => .inr kind, fun ending => ?_⟩
    rw [ending] at kind
    exact absurd kind (by decide)
  | mark _ empty => exact telling_of_heads (fun c _ eq => by rw [empty] at eq; cases eq) fun _ => empty
  | indent kind blank =>
    have apart : ∀ c ∈ Kind.operatorHeads, Lexeme.isSeparator c = false := forall_mem_of_all (by decide)
    refine telling_of_heads (fun c hc head => ?_) fun ending => ?_
    · have separator := blank c (List.mem_of_mem_head? head)
      rw [apart c hc] at separator
      cases separator
    · rw [kind] at ending
      cases ending
  | string kind text begins =>
    have apart : ∀ c ∈ Kind.operatorHeads, (isStringLetter c || isQuote c) = false :=
      forall_mem_of_all (by decide)
    obtain ⟨c, cs, rfl, head⟩ := head_of_isString begins
    refine telling_of_heads (fun d hd eq => ?_) fun ending => ?_
    · rw [text] at eq
      rw [Option.some.inj eq, apart d hd] at head
      cases head
    · rw [kind] at ending
      cases ending
  | plain depth kind =>
    refine ⟨fun k found => .inl (kind.trans (operator_of_plainKind found)), fun ending => ?_⟩
    exact absurd (kind.symm.trans ending) (plainKind_ne_endMarker depth t.text)

end Scan

/-! ## Leaves that look like operators -/

theorem Derives.kind_of_leaf {g : Grammar} {shape : Shape} {k : Kind} {tree : SyntaxTree}
    (h : Derives g shape k tree) :
    ∀ l ∈ tree.leaves, l.kind = Kind.name ∨ ∃ i, OrderedMap.get? g.tokens l.kind = some i := by
  refine induction
    (P := fun _ t => ∀ l ∈ t.leaves, l.kind = .name ∨ ∃ i, OrderedMap.get? g.tokens l.kind = some i)
    ?_ h
  intro k _ _ _ q _ stands _ _ _ l hl
  rw [Shape.leaves_tree, Tree.leavesAll_eq_flatMap] at hl
  obtain ⟨t, ht, hl⟩ := List.mem_flatMap.1 hl
  obtain ⟨i, ⟨_, label, rfl⟩ | ⟨_, _, _, holds⟩⟩ := exists_stands stands ht
  · rw [List.mem_singleton.1 hl]
    exact (Grammar.classify_eq_some label).imp (fun word => word.1) fun known => ⟨i, known⟩
  · exact holds l hl

namespace Source

variable {g : Grammar} {shape : Shape}

variable {source : Source} {lines : List Text}

theorem value_of_leaf (hg : g.Predictive) (h : parseLines g shape lines = .ok source) :
    ∀ l ∈ source.tree.leaves,
      ∃ t ∈ (scan lines).tokens, isTrivia t = false ∧ Becomes t l := by
  intro l hl
  obtain ⟨_, first, become⟩ := leaves_of_parseScan hg h
  obtain ⟨t, ht, becomes⟩ := Grammar.exists_of_forall₂_right become hl
  obtain ⟨mem, other⟩ := List.mem_filter.1 (first.subset ht)
  exact ⟨t, mem, by simpa using other, becomes⟩

/-- **A leaf of a program that looks like an operator has the kind of the operator.** -/
theorem kind_of_ofOperator? (hg : g ∈ Language.grammars) (h : parseLines g shape lines = .ok source)
    {l : Leaf} (mem : l ∈ source.tree.leaves) {k : Kind}
    (found : Kind.ofOperator? l.value.shown = some k) : l.kind = k := by
  have closed := Language.closed_of_mem hg
  obtain ⟨t, ht, other, kind, value⟩ := value_of_leaf closed.predictive h l mem
  rw [value] at found
  have shown : Kind.ofOperator? t.text = some k := found
  have trivia : ¬ (t.kind = .comment ∨ t.kind = .lineBreak) := by
    simpa [isTrivia] using other
  rcases (Scan.scan_made lines t ht).telling.operator k shown with operator | stray | comment | lineBreak
  · rw [parserKind, if_pos operator, shown] at kind
    exact (Except.ok.inj kind).symm
  · rw [parserKind, stray] at kind
    have eq := Except.ok.inj kind
    rcases (parseScan_ok closed.predictive h).1.kind_of_leaf l mem with name | ⟨i, token⟩
    · rw [← eq] at name
      cases name
    · rw [← eq, closed.stray] at token
      cases token
  · exact absurd (.inl comment) trivia
  · exact absurd (.inr lineBreak) trivia

/-- A program has a leaf without characters: its last one, which marks the end. -/
theorem exists_leaf_shown_eq_nil (hg : g ∈ Language.grammars)
    (h : parseLines g shape lines = .ok source) : ∃ l ∈ source.tree.leaves, l.value.shown = [] := by
  have closed := Language.closed_of_mem hg
  obtain ⟨derived, -⟩ := parseScan_ok closed.predictive h
  have nonempty := derived.leaves_nodes_ne_nil source.tree (Tree.self_mem_nodes _)
  have last := List.getLast?_eq_some_getLast nonempty
  have mem := List.getLast_mem nonempty
  refine ⟨_, mem, ?_⟩
  obtain ⟨t, ht, -, kind, value⟩ := value_of_leaf closed.predictive h _ mem
  rw [closed.ending shape _ derived _ last] at kind
  rw [value]
  exact (Scan.scan_made lines t ht).telling.ending (Pattern.Language.kind_of_parserKind kind)

end Source

end Retouch
