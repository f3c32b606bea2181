import Retouch.Fixes.Exceptions
import Retouch.Proofs.Collapsing
import Retouch.Proofs.LeafTokens

/-!
# Trees in round brackets

In a program a node that begins with a round bracket has nothing or one tree in its brackets
(`Derives.bracketed`), as the tables show.  A symbol with a single token is that token itself, so
the test for tuples tells how many tokens there are: all is taken for a tuple that is not a single token
in brackets (`isTuple_iff`).  Tuples are, and so are other expressions, of which `raise` then keeps a
part (`raise_attribute`).
-/

namespace Retouch

open List OrderedMap Tree Language.Symbol

open Retouch.Language (bracketKinds closesAt keepsBrackets)

/-! ## Children of a node with brackets -/

/-- Round brackets with nothing or one tree between them. -/
inductive Bracketed : List SyntaxTree → Prop
  | empty {a b : Leaf} (opening : a.kind = Kind.leftParen) (closing : b.kind = Kind.rightParen) :
    Bracketed [.leaf () a, .leaf () b]
  | around {a b : Leaf} (opening : a.kind = Kind.leftParen) {t : SyntaxTree} (filled : t.leaves ≠ [])
    (closing : b.kind = Kind.rightParen) : Bracketed [.leaf () a, t, .leaf () b]

variable {g : Grammar} {shape : Shape} {M : Kind → SyntaxTree → Prop} {k : Kind} {i q r : Nat}
  {labels : List Nat} {c n tree : SyntaxTree} {cs : List SyntaxTree} {table : Grammar.Entry}

theorem Stands.closing (hg : g.Faithful) (check : closesAt g table (i, r) = true)
    (stand : Stands g shape M i c) (rest : Forall₂ (Stands g shape M) labels cs)
    (path : table.run? r labels = some q) : ∃ b, c = .leaf () b ∧ b.kind = Kind.rightParen ∧ cs = [] := by
  simp only [closesAt, Bool.and_eq_true, beq_iff_eq, all_eq_true] at check
  obtain ⟨⟨-, kind⟩, last⟩ := check
  have none : cs = [] := by
    cases rest with
    | nil => rfl
    | cons next _ =>
      obtain ⟨r', step, -⟩ := Option.bind_eq_some_iff.1 path
      exact absurd (last _ (Grammar.Entry.mem_of_next? step)) (next.label_ne_zero hg)
  rcases stand with ⟨t, label, rfl⟩ | ⟨k, label, -⟩
  · exact ⟨_, rfl, (hg.kind t i label).1.symm.trans kind, none⟩
  · have symbol := label.1
    exact absurd (symbol.symm.trans kind ▸ label.2) (by decide)

/-- **A node that begins with a round bracket is in brackets.** -/
theorem Derives.bracketed (hg : g.Faithful) (check : keepsBrackets g = true) (h : Derives g shape k tree) :
    ∀ n ∈ tree.nodes, ∀ a cs, n.children = .leaf () a :: cs → a.kind = Kind.leftParen →
      Bracketed n.children ∧ n.kind ∈ bracketKinds := by
  rw [keepsBrackets, Bool.and_eq_true] at check
  obtain ⟨lone, all⟩ := check
  refine h.forall_nodes (fun _ _ _ => nofun) ?_
  rintro k table labels _ q entry stands - path final a cs rfl opening
  cases stands with
  | @cons i _ labels _ first rest =>
  obtain ⟨r, step, path⟩ := Option.bind_eq_some_iff.1 path
  have reach := (marks_lone hg lone).reaches hg first
    (⟨a, rfl, by simpa using opening⟩ : IsLone (· == .leftParen) (.leaf () a))
  have label : g.labelKind i = .leftParen := by
    unfold Grammar.reaches at reach
    split at reach
    · cases reach
    · simpa using reach
  have after := all_eq_true.1 (all_eq_true.1 all (k, table) (mem_of_get? entry)) (i, r)
    (Grammar.Entry.mem_of_next? step)
  simp only [label, bne_self_eq_false, Bool.false_or, Bool.and_eq_true, contains_iff_mem, all_eq_true,
    Bool.or_eq_true, decide_eq_true_eq] at after
  obtain ⟨kind, arcs⟩ := after
  refine ⟨?_, kind⟩
  have unclosed (q : Nat) : ¬ closesAt g table (0, q) = true := nofun
  cases rest with
  | nil =>
    cases path
    rcases arcs _ final with closes | ⟨symbol, -⟩
    · exact absurd closes (unclosed _)
    · exact absurd symbol (not_le.2 hg.zero)
  | cons second later =>
    obtain ⟨_, step₁, path⟩ := Option.bind_eq_some_iff.1 path
    rcases arcs _ (Grammar.Entry.mem_of_next? step₁) with closes | ⟨-, closes⟩
    · obtain ⟨b, rfl, closing, rfl⟩ := second.closing hg closes later path
      exact .empty opening closing
    · cases later with
      | nil =>
        cases path
        exact absurd (closes _ final) (unclosed _)
      | cons third later =>
        obtain ⟨_, step₂, path⟩ := Option.bind_eq_some_iff.1 path
        obtain ⟨b, rfl, closing, rfl⟩ :=
          third.closing hg (closes _ (Grammar.Entry.mem_of_next? step₂)) later path
        exact .around opening second.leaves_ne_nil closing

/-! ## Brackets as they are written -/

/-- Tokens that are scanned have kinds that tell less than the parser asks for. -/
theorem Scan.Made.kind_notMem {t : Token} (h : Made t) : t.kind ∉ [Kind.leftParen, Kind.rightParen] := by
  cases h with
  | loose kind => rcases kind with kind | kind | kind <;> exact kind ▸ by decide
  | mark kind => rcases kind with kind | kind <;> exact kind ▸ by decide
  | indent kind | string kind => exact kind ▸ by decide
  | plain depth kind =>
    rw [kind]
    unfold plainKind
    repeat' split
    all_goals decide

theorem value_of_bracket {lines : List Text} {source : Source} (hg : g ∈ Language.grammars)
    (parsed : Source.parseLines g shape lines = .ok source) {l : Leaf} (mem : l ∈ source.tree.leaves) :
    (l.value.is "(" = true → l.kind = Kind.leftParen) ∧ (l.kind = Kind.leftParen → l.value = .text "(") ∧
      (l.kind = Kind.rightParen → l.value = .text ")") := by
  have operators : ∀ op ∈ Kind.operators, (op.2 = Kind.leftParen → op.1 = "(".toList) ∧
      (op.2 = Kind.rightParen → op.1 = ")".toList) := by decide
  obtain ⟨t, ht, -, kind, value⟩ := Source.value_of_leaf (Language.closed_of_mem hg).predictive parsed l mem
  refine ⟨fun bracket => ?_, ?_⟩
  · rw [value, Value.is, beq_iff_eq] at bracket
    exact Source.kind_of_ofOperator? hg parsed mem (by rw [value, bracket]; rfl)
  · rw [value]
    unfold Source.parserKind at kind
    split at kind
    · split at kind
      · rename_i k found
        cases kind
        have op := operators _ (@mem_of_get? _ _ _ _ _ Kind.operators _ found)
        exact ⟨fun h => congrArg Value.text (op.1 h), fun h => congrArg Value.text (op.2 h)⟩
      · cases kind
    · have other := (Scan.scan_made lines t ht).kind_notMem
      rw [Except.ok.inj kind, mem_pair, not_or] at other
      exact ⟨fun h => absurd h other.1, fun h => absurd h other.2⟩

/-! ## Nodes that look like tuples -/

/-- Is the first child a round bracket? -/
def opens (n : SyntaxTree) : Bool := (n.children.head?.map (Tree.isText "(")).getD false

/-- Is the tree a tuple in round brackets: nothing in them, or elements with a comma? -/
def isDisplay (n : SyntaxTree) : Bool :=
  n.kind == atom && opens n && (n.leaves.length == 2 ||
    n.children.any fun c => c.kind == testlistGexp && c.children.any (·.kind == Kind.comma))

theorem Derives.two_le_leaves (h : Derives g .collapsed k tree) {n : SyntaxTree} (hn : n ∈ tree.nodes)
    (node : n.isLeaf = false) : 2 ≤ n.leaves.length := by
  have filled := fun c hc =>
    length_pos_iff.2 (h.leaves_nodes_ne_nil c (child_mem_nodes hn hc))
  have many := (h.branches n hn).resolve_left (by simp [node])
  cases n with
  | leaf => cases node
  | node _ _ cs =>
    match cs with
    | a :: b :: cs =>
      have first := filled a mem_cons_self
      have second := filled b (mem_cons_of_mem a mem_cons_self)
      simp only [leaves, leavesAll, length_append]
      omega

section

variable {lines : List Text} {source : Source} (hg : g ∈ Language.grammars)
  (parsed : Source.parseLines g .collapsed lines = .ok source) (hn : n ∈ source.tree.nodes)
include hg parsed hn

theorem bracketed_of_opens (begins : opens n = true) :
    Bracketed n.children ∧ n.kind ∈ bracketKinds ∧ (Query.isTuple n = true ↔ n.leaves.length ≠ 3) := by
  obtain ⟨faithful, -, -, -, -, -, -, check⟩ := Language.checked_of_mem hg
  obtain ⟨derived, -⟩ := Source.parseScan_ok faithful.predictive parsed
  have spelled {l : Leaf} (hl : .leaf () l ∈ n.children) := value_of_bracket hg parsed
    (leaves_subset_of_mem_nodes (child_mem_nodes hn hl) (mem_singleton_self l))
  have first : ∃ a cs, n.children = .leaf () a :: cs ∧ a.value.is "(" = true := by
    unfold opens at begins
    match children : n.children with
    | [] => exact nomatch children ▸ begins
    | .leaf _ a :: cs => exact ⟨a, cs, rfl, (children ▸ begins :)⟩
    | .node .. :: cs => exact nomatch (children ▸ begins :)
  obtain ⟨a, cs, children, text⟩ := first
  obtain ⟨brackets, kind⟩ := derived.bracketed faithful check n hn a cs children
    ((spelled (children ▸ mem_cons_self)).1 text)
  refine ⟨brackets, kind, ?_⟩
  cases n with
  | leaf => cases children
  | node i k cs =>
    cases brackets with
    | @empty a b opening closing =>
      have left : a.value = .text "(" := (spelled mem_cons_self).2.1 opening
      have right : b.value = .text ")" := (spelled (mem_cons_of_mem _ mem_cons_self)).2.2 closing
      simp [Query.isTuple, Query.isNode, isLeaf, Tree.children, Tree.kind, isText, value?, token?, Value.is,
        leaves, leavesAll, left, right, opening, closing]
    | @around a b opening t filled closing =>
      have left : a.value = .text "(" := (spelled mem_cons_self).2.1 opening
      have right : b.value = .text ")" := (spelled (by simp [Tree.children])).2.2 closing
      have inner : t ∈ source.tree.nodes := child_mem_nodes hn (by simp [Tree.children])
      simp [Query.isTuple, Query.isNode, isLeaf, Tree.children, isText, value?, token?, Value.is, leaves, leavesAll,
        left, right]
      cases t with
      | leaf => simp [leaves]
      | node =>
        have many := derived.two_le_leaves inner rfl
        simp
        omega

/-- **What passes for a tuple.** -/
theorem isTuple_iff :
    (Query.isTuple n = true ↔ opens n = true ∧ n.leaves.length ≠ 3) ∧
      (Query.isTuple n = true → n.kind ∈ bracketKinds) ∧ (isDisplay n = true → Query.isTuple n = true) := by
  have opening : Query.isTuple n = true → opens n = true := by
    intro tuple
    rw [Query.isTuple, Bool.and_eq_true] at tuple
    unfold opens
    match children : n.children with
    | [] | [_] | _ :: _ :: _ :: _ :: _ => simp [children] at tuple
    | [a, b] => simp_all
    | [a, b, c] => simp_all
  refine ⟨⟨fun tuple => ⟨opening tuple, ?_⟩, fun h => ?_⟩, fun tuple => ?_, fun display => ?_⟩
  · exact (bracketed_of_opens hg parsed hn (opening tuple)).2.2.1 tuple
  · exact (bracketed_of_opens hg parsed hn h.1).2.2.2 h.2
  · exact (bracketed_of_opens hg parsed hn (opening tuple)).2.1
  · simp only [isDisplay, Bool.and_eq_true, Bool.or_eq_true, beq_iff_eq, any_eq_true] at display
    obtain ⟨⟨-, opens⟩, kinds⟩ := display
    obtain ⟨derived, -⟩ := Source.parseScan_ok (Language.closed_of_mem hg).predictive parsed
    obtain ⟨brackets, -, tuple⟩ := bracketed_of_opens hg parsed hn opens
    refine tuple.2 ?_
    rcases kinds with two | ⟨c, hc, -, d, hd, -⟩
    · simp [two]
    · have inner : c.isLeaf = false := by
        cases c with
        | leaf => cases hd
        | node => rfl
      have many := derived.two_le_leaves (child_mem_nodes hn hc) inner
      cases n with
      | leaf => cases hc
      | node i k cs =>
        replace brackets : Bracketed cs := brackets
        cases brackets with
        | empty =>
          rcases mem_pair.1 hc with rfl | rfl <;> cases hd
        | around =>
          simp [Tree.children] at hc
          rcases hc with rfl | rfl | rfl
          · cases hd
          · simp [leaves, leavesAll]
            omega
          · cases hd

end

/-- The arguments of a call pass for a tuple. -/
theorem isTuple_iff_arguments : ∃ source n,
    Source.parse Language.grammar .collapsed Language.sample = .ok source ∧ n ∈ source.tree.nodes ∧
      n.kind = trailer ∧ Query.isTuple n = true := by
  obtain ⟨-, -, parsed⟩ := Language.ofText_grammarText
  obtain ⟨n, hn, found⟩ : ∃ n ∈ Language.sampleSource.tree.nodes, n.kind = trailer ∧
      opens n = true ∧ n.leaves.length ≠ 3 := by decide
  exact ⟨_, n, parsed, hn, found.1, (isTuple_iff mem_cons_self parsed hn).1.2 found.2⟩

/-- `raise (a.b), v`. -/
def sampleRaise : SyntaxTree :=
  let word (kind : Kind) (w lead : Text) : SyntaxTree := .leaf () { Leaf.ofText kind w with lead }
  .node () raiseStmt [word Kind.name "raise" [], .node () atom
    [word Kind.leftParen "(" [' '], .node () power [word Kind.name "a" [],
      .node () trailer [word Kind.dot "." [], word Kind.name "b" []]],
      word Kind.rightParen ")" []], word Kind.comma "," [], word Kind.name "v" [' ']]

/-- An attribute in brackets passes for a tuple, and what comes before the point for its first element. -/
theorem raise_attribute :
    let job : Job := { forest := (Forest.ofTree sampleRaise).2 }
    Query.isTuple (job.forest.view 2) = true ∧
      (match Fixes.raise.transform 0 [("exc".toList, .one 2), ("val".toList, .one 11)] job with
        | .ok (.put new) job' => job'.forest.text new
        | _ => []) = "raise a(v)".toList := by
  decide +kernel

end Retouch
