import Mathlib.Data.List.Chain
import Mathlib.Data.List.GetD
import Retouch.Proofs.Derivation
import Retouch.Proofs.Tables

/-!
# Which tokens stand next to each other

Two tokens are neighbours in a program where two labels follow each other in the automaton of some
symbol, the first token at the end of what one label stands for and the second at the beginning of
what the other one does.  So whether tokens of certain kinds are ever neighbours is decided by the
tables (`Grammar.apart`), given the symbols that can end or begin with such tokens.  The sets of
symbols are given, and it is checked that they are large enough (`endsIn`, `beginsIn`, `loneIn`).
-/

namespace Retouch

open List OrderedMap

namespace Grammar

/-! ## Checks of the tables -/

def Entry.isFinal (e : Entry) (q : Nat) : Bool := (e.states.getD q []).contains (0, q)

/-- Does the label stand for a token of kind `p`, or for a symbol in the set? -/
def reaches (g : Grammar) (p : Kind → Bool) (set : List Kind) (i : Nat) : Bool :=
  if Kind.firstSymbol ≤ g.labelKind i then set.contains (g.labelKind i) else p (g.labelKind i)

/-- Is every symbol that can end in a token of kind `p` in the set? -/
def endsIn (g : Grammar) (p : Kind → Bool) (set : List Kind) : Bool :=
  g.entries.all fun (k, e) => e.states.all fun arcs => arcs.all fun (i, q) =>
    i == 0 || !e.isFinal q || !g.reaches p set i || set.contains k

/-- Is every symbol that can begin with a token of kind `p` in the set? -/
def beginsIn (g : Grammar) (p : Kind → Bool) (set : List Kind) : Bool :=
  g.entries.all fun (k, e) => (e.states.getD 0 []).all fun (i, _) =>
    i == 0 || !g.reaches p set i || set.contains k

/-- Is every symbol that can be a single token of kind `p` in the set? -/
def loneIn (g : Grammar) (p : Kind → Bool) (set : List Kind) : Bool :=
  g.entries.all fun (k, e) => (e.states.getD 0 []).all fun (i, q) =>
    i == 0 || !e.isFinal q || !g.reaches p set i || set.contains k

/-- Does no label that satisfies `q` ever follow one that satisfies `p`? -/
def apart (g : Grammar) (p q : Nat → Bool) : Bool :=
  g.entries.all fun (_, e) => e.states.all fun arcs => arcs.all fun (i, r) =>
    i == 0 || !p i || (e.states.getD r []).all fun (j, _) => j == 0 || !q j

/-- Does no label of the start symbol satisfy `p`, and does a tree of it never end in a node? -/
def rootLacks (g : Grammar) (p : Nat → Bool) : Bool :=
  g.entries.all fun (k, e) => k != g.start || e.states.all fun arcs => arcs.all fun (i, q) =>
    i == 0 || !p i && (!e.isFinal q || g.labelKind i < Kind.firstSymbol)

/-- The label of a token tells its kind. -/
structure Faithful (g : Grammar) : Prop where
  predictive : g.Predictive
  kind : ∀ t i, Parser.classify g t = some i → g.labelKind i = t.kind ∧ t.kind < Kind.firstSymbol
  zero : g.labelKind 0 < Kind.firstSymbol

end Grammar

/-! ## Induction on derivations -/

/-- The label stands for the tree: for the token, or for a symbol from which the tree derives and for
which `P` holds. -/
def Stands (g : Grammar) (shape : Shape) (P : Kind → SyntaxTree → Prop) (i : Nat)
    (tree : SyntaxTree) : Prop :=
  (∃ t : Input, Parser.classify g t = some i ∧ tree = t.leaf) ∨
    ∃ k, g.LabelOf k i ∧ Derives g shape k tree ∧ P k tree

variable {g : Grammar} {shape : Shape}

variable {P M : Kind → SyntaxTree → Prop} {k : Kind} {tree : SyntaxTree} {i q : Nat}
  {children : List SyntaxTree} {labels : List Nat} {p : Kind → Bool}

theorem Derives.induction
    (step : ∀ {k table labels children q}, get? g.entries k = some table →
      Forall₂ (Stands g shape P) labels children → children ≠ [] →
      table.run? 0 labels = some q → table.Final q → P k (shape.tree k children))
    (h : Derives g shape k tree) : P k tree :=
  @Derives.rec g shape (fun k tree _ => P k tree)
    (fun labels trees _ => Forall₂ (Stands g shape P) labels trees)
    (fun entry _ nonempty path final children => step entry children nonempty path final) .nil
    (fun label _ rest => .cons (.inl ⟨_, label, rfl⟩) rest)
    (fun label derived _ holds rest => .cons (.inr ⟨_, label, derived, holds⟩) rest) k tree h

theorem Stands.label_ne_zero (hg : g.Faithful) (h : Stands g shape P i tree) : i ≠ 0 := by
  rcases h with ⟨t, label, _⟩ | ⟨k, label, _⟩
  · exact hg.predictive.label_ne_zero t i label
  · rintro rfl
    have := hg.zero
    rw [Grammar.labelKind, label.1] at this
    exact absurd label.2 (not_le.2 this)

theorem Stands.of_derived {Q : Kind → SyntaxTree → Prop} (h : Stands g shape P i tree)
    (all : ∀ k t, Derives g shape k t → Q k t) : Stands g shape Q i tree := by
  rcases h with token | ⟨k, label, derived, _⟩
  · exact .inl token
  · exact .inr ⟨k, label, derived, all k tree derived⟩

theorem exists_stands (h : Forall₂ (Stands g shape P) labels children) {t : SyntaxTree}
    (ht : t ∈ children) : ∃ i, Stands g shape P i t := by
  induction h with
  | nil => cases ht
  | cons stand _ ih =>
    rcases mem_cons.1 ht with rfl | ht
    · exact ⟨_, stand⟩
    · exact ih ht

theorem Stands.reaches (hg : g.Faithful) {R : SyntaxTree → Prop} {set : List Kind}
    (leaf : ∀ t : Input, R t.leaf → p t.kind = true)
    (h : Stands g shape (fun k t => R t → k ∈ set) i tree) (hR : R tree) :
    g.reaches p set i = true := by
  unfold Grammar.reaches
  rcases h with ⟨t, label, rfl⟩ | ⟨k, label, _, member⟩
  · obtain ⟨kind, token⟩ := hg.kind t i label
    rw [kind, if_neg (not_le.2 token)]
    exact leaf t hR
  · have kind : g.labelKind i = k := label.1
    rw [kind, if_pos label.2, contains_iff_mem]
    exact member hR

theorem Derives.leaves_ne_nil (h : Derives g shape k tree) : tree.leaves ≠ [] := by
  refine induction (P := fun _ t => t.leaves ≠ []) ?_ h
  intro k _ _ _ q _ stands nonempty _ _
  rw [Shape.leaves_tree]
  cases stands with
  | nil => exact absurd rfl nonempty
  | cons first _ =>
    simp only [Tree.leavesAll, ne_eq, append_eq_nil_iff, not_and]
    intro none
    rcases first with ⟨t, _, rfl⟩ | ⟨_, _, _, some⟩
    · cases none
    · exact absurd none some

theorem Stands.leaves_ne_nil (h : Stands g shape P i tree) : tree.leaves ≠ [] := by
  rcases h with ⟨t, _, rfl⟩ | ⟨_, _, derived, _⟩
  · simp [Input.leaves_leaf]
  · exact derived.leaves_ne_nil

/-! ## Ends and beginnings -/

theorem Grammar.Entry.isFinal_iff {e : Entry} : e.isFinal q = true ↔ e.Final q := contains_iff_mem

/-- The last leaf is of kind `p`. -/
def EndsWith (p : Kind → Bool) (t : SyntaxTree) : Prop :=
  ∃ l, t.leaves.getLast? = some l ∧ p l.kind = true

/-- The first leaf is of kind `p`. -/
def BeginsWith (p : Kind → Bool) (t : SyntaxTree) : Prop :=
  ∃ l, t.leaves.head? = some l ∧ p l.kind = true

/-- The tree is a leaf of kind `p`. -/
def IsLone (p : Kind → Bool) (t : SyntaxTree) : Prop :=
  ∃ l, t = .leaf () l ∧ p l.kind = true

section Sets

variable {set : List Kind} (hg : g.Faithful)
include hg

/-- The property shows in the kind of a token, and in the symbol from which a tree derives. -/
structure Marks (g : Grammar) (shape : Shape) (p : Kind → Bool) (set : List Kind)
    (R : SyntaxTree → Prop) : Prop where
  leaf : ∀ t : Input, R t.leaf → p t.kind = true
  node : ∀ {k t}, Derives g shape k t → R t → k ∈ set

theorem Marks.reaches {R : SyntaxTree → Prop} (h : Marks g shape p set R)
    (stand : Stands g shape P i tree) (hR : R tree) : g.reaches p set i = true :=
  (stand.of_derived fun _ _ => h.node).reaches hg h.leaf hR

omit hg in
theorem forall₂_concat {α β : Type} {R : α → β → Prop} {l : List α} {front : List β} {c : β}
    (h : Forall₂ R l (front ++ [c])) : ∃ ls i, l = ls ++ [i] ∧ R i c := by
  obtain ⟨i, _, hi, empty, eq⟩ :=
    forall₂_cons_right_iff.1 (forall₂_drop_append _ _ _ h)
  rw [forall₂_nil_right_iff.1 empty] at eq
  exact ⟨l.take front.length, i, by rw [← eq, take_append_drop], hi⟩

theorem marks_ends (check : g.endsIn p set = true) : Marks g shape p set (EndsWith p) := by
  have leaf : ∀ t : Input, EndsWith p t.leaf → p t.kind = true := by
    rintro t ⟨l, hl, hp⟩
    cases hl
    exact hp
  refine ⟨leaf, Derives.induction (P := fun k t => EndsWith p t → k ∈ set) ?_⟩
  intro k table _ children q entry stands nonempty path final ends
  rcases eq_nil_or_concat children with rfl | ⟨_, c, rfl⟩
  · exact absurd rfl nonempty
  · rw [concat_eq_append] at stands ends
    obtain ⟨ls, i, rfl, stand⟩ := forall₂_concat stands
    have last : EndsWith p c := by
      obtain ⟨l, hl, hp⟩ := ends
      rw [Shape.leaves_tree, Tree.leavesAll_append, Tree.leavesAll, Tree.leavesAll, append_nil,
        getLast?_append_of_ne_nil _ stand.leaves_ne_nil] at hl
      exact ⟨l, hl, hp⟩
    have reach := stand.reaches hg leaf last
    obtain ⟨r, _, step⟩ : ∃ r, table.run? 0 ls = some r ∧ table.next? r i = some q := by
      rw [Grammar.Entry.run?_append] at path
      obtain ⟨r, hr, path⟩ := Option.bind_eq_some_iff.1 path
      refine ⟨r, hr, ?_⟩
      simpa [Grammar.Entry.run?] using path
    have arc := Grammar.Entry.mem_of_next? step
    have := all_eq_true.1 check (k, table) (mem_of_get? entry)
    have := all_eq_true.1 this _ (Grammar.Entry.mem_states arc).2
    have := all_eq_true.1 this (i, q) arc
    simpa [stand.label_ne_zero hg, Grammar.Entry.isFinal_iff.2 final, reach] using this

theorem marks_begins (check : g.beginsIn p set = true) : Marks g shape p set (BeginsWith p) := by
  have leaf : ∀ t : Input, BeginsWith p t.leaf → p t.kind = true := by
    rintro t ⟨l, hl, hp⟩
    cases hl
    exact hp
  refine ⟨leaf, Derives.induction (P := fun k t => BeginsWith p t → k ∈ set) ?_⟩
  intro k table labels children q entry stands nonempty path _ begins
  cases stands with
  | nil => exact absurd rfl nonempty
  | @cons i c labels children stand _ =>
    have first : BeginsWith p c := by
      obtain ⟨l, hl, hp⟩ := begins
      rw [Shape.leaves_tree, Tree.leavesAll, head?_append_of_ne_nil _ stand.leaves_ne_nil] at hl
      exact ⟨l, hl, hp⟩
    have reach := stand.reaches hg leaf first
    obtain ⟨r, step, _⟩ := Option.bind_eq_some_iff.1 path
    have := all_eq_true.1 check (k, table) (mem_of_get? entry)
    have := all_eq_true.1 this (i, r) (Grammar.Entry.mem_of_next? step)
    simpa [stand.label_ne_zero hg, reach] using this

theorem marks_lone (check : g.loneIn p set = true) : Marks g shape p set (IsLone p) := by
  have leaf : ∀ t : Input, IsLone p t.leaf → p t.kind = true := by
    rintro t ⟨l, hl, hp⟩
    cases hl
    exact hp
  refine ⟨leaf, Derives.induction (P := fun k t => IsLone p t → k ∈ set) ?_⟩
  intro k table labels _ q entry stands _ path final lone
  obtain ⟨l, hl, hp⟩ := lone
  unfold Shape.tree at hl
  split at hl
  · subst hl
    cases stands with
    | @cons i _ labels _ stand rest =>
      cases rest
      have reach := stand.reaches hg leaf ⟨l, rfl, hp⟩
      have step : table.next? 0 i = some q := by simpa [Grammar.Entry.run?] using path
      have := all_eq_true.1 check (k, table) (mem_of_get? entry)
      have := all_eq_true.1 this (i, q) (Grammar.Entry.mem_of_next? step)
      simpa [stand.label_ne_zero hg, Grammar.Entry.isFinal_iff.2 final, reach] using this
  · cases hl

end Sets

/-! ## The root -/

theorem exists_arc {table : Grammar.Entry} {s : Nat}
    (stands : Forall₂ (Stands g shape M) labels children) (path : table.run? s labels = some q)
    {c : SyntaxTree} (hc : c ∈ children) :
    ∃ i r r', Stands g shape M i c ∧ (i, r') ∈ table.states.getD r [] := by
  induction stands generalizing s with
  | nil => cases hc
  | @cons i d labels children stand _ ih =>
    obtain ⟨r, step, path⟩ := Option.bind_eq_some_iff.1 path
    rcases mem_cons.1 hc with rfl | hc
    · exact ⟨i, s, r, stand, Grammar.Entry.mem_of_next? step⟩
    · exact ih path hc

/-- **No child of a program is a token of a kind that the labels of the start symbol do not reach.** -/
theorem Derives.root_lacks (hg : g.Faithful) {set : List Kind} (hlone : g.loneIn p set = true)
    (check : g.rootLacks (g.reaches p set) = true) (h : Derives g shape g.start tree) :
    ∀ c ∈ tree.children, ¬ IsLone p c := by
  refine induction (P := fun k t => k = g.start → ∀ c ∈ t.children, ¬ IsLone p c) ?_ h rfl
  rintro _ table labels _ q entry stands _ path final rfl
  have arcs : ∀ {i r r' : Nat}, i ≠ 0 → (i, r') ∈ table.states.getD r [] →
      g.reaches p set i = false ∧ (table.isFinal r' = true → g.labelKind i < .firstSymbol) := by
    intro i r r' nonzero arc
    have := all_eq_true.1 check (g.start, table) (mem_of_get? entry)
    simp only [bne_self_eq_false] at this
    have := all_eq_true.1 this _ (Grammar.Entry.mem_states arc).2
    have := all_eq_true.1 this (i, r') arc
    simp only [beq_false_of_ne nonzero, Bool.false_or, Bool.and_eq_true, Bool.not_eq_true',
      Bool.or_eq_true, decide_eq_true_eq] at this
    exact ⟨this.1, fun last => this.2.resolve_left (by simp [last])⟩
  unfold Shape.tree
  split
  · cases stands with
    | @cons i c labels _ stand rest =>
      cases rest
      have step : table.next? 0 i = some q := by simpa [Grammar.Entry.run?] using path
      have token := (arcs (stand.label_ne_zero hg) (Grammar.Entry.mem_of_next? step)).2
        (Grammar.Entry.isFinal_iff.2 final)
      rcases stand with ⟨t, -, rfl⟩ | ⟨k, label, -⟩
      · exact forall_mem_nil _
      · have kind := label.1
        exact absurd label.2 (not_le.2 (kind ▸ token))
  · intro c hc lone
    obtain ⟨i, r, r', stand, arc⟩ := exists_arc stands path hc
    have reach := (marks_lone hg hlone).reaches hg stand lone
    exact Bool.false_ne_true ((arcs (stand.label_ne_zero hg) arc).1.symm.trans reach)

/-! ## Neighbours -/

theorem Derives.forall_nodes {Q : SyntaxTree → Prop} (leaf : ∀ t : Input, Q t.leaf)
    (node : ∀ {k table labels children q}, get? g.entries k = some table →
      Forall₂ (Stands g shape fun _ _ => True) labels children → children ≠ [] →
      table.run? 0 labels = some q → table.Final q → Q (.node () k children))
    (h : Derives g shape k tree) : ∀ n ∈ tree.nodes, Q n := by
  refine induction (P := fun _ t => ∀ n ∈ t.nodes, Q n) ?_ h
  intro k table labels children r entry stands nonempty path final
  have below : ∀ t ∈ children, ∀ n ∈ t.nodes, Q n := by
    intro t ht n hn
    obtain ⟨i, ⟨token, _, rfl⟩ | ⟨_, _, _, holds⟩⟩ := exists_stands stands ht
    · rw [mem_singleton.1 hn]
      exact leaf token
    · exact holds n hn
  have derived := stands.imp fun _ _ stand => stand.of_derived fun _ _ _ => trivial
  unfold Shape.tree
  split
  · exact below _ mem_cons_self
  · intro n hn
    rcases mem_cons.1 hn with rfl | hn
    · exact node entry derived nonempty path final
    · obtain ⟨t, ht, hn⟩ := Tree.mem_nodesAll.1 hn
      exact below t ht n hn

theorem Derives.leaves_nodes_ne_nil (h : Derives g shape k tree) : ∀ n ∈ tree.nodes, n.leaves ≠ [] := by
  refine h.forall_nodes (fun t => by rw [Input.leaves_leaf]; exact nofun) ?_
  intro k _ _ _ q _ stands nonempty _ _ none
  cases stands with
  | nil => exact nonempty rfl
  | cons first _ => exact first.leaves_ne_nil (append_eq_nil_iff.1 none).1

theorem isChain_leavesAll {R : Leaf → Leaf → Prop} {ts : List SyntaxTree}
    (each : ∀ t ∈ ts, t.leaves.IsChain R ∧ t.leaves ≠ [])
    (between : ts.IsChain fun c d => ∀ x ∈ c.leaves.getLast?, ∀ y ∈ d.leaves.head?, R x y) :
    (Tree.leavesAll ts).IsChain R := by
  induction ts with
  | nil => exact .nil
  | cons t ts ih =>
    obtain ⟨⟨chain, _⟩, rest⟩ := forall_mem_cons.1 each
    obtain ⟨next, between⟩ := isChain_cons.1 between
    rw [Tree.leavesAll, isChain_append]
    refine ⟨chain, ih rest between, fun x hx y hy => ?_⟩
    cases ts with
    | nil => cases hy
    | cons d ts =>
      have some := (rest d mem_cons_self).2
      rw [Tree.leavesAll, head?_append_of_ne_nil _ some] at hy
      exact next d rfl x hx y hy

section

variable (hg : g.Faithful) {q : Kind → Bool} {before after : List Kind} {A B : SyntaxTree → Prop}
  (check : g.apart (g.reaches p before) (g.reaches q after) = true)
  (left : Marks g shape p before A) (right : Marks g shape q after B)
include hg check left right

theorem isChain_children {table : Grammar.Entry} {r s : Nat} (entry : get? g.entries k = some table)
    (stands : Forall₂ (Stands g shape M) labels children) (path : table.run? s labels = some r) :
    children.IsChain fun c d => ¬(A c ∧ B d) := by
  induction stands generalizing s with
  | nil => exact .nil
  | @cons i c labels children stand rest ih =>
    obtain ⟨r, step, path⟩ := Option.bind_eq_some_iff.1 path
    refine isChain_cons.2 ⟨fun d hd => ?_, ih path⟩
    rintro ⟨ha, hb⟩
    cases rest with
    | nil => cases hd
    | @cons j d' labels children stand' rest =>
      cases hd
      obtain ⟨r', step', _⟩ := Option.bind_eq_some_iff.1 path
      have arc := Grammar.Entry.mem_of_next? step
      have := all_eq_true.1 check (k, table) (mem_of_get? entry)
      have := all_eq_true.1 this _ (Grammar.Entry.mem_states arc).2
      have := all_eq_true.1 this (i, r) arc
      simp only [beq_false_of_ne (stand.label_ne_zero hg), left.reaches hg stand ha] at this
      have := all_eq_true.1 this (j, r') (Grammar.Entry.mem_of_next? step')
      simp [stand'.label_ne_zero hg, right.reaches hg stand' hb] at this

/-- **What the tables keep apart does not follow each other below a node.** -/
theorem Derives.siblings (h : Derives g shape k tree) :
    ∀ n ∈ tree.nodes, n.children.IsChain fun c d => ¬(A c ∧ B d) := by
  refine h.forall_nodes (fun _ => .nil) ?_
  intro k _ _ _ r entry stands _ path _
  exact isChain_children hg check left right entry stands path

end

/-- **Tokens of kinds that the tables keep apart are never neighbours.** -/
theorem Derives.neighbours (hg : g.Faithful) {q : Kind → Bool} {ends begins : List Kind}
    (hends : g.endsIn p ends = true) (hbegins : g.beginsIn q begins = true)
    (check : g.apart (g.reaches p ends) (g.reaches q begins) = true) (h : Derives g shape k tree) :
    tree.leaves.IsChain fun l r => ¬(p l.kind = true ∧ q r.kind = true) := by
  refine induction (P := fun _ t =>
    t.leaves.IsChain fun l r => ¬(p l.kind = true ∧ q r.kind = true)) ?_ h
  intro k _ _ _ r entry stands _ path _
  rw [Shape.leaves_tree]
  refine isChain_leavesAll (fun t ht => ?_) ?_
  · obtain ⟨i, stand⟩ := exists_stands stands ht
    refine ⟨?_, stand.leaves_ne_nil⟩
    rcases stand with ⟨_, _, rfl⟩ | ⟨_, _, _, chain⟩
    · exact .singleton _
    · exact chain
  · refine (isChain_children hg check (marks_ends hg hends) (marks_begins hg hbegins) entry stands
      path).imp fun c d apart x hx y hy => ?_
    rintro ⟨hp, hq⟩
    exact apart ⟨⟨x, hx, hp⟩, ⟨y, hy, hq⟩⟩

end Retouch
