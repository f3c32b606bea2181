import Retouch.Proofs.TidyTrees

/-!
# Where blanks may be changed

What the grammar says of the leaves of a program next to each other (`Orderly`) allows the acts of the
fixers for spacing: those before a comma, a colon, an equal sign or an operator between operands
(`Fixes.Spacer.allowed_before`), and those after it (`Fixes.Spacer.allowed_after`).  So making a part of
a program tidy changes blanks where they may be changed (`Fixes.Spacer.respaced_tidy`).
-/

namespace Retouch

open List

open Tree Retouch.Language

variable {α : Type}

/-! ## Orderly programs -/

/-- What the leaves of a program are next to each other: no mark begins a line, no operator that follows
something in a node does, and nothing next to an equal sign would join it.  The leaves that could join
it are known by their kinds. -/
structure Orderly (t : SyntaxTree) : Prop where
  first : ∀ l, t.leaves.head? = some l → isMark l.kind = false
  marks : t.leaves.IsChain fun l r => ¬(isLayout l.kind = true ∧ isMark r.kind = true)
  operators : ∀ n ∈ t.nodes, n.children.IsChain fun c d =>
    ¬(EndsWith isLayout c ∧ IsLone isArithmetic d)
  joined : t.leaves.IsChain fun l r => ¬(joinsEqual l.kind = true ∧ (r.kind == Kind.equal) = true)
  doubled : t.leaves.IsChain fun l r => ¬((l.kind == Kind.equal) = true ∧ beginsEqual r.kind = true)
  full : ∀ n ∈ t.nodes, n.leaves ≠ []
  joins : ∀ l ∈ t.leaves, Lexeme.joins l.value.shown = true → joinsEqual l.kind = true
  begins : ∀ l ∈ t.leaves, Lexeme.headIs (· == '=') l.value.shown = true → beginsEqual l.kind = true

namespace Orderly

variable {t : Tree α} {X Z : List Leaf} {y u : Leaf}

theorem rel_of_isChain {R : Leaf → Leaf → Prop} (h : t.bare.leaves.IsChain R)
    (split : t.leaves = X ++ y :: Z) (last : X.getLast? = some u) : R u.bare y.bare := by
  rw [leaves_bare, split, map_append] at h
  exact (isChain_append.1 h).2.2 _ (by rw [getLast?_map, last]; rfl) _ rfl

theorem exists_before_mark (h : Orderly t.bare) (split : t.leaves = X ++ y :: Z)
    (mark : isMark y.kind = true) : ∃ u, X.getLast? = some u ∧ isLayout u.kind = false := by
  cases last : X.getLast? with
  | none =>
    rw [getLast?_eq_none_iff] at last
    have other := h.first y.bare (by rw [leaves_bare, split, last]; rfl)
    rw [Leaf.kind_bare, mark] at other
    cases other
  | some u =>
    by_contra layout
    exact rel_of_isChain h.marks split last ⟨by simpa using layout, mark⟩

theorem joins_eq_false (h : Orderly t.bare) (split : t.leaves = X ++ y :: Z)
    (last : X.getLast? = some u) (equal : y.kind = Kind.equal) :
    Lexeme.joins u.value.shown = false := by
  by_contra joins
  have mem : u.bare ∈ t.bare.leaves := by
    rw [leaves_bare, split]
    exact mem_map_of_mem (mem_append_left _ (mem_of_getLast? last))
  have kind := h.joins u.bare mem (by simpa using joins)
  exact rel_of_isChain h.joined split last ⟨kind, by simpa using equal⟩

theorem begins_eq_false (h : Orderly t.bare) (split : t.leaves = X ++ y :: Z)
    (last : X.getLast? = some u) (equal : u.kind = Kind.equal) :
    Lexeme.headIs (· == '=') y.value.shown = false := by
  by_contra begins
  have mem : y.bare ∈ t.bare.leaves := by
    rw [leaves_bare, split]
    exact mem_map_of_mem (mem_append_right _ mem_cons_self)
  have kind := h.begins y.bare mem (by simpa using begins)
  exact rel_of_isChain h.doubled split last ⟨by simpa using equal, kind⟩

theorem exists_before_operator (h : Orderly t.bare) {i : α} {k : Kind} {l r : List (Tree α)}
    {c : Tree α} {j : α} (node : .node i k (l ++ c :: .leaf j y :: r) ∈ t.nodes)
    (arithmetic : isArithmetic y.kind = true) :
    ∃ u, c.leaves.getLast? = some u ∧ isLayout u.kind = false := by
  have mem : (Tree.node i k (l ++ c :: .leaf j y :: r)).bare ∈ t.bare.nodes := by
    rw [nodes_bare]
    exact mem_map_of_mem node
  have chain := h.operators _ mem
  rw [children_bare, children, map_append] at chain
  have apart := (isChain_cons_cons.1 (isChain_append.1 chain).2.1).1
  have some : c.leaves ≠ [] := by
    have child := child_mem_nodes node (mem_append_right l (mem_cons_self (a := c)))
    have full := h.full c.bare (by rw [nodes_bare]; exact mem_map_of_mem child)
    rwa [leaves_bare, ne_eq, map_eq_nil_iff] at full
  refine ⟨c.leaves.getLast some, getLast?_eq_some_getLast some, ?_⟩
  by_contra layout
  refine apart ⟨⟨(c.leaves.getLast some).bare, ?_, by simpa using layout⟩, y.bare, rfl, arithmetic⟩
  rw [leaves_bare, getLast?_map, getLast?_eq_some_getLast some]
  rfl

end Orderly

theorem Path.bare_plug (path : Path α) {v v' : Tree α} (same : v'.bare = v.bare) :
    (path.plug v').bare = (path.plug v).bare := by
  induction path generalizing v v' with
  | nil => exact same
  | cons fr up ih =>
    refine ih ?_
    simp [Frame.fill, bare, same]

/-! ## Acts that are allowed -/

namespace Fixes

/-- The act keeps what stands before a leaf, or it is done on the line of the leaf `prev` before it, which
the leaf can touch if no blank is left between them. -/
def Act.Allowed (a : Act) (prev : Option Leaf) (y : Leaf) : Prop :=
  a = .keep ∨ ∃ u, prev = some u ∧ isLayout u.kind = false ∧
    (a = .space ∨ Lexeme.Touches u.value.shown y.value.shown)

theorem Act.Allowed.change {a : Act} {prev : Option Leaf} {y : Leaf} (h : a.Allowed prev y) :
    Leaf.Change prev y (a.on y.lead) := by
  by_cases opened : isOpen y.lead = true
  · rcases h with rfl | ⟨u, last, layout, allowed⟩
    · exact .inl rfl
    · cases a with
      | keep => exact .inl rfl
      | strip =>
        exact .inr ⟨opened, u, last, layout, .inr ⟨if_pos opened, allowed.resolve_left nofun⟩⟩
      | space => exact .inr ⟨opened, u, last, layout, .inl (if_pos opened)⟩
  · cases a with
    | keep => exact .inl rfl
    | strip | space => exact .inl (if_neg opened)

theorem respaced_acted {a : Act} {prev : Option Leaf} {t : SyntaxTree}
    (allowed : ∀ {y ys}, t.leaves = y :: ys → a.Allowed prev y) :
    Leaf.Respaced prev t.leaves (t.acted a).leaves := by
  rw [acted]
  rcases leaves_withLead (a.on t.lead) t with same | ⟨y, ys, first, before, changed⟩
  · rw [same]
    exact .refl prev t.leaves
  · rw [changed, first, ← before]
    exact .cons (allowed first).change (.refl _ ys)

theorem respaced_cons {before : List Leaf} {done rest rest' : List SyntaxTree} {c c' : SyntaxTree}
    (first : Leaf.Respaced (before ++ leavesAll done).getLast? c.leaves c'.leaves)
    (later : Leaf.Respaced (before ++ leavesAll (done ++ [c])).getLast? (leavesAll rest)
      (leavesAll rest')) :
    Leaf.Respaced (before ++ leavesAll done).getLast? (leavesAll (c :: rest))
      (leavesAll (c' :: rest')) := by
  refine first.append ?_
  rw [← getLast?_append, append_assoc]
  rwa [leavesAll_append, leavesAll, leavesAll, append_nil] at later

namespace Spacer

section Node

variable {rule : Spacer} {inCall : Bool} {path : Path Unit} {k : Kind} {cs l r : List SyntaxTree}
  {y u : Leaf} {ys : List Leaf}

theorem leaves_split {c : SyntaxTree} (split : cs = l ++ c :: r) (first : c.leaves = y :: ys) :
    (path.plug (.node () k cs)).leaves = (path.leavesBefore ++ leavesAll l) ++
      y :: (ys ++ (leavesAll r ++ path.leavesAfter)) := by
  rw [Path.leaves_plug, leaves, split, leavesAll_append, leavesAll, first]
  simp

theorem getLast?_leaf (before : List Leaf) (l : List SyntaxTree) (u : Leaf) :
    (before ++ leavesAll (l ++ [.leaf () u])).getLast? = some u := by
  rw [leavesAll_append, ← append_assoc]
  exact getLast?_concat

section

variable (orderly : Orderly (path.plug (.node () k cs)).bare)
include orderly

theorem exists_before_sign (recognised : operator.pattern.recognises (.node () k cs) = true)
    (split : cs = l ++ .leaf () y :: r) (sign : isOneOf operators (.leaf () y) = true)
    (arithmetic : isArithmetic y.kind = true) :
    ∃ u, (path.leavesBefore ++ leavesAll l).getLast? = some u ∧ isLayout u.kind = false := by
  obtain ⟨xs, e, z, eq, -, -, nonempty, others⟩ := exists_of_recognises_operator recognised
  obtain ⟨l, d, rfl⟩ : ∃ l' d, l = l' ++ [d] := by
    rcases eq_nil_or_concat l with rfl | ⟨l, d, rfl⟩
    · obtain ⟨x, xs, rfl⟩ := exists_cons_of_ne_nil nonempty
      have first := (cons.inj (split.symm.trans eq)).1
      rw [first, others x mem_cons_self] at sign
      cases sign
    · exact ⟨l, d, concat_eq_append⟩
  have node : .node () k (l ++ d :: .leaf () y :: r) ∈ (path.plug (.node () k cs)).nodes := by
    rw [split, append_assoc]
    exact Path.mem_nodes_plug path _
  obtain ⟨u, last, layout⟩ := orderly.exists_before_operator node arithmetic
  refine ⟨u, ?_, layout⟩
  rw [leavesAll_append, leavesAll, leavesAll, append_nil, ← append_assoc, getLast?_append, last,
    Option.some_or]

/-- **What a fixer does before a sign is allowed.** -/
theorem allowed_before (recognised : rule.pattern.recognises (.node () k cs) = true)
    (split : cs = l ++ .leaf () y :: r) (sign : isOneOf rule.tokens (.leaf () y) = true) :
    (rule.acts inCall cs .separator).Allowed (path.leavesBefore ++ leavesAll l).getLast? y := by
  have leaves : (path.plug (.node () k cs)).leaves = _ := leaves_split split rfl
  obtain ⟨_, eq, mem⟩ := exists_leaf_of_isOneOf sign
  cases eq
  cases rule with
  | comma =>
    have facts : ∀ e ∈ commas, isMark e.1 = true ∧
        Lexeme.headIs (fun c => c == ',' || c == ':') e.2 = true := by decide
    obtain ⟨u, last, layout⟩ := orderly.exists_before_mark leaves (facts _ mem).1
    exact .inr ⟨u, last, layout, .inr (.inl (facts _ mem).2)⟩
  | equal =>
    obtain ⟨kind, value⟩ := Prod.mk.inj (mem_singleton.1 mem)
    obtain ⟨u, last, layout⟩ := orderly.exists_before_mark leaves (by rw [kind]; rfl)
    have joins := orderly.joins_eq_false leaves last kind
    exact .inr ⟨u, last, layout, .inr (.inr (.inl ⟨by rw [value]; rfl, joins⟩))⟩
  | operator =>
    have facts : ∀ e ∈ operators, isArithmetic e.1 = true := by decide
    obtain ⟨u, last, layout⟩ := exists_before_sign orderly recognised split sign (facts _ mem)
    exact .inr ⟨u, last, layout, .inl rfl⟩

/-- **What a fixer does after a sign is allowed.** -/
theorem allowed_after {c : SyntaxTree} (split : cs = l ++ [.leaf () u] ++ c :: r)
    (sign : isOneOf rule.tokens (.leaf () u) = true) (first : c.leaves = y :: ys) :
    (rule.acts inCall cs .afterSeparator).Allowed (some u) y := by
  obtain ⟨_, eq, mem⟩ := exists_leaf_of_isOneOf sign
  cases eq
  have facts : ∀ (rule : Spacer), ∀ e ∈ rule.tokens, isLayout e.1 = false := by
    rintro (_ | _ | _) <;> decide
  refine .inr ⟨u, rfl, facts rule _ mem, ?_⟩
  cases rule with
  | comma | operator => exact .inl rfl
  | equal =>
    obtain ⟨kind, value⟩ := Prod.mk.inj (mem_singleton.1 mem)
    have leaves : (path.plug (.node () k cs)).leaves = _ := leaves_split split first
    exact .inr (.inr (.inr ⟨value, orderly.begins_eq_false leaves (getLast?_leaf _ l u) kind⟩))

theorem respaced_sides (recognised : rule.pattern.recognises (.node () k cs) = true)
    {done rest : List SyntaxTree} (all : cs = done ++ rest) {after : Bool}
    (last : after = true →
      ∃ l u, done = l ++ [.leaf () u] ∧ isOneOf rule.tokens (.leaf () u) = true) :
    Leaf.Respaced (path.leavesBefore ++ leavesAll done).getLast? (leavesAll rest)
      (leavesAll ((rest.zip (sides after (rest.map (isOneOf rule.tokens)))).map
        fun c => c.1.acted (rule.acts inCall cs c.2))) := by
  induction rest generalizing done after with
  | nil => exact .nil
  | cons c rest ih =>
    have shift : cs = done ++ [c] ++ rest := by rw [all, append_assoc]; rfl
    rw [map_cons]
    cases sign : isOneOf rule.tokens c with
    | true =>
      obtain ⟨y, rfl, -⟩ := exists_leaf_of_isOneOf sign
      refine respaced_cons (respaced_acted fun first => ?_) (ih shift fun _ => ⟨done, y, rfl, sign⟩)
      cases first
      exact allowed_before orderly recognised all sign
    | false =>
      cases after with
      | true =>
        obtain ⟨l, u, rfl, sign⟩ := last rfl
        refine respaced_cons (respaced_acted fun first => ?_) (ih shift nofun)
        rw [getLast?_leaf]
        exact allowed_after orderly all sign first
      | false => exact respaced_cons (respaced_acted fun _ => .inl rfl) (ih shift nofun)

end

end Node

/-! ## Tidy parts of programs -/

variable {path : Path Unit}

theorem respaced_spaceWith (rs : List Spacer) (inCall : Bool) {t : SyntaxTree}
    (orderly : Orderly (path.plug t).bare) :
    Leaf.Respaced path.leavesBefore.getLast? t.leaves (spaceWith rs inCall t).leaves := by
  induction rs generalizing t with
  | nil => exact .refl _ _
  | cons rule rs ih =>
    rw [spaceWith_cons]
    split
    · rename_i recognised
      have orderly' : Orderly (path.plug (rule.spaced inCall t)).bare := by
        rwa [path.bare_plug (bare_spaced rule inCall t)]
      refine .trans rfl ?_ (ih orderly')
      cases t with
      | leaf i l => exact .refl _ _
      | node i k cs =>
        have respaced := @respaced_sides rule inCall path k cs orderly recognised [] cs rfl false nofun
        rwa [leavesAll, append_nil] at respaced
    · exact ih orderly

theorem respaced_children {rs : List Spacer} {inCall : Bool} {k : Kind} {done cs : List SyntaxTree}
    (each : ∀ c ∈ cs, ∀ {path : Path Unit}, Orderly (path.plug c).bare →
      Leaf.Respaced path.leavesBefore.getLast? c.leaves (tidy rs inCall c).leaves)
    (orderly : Orderly (path.plug (.node () k (done ++ cs))).bare) :
    Leaf.Respaced (path.leavesBefore ++ leavesAll done).getLast? (leavesAll cs)
      (leavesAll (cs.map (tidy rs inCall))) := by
  induction cs generalizing done with
  | nil => exact .nil
  | cons c cs ih =>
    refine respaced_cons (@each c mem_cons_self (⟨(), k, done, cs⟩ :: path) orderly)
      (ih (fun d hd => each d (mem_cons_of_mem _ hd)) ?_)
    rwa [append_assoc]

/-- **Making a part of an orderly program tidy changes blanks where they may be changed.** -/
theorem respaced_tidy (rs : List Spacer) (inCall : Bool) {t : SyntaxTree}
    (orderly : Orderly (path.plug t).bare) :
    Leaf.Respaced path.leavesBefore.getLast? t.leaves (tidy rs inCall t).leaves := by
  induction t using induct generalizing path inCall with
  | leaf i l => exact .refl _ _
  | node i k cs ih =>
    have children := @respaced_children path rs (ofCall k) k [] cs
      (fun c hc {_} orderly => ih c hc (ofCall k) orderly) orderly
    rw [leavesAll, append_nil] at children
    rw [tidy_node]
    refine children.trans rfl (respaced_spaceWith rs inCall (t := .node () k _) ?_)
    refine path.bare_plug ?_ ▸ orderly
    rw [bare_node, bare_node, map_map]
    exact congrArg _ (map_congr_left fun c _ => (bare_tidy rs (ofCall k) c).symm)

end Spacer

end Fixes

end Retouch
