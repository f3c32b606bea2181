import Retouch.Proofs.Maps
import Retouch.Proofs.Trees
import Retouch.Syntax.Parser

/-!
# What the parser builds

The trees on the stack of the parser are pieces of a derivation: the children of an entry spell a
path through the automaton of its symbol, and the tokens on the stack from the bottom to the top are
the tokens that were given so far.  Both facts are kept by every step, so that the root of a finished
parse derives from the start symbol and has exactly the given tokens as its leaves
(`Parser.feed_sound`).

The statements hold for every way of making trees: `Shape.tree` says what becomes of a symbol and its
children.  Of the tables they use only `Grammar.Predictive`: no token has the label 0, which marks
final states, and a symbol that is begun because a label can begin it has an arc for that label.
-/

namespace Retouch

open OrderedMap

/-! ## Paths through an automaton -/

namespace Grammar

def Entry.next? (e : Entry) (q i : Nat) : Option Nat := (e.states.getD q []).lookup i

def Entry.run? (e : Entry) : Nat → List Nat → Option Nat
  | q, [] => some q
  | q, i :: is => (e.next? q i).bind fun r => e.run? r is

def Entry.Final (e : Entry) (q : Nat) : Prop := (0, q) ∈ e.states.getD q []

theorem Entry.run?_append (e : Entry) (q : Nat) (is js : List Nat) :
    e.run? q (is ++ js) = (e.run? q is).bind fun r => e.run? r js := by
  induction is generalizing q with
  | nil => rfl
  | cons i is ih =>
    simp only [List.cons_append, run?]
    cases e.next? q i with
    | none => rfl
    | some r => exact ih r

variable {q : Nat}

theorem Entry.run?_snoc {e : Entry} {r : Nat} {is : List Nat} (h : e.run? q is = some r) (i : Nat) :
    e.run? q (is ++ [i]) = e.next? r i := by
  rw [run?_append, h]
  simp only [Option.bind_some, run?]
  cases e.next? r i <;> rfl

theorem Entry.mem_of_next? {table : Entry} {i r : Nat} (h : table.next? q i = some r) :
    (i, r) ∈ table.states.getD q [] := mem_of_get? h

theorem Entry.mem_states {table : Entry} {arc : Nat × Nat} (h : arc ∈ table.states.getD q []) :
    q < table.states.length ∧ table.states.getD q [] ∈ table.states := by
  rw [List.getD_eq_getElem?_getD] at h ⊢
  cases found : table.states[q]? with
  | none =>
    rw [found] at h
    cases h
  | some state =>
    obtain ⟨lt, eq⟩ := getElem?_eq_some_iff.1 found
    exact ⟨lt, List.mem_of_getElem? found⟩

def LabelOf (g : Grammar) (k : Kind) (i : Nat) : Prop :=
  (g.labels.getD i (0, none)).1 = k ∧ Kind.firstSymbol ≤ k

theorem classify_eq_some {g : Grammar} {t : Input} {i : Nat} (h : Parser.classify g t = some i) :
    t.kind = Kind.name ∧ get? g.keywords t.value = some i ∨
      get? g.tokens t.kind = some i := by
  unfold Parser.classify at h
  simp only at h
  split at h
  · rename_i j hj
    cases h
    split at hj
    · rename_i name
      exact .inl ⟨name, hj⟩
    · cases hj
  · exact .inr h

/-- What the parser needs to know of its tables. -/
structure Predictive (g : Grammar) : Prop where
  /-- No token has the label that marks final states. -/
  label_ne_zero : ∀ t i, Parser.classify g t = some i → i ≠ 0
  /-- A symbol has an arc for each label that can begin it. -/
  first_moves : ∀ k table label, get? g.entries k = some table →
    label ∈ table.first → Parser.move g label (table.states.getD 0 []) ≠ .none

end Grammar

/-! ## Derivations -/

mutual
/-- The tree is made from children that lead the automaton of the symbol to a final state. -/
inductive Derives (g : Grammar) (shape : Shape) : Kind → SyntaxTree → Prop
  | intro {k : Kind} {table : Grammar.Entry} {labels : List Nat} {children : List SyntaxTree}
      {q : Nat} (entry : get? g.entries k = some table)
      (spelled : Spells g shape labels children) (nonempty : children ≠ [])
      (path : table.run? 0 labels = some q) (final : table.Final q) :
      Derives g shape k (shape.tree k children)

/-- The labels stand for the trees one by one: a token has its label, and a tree that derives from a
symbol has a label of that symbol. -/
inductive Spells (g : Grammar) (shape : Shape) : List Nat → List SyntaxTree → Prop
  | nil : Spells g shape [] []
  | token {t : Input} {i : Nat} {labels : List Nat} {trees : List SyntaxTree}
      (label : Parser.classify g t = some i) (rest : Spells g shape labels trees) :
      Spells g shape (i :: labels) (t.leaf :: trees)
  | symbol {k : Kind} {i : Nat} {tree : SyntaxTree} {labels : List Nat} {trees : List SyntaxTree}
      (label : g.LabelOf k i) (derived : Derives g shape k tree)
      (rest : Spells g shape labels trees) : Spells g shape (i :: labels) (tree :: trees)
end

variable {g : Grammar} {shape : Shape}

theorem Derives.exists_entry {k : Kind} {tree : SyntaxTree} (h : Derives g shape k tree) :
    ∃ table, get? g.entries k = some table := by
  cases h with
  | intro entry => exact ⟨_, entry⟩

theorem Spells.append {is js : List Nat} {ts us : List SyntaxTree} (h : Spells g shape is ts)
    (h' : Spells g shape js us) : Spells g shape (is ++ js) (ts ++ us) := by
  induction is generalizing ts with
  | nil => cases h; exact h'
  | cons i is ih =>
    cases h with
    | token label rest => exact .token label (ih rest)
    | symbol label derived rest => exact .symbol label derived (ih rest)

@[simp] theorem Shape.leaves_tree (shape : Shape) (k : Kind) (children : List SyntaxTree) :
    (shape.tree k children).leaves = Tree.leavesAll children := by
  unfold tree
  split
  · simp [Tree.leavesAll]
  · rw [Tree.leaves]

theorem Input.leaves_leaf (t : Input) : t.leaf.leaves = [t.token] := rfl

namespace Parser

/-! ## The stack -/

def stackLeaves : List Entry → List Leaf
  | [] => []
  | e :: below => stackLeaves below ++ Tree.leavesAll e.children

/-- The children of an entry have led its automaton to the state of the entry.  Where a symbol above
it is still being read, the state is already the one after that symbol. -/
def Entry.Follows (g : Grammar) (shape : Shape) (above : Option Kind) (e : Entry) : Prop :=
  ∃ labels, Spells g shape labels e.children ∧
    match above with
    | none => e.table.run? 0 labels = some e.state
    | some k => ∃ i, g.LabelOf k i ∧ e.table.run? 0 (labels ++ [i]) = some e.state

/-- Every entry of a stack has the table of its symbol and has followed it, where `above` is the
symbol above the stack, if there is one. -/
def Stacked (g : Grammar) (shape : Shape) : (above : Option Kind) → List Entry → Prop
  | _, [] => True
  | above, e :: below =>
    get? g.entries e.symbol = some e.table ∧ e.Follows g shape above ∧
      Stacked g shape (some e.symbol) below

/-- The state of a parser that was set up for a symbol and given some tokens.  Once the stack is
empty, the root derives from the symbol. -/
structure Sound (g : Grammar) (shape : Shape) (start : Kind) (fed : List Leaf) (s : State) :
    Prop where
  stacked : Stacked g shape none s.stack
  bottom : s.stack ≠ [] → (s.stack.getLast?.map Entry.symbol) = some start
  leaves : s.stack ≠ [] → stackLeaves s.stack = fed
  root : s.stack = [] → ∃ tree, s.root = some tree ∧ Derives g shape start tree ∧ tree.leaves = fed

def TopFilled (s : State) : Prop := ∀ top below, s.stack = top :: below → top.children ≠ []

variable {fed : List Leaf} {s s' : State} {start : Kind} {done : Bool} {label : Nat}

/-- Leaving a symbol that can end keeps the invariant. -/
theorem pop_sound {top : Entry} {below : List Entry} (h : Sound g shape start fed s)
    (hs : s.stack = top :: below) (filled : top.children ≠ []) (final : top.table.Final top.state)
    (hp : pop shape s = (.ok (), s')) : Sound g shape start fed s' ∧ TopFilled s' := by
  obtain ⟨stacked, bottom, leaves, -⟩ := h
  rw [hs] at stacked bottom leaves
  obtain ⟨entry, ⟨_, spelled, path⟩, lower⟩ := stacked
  have derived : Derives g shape top.symbol (shape.tree top.symbol top.children) :=
    .intro entry spelled filled path final
  unfold pop at hp
  rw [hs] at hp
  cases below with
  | nil =>
    -- the last entry: its tree is the root
    simp only at hp
    split at hp
    · cases hp
    · cases hp
      have symbol : top.symbol = start := by simpa using bottom (by simp)
      refine ⟨⟨trivial, by simp, by simp, fun _ => ⟨_, rfl, symbol ▸ derived, ?_⟩⟩, ?_⟩
      · simpa [stackLeaves] using leaves (by simp)
      · intro e rest he
        simp at he
  | cons next rest =>
    cases hp
    obtain ⟨entry', ⟨labels', spelled', i, label, path'⟩, lower'⟩ := lower
    refine ⟨⟨⟨entry', ⟨labels' ++ [i], ?_, path'⟩, lower'⟩, ?_, ?_, by simp⟩, ?_⟩
    · exact spelled'.append (.symbol label derived .nil)
    · have := bottom (by simp)
      cases rest <;> simpa using this
    · have := leaves (by simp)
      simpa [stackLeaves, Tree.leavesAll] using this
    · intro e _ he
      cases he
      simp

variable {fuel : Nat}

/-- Leaving symbols as long as they can only end keeps the invariant, and tells whether the stack is
empty. -/
theorem popFinished_sound (h : Sound g shape start fed s) (filled : TopFilled s)
    (hp : popFinished shape fuel s = (.ok done, s')) :
    Sound g shape start fed s' ∧ TopFilled s' ∧ done = s'.stack.isEmpty := by
  induction fuel generalizing s with
  | zero =>
    cases hp
    exact ⟨h, filled, rfl⟩
  | succ fuel ih =>
    unfold popFinished at hp
    split at hp
    · rename_i hs
      cases hp
      exact ⟨h, filled, by rw [hs]; rfl⟩
    · rename_i top below hs
      split at hp
      · rename_i only
        have final : top.table.Final top.state := by
          have : top.table.states.getD top.state [] = [(0, top.state)] := by
            simpa [acceptOnly] using only
          rw [Grammar.Entry.Final, this]
          exact List.mem_singleton_self _
        split at hp
        · rename_i s₁ hpop
          obtain ⟨h₁, filled₁⟩ := pop_sound h hs (filled top below hs) final hpop
          exact ih h₁ filled₁ hp
        · cases hp
      · cases hp
        exact ⟨h, filled, by rw [hs]; rfl⟩

/-! ## One token -/

theorem begun?_eq_some {i : Nat} {table : Grammar.Entry} : begun? g label i = some table ↔
    g.LabelOf (g.labelKind i) i ∧ get? g.entries (g.labelKind i) = some table ∧ label ∈ table.first := by
  simp [begun?, Grammar.LabelOf, Grammar.labelKind]

theorem move_shift {next : Nat} {arcs : Grammar.State} (h : move g label arcs = .shift next) :
    arcs.lookup label = some next := by
  fun_induction move g label arcs with
  | case1 => cases h
  | case2 =>
    cases h
    rw [List.lookup_cons, beq_self_eq_true]
  | case3 => cases h
  | case4 i _ _ other _ ih =>
    rw [List.lookup_cons, beq_eq_false_iff_ne.2 (symm other)]
    exact ih h

theorem move_push {next : Nat} {arcs : Grammar.State} {k : Kind} {table : Grammar.Entry}
    (h : move g label arcs = .push k table next) :
    get? g.entries k = some table ∧ label ∈ table.first ∧
      ∃ i, g.LabelOf k i ∧ arcs.lookup i = some next := by
  fun_induction move g label arcs with
  | case1 | case2 => cases h
  | case3 i _ _ _ _ begun =>
    cases h
    obtain ⟨labelled, entry, first⟩ := begun?_eq_some.1 begun
    refine ⟨entry, first, i, labelled, ?_⟩
    rw [List.lookup_cons, beq_self_eq_true]
  | case4 i _ _ _ passed ih =>
    obtain ⟨entry, first, j, labelled, found⟩ := ih h
    refine ⟨entry, first, j, labelled, ?_⟩
    -- an arc that was passed over has another label than the one that is taken later
    have other : j ≠ i := by
      rintro rfl
      obtain rfl : g.labelKind j = k := labelled.1
      exact nomatch passed.symm.trans (begun?_eq_some.2 ⟨labelled, entry, first⟩)
    rwa [List.lookup_cons, beq_eq_false_iff_ne.2 other]

theorem move_none {arcs : Grammar.State} (h : move g label arcs = .none) :
    ∀ arc ∈ arcs, arc.1 ≠ label ∧ begun? g label arc.1 = none := by
  fun_induction move g label arcs with
  | case1 => exact nofun
  | case2 | case3 => cases h
  | case4 i next arcs other passed ih => exact List.forall_mem_cons.2 ⟨⟨other, passed⟩, ih h⟩

/-- An entry without children that is not the only one was begun because the label can begin its
symbol. -/
def Begun (label : Nat) (s : State) : Prop :=
  ∀ top below, s.stack = top :: below → below ≠ [] → top.children = [] →
    top.state = 0 ∧ label ∈ top.table.first

/-- Handling a token adds it to the leaves and keeps the invariant. -/
theorem handle_sound (hg : g.Predictive) {t : Input} (hl : classify g t = some label)
    (h : Sound g shape start fed s) (begun : Begun label s)
    (hh : handle g shape label t fuel s = (.ok done, s')) :
    Sound g shape start (fed ++ [t.token]) s' ∧ TopFilled s' ∧ done = s'.stack.isEmpty := by
  induction fuel generalizing s with
  | zero => cases hh
  | succ fuel ih =>
    unfold handle at hh
    split at hh
    · cases hh
    · rename_i top below hs
      have h' := h
      obtain ⟨stacked, bottom, leaves, -⟩ := h'
      rw [hs] at stacked bottom leaves
      obtain ⟨entry, ⟨labels, spelled, path⟩, lower⟩ := stacked
      simp only at hh
      split at hh
      · rename_i next hm
        have step : top.table.run? 0 (labels ++ [label]) = some next := by
          rw [Grammar.Entry.run?_snoc path]
          exact move_shift hm
        have spelled' := spelled.append (.token hl .nil)
        refine popFinished_sound ?_ ?_ hh
        · refine ⟨⟨entry, ⟨labels ++ [label], spelled', step⟩, lower⟩, ?_, ?_, by simp⟩
          · have := bottom (by simp)
            cases below <;> simpa using this
          · have := leaves (by simp)
            simp [stackLeaves, Tree.leavesAll, Input.leaves_leaf, ← this]
        · intro e rest he
          cases he
          simp
      · rename_i k table next hm
        obtain ⟨entry', first, i, labelled, found⟩ := move_push hm
        have step : top.table.run? 0 (labels ++ [i]) = some next := by
          rwa [Grammar.Entry.run?_snoc path]
        refine ih ?_ ?_ hh
        · refine ⟨⟨entry', ⟨[], .nil, rfl⟩, entry, ⟨labels, spelled, i, labelled, step⟩, lower⟩,
            ?_, ?_, by simp⟩
          · have := bottom (by simp)
            cases below <;> simpa using this
          · have := leaves (by simp)
            simpa [stackLeaves, Tree.leavesAll] using this
        · intro e rest he _ _
          cases he
          exact ⟨rfl, first⟩
      · rename_i hm
        split at hh
        · rename_i final
          split at hh
          · cases hh
          · rename_i s₁ hpop
            split at hh
            · cases hh
            · rename_i more
              have filled : top.children ≠ [] := by
                intro empty
                have lone : below ≠ [] := by
                  rintro rfl
                  unfold pop at hpop
                  rw [hs] at hpop
                  simp only at hpop
                  split at hpop
                  · cases hpop
                  · cases hpop
                    simp at more
                obtain ⟨zero, first⟩ := begun top below hs lone empty
                rw [Entry.arcs, zero] at hm
                exact hg.first_moves _ _ _ entry first hm
              obtain ⟨h₁, filled₁⟩ := pop_sound h hs filled (List.contains_iff_mem.1 final) hpop
              exact ih h₁ (fun e rest he _ empty => absurd empty (filled₁ e rest he)) hh
        · cases hh

theorem popFinished_invariant {P : State → Prop}
    (leave : ∀ {s r s'}, P s → pop shape s = (r, s') → P s') (h : P s) :
    P (popFinished shape fuel s).2 := by
  fun_induction popFinished shape fuel s with
  | case1 | case2 | case5 => exact h
  | case3 _ _ _ _ _ _ _ popped ih => exact ih (leave h popped)
  | case4 _ _ _ _ _ _ _ _ popped => exact leave h popped

theorem handle_invariant {P : State → Prop} {t : Input}
    (leave : ∀ {s r s'}, P s → pop shape s = (r, s') → P s')
    (take : ∀ {s top below next}, P s → s.stack = top :: below →
      move g label top.arcs = .shift next →
      P { s with stack := { top with state := next, children := top.children ++ [t.leaf] } :: below })
    (enter : ∀ {s top below k table next}, P s → s.stack = top :: below →
      move g label top.arcs = .push k table next →
      P { s with stack := ⟨k, table, 0, []⟩ :: { top with state := next } :: below })
    {r : Except ParseError Bool} (h : P s)
    (run : handle g shape label t fuel s = (r, s')) : P s' := by
  suffices P (handle g shape label t fuel s).2 by rwa [run] at this
  clear run
  fun_induction handle g shape label t fuel s with
  | case1 | case2 | case8 => exact h
  | case3 _ _ _ _ stack _ moved => exact popFinished_invariant leave (take h stack moved)
  | case4 _ _ _ _ stack _ _ _ moved ih => exact ih (enter h stack moved)
  | case5 _ _ _ _ _ _ _ _ _ popped | case6 _ _ _ _ _ _ _ _ popped => exact leave h popped
  | case7 _ _ _ _ _ _ _ _ popped _ ih => exact ih (leave h popped)

def State.noting (s : State) (t : Input) : State :=
  if t.kind = Kind.name then { s with names := insertNew s.names t.value } else s

theorem State.noting_eq (s : State) (t : Input) : (s.noting t).stack = s.stack ∧
    (s.noting t).ready = s.ready ∧ (s.noting t).root = s.root := by
  unfold noting
  split <;> exact ⟨rfl, rfl, rfl⟩

theorem addToken_of_ready (t : Input) (ready : s.ready = true) : addToken g shape t s =
    match classify g t with
    | none => (.error (.misfit .badToken t), s.noting t)
    | some label =>
      handle g shape label t ((s.noting t).stack.length + g.entries.length + 1) (s.noting t) := by
  unfold addToken
  rw [if_neg (by simp [ready])]
  cases classify g t with
  | none => rfl
  | some label => exact if_pos ((s.noting_eq t).2.1.trans ready)

theorem addToken_of_unready (g : Grammar) (shape : Shape) (t : Input) (unready : s.ready = false) :
    ∃ e s', addToken g shape t s = (.error e, s') ∧ s'.stack = s.stack := by
  obtain ⟨stack, ready, -⟩ := s.noting_eq t
  have refused : ¬ (s.noting t).ready = true := by simp [ready, unready]
  unfold addToken
  split
  · exact ⟨_, s, rfl, rfl⟩
  · cases classify g t with
    | none => exact ⟨_, s.noting t, rfl, stack⟩
    | some label => exact ⟨_, s.noting t, if_neg refused, stack⟩

/-- A parser that is set up, or that has taken a token, has a top with a child or only one entry. -/
def Ready (s : State) : Prop :=
  ∀ top below, s.stack = top :: below → below ≠ [] → top.children ≠ []

theorem addToken_sound (hg : g.Predictive) {t : Input} (h : Sound g shape start fed s)
    (ready : Ready s) (ht : addToken g shape t s = (.ok done, s')) :
    Sound g shape start (fed ++ [t.token]) s' ∧ Ready s' ∧ done = s'.stack.isEmpty := by
  obtain ⟨stack, -, root⟩ := s.noting_eq t
  cases on : s.ready with
  | false =>
    obtain ⟨e, _, refused, -⟩ := addToken_of_unready g shape t on
    cases refused.symm.trans ht
  | true =>
    rw [addToken_of_ready t on] at ht
    split at ht
    · cases ht
    · rename_i label hl
      have h₁ : Sound g shape start fed (s.noting t) := by
        obtain ⟨stacked, bottom, leaves, made⟩ := h
        exact ⟨stack ▸ stacked, stack ▸ bottom, stack ▸ leaves, by rw [stack, root]; exact made⟩
      have begun : Begun label (s.noting t) := fun top below hs lone empty =>
        absurd empty (ready top below (stack ▸ hs) lone)
      obtain ⟨h₂, filled, hd⟩ := handle_sound hg hl h₁ begun ht
      exact ⟨h₂, fun e rest he _ => filled e rest he, hd⟩

/-! ## A run -/

/-- Give the parser tokens one after the other; tells what it answered to the last one. -/
def feed (g : Grammar) (shape : Shape) : List Input → State → Except ParseError Bool × State
  | [], s => (.ok false, s)
  | t :: ts, s =>
    match addToken g shape t s with
    | (.error e, s) => (.error e, s)
    | (.ok done, s) => if ts.isEmpty then (.ok done, s) else feed g shape ts s

theorem setUp_sound {start : Option Kind} {before : State}
    (h : setUp g start before = (.ok (), s)) :
    Sound g shape (start.getD g.start) [] s ∧ Ready s := by
  unfold setUp at h
  simp only at h
  split at h
  · cases h
  · rename_i table entry
    cases h
    refine ⟨⟨⟨entry, ⟨[], .nil, rfl⟩, trivial⟩, by simp, by simp [stackLeaves, Tree.leavesAll],
      by simp⟩, ?_⟩
    intro _ _ hs lone
    cases hs
    exact absurd rfl lone

/-- A run that ends with the parser saying that it is done has made a tree that derives from the start
symbol and has the given tokens as its leaves. -/
theorem feed_sound (hg : g.Predictive) {ts : List Input} (h : Sound g shape start fed s)
    (ready : Ready s) (hf : feed g shape ts s = (.ok true, s')) :
    ∃ tree, s'.root = some tree ∧ Derives g shape start tree ∧
      tree.leaves = fed ++ ts.map Input.token := by
  induction ts generalizing s fed with
  | nil => cases hf
  | cons t ts ih =>
    unfold feed at hf
    split at hf
    · cases hf
    · rename_i done s₁ ht
      obtain ⟨h₁, ready₁, hd⟩ := addToken_sound hg h ready ht
      split at hf
      · rename_i last
        cases hf
        obtain ⟨tree, hr, derived, leaves⟩ := h₁.root (by simpa using hd.symm)
        have : ts = [] := by simpa using last
        exact ⟨tree, hr, derived, by simpa [this] using leaves⟩
      · obtain ⟨tree, hr, derived, leaves⟩ := ih h₁ ready₁ hf
        exact ⟨tree, hr, derived, by simpa using leaves⟩

end Parser

end Retouch
