import Retouch.Proofs.Adjacency
import Retouch.Proofs.ParserMaps
import Retouch.Proofs.Predictive

/-!
# Collapsing commutes with parsing

A parser that makes collapsed trees, where a symbol with one child is that child, does exactly what
one does that makes a node for every symbol: after any tokens it gives the same answer, and its stack
and its root are those of the other with all their trees collapsed (`Parser.feed_collapse`).  The
parser never looks at the trees it has made, so this holds for all tables and from all states.

With the tables of a grammar text every node of a finished tree has children, and so after collapsing
at least two; the leaves stay (`Parser.feed_collapsed`).
-/

namespace Retouch

/-! ## Collapsed trees -/

namespace Tree

mutual
/-- The tree in which every node with exactly one child is replaced by that child, from the leaves
up. -/
def collapse : SyntaxTree → SyntaxTree
  | .leaf tag l => .leaf tag l
  | .node tag k cs =>
    match collapseAll cs with
    | [child] => child
    | children => .node tag k children

def collapseAll : List SyntaxTree → List SyntaxTree
  | [] => []
  | t :: ts => collapse t :: collapseAll ts
end

theorem collapseAll_eq_map (ts : List SyntaxTree) : collapseAll ts = ts.map collapse := by
  induction ts with
  | nil => rfl
  | cons t ts ih => exact congrArg (collapse t :: ·) ih

theorem collapse_node (k : Kind) (cs : List SyntaxTree) :
    collapse (.node () k cs) = Shape.collapsed.tree k (collapseAll cs) := by
  unfold collapse Shape.tree
  split <;> simp_all

mutual
theorem leaves_collapse (t : SyntaxTree) : t.collapse.leaves = t.leaves := by
  cases t with
  | leaf => rfl
  | node tag k cs => rw [collapse_node, Shape.leaves_tree, leavesAll_collapse, leaves]

theorem leavesAll_collapse (ts : List SyntaxTree) : leavesAll (collapseAll ts) = leavesAll ts := by
  cases ts with
  | nil => rfl
  | cons t ts => simp [collapseAll, leavesAll, leaves_collapse t, leavesAll_collapse ts]
end

def Branches (t : SyntaxTree) : Prop := ∀ n ∈ t.nodes, n.isLeaf = true ∨ 2 ≤ n.children.length

end Tree

open Tree (Branches)

theorem Derives.branches {g : Grammar} {k : Kind} {t : SyntaxTree} (h : Derives g .collapsed k t) :
    Branches t := by
  refine induction (P := fun _ t => Branches t) ?_ h
  intro k _ _ children q _ stands nonempty _ _
  have below : ∀ t ∈ children, Branches t := by
    intro t ht
    obtain ⟨i, ⟨_, _, rfl⟩ | ⟨_, _, _, holds⟩⟩ := exists_stands stands ht
    · intro n mem
      rw [List.mem_singleton.1 mem]
      exact .inl rfl
    · exact holds
  match children with
  | [] => exact absurd rfl nonempty
  | [child] => exact below child (List.mem_singleton_self _)
  | a :: b :: rest =>
    intro n mem
    rcases List.mem_cons.1 mem with rfl | mem
    · exact .inr (by simp [Tree.children])
    · obtain ⟨t, ht, mem⟩ := Tree.mem_nodesAll.1 mem
      exact below t ht n mem

namespace Parser

/-! ## The two parsers side by side -/

theorem recasts_collapse : Recasts Tree.collapse id .full .collapsed where
  tree k cs := by
    rw [← Tree.collapseAll_eq_map]
    exact Tree.collapse_node k cs
  raw := by decide
  leaf _ := rfl
  kind _ := rfl
  value _ := rfl

def collapsed {α : Type} (r : Except ParseError α × State) : Except ParseError α × State :=
  (r.1, r.2.recast Tree.collapse)

theorem recast_collapse {α : Type} (r : Except ParseError α × State) :
    recast Tree.collapse id r = collapsed r := by
  obtain ⟨e | _, s⟩ := r
  · cases e <;> rfl
  · rfl

variable (g : Grammar)

/-- **Collapsing commutes with parsing**: the parser that collapses follows the other one from state
to state. -/
theorem feed_collapse (ts : List Input) (s : State) :
    feed g .collapsed ts (s.recast Tree.collapse) = collapsed (feed g .full ts s) := by
  induction ts generalizing s with
  | nil => rfl
  | cons t ts ih =>
    have added : addToken g .collapsed t (s.recast .collapse) = collapsed (addToken g .full t s) :=
      (recasts_collapse.addToken t s).trans (recast_collapse _)
    unfold feed
    rw [added]
    obtain ⟨_ | _, s'⟩ := addToken g .full t s
    · rfl
    · simp only [collapsed]
      split
      · rfl
      · exact ih s'

variable {g}

/-- **A parser that collapses answers like one that does not.**  For every grammar text that has
tables, and any tokens, it gives the same answer, error or not; and its root is that of the other with
every node that has one child replaced by that child.  So when it ends, every node has at least two
children, and the leaves are the tokens. -/
theorem feed_collapsed {text : Text} (hg : Grammar.ofText text = .ok g) {start : Option Kind}
    {before s : State} (hs : setUp g start before = (.ok (), s)) (ts : List Input) :
    (feed g .collapsed ts s).1 = (feed g .full ts s).1 ∧
    (feed g .collapsed ts s).2.root = (feed g .full ts s).2.root.map Tree.collapse ∧
    ((feed g .full ts s).1 = .ok true → ∃ tree, (feed g .full ts s).2.root = some tree ∧
      (feed g .collapsed ts s).2.root = some tree.collapse ∧
      (∀ n ∈ tree.collapse.nodes, n.isLeaf = true ∨ 2 ≤ n.children.length) ∧
      tree.collapse.leaves = tree.leaves ∧ tree.leaves = ts.map Input.token) := by
  have collapse := feed_collapse g ts s
  rw [setUp_recast Tree.collapse hs] at collapse
  have root : (feed g .collapsed ts s).2.root = (feed g .full ts s).2.root.map Tree.collapse := by
    rw [collapse]
    rfl
  refine ⟨by rw [collapse]; rfl, root, fun ended => ?_⟩
  have predictive := (Grammar.ofText_predictive hg).1
  obtain ⟨sound, ready⟩ : Sound g .full (start.getD g.start) [] s ∧ Ready s := setUp_sound hs
  obtain ⟨tree, found, -, leaves⟩ := feed_sound predictive sound ready (Prod.ext ended rfl)
  obtain ⟨sound', ready'⟩ : Sound g .collapsed (start.getD g.start) [] s ∧ Ready s := setUp_sound hs
  obtain ⟨tree', found', derived, -⟩ :=
    feed_sound predictive sound' ready' (Prod.ext (by rw [collapse]; exact ended) rfl)
  rw [found, Option.map_some] at root
  obtain rfl : tree' = tree.collapse := Option.some.inj (found'.symm.trans root)
  exact ⟨tree, found, root, derived.branches, Tree.leaves_collapse tree, leaves⟩

/-- In the list `[a, [b]]` the items are nodes of their own only before collapsing. -/
theorem feed_collapsed_nested : ∃ g s tree, Grammar.ofText nestedText = .ok g ∧
    setUp g none {} = (.ok (), s) ∧ (feed g .full nestedTokens s).1 = .ok true ∧
    (feed g .full nestedTokens s).2.root = some tree ∧
    (feed g .collapsed nestedTokens s).1 = .ok true ∧
    (feed g .collapsed nestedTokens s).2.root = some tree.collapse ∧
    tree.nodes.length = 12 ∧ tree.collapse.nodes.length = 9 := by
  obtain ⟨g, s, done, s', hg, hs, ends, run⟩ := exists_of_takes nestedText nestedTokens
    (fun _ done s' => done &&
      ((s'.root.map fun tree => (tree.nodes.length, tree.collapse.nodes.length)) == some (12, 9)))
    (by decide +kernel)
  obtain ⟨rfl, run⟩ := Bool.and_eq_true_iff.1 run
  obtain ⟨same, -, finished⟩ := feed_collapsed hg hs nestedTokens
  rw [ends] at same finished
  obtain ⟨tree, root, root', -⟩ := finished rfl
  simp only at root
  rw [root] at run
  refine ⟨g, s, tree, hg, hs, by rw [ends], by rw [ends]; exact root, same, root', ?_⟩
  simpa using run

end Parser

end Retouch
