import Retouch.Proofs.Rewriting

/-!
# The order of walks

Over a forest that does not change, a walk reports the nodes of the tree that it enters, each after
those below it (`Walk.restWith_enter`).  The walk that reports the root first does so as well below the
root (`Walk.rest_rootFirst`): it comes by every node once, but the nodes come before what is below them
only where the children of the root have no children.
-/

namespace Retouch

open List

/-! ## Orders -/

namespace Tree

variable {α : Type} {t : Tree α} {ts : List (Tree α)}

/-- A node that comes after those below it comes first only if there are none. -/
theorem upward_eq_tags_iff (nodup : t.tags.Nodup) : t.upward = t.tags ↔ t.children = [] := by
  cases t with
  | leaf i l => exact iff_of_true rfl rfl
  | node i k cs =>
    rw [upward]
    constructor
    · intro same
      cases below : upwardAll cs with
      | nil =>
        cases cs with
        | nil => rfl
        | cons c cs =>
          have mem : c.tag ∈ tagsAll (c :: cs) := by simp [tag_mem_tags]
          cases below ▸ (perm_upwardAll _).mem_iff.2 mem
      | cons j js =>
        -- the first of those below would be the node itself
        rw [below] at same
        have mem := (perm_upwardAll cs).mem_iff.1 (below ▸ mem_cons_self)
        exact absurd ((cons.inj same).1 ▸ mem) (nodup_cons.1 nodup).1
    · rintro rfl
      rfl

theorem upwardAll_eq_tagsAll_iff (nodup : (tagsAll ts).Nodup) :
    upwardAll ts = tagsAll ts ↔ ∀ t ∈ ts, t.children = [] := by
  induction ts with
  | nil => exact iff_of_true rfl nofun
  | cons t ts ih =>
    rw [tagsAll_cons] at nodup ⊢
    obtain ⟨first, later, -⟩ := nodup_append.1 nodup
    rw [upwardAll, forall_mem_cons, ← upward_eq_tags_iff first, ← ih later]
    refine ⟨fun same => append_inj same (perm_upward t).length_eq, ?_⟩
    rintro ⟨here, there⟩
    rw [here, there]

end Tree

/-! ## Walks to the end -/

namespace Walk

open Tree

variable {f : Forest} {w w' : Walk} {i p : NodeId} {n generation place : Nat} {closing : Bool}
  {t : Tree NodeId} {k : Kind} {cs : List (Tree NodeId)}

theorem restWith_of_none (last : next f w = none) : restWith f n w = [] := by
  cases n with
  | zero => rfl
  | succ n => rw [restWith, last]

theorem restWith_of_some (found : next f w = some (i, w')) :
    restWith f (n + 1) w = i :: restWith f n w' := by
  rw [restWith, found]

theorem restWith_congr (same : next f w = next f w') (n : Nat) : restWith f n w = restWith f n w' := by
  cases n with
  | zero => rfl
  | succ n => rw [restWith, restWith, same]

theorem restWith_goOn {todo : List (Tree NodeId)}
    (each : ∀ c ∈ todo, f.Stands c ∧ ∀ n rest, restWith f (c.nodes.length + n) (.enter c.tag true :: rest) =
      c.upward ++ restWith f n rest)
    (list : ∀ m, (f.childrenAt p generation)[place + m]? = (todo.map tag)[m]?) (n : Nat) (rest : Walk) :
    restWith f ((nodesAll todo).length + n) (.goOn p generation place closing :: rest) =
      upwardAll todo ++ restWith f n (.goOn p generation (place + todo.length) closing :: rest) := by
  induction todo generalizing place with
  | nil => rw [nodesAll, length_nil, Nat.zero_add, upwardAll, nil_append, Nat.add_zero]
  | cons c todo ih =>
    obtain ⟨⟨stands, first⟩, later⟩ := forall_mem_cons.1 each
    have child : (f.childrenAt p generation)[place]? = some c.tag := list 0
    rw [restWith_congr (next_goOn_some stands child), nodesAll, length_append, Nat.add_assoc, first,
      ih later fun m => ?_, upwardAll, append_assoc, Nat.add_right_comm place]
    · rfl
    · rw [Nat.add_right_comm]
      exact list (m + 1)

theorem restWith_children (closing : Bool) (h : f.Stands (.node i k cs))
    (each : ∀ c ∈ cs, f.Stands c → ∀ n rest, restWith f (c.nodes.length + n) (.enter c.tag true :: rest) =
      c.upward ++ restWith f n rest) (n : Nat) (rest : Walk) :
    restWith f ((nodesAll cs).length + n) (.goOn i (f.generation i) 0 closing :: rest) =
        upwardAll cs ++ restWith f n (.goOn i (f.generation i) (0 + cs.length) closing :: rest) ∧
      (f.childrenAt i (f.generation i))[0 + cs.length]? = none := by
  have part : ∀ c ∈ cs, f.Stands c := fun c hc => h.part (child_mem_nodes (self_mem_nodes _) hc)
  rw [restWith_goOn fun c hc => ⟨part c hc, each c hc (part c hc)⟩]
  · simp [h.childrenAt_eq]
  · simp [h.childrenAt_eq]

/-- A walk that enters a tree reports its nodes, each after those below it. -/
theorem restWith_enter (h : f.Stands t) (n : Nat) (rest : Walk) :
    restWith f (t.nodes.length + n) (.enter t.tag true :: rest) = t.upward ++ restWith f n rest := by
  induction t using induct generalizing n rest with
  | leaf i l =>
    rw [show (leaf i l).nodes.length + n = n + 1 from Nat.add_comm 1 n, tag,
      restWith_of_some (next_enter_leaf h)]
    rfl
  | node i k cs ih =>
    obtain ⟨below, last⟩ := restWith_children true h ih (n + 1) rest
    rw [tag, restWith_congr (next_enter_node h), length_nodes_add, below, restWith_of_some (next_goOn_none last),
      Tree.upward, append_assoc]
    rfl

theorem rest_rootFirst_eq (h : f.Stands t) :
    rest f (.rootFirst t.tag) = t.tag :: upwardAll t.children := by
  refine congrArg (t.tag :: ·) ?_
  cases t with
  | leaf i l => exact restWith_of_none (next_enter_end h)
  | node i k cs =>
    obtain ⟨n, size⟩ : ∃ n, f.size + 1 = (nodesAll cs).length + n :=
      Nat.exists_eq_add_of_le (Nat.le_succ_of_le (Nat.le_of_succ_le h.length_le))
    obtain ⟨below, last⟩ := restWith_children false h (fun c _ => restWith_enter) n []
    rw [tag, restWith_congr (next_enter_open h), size, below, restWith_of_none (next_goOn_end last),
      append_nil]
    rfl

/-- **The walk that reports the root first** comes by every node of the tree once, below the root each
after those below it.  So it comes by every node before those below it, and by the trees below a node
from left to right, if and only if the children of the root have no children. -/
theorem rest_rootFirst (h : f.Stands t) :
    Walk.rest f (.rootFirst t.tag) = t.tag :: upwardAll t.children ∧
      (Walk.rest f (.rootFirst t.tag)).Perm t.tags ∧
      (Walk.rest f (.rootFirst t.tag) = t.tags ↔ ∀ c ∈ t.children, c.children = []) := by
  have nodup := h.nodup
  rw [tags_eq] at nodup ⊢
  rw [rest_rootFirst_eq h]
  refine ⟨rfl, (perm_upwardAll _).cons _, ?_⟩
  rw [cons.injEq, ← upwardAll_eq_tagsAll_iff (nodup_cons.1 nodup).2]
  exact and_iff_right rfl

/-- A node with two leaves comes before them. -/
theorem rest_rootFirst_names :
    let t : SyntaxTree := .node () Language.Symbol.power [.leaf () (.ofText Kind.name ['f']),
      .leaf () (.ofText Kind.name ['x'])]
    (Forest.ofTree t).2.Stands (t.numbered 0) ∧
      Walk.rest (Forest.ofTree t).2 (.rootFirst 0) = (t.numbered 0).tags :=
  ⟨(whole_ofTree _).stands, (rest_rootFirst (whole_ofTree _).stands).2.2.2 (by decide)⟩

/-- In a program the parts of a comparison come before the comparison. -/
theorem rest_rootFirst_program :
    let t := Fixes.comparing Language.Symbol.fileInput "<>".toList
    Walk.rest (Forest.ofTree t).2 (.rootFirst 0) = [0, 2, 3, 4, 1] ∧
      (t.numbered 0).tags = [0, 1, 2, 3, 4] := by
  decide

end Walk

end Retouch
