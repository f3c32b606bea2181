import Mathlib.Data.List.Nodup
import Retouch.Syntax.Tree

/-!
# Trees and their leaves

The text of a tree is what its leaves hold, from left to right.  A tree without its blanks, places and
tags is bare, and trees with the same bare tree have leaves of the same kinds and values
(`leaves_bare`).
-/

namespace Retouch

open List

def Leaf.bare (l : Leaf) : Leaf := { kind := l.kind, value := l.value }

namespace Tree

variable {α β : Type}

@[elab_as_elim]
theorem induct {P : Tree α → Prop} (leaf : ∀ i l, P (.leaf i l))
    (node : ∀ i k cs, (∀ c ∈ cs, P c) → P (.node i k cs)) (t : Tree α) : P t :=
  @Tree.rec α P (fun cs => ∀ c ∈ cs, P c) leaf node (by simp)
    (fun _ _ first rest => forall_mem_cons.2 ⟨first, rest⟩) t

section

variable [DecidableEq α]

mutual
def decEq : (s t : Tree α) → Decidable (s = t)
  | leaf i a, leaf j b => decidable_of_iff (i = j ∧ a = b) (by rw [leaf.injEq])
  | leaf _ _, node _ _ _ => isFalse nofun
  | node _ _ _, leaf _ _ => isFalse nofun
  | node i k cs, node j l ds =>
    have := decEqAll cs ds
    decidable_of_iff (i = j ∧ k = l ∧ cs = ds) (by rw [node.injEq])

def decEqAll : (ss ts : List (Tree α)) → Decidable (ss = ts)
  | [], [] => isTrue rfl
  | [], _ :: _ => isFalse nofun
  | _ :: _, [] => isFalse nofun
  | s :: ss, t :: ts =>
    have := decEq s t
    have := decEqAll ss ts
    decidable_of_iff (s = t ∧ ss = ts) (by rw [List.cons.injEq])
end

instance : DecidableEq (Tree α) := decEq

end

/-! ## Leaves -/

theorem leavesAll_eq_flatMap (ts : List (Tree α)) : leavesAll ts = ts.flatMap leaves := by
  induction ts with
  | nil => rfl
  | cons t ts ih => exact congrArg (t.leaves ++ ·) ih

theorem leaves_node (i : α) (k : Kind) (cs : List (Tree α)) :
    (node i k cs).leaves = cs.flatMap leaves := leavesAll_eq_flatMap cs

@[simp] theorem leavesAll_append (ts us : List (Tree α)) :
    leavesAll (ts ++ us) = leavesAll ts ++ leavesAll us := by
  simp [leavesAll_eq_flatMap]

mutual
theorem text_eq_leaves (t : Tree α) : t.text = (t.leaves.map Leaf.text).flatten := by
  cases t with
  | leaf tag l => exact (append_nil _).symm
  | node tag k cs => exact textAll_eq_leaves cs

theorem textAll_eq_leaves (ts : List (Tree α)) :
    textAll ts = ((leavesAll ts).map Leaf.text).flatten := by
  cases ts with
  | nil => rfl
  | cons t ts =>
    change t.text ++ textAll ts = ((t.leaves ++ leavesAll ts).map Leaf.text).flatten
    rw [map_append, flatten_append, text_eq_leaves t, textAll_eq_leaves ts]
end

theorem textAll_eq_flatMap (ts : List (Tree α)) : textAll ts = ts.flatMap text := by
  induction ts with
  | nil => rfl
  | cons t ts ih => exact congrArg (t.text ++ ·) ih

/-! ## Nodes and tags -/

theorem nodesAll_eq_flatMap (ts : List (Tree α)) : nodesAll ts = ts.flatMap nodes := by
  induction ts with
  | nil => rfl
  | cons t ts ih => exact congrArg (t.nodes ++ ·) ih

theorem nodes_node (i : α) (k : Kind) (cs : List (Tree α)) :
    (node i k cs).nodes = node i k cs :: cs.flatMap nodes :=
  congrArg (node i k cs :: ·) (nodesAll_eq_flatMap cs)

theorem nodesAll_append (ts us : List (Tree α)) :
    nodesAll (ts ++ us) = nodesAll ts ++ nodesAll us := by
  simp [nodesAll_eq_flatMap]

theorem mem_nodesAll {n : Tree α} {ts : List (Tree α)} :
    n ∈ nodesAll ts ↔ ∃ t ∈ ts, n ∈ t.nodes := by
  rw [nodesAll_eq_flatMap, mem_flatMap]

theorem leaves_subset_of_mem_nodes {t n : Tree α} (h : n ∈ t.nodes) : n.leaves ⊆ t.leaves := by
  induction t using induct with
  | leaf tag l =>
    rw [mem_singleton.1 h]
    exact .refl _
  | node tag k cs ih =>
    rw [nodes, mem_cons, mem_nodesAll] at h
    rcases h with rfl | ⟨c, hc, below⟩
    · exact .refl _
    · intro l hl
      rw [leaves_node]
      exact mem_flatMap.2 ⟨c, hc, ih c hc below hl⟩

theorem self_mem_nodes (t : Tree α) : t ∈ t.nodes := by
  cases t with
  | leaf i l => exact mem_singleton_self _
  | node i k cs => exact mem_cons_self

theorem child_mem_nodes {t n c : Tree α} (hn : n ∈ t.nodes) (hc : c ∈ n.children) : c ∈ t.nodes := by
  induction t using induct with
  | leaf i l =>
    cases mem_singleton.1 hn
    cases hc
  | node i k cs ih =>
    rw [nodes_node, mem_cons, mem_flatMap] at hn ⊢
    right
    rcases hn with rfl | ⟨t, ht, hn⟩
    · exact ⟨c, hc, self_mem_nodes c⟩
    · exact ⟨t, ht, ih t ht hn⟩

def tags (t : Tree α) : List α := t.nodes.map tag

def tagsAll (ts : List (Tree α)) : List α := (nodesAll ts).map tag

@[simp] theorem tags_leaf (i : α) (l : Leaf) : (leaf i l).tags = [i] := rfl

@[simp] theorem tags_node (i : α) (k : Kind) (cs : List (Tree α)) :
    (node i k cs).tags = i :: tagsAll cs := rfl

@[simp] theorem tagsAll_nil : tagsAll ([] : List (Tree α)) = [] := rfl

@[simp] theorem tagsAll_cons (t : Tree α) (ts : List (Tree α)) :
    tagsAll (t :: ts) = t.tags ++ tagsAll ts := by
  simp [tagsAll, tags, nodesAll_eq_flatMap]

@[simp] theorem tagsAll_append (ts us : List (Tree α)) :
    tagsAll (ts ++ us) = tagsAll ts ++ tagsAll us := by
  simp [tagsAll, nodesAll_append]

theorem mem_tagsAll {i : α} {ts : List (Tree α)} : i ∈ tagsAll ts ↔ ∃ t ∈ ts, i ∈ t.tags := by
  induction ts with
  | nil => simp
  | cons t ts ih => simp [ih]

theorem tag_mem_tags (t : Tree α) : t.tag ∈ t.tags := by
  cases t <;> simp [tag]

/-! ## Bare trees -/

mutual
def bare : Tree α → SyntaxTree
  | leaf _ l => leaf () l.bare
  | node _ k cs => node () k (bareAll cs)

def bareAll : List (Tree α) → List SyntaxTree
  | [] => []
  | t :: ts => bare t :: bareAll ts
end

@[simp] theorem bareAll_eq_map (ts : List (Tree α)) : bareAll ts = ts.map bare := by
  induction ts with
  | nil => rfl
  | cons t ts ih => exact congrArg (t.bare :: ·) ih

theorem bare_node (i : α) (k : Kind) (cs : List (Tree α)) :
    (node i k cs).bare = node () k (cs.map bare) :=
  congrArg (node () k) (bareAll_eq_map cs)

@[simp] theorem retagAll_eq_map (f : α → β) (ts : List (Tree α)) :
    retagAll f ts = ts.map (retag f) := by
  induction ts with
  | nil => rfl
  | cons t ts ih => exact congrArg (t.retag f :: ·) ih

theorem retag_node (f : α → β) (i : α) (k : Kind) (cs : List (Tree α)) :
    (node i k cs).retag f = node (f i) k (cs.map (retag f)) :=
  congrArg (node (f i) k) (retagAll_eq_map f cs)

theorem children_bare (t : Tree α) : t.bare.children = t.children.map bare := by
  cases t with
  | leaf i l => rfl
  | node i k cs => rw [bare_node]; rfl

/-- The leaves of the bare tree are the bare leaves. -/
theorem leaves_bare (t : Tree α) : t.bare.leaves = t.leaves.map Leaf.bare := by
  induction t using induct with
  | leaf i l => rfl
  | node i k cs ih =>
    rw [bare_node, leaves_node, leaves_node, flatMap_map, map_flatMap]
    exact flatMap_congr ih

theorem nodes_bare (t : Tree α) : t.bare.nodes = t.nodes.map bare := by
  induction t using induct with
  | leaf i l => rfl
  | node i k cs ih =>
    rw [bare_node, nodes_node, nodes_node, flatMap_map, map_cons, map_flatMap,
      flatMap_congr ih, bare_node]

theorem leaves_retag (f : α → β) (t : Tree α) : (t.retag f).leaves = t.leaves := by
  induction t using induct with
  | leaf i l => rfl
  | node i k cs ih =>
    rw [retag_node, leaves_node, leaves_node, flatMap_map]
    exact flatMap_congr ih

theorem bare_retag (f : α → β) (t : Tree α) : (t.retag f).bare = t.bare := by
  induction t using induct with
  | leaf i l => rfl
  | node i k cs ih =>
    rw [retag_node, bare_node, bare_node, map_map]
    exact congrArg _ (map_congr_left ih)

/-! ## Other blanks before a tree -/

mutual
/-- The tree with other blanks before it, if it has a leaf that can hold them. -/
def withLead (lead : Text) : Tree α → Tree α
  | leaf i l => leaf i { l with lead }
  | node i k cs => node i k (withLeadAll lead cs)

def withLeadAll (lead : Text) : List (Tree α) → List (Tree α)
  | [] => []
  | t :: ts => withLead lead t :: ts
end

theorem withLead_cons (lead : Text) (i : α) (k : Kind) (c : Tree α) (cs : List (Tree α)) :
    (node i k (c :: cs)).withLead lead = node i k (c.withLead lead :: cs) := rfl

@[simp] theorem tags_withLead (lead : Text) (t : Tree α) : (t.withLead lead).tags = t.tags := by
  induction t using induct with
  | leaf i l => rfl
  | node i k cs ih =>
    cases cs with
    | nil => rfl
    | cons c cs => simp [withLead_cons, ih c mem_cons_self]

@[simp] theorem bare_withLead (lead : Text) (t : Tree α) : (t.withLead lead).bare = t.bare := by
  induction t using induct with
  | leaf i l => rfl
  | node i k cs ih =>
    cases cs with
    | nil => rfl
    | cons c cs => simp [withLead_cons, bare_node, ih c mem_cons_self]

theorem leaves_withLead (lead : Text) (t : Tree α) : (t.withLead lead).leaves = t.leaves ∨
    ∃ l ls, t.leaves = l :: ls ∧ l.lead = t.lead ∧
      (t.withLead lead).leaves = { l with lead } :: ls := by
  induction t using induct with
  | leaf i l => exact .inr ⟨l, [], rfl, rfl, rfl⟩
  | node i k cs ih =>
    cases cs with
    | nil => exact .inl rfl
    | cons c cs =>
      rw [withLead_cons, leaves_node, leaves_node, flatMap_cons, flatMap_cons]
      rcases ih c mem_cons_self with same | ⟨l, ls, first, before, changed⟩
      · exact .inl (by rw [same])
      · exact .inr ⟨l, ls ++ cs.flatMap leaves, by rw [first]; rfl, before, by rw [changed]; rfl⟩

end Tree

end Retouch
