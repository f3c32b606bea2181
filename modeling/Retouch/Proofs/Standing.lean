import Mathlib.Data.List.Perm.Subperm
import Retouch.Forest.Edit
import Retouch.Proofs.Places

/-!
# Trees that stand in a forest

A tree stands in a forest if the cells of its tags show what its nodes show, and name the nodes above as
their parents.  Looking at the number of its root then gives the tree (`Stands.view_eq`), and the
numbers above a part are those of the nodes on the way to it (`Stands.ancestors_eq`).  A tree stays where
nothing but the children of a node outside it are changed (`Stands.keep`).
-/

namespace Retouch

open List

open Tree (Face)

def Body.face : Body → Face NodeId
  | .leaf l => .leaf l
  | .node k cs _ => .node k cs

theorem get_ok {ε σ : Type} (s : σ) : (get : EStateM ε σ σ) s = .ok s s := rfl

theorem modifyGet_ok {ε σ α : Type} (act : σ → α × σ) (s : σ) :
    (modifyGet act : EStateM ε σ α) s = .ok (act s).1 (act s).2 := rfl

namespace Forest

open Tree

variable {f f' : Forest} {g : Cell → Cell} {i j p : NodeId}

/-! ## Cells -/

def face (f : Forest) (i : NodeId) : Face NodeId := (f.cell i).body.face

def isChanged (f : Forest) (i : NodeId) : Bool := (f.cell i).changed

theorem cell_of_le (h : f.size ≤ i) : f.cell i = default := by
  rw [cell, Array.getD_eq_getD_getElem?, Array.getElem?_eq_none h, Option.getD_none]

theorem face_of_le (h : f.size ≤ i) : f.face i = .leaf default := by
  rw [face, cell_of_le h]
  rfl

theorem parent?_of_le (h : f.size ≤ i) : f.parent? i = none := by
  rw [parent?, cell_of_le h]
  rfl

theorem children_eq (f : Forest) (i : NodeId) : f.children i = (f.face i).children := by
  unfold children face
  cases (f.cell i).body <;> rfl

theorem kind_eq (f : Forest) (i : NodeId) :
    f.kind i = match f.face i with
      | .leaf l => l.kind
      | .node k _ => k := by
  unfold kind face
  cases (f.cell i).body <;> rfl

theorem isLeaf_eq (f : Forest) (i : NodeId) :
    f.isLeaf i = match f.face i with
      | .leaf _ => true
      | .node _ _ => false := by
  unfold isLeaf face
  cases (f.cell i).body <;> rfl

@[simp] theorem size_alter (f : Forest) (i : NodeId) (g : Cell → Cell) : (f.alter i g).size = f.size :=
  Array.size_modify

theorem cell_alter (f : Forest) (i : NodeId) (g : Cell → Cell) (j : NodeId) :
    (f.alter i g).cell j = if j = i ∧ j < f.size then g (f.cell j) else f.cell j := by
  simp only [cell, alter, Array.getD_eq_getD_getElem?, Array.getElem?_modify]
  by_cases hi : j = i
  · subst hi
    by_cases hj : j < f.size
    · rw [if_pos rfl, if_pos ⟨rfl, hj⟩, Array.getElem?_eq_getElem hj]
      rfl
    · rw [if_pos rfl, if_neg fun h => hj h.2, Array.getElem?_eq_none (Nat.le_of_not_lt hj)]
      rfl
  · rw [if_neg fun h => hi h.symm, if_neg fun h => hi h.1]

/-! ### What stays if a cell is altered -/

theorem face_alterBody {h : Body → Body} (inside : i < f.size) (j : NodeId) :
    (f.alterBody i h).face j = if j = i then (h (f.cell i).body).face else f.face j := by
  rw [face, alterBody, cell_alter]
  by_cases hj : j = i
  · rw [if_pos ⟨hj, hj ▸ inside⟩, if_pos hj, hj]
  · rw [if_neg fun h => hj h.1, if_neg hj, face]

theorem face_alter_of (h : ∀ c, (g c).body.face = c.body.face) (i j : NodeId) :
    (f.alter i g).face j = f.face j := by
  rw [face, cell_alter]
  split
  · exact h _
  · rfl

theorem parent?_alter_of (h : ∀ c, (g c).parent = c.parent) (i j : NodeId) :
    (f.alter i g).parent? j = f.parent? j := by
  rw [parent?, cell_alter]
  split
  · exact h _
  · rfl

theorem isChanged_alter_of (h : ∀ c, (g c).changed = c.changed) (i j : NodeId) :
    (f.alter i g).isChanged j = f.isChanged j := by
  rw [isChanged, cell_alter]
  split
  · exact h _
  · rfl

theorem body_of_leaf {l : Leaf} (leaf : f.face i = .leaf l) : (f.cell i).body = .leaf l := by
  rw [face] at leaf
  cases body : (f.cell i).body with
  | leaf l' =>
    rw [body] at leaf
    cases leaf
    rfl
  | node k cs earlier =>
    rw [body] at leaf
    cases leaf

theorem body_of_node {k : Kind} {cs : List NodeId} (node : f.face i = .node k cs) :
    ∃ earlier, (f.cell i).body = .node k cs earlier := by
  rw [face] at node
  cases body : (f.cell i).body with
  | leaf l =>
    rw [body] at node
    cases node
  | node k' cs' earlier =>
    rw [body] at node
    cases node
    exact ⟨earlier, rfl⟩

theorem face_alterChildren {k : Kind} {cs : List NodeId} (node : f.face i = .node k cs)
    (inside : i < f.size) (h : List NodeId → List NodeId) (j : NodeId) :
    (f.alterChildren i h).face j = if j = i then .node k (h cs) else f.face j := by
  obtain ⟨earlier, body⟩ := body_of_node node
  rw [face_alterBody inside, body]
  rfl

theorem face_renewChildren {k : Kind} {cs : List NodeId} (node : f.face i = .node k cs)
    (inside : i < f.size) (new : List NodeId) (j : NodeId) :
    (f.renewChildren i new).face j = if j = i then .node k new else f.face j := by
  obtain ⟨earlier, body⟩ := body_of_node node
  rw [face_alterBody inside, body]
  rfl

theorem face_alterToken {l : Leaf} (leaf : f.face i = .leaf l) (inside : i < f.size) (h : Leaf → Leaf)
    (j : NodeId) : (f.alterToken i h).face j = if j = i then .leaf (h l) else f.face j := by
  rw [face_alterBody inside, body_of_leaf leaf]
  rfl

section

variable (f i)

@[simp] theorem size_setParent (q : Option NodeId) : (f.setParent i q).size = f.size :=
  size_alter ..

@[simp] theorem face_setParent (q : Option NodeId) (j : NodeId) :
    (f.setParent i q).face j = f.face j :=
  face_alter_of (fun _ => by rfl) i j

@[simp] theorem isChanged_setParent (q : Option NodeId) (j : NodeId) :
    (f.setParent i q).isChanged j = f.isChanged j :=
  isChanged_alter_of (fun _ => by rfl) i j

theorem parent?_setParent (q : Option NodeId) (j : NodeId) :
    (f.setParent i q).parent? j = if j = i ∧ j < f.size then q else f.parent? j := by
  rw [parent?, setParent, cell_alter]
  split <;> rfl

@[simp] theorem size_alterBody (h : Body → Body) : (f.alterBody i h).size = f.size :=
  size_alter ..

@[simp] theorem parent?_alterBody (h : Body → Body) (j : NodeId) :
    (f.alterBody i h).parent? j = f.parent? j :=
  parent?_alter_of (fun _ => by rfl) i j

@[simp] theorem isChanged_alterBody (h : Body → Body) (j : NodeId) :
    (f.alterBody i h).isChanged j = f.isChanged j :=
  isChanged_alter_of (fun _ => by rfl) i j

/-! ### Marks -/

theorem foldl_keeps {β : Type} {step : Forest → NodeId → Forest} (g : Forest → β)
    (keeps : ∀ f i, g (step f i) = g f) (is : List NodeId) : g (is.foldl step f) = g f := by
  induction is generalizing f with
  | nil => rfl
  | cons i is ih => exact (ih _).trans (keeps f i)

@[simp] theorem size_mark (is : List NodeId) : (f.mark is).size = f.size :=
  foldl_keeps f size (fun _ _ => size_alter ..) is

@[simp] theorem face_mark (is : List NodeId) (j : NodeId) : (f.mark is).face j = f.face j :=
  foldl_keeps f (face · j) (fun _ i => face_alter_of (fun _ => by rfl) i j) is

@[simp] theorem parent?_mark (is : List NodeId) (j : NodeId) : (f.mark is).parent? j = f.parent? j :=
  foldl_keeps f (parent? · j) (fun _ i => parent?_alter_of (fun _ => by rfl) i j) is

theorem isChanged_mark (is : List NodeId) (j : NodeId) :
    (f.mark is).isChanged j = true ↔ f.isChanged j = true ∨ j ∈ is ∧ j < f.size := by
  induction is generalizing f with
  | nil => simp [mark]
  | cons i is ih =>
    rw [show f.mark (i :: is) = (f.alter i fun c => { c with changed := true }).mark is from rfl, ih,
      size_alter, isChanged, cell_alter, mem_cons]
    by_cases here : j = i ∧ j < f.size
    · rw [if_pos here]
      exact iff_of_true (.inl rfl) (.inr ⟨.inl here.1, here.2⟩)
    · rw [if_neg here, or_and_right, or_iff_right here, isChanged]

@[simp] theorem size_markChanged : (f.markChanged i).size = f.size :=
  size_mark ..

@[simp] theorem face_markChanged (j : NodeId) : (f.markChanged i).face j = f.face j :=
  face_mark ..

@[simp] theorem parent?_markChanged (j : NodeId) : (f.markChanged i).parent? j = f.parent? j :=
  parent?_mark ..

theorem isChanged_markChanged (j : NodeId) : (f.markChanged i).isChanged j = true ↔
    f.isChanged j = true ∨ j ∈ i :: f.ancestors i ∧ j < f.size :=
  isChanged_mark ..

/-! ### New cells -/

@[simp] theorem size_push (c : Cell) : (f.push c).2.size = f.size + 1 :=
  Array.size_push ..

theorem cell_push (c : Cell) (j : NodeId) :
    (f.push c).2.cell j = if j = f.size then c else f.cell j := by
  simp only [cell, push, Array.getD_eq_getD_getElem?, Array.getElem?_push, size]
  split <;> rfl

end

/-! ## Standing -/

/-- The cell of a number shows the face and is named as parent by the children. -/
structure Shows (f : Forest) (o : NodeId × Face NodeId) : Prop where
  inside : o.1 < f.size
  face : f.face o.1 = o.2
  parent : ∀ c ∈ o.2.children, f.parent? c = some o.1

/-- The tree stands in the forest: its tags differ, and the cells show what its nodes show. -/
structure Stands (f : Forest) (t : Tree NodeId) : Prop where
  nodup : t.tags.Nodup
  shows : ∀ o ∈ t.faces, f.Shows o

namespace Stands

variable {t n v : Tree NodeId} {path : Path NodeId}

theorem part (h : Stands f t) (hn : n ∈ t.nodes) : Stands f n :=
  ⟨h.nodup.sublist (tags_sublist hn), fun o ho => h.shows o (faces_subset hn ho)⟩

theorem plugged (h : Stands f (path.plug v)) : Stands f v := h.part (path.mem_nodes_plug v)

theorem inside (h : Stands f t) (hi : i ∈ t.tags) : i < f.size := by
  rw [tags_eq_map_faces] at hi
  obtain ⟨o, ho, rfl⟩ := mem_map.1 hi
  exact (h.shows o ho).inside

theorem tag_lt (h : Stands f t) : t.tag < f.size := h.inside t.tag_mem_tags

theorem face_eq (h : Stands f t) : f.face t.tag = t.face := (h.shows _ t.face_mem_faces).face

theorem children_eq_map (h : Stands f t) : f.children t.tag = t.children.map tag := by
  rw [children_eq, h.face_eq, children_face]

theorem parent_child (h : Stands f t) {c : Tree NodeId} (hc : c ∈ t.children) :
    f.parent? c.tag = some t.tag := by
  refine (h.shows _ t.face_mem_faces).parent c.tag ?_
  rw [children_face]
  exact mem_map_of_mem hc

theorem length_le (h : Stands f t) : t.nodes.length ≤ f.size := by
  have small : t.tags ⊆ range f.size := fun i hi => mem_range.2 (h.inside hi)
  have le := (subperm_of_subset h.nodup small).length_le
  rwa [length_range, tags, length_map] at le

end Stands

/-- To look at a tree deep enough is to see all of it. -/
theorem viewWith_eq {t : Tree NodeId} (shown : ∀ o ∈ t.faces, f.face o.1 = o.2) {depth : Nat}
    (deep : t.nodes.length ≤ depth) : f.viewWith depth t.tag = t := by
  induction t using induct generalizing depth with
  | leaf i l =>
    cases depth with
    | zero => cases deep
    | succ depth =>
      rw [viewWith, tag, body_of_leaf (shown (i, _) mem_cons_self)]
  | node i k cs ih =>
    cases depth with
    | zero => cases deep
    | succ depth =>
      obtain ⟨earlier, body⟩ := body_of_node (shown (i, _) mem_cons_self)
      rw [viewWith, tag, body]
      have below : ∀ c ∈ cs, f.viewWith depth c.tag = c := by
        intro c hc
        refine ih c hc (fun o ho => shown o ?_) ?_
        · exact mem_cons_of_mem _ (mem_facesAll.2 ⟨c, hc, ho⟩)
        · obtain ⟨l, r, rfl⟩ := append_of_mem hc
          simp only [nodes, nodesAll_append, nodesAll, length_cons, length_append] at deep
          omega
      simp only [map_map]
      exact congrArg _ ((map_congr_left below).trans (map_id' cs))

namespace Stands

variable {t n v : Tree NodeId} {path : Path NodeId}

/-- Looking at the root of a tree gives the tree. -/
theorem view_eq (h : Stands f t) : f.view t.tag = t :=
  viewWith_eq (fun o ho => (h.shows o ho).face) (Nat.le_succ_of_le h.length_le)

theorem text_eq (h : Stands f t) : f.text t.tag = t.text := by rw [text, h.view_eq]

theorem chain_eq (h : Stands f (path.plug v)) {limit : Nat} (long : path.length ≤ limit) :
    chain f.parent? limit v.tag =
      path.tags ++ chain f.parent? (limit - path.length) (path.plug v).tag := by
  induction path generalizing v limit with
  | nil => rfl
  | cons fr up ih =>
    obtain ⟨limit, rfl⟩ := Nat.exists_eq_add_of_le' (Nat.lt_of_lt_of_le (Nat.succ_pos _) long)
    have parent := (h.part (Path.mem_nodes_plug up _)).parent_child (Path.mem_children_fill fr v)
    rw [chain, parent]
    simp only [length_cons, Nat.add_sub_add_right]
    exact congrArg _ (ih h (Nat.le_of_succ_le_succ long))

/-- The numbers above a part are those of the nodes on the way to it. -/
theorem ancestors_eq (h : Stands f (path.plug v)) (root : f.parent? (path.plug v).tag = none) :
    f.ancestors v.tag = path.tags := by
  have small : path.length ≤ f.size := by
    have := Path.length_add_le path v
    have := h.length_le
    omega
  rw [ancestors, h.chain_eq small]
  cases f.size - path.length with
  | zero => exact append_nil _
  | succ n => rw [chain, root, append_nil]

theorem mem_ancestors (h : Stands f t) (hn : n ∈ t.nodes) : t.tag ∈ n.tag :: f.ancestors n.tag := by
  obtain ⟨path, rfl⟩ := Path.exists_plug hn
  have small : path.length ≤ f.size := by
    have := Path.length_add_le path n
    have := h.length_le
    omega
  rw [ancestors, h.chain_eq small]
  rcases mem_cons.1 (Path.tag_plug_mem path n) with same | above
  · exact mem_cons.2 (.inl same)
  · exact mem_cons_of_mem _ (mem_append_left _ above)

end Stands

/-! ## Changed children -/

/-- The forests differ only in the children of a node, and in what has, or had, no other node above. -/
structure Recast (f f' : Forest) (p : NodeId) : Prop where
  size : f'.size = f.size
  face : ∀ i, i ≠ p → f'.face i = f.face i
  parent : ∀ i q, q ≠ p → f.parent? i = some q → f'.parent? i = some q

theorem Shows.keep {o : NodeId × Face NodeId} (h : f.Shows o) (recast : Recast f f' p) (other : o.1 ≠ p) :
    f'.Shows o where
  inside := recast.size ▸ h.inside
  face := (recast.face _ other).trans h.face
  parent c hc := recast.parent c o.1 other (h.parent c hc)

/-- A tree without the node whose children are changed stays. -/
theorem Stands.keep {t : Tree NodeId} (h : Stands f t) (recast : Recast f f' p) (other : p ∉ t.tags) :
    Stands f' t :=
  ⟨h.nodup, fun o ho => (h.shows o ho).keep recast fun eq => other (eq ▸ mem_tags_of_mem_faces ho)⟩

end Forest

end Retouch
