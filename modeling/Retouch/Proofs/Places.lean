import Retouch.Proofs.Trees

/-!
# Places in trees

A place in a tree is known by what is around it: the nodes above, each with the trees to the left and
to the right of the way down.  `Path.plug` puts a tree in a place, and every part of a tree is in a
place (`exists_plug`).

A node shows of itself its token, or its kind with the tags of its children.  This is its `face`, and
with the tags of the nodes the faces are all there is to a tree.  Where a part of a tree is exchanged for
another one with the same tag, the faces around it stay (`Path.faces_plug`).
-/

namespace Retouch

open List

namespace Tree

variable {α : Type}

/-! ## Faces -/

/-- What a node shows of itself: its token, or its kind and the tags of its children. -/
inductive Face (α : Type) where
  | leaf (token : Leaf)
  | node (kind : Kind) (children : List α)

def Face.children : Face α → List α
  | leaf _ => []
  | node _ cs => cs

def face : Tree α → Face α
  | leaf _ l => .leaf l
  | node _ k cs => .node k (cs.map tag)

def faces (t : Tree α) : List (α × Face α) := t.nodes.map fun n => (n.tag, n.face)

/-- The nodes of trees one after the other, each with its tag and what it shows. -/
def facesAll (ts : List (Tree α)) : List (α × Face α) := (nodesAll ts).map fun n => (n.tag, n.face)

@[simp] theorem faces_leaf (i : α) (l : Leaf) : (leaf i l).faces = [(i, .leaf l)] := rfl

@[simp] theorem faces_node (i : α) (k : Kind) (cs : List (Tree α)) :
    (node i k cs).faces = (i, .node k (cs.map tag)) :: facesAll cs := rfl

@[simp] theorem facesAll_nil : facesAll ([] : List (Tree α)) = [] := rfl

@[simp] theorem facesAll_cons (t : Tree α) (ts : List (Tree α)) :
    facesAll (t :: ts) = t.faces ++ facesAll ts := by
  simp [facesAll, faces, nodesAll]

@[simp] theorem facesAll_append (ts us : List (Tree α)) :
    facesAll (ts ++ us) = facesAll ts ++ facesAll us := by
  simp [facesAll, nodesAll_append]

variable {o : α × Face α} {t n : Tree α}

theorem mem_facesAll {ts : List (Tree α)} : o ∈ facesAll ts ↔ ∃ t ∈ ts, o ∈ t.faces := by
  induction ts with
  | nil => simp
  | cons t ts ih => simp [ih]

theorem tags_eq_map_faces (t : Tree α) : t.tags = t.faces.map Prod.fst := by
  rw [faces, map_map]
  rfl

theorem tagsAll_eq_map_facesAll (ts : List (Tree α)) : tagsAll ts = (facesAll ts).map Prod.fst := by
  rw [facesAll, map_map]
  rfl

theorem face_mem_faces (t : Tree α) : (t.tag, t.face) ∈ t.faces :=
  mem_map_of_mem t.self_mem_nodes

theorem mem_tags_of_mem_faces (h : o ∈ t.faces) : o.1 ∈ t.tags :=
  tags_eq_map_faces t ▸ mem_map_of_mem h

theorem children_face (t : Tree α) : t.face.children = t.children.map tag := by
  cases t <;> rfl

theorem mem_tags_of_mem_children (h : o ∈ t.faces) {c : α} (hc : c ∈ o.2.children) : c ∈ t.tags := by
  obtain ⟨n, hn, rfl⟩ := mem_map.1 h
  rw [children_face] at hc
  obtain ⟨m, hm, rfl⟩ := mem_map.1 hc
  exact mem_map_of_mem (child_mem_nodes hn hm)

theorem faces_eq_cons (t : Tree α) : t.faces = (t.tag, t.face) :: facesAll t.children := by
  cases t <;> rfl

/-! ## Parts of a tree -/

theorem nodes_sublist (h : n ∈ t.nodes) : n.nodes.Sublist t.nodes := by
  induction t using induct with
  | leaf i l => rw [mem_singleton.1 h]
  | node i k cs ih =>
    rw [nodes, mem_cons] at h
    rcases h with rfl | h
    · exact .refl _
    · obtain ⟨c, hc, h⟩ := mem_nodesAll.1 h
      refine (ih c hc h).trans (.cons _ ?_)
      obtain ⟨l, r, rfl⟩ := append_of_mem hc
      rw [nodesAll_append]
      exact (sublist_append_left _ _).trans (sublist_append_right _ _)

theorem tags_sublist (h : n ∈ t.nodes) : n.tags.Sublist t.tags :=
  (nodes_sublist h).map _

theorem faces_subset (h : n ∈ t.nodes) : n.faces ⊆ t.faces :=
  ((nodes_sublist h).map _).subset

theorem eq_or_mem_children (h : n ∈ t.nodes) : n = t ∨ ∃ m ∈ t.nodes, n ∈ m.children := by
  induction t using induct with
  | leaf i l => exact .inl (mem_singleton.1 h)
  | node i k cs ih =>
    rw [nodes, mem_cons] at h
    rcases h with rfl | h
    · exact .inl rfl
    · obtain ⟨c, hc, h⟩ := mem_nodesAll.1 h
      have below : ∀ m ∈ c.nodes, m ∈ (node i k cs).nodes := fun m hm =>
        mem_cons_of_mem _ (mem_nodesAll.2 ⟨c, hc, hm⟩)
      rcases ih c hc h with rfl | ⟨m, hm, hn⟩
      · exact .inr ⟨_, self_mem_nodes _, hc⟩
      · exact .inr ⟨m, below m hm, hn⟩

theorem mem_tags_iff {i : α} : i ∈ t.tags ↔ ∃ n ∈ t.nodes, n.tag = i := mem_map

/-! ## Trees without tags -/

def plain (t : Tree α) : SyntaxTree := t.retag fun _ => ()

theorem plain_node (i : α) (k : Kind) (cs : List (Tree α)) :
    (node i k cs).plain = .node () k (cs.map plain) := by
  rw [plain, retag, retagAll_eq_map]
  rfl

end Tree

/-! ## Places -/

/-- A node on the way down to a place, with the trees to the left and to the right of the way. -/
structure Frame (α : Type) where
  tag : α
  kind : Kind
  left : List (Tree α)
  right : List (Tree α)

def Frame.fill {α : Type} (fr : Frame α) (ts : List (Tree α)) : Tree α :=
  .node fr.tag fr.kind (fr.left ++ (ts ++ fr.right))

abbrev Path (α : Type) := List (Frame α)

namespace Path

open Tree

variable {α : Type}

def plug : Path α → Tree α → Tree α
  | [], t => t
  | fr :: up, t => plug up (fr.fill [t])

def plain (path : Path α) : Path Unit :=
  path.map fun fr => ⟨(), fr.kind, fr.left.map Tree.plain, fr.right.map Tree.plain⟩

def tags (path : Path α) : List α := path.map Frame.tag

@[simp] theorem plug_nil (t : Tree α) : plug [] t = t := rfl

@[simp] theorem plug_cons (fr : Frame α) (up : Path α) (t : Tree α) :
    plug (fr :: up) t = plug up (fr.fill [t]) := rfl

theorem plug_append (path up : Path α) (t : Tree α) :
    plug (path ++ up) t = plug up (plug path t) := by
  induction path generalizing t with
  | nil => rfl
  | cons fr path ih => exact ih _

theorem tag_fill (fr : Frame α) (ts : List (Tree α)) : (fr.fill ts).tag = fr.tag := rfl

theorem tag_plug (path : Path α) {v v' : Tree α} (same : v'.tag = v.tag) :
    (plug path v').tag = (plug path v).tag := by
  induction path generalizing v v' with
  | nil => exact same
  | cons fr up ih => exact ih rfl

theorem mem_children_fill (fr : Frame α) (v : Tree α) : v ∈ (fr.fill [v]).children := by
  simp [Frame.fill, children]

theorem tag_plug_mem (path : Path α) (v : Tree α) : (plug path v).tag ∈ v.tag :: path.tags := by
  induction path generalizing v with
  | nil => exact mem_cons_self
  | cons fr up ih => exact mem_cons_of_mem _ (ih (fr.fill [v]))

theorem tag_plug_eq (path : Path α) (v : Tree α) :
    (plug path v).tag = path.tags.getLast?.getD v.tag := by
  induction path generalizing v with
  | nil => rfl
  | cons fr up ih =>
    show (plug up (fr.fill [v])).tag = (fr.tag :: tags up).getLast?.getD v.tag
    rw [ih, getLast?_cons]
    rfl

theorem mem_nodes_plug (path : Path α) (v : Tree α) : v ∈ (plug path v).nodes := by
  induction path generalizing v with
  | nil => exact v.self_mem_nodes
  | cons fr up ih => exact child_mem_nodes (ih (fr.fill [v])) (mem_children_fill fr v)

theorem length_add_le (path : Path α) (v : Tree α) :
    path.length + v.nodes.length ≤ (plug path v).nodes.length := by
  induction path generalizing v with
  | nil => exact Nat.le_of_eq (Nat.zero_add _)
  | cons fr up ih =>
    refine Nat.le_trans ?_ (ih (fr.fill [v]))
    simp only [Frame.fill, nodes, nodesAll_append, nodesAll, length_cons, length_append]
    omega

/-- Every part of a tree is in a place. -/
theorem exists_plug {n t : Tree α} (h : n ∈ t.nodes) : ∃ path : Path α, t = plug path n := by
  induction t using induct with
  | leaf i l =>
    cases mem_singleton.1 h
    exact ⟨[], rfl⟩
  | node i k cs ih =>
    rw [nodes, mem_cons] at h
    rcases h with rfl | h
    · exact ⟨[], rfl⟩
    · obtain ⟨c, hc, h⟩ := mem_nodesAll.1 h
      obtain ⟨path, rfl⟩ := ih c hc h
      obtain ⟨l, r, rfl⟩ := append_of_mem hc
      exact ⟨path ++ [⟨i, k, l, r⟩], by rw [plug_append]; rfl⟩

/-- What the nodes before a place show, if the root of the part there has the tag. -/
def before : Path α → α → List (α × Face α)
  | [], _ => []
  | fr :: up, i => before up fr.tag ++
      (fr.tag, .node fr.kind (fr.left.map tag ++ i :: fr.right.map tag)) :: facesAll fr.left

def after : Path α → List (α × Face α)
  | [] => []
  | fr :: up => facesAll fr.right ++ after up

theorem faces_plug (path : Path α) (v : Tree α) :
    (plug path v).faces = path.before v.tag ++ (v.faces ++ path.after) := by
  induction path generalizing v with
  | nil => simp [before, after]
  | cons fr up ih =>
    rw [plug_cons, ih]
    simp [Frame.fill, before, after, tag]

theorem tags_plug (path : Path α) (v : Tree α) :
    (plug path v).tags = (path.before v.tag).map Prod.fst ++ (v.tags ++ path.after.map Prod.fst) := by
  simp [tags_eq_map_faces, faces_plug]

theorem map_fst_before (path : Path α) (i j : α) :
    (path.before i).map Prod.fst = (path.before j).map Prod.fst := by
  cases path with
  | nil => rfl
  | cons fr up => simp [before]

theorem tags_subset (path : Path α) (i : α) : path.tags ⊆ (path.before i).map Prod.fst := by
  induction path generalizing i with
  | nil => exact nofun
  | cons fr up ih =>
    intro j hj
    rw [before, map_append, mem_append]
    rcases mem_cons.1 hj with rfl | hj
    · exact .inr mem_cons_self
    · exact .inl (ih fr.tag hj)

def leavesBefore : Path α → List Leaf
  | [] => []
  | fr :: up => leavesBefore up ++ leavesAll fr.left

def leavesAfter : Path α → List Leaf
  | [] => []
  | fr :: up => leavesAll fr.right ++ leavesAfter up

theorem leaves_plug (path : Path α) (v : Tree α) :
    (plug path v).leaves = path.leavesBefore ++ (v.leaves ++ path.leavesAfter) := by
  induction path generalizing v with
  | nil => simp [leavesBefore, leavesAfter]
  | cons fr up ih =>
    rw [plug_cons, ih]
    simp [Frame.fill, leavesBefore, leavesAfter, leaves, leavesAll]

def textBefore (path : Path α) : Text := (path.leavesBefore.map Leaf.text).flatten

def textAfter (path : Path α) : Text := (path.leavesAfter.map Leaf.text).flatten

theorem text_plug (path : Path α) (v : Tree α) :
    (plug path v).text = path.textBefore ++ (v.text ++ path.textAfter) := by
  simp [text_eq_leaves, leaves_plug, textBefore, textAfter]

end Path

end Retouch
