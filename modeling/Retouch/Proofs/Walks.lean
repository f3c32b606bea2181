import Retouch.Forest.Walk
import Retouch.Proofs.Growing
import Retouch.Proofs.Integrity

/-!
# Walks through a changing forest

A walk that enters a tree goes on to its first child (`Walk.next_enter_node`), and one that is below a
node goes on to the next child in the list on which it has begun (`Walk.next_goOn_some`) or leaves the
node (`Walk.next_goOn_none`).  Nodes remember the lists on which a walk can have begun while parts of
them are replaced (`Forest.Whole.replace`), so a walk comes by every child that a node had when the walk
entered it, and by no other.
-/

namespace Retouch

open List

/-! ## The order of a walk -/

namespace Tree

variable {α : Type}

mutual
def upward : Tree α → List α
  | leaf i _ => [i]
  | node i _ cs => upwardAll cs ++ [i]

def upwardAll : List (Tree α) → List α
  | [] => []
  | t :: ts => upward t ++ upwardAll ts
end

theorem length_nodes_add (i : α) (k : Kind) (cs : List (Tree α)) (n : Nat) :
    (node i k cs).nodes.length + n = (nodesAll cs).length + (n + 1) := by
  rw [nodes, length_cons]
  omega

theorem tags_eq (t : Tree α) : t.tags = t.tag :: tagsAll t.children := by
  cases t <;> rfl

theorem perm_upwardAll_of {cs : List (Tree α)} (h : ∀ c ∈ cs, c.upward.Perm c.tags) :
    (upwardAll cs).Perm (tagsAll cs) := by
  induction cs with
  | nil => exact .refl _
  | cons c cs ih =>
    obtain ⟨first, later⟩ := forall_mem_cons.1 h
    rw [upwardAll, tagsAll_cons]
    exact first.append (ih later)

theorem perm_upward (t : Tree α) : t.upward.Perm t.tags := by
  induction t using Tree.induct with
  | leaf i l => exact .refl _
  | node i k cs ih =>
    rw [upward, tags_node]
    exact (perm_append_singleton i _).trans ((perm_upwardAll_of ih).cons i)

theorem perm_upwardAll (cs : List (Tree α)) : (upwardAll cs).Perm (tagsAll cs) :=
  perm_upwardAll_of fun c _ => perm_upward c

end Tree

/-! ## Going on -/

namespace Forest.Stands

open Tree

variable {f : Forest} {i : NodeId} {k : Kind} {cs : List (Tree NodeId)}

theorem isLeaf_leaf {l : Leaf} (h : Stands f (.leaf i l)) : f.isLeaf i = true := by
  rw [isLeaf_eq, show f.face i = .leaf l from h.face_eq]

theorem isLeaf_node (h : Stands f (.node i k cs)) : f.isLeaf i = false := by
  rw [isLeaf_eq, show f.face i = .node k (cs.map tag) from h.face_eq]

theorem kind_eq {t : Tree NodeId} (h : Stands f t) : f.kind t.tag = t.kind := by
  rw [Forest.kind_eq, h.face_eq]
  cases t <;> rfl

theorem token?_eq {t : Tree NodeId} (h : Stands f t) : f.token? t.tag = t.token? := by
  cases t with
  | leaf i l =>
    rw [Forest.token?, body_of_leaf h.face_eq]
    rfl
  | node i k cs =>
    obtain ⟨earlier, body⟩ := body_of_node h.face_eq
    rw [Forest.token?, body]
    rfl

theorem childrenAt_eq (h : Stands f (.node i k cs)) :
    f.childrenAt i (f.generation i) = cs.map tag := by
  obtain ⟨earlier, body⟩ := body_of_node (i := i) h.face_eq
  simp [childrenAt, generation, body]

end Forest.Stands

namespace Walk

open Tree

variable {f : Forest} {i : NodeId} {k : Kind} {cs : List (Tree NodeId)} {generation place : Nat}
  {closing : Bool} {rest : Walk}

theorem nextWith_nil (n : Nat) : nextWith f (n + 1) [] = none := rfl

theorem nextWith_enter (n : Nat) : nextWith f (n + 1) (.enter i closing :: rest) =
    if f.isLeaf i then if closing then some (i, rest) else nextWith f n rest
    else nextWith f n (.goOn i (f.generation i) 0 closing :: rest) := rfl

theorem nextWith_goOn (n : Nat) : nextWith f (n + 1) (.goOn i generation place closing :: rest) =
    match (f.childrenAt i generation)[place]? with
    | some c => nextWith f n (.enter c true :: .goOn i generation (place + 1) closing :: rest)
    | none => if closing then some (i, rest) else nextWith f n rest := rfl

theorem nextWith_mono {n m : Nat} {w : Walk} {r : NodeId × Walk} (h : nextWith f n w = some r)
    (le : n ≤ m) : nextWith f m w = some r := by
  induction n generalizing m w with
  | zero => cases h
  | succ n ih =>
    obtain ⟨m, rfl⟩ := Nat.exists_eq_add_of_le' (Nat.lt_of_lt_of_le (Nat.succ_pos n) le)
    have le := Nat.le_of_succ_le_succ le
    match w with
    | [] => cases h
    | .visit i :: rest => exact h
    | .enter i closing :: rest =>
      rw [nextWith_enter] at h ⊢
      split at h
      · rename_i leaf
        rw [if_pos leaf]
        split at h
        · rename_i close
          rw [if_pos close, h]
        · rename_i close
          rw [if_neg close, ih h le]
      · rename_i node
        rw [if_neg node, ih h le]
    | .goOn i g place closing :: rest =>
      rw [nextWith_goOn] at h ⊢
      split at h
      · exact ih h le
      · split at h
        · rename_i close
          rw [if_pos close, h]
        · rename_i close
          rw [if_neg close, ih h le]

theorem exists_nextWith_enter {t : Tree NodeId} (h : f.Stands t) (rest : Walk) :
    ∃ r, nextWith f (2 * t.nodes.length) (.enter t.tag true :: rest) = some r := by
  induction t using Tree.induct generalizing rest with
  | leaf i l =>
    refine ⟨(i, rest), ?_⟩
    rw [show 2 * (Tree.leaf i l).nodes.length = 1 + 1 from rfl, nextWith_enter, tag, h.isLeaf_leaf]
    rfl
  | node i k cs ih =>
    rw [show 2 * (Tree.node i k cs).nodes.length = 2 * (nodesAll cs).length + 1 + 1 from by
      rw [nodes, length_cons]; omega, tag, nextWith_enter, h.isLeaf_node, if_neg Bool.false_ne_true, nextWith_goOn,
      h.childrenAt_eq]
    cases cs with
    | nil => exact ⟨(i, rest), rfl⟩
    | cons c cs =>
      obtain ⟨r, found⟩ := ih c mem_cons_self
        (h.part (child_mem_nodes (self_mem_nodes _) mem_cons_self))
        (.goOn i (f.generation i) 1 true :: rest)
      refine ⟨r, nextWith_mono found ?_⟩
      rw [nodesAll, length_append]
      omega

theorem exists_next_eq (f : Forest) (w : Walk) : ∃ n, next f w = nextWith f (n + 3) w :=
  ⟨3 * (f.size + w.length + 1), rfl⟩

theorem next_eq {n : Nat} {w : Walk} {r : NodeId × Walk} (found : nextWith f n w = some r)
    (le : n ≤ 3 * (f.size + w.length + 2)) : next f w = some r :=
  nextWith_mono found le

theorem next_enter_leaf {l : Leaf} (h : f.Stands (.leaf i l)) :
    next f (.enter i true :: rest) = some (i, rest) := by
  refine next_eq (show nextWith f 1 _ = _ from ?_) (by omega)
  rw [nextWith_enter, h.isLeaf_leaf]
  rfl

/-- A walk that enters a node goes on with its first child. -/
theorem next_enter_node (h : f.Stands (.node i k cs)) :
    next f (.enter i true :: rest) = next f (.goOn i (f.generation i) 0 true :: rest) := by
  obtain ⟨r, found⟩ := exists_nextWith_enter h rest
  have small := h.length_le
  rw [tag] at found
  rw [next_eq found (by omega)]
  have length : 2 * (Tree.node i k cs).nodes.length = 2 * (nodesAll cs).length + 1 + 1 := by
    rw [nodes, length_cons]
    omega
  rw [length, nextWith_enter, h.isLeaf_node, if_neg Bool.false_ne_true] at found
  exact (next_eq found (by omega)).symm

/-- A walk below a node goes on with the next child in the list on which it has begun. -/
theorem next_goOn_some {c : Tree NodeId} (h : f.Stands c)
    (child : (f.childrenAt i generation)[place]? = some c.tag) :
    next f (.goOn i generation place closing :: rest) =
      next f (.enter c.tag true :: .goOn i generation (place + 1) closing :: rest) := by
  obtain ⟨r, found⟩ := exists_nextWith_enter h (.goOn i generation (place + 1) closing :: rest)
  have small := h.length_le
  rw [next_eq found (by omega)]
  refine next_eq (n := 2 * c.nodes.length + 1) ?_ (by omega)
  rwa [nextWith_goOn, child]

/-- A walk behind the last child of a node leaves the node. -/
theorem next_goOn_none (last : (f.childrenAt i generation)[place]? = none) :
    next f (.goOn i generation place true :: rest) = some (i, rest) := by
  refine next_eq (show nextWith f 1 _ = _ from ?_) (by omega)
  rw [nextWith_goOn, last]
  rfl

theorem next_enter_open (h : f.Stands (.node i k cs)) :
    next f [.enter i false] = next f [.goOn i (f.generation i) 0 false] := by
  cases cs with
  | nil =>
    have none : (f.childrenAt i (f.generation i))[0]? = none := by rw [h.childrenAt_eq]; rfl
    obtain ⟨n, entered⟩ := exists_next_eq f [.enter i false]
    obtain ⟨m, begun⟩ := exists_next_eq f [.goOn i (f.generation i) 0 false]
    simp only [entered, begun, nextWith_enter, nextWith_goOn, h.isLeaf_node, none, Bool.false_eq_true, if_false]
    rfl
  | cons c cs =>
    have child := h.part (child_mem_nodes (self_mem_nodes _) (mem_cons_self (a := c) (l := cs)))
    have first : (f.childrenAt i (f.generation i))[0]? = some c.tag := by rw [h.childrenAt_eq]; rfl
    obtain ⟨r, found⟩ := exists_nextWith_enter child [.goOn i (f.generation i) (0 + 1) false]
    have small := child.length_le
    rw [next_goOn_some child first, next_eq found (by omega)]
    refine next_eq (n := 2 * c.nodes.length + 1 + 1) ?_ (by omega)
    rwa [nextWith_enter, h.isLeaf_node, if_neg Bool.false_ne_true, nextWith_goOn, first]

theorem next_goOn_end (last : (f.childrenAt i generation)[place]? = none) :
    next f [.goOn i generation place false] = none := by
  obtain ⟨n, eq⟩ := exists_next_eq f [.goOn i generation place false]
  rw [eq, nextWith_goOn, last]
  rfl

theorem next_enter_end {l : Leaf} (h : f.Stands (.leaf i l)) : next f [.enter i false] = none := by
  obtain ⟨n, eq⟩ := exists_next_eq f [.enter i false]
  simp only [eq, nextWith_enter, nextWith_nil, h.isLeaf_leaf, Bool.false_eq_true, if_true, if_false]

theorem next_nil : next f [] = none := by
  obtain ⟨n, eq⟩ := exists_next_eq f []
  rw [eq, nextWith_nil]

end Walk

/-! ## Lists of children that are remembered -/

/-- What a cell holds after its node may have got a new list of children. -/
inductive Body.Renewed : Body → Body → Prop
  | same (b : Body) : Renewed b b
  | renewed (k : Kind) (cs : List NodeId) (earlier : List (List NodeId)) (new : List NodeId) :
    Renewed (.node k cs earlier) (.node k new (earlier ++ [cs]))

namespace Forest

open Tree

variable {f f' f'' : Forest} {g : Cell → Cell} {i j p : NodeId}

/-- The lists of children on which a walk can have begun are still there. -/
structure Remembers (f f' : Forest) (i : NodeId) : Prop where
  le : f.generation i ≤ f'.generation i
  lists : ∀ g ≤ f.generation i, f'.childrenAt i g = f.childrenAt i g

theorem Remembers.refl (f : Forest) (i : NodeId) : Remembers f f i := ⟨Nat.le_refl _, fun _ _ => rfl⟩

theorem Remembers.trans (h : Remembers f f' i) (h' : Remembers f' f'' i) : Remembers f f'' i :=
  ⟨Nat.le_trans h.le h'.le, fun g le => (h'.lists g (Nat.le_trans le h.le)).trans (h.lists g le)⟩

theorem remembers_of_renewed (h : (f.cell i).body.Renewed (f'.cell i).body) : Remembers f f' i := by
  generalize left : (f.cell i).body = b at h
  generalize right : (f'.cell i).body = b' at h
  cases h with
  | same =>
    refine ⟨Nat.le_of_eq ?_, fun g _ => ?_⟩
    · rw [generation, generation, left, right]
    · rw [childrenAt, childrenAt, left, right]
  | renewed k cs earlier new =>
    have count : f.generation i = earlier.length := by rw [generation, left]
    have count' : f'.generation i = earlier.length + 1 := by
      rw [generation, right]
      exact length_append
    refine ⟨by omega, fun g le => ?_⟩
    · rw [childrenAt, childrenAt, left, right]
      rcases Nat.lt_or_eq_of_le (count ▸ le) with lt | rfl
      · simp [getElem?_append_left lt, lt]
      · simp

theorem remembers_of_cell (h : f'.cell i = f.cell i) : Remembers f f' i :=
  remembers_of_renewed (h ▸ .same _)

theorem remembers_alter (h : ∀ c : Cell, c.body.Renewed (g c).body) (i j : NodeId) :
    Remembers f (f.alter i g) j := by
  refine remembers_of_renewed ?_
  rw [cell_alter]
  split
  · exact h _
  · exact .same _

theorem remembers_setParent (f : Forest) (i : NodeId) (q : Option NodeId) (j : NodeId) :
    Remembers f (f.setParent i q) j :=
  remembers_alter (fun _ => by exact .same _) i j

theorem remembers_adoptAll (f : Forest) (p : NodeId) (cs : List NodeId) (j : NodeId) :
    Remembers f (f.adoptAll p cs) j := by
  induction cs generalizing f with
  | nil => exact .refl f j
  | cons c cs ih => exact (remembers_setParent f c (some p) j).trans (ih _)

theorem remembers_mark (f : Forest) (is : List NodeId) (j : NodeId) : Remembers f (f.mark is) j := by
  induction is generalizing f with
  | nil => exact .refl f j
  | cons i is ih => exact .trans (remembers_alter (fun _ => by exact .same _) i j) (ih _)

theorem remembers_renewChildren (f : Forest) (p : NodeId) (new : List NodeId) (j : NodeId) :
    Remembers f (f.renewChildren p new) j := by
  refine remembers_alter (fun c => ?_) p j
  obtain ⟨_, _, body⟩ := c
  cases body with
  | leaf l => exact .same _
  | node k cs earlier => exact .renewed k cs earlier new

theorem remembers_replaced (f : Forest) (p old : NodeId) (new : List NodeId) (j : NodeId) :
    Remembers f (f.replaced p old new) j :=
  (((remembers_mark f _ j).trans (remembers_renewChildren _ p _ j)).trans
    (remembers_adoptAll _ p new j)).trans (remembers_setParent _ old none j)

/-! ## Replacing a part of a tree -/

/-- The tree stands in the forest and has nothing above. -/
structure Whole (f : Forest) (t : Tree NodeId) : Prop where
  stands : Stands f t
  root : f.parent? t.tag = none

theorem whole_plant {α : Type} (f : Forest) (t : Tree α) :
    Whole (f.plant none t).2 (t.numbered f.size) := by
  obtain ⟨-, -, plants⟩ := plant_spec f none t
  exact ⟨stands_plant f none t, plants.parent _ mem_cons_self⟩

theorem Whole.of_cells {t : Tree NodeId} (h : Whole f t) (size : f.size ≤ f'.size)
    (same : ∀ i ∈ t.tags, f'.cell i = f.cell i) : Whole f' t := by
  have face : ∀ i ∈ t.tags, f'.face i = f.face i := fun i hi => by rw [Forest.face, same i hi]; rfl
  have parent : ∀ i ∈ t.tags, f'.parent? i = f.parent? i := fun i hi => by
    rw [parent?, same i hi]
    rfl
  refine ⟨⟨h.stands.nodup, fun o ho => ?_⟩, (parent _ t.tag_mem_tags).trans h.root⟩
  obtain ⟨inside, shown, below⟩ := h.stands.shows o ho
  refine ⟨Nat.lt_of_lt_of_le inside size, ?_, fun c hc => ?_⟩
  · rw [face _ (mem_tags_of_mem_faces ho), shown]
  · rw [parent c (mem_tags_of_mem_children ho hc), below c hc]

section

variable {fr : Frame NodeId} {up : Path NodeId} {v u : Tree NodeId}

/-- **Replacing a part of a tree.**  Another tree that stands in the forest takes the place of the part,
and every node remembers its lists of children. -/
theorem Whole.exchange (h : Whole f (Path.plug (fr :: up) v)) (hu : Stands f u)
    (distinct : (Path.plug (fr :: up) u).tags.Nodup)
    (away : ∀ q ∈ (Path.plug (fr :: up) u).tags, f.parent? u.tag ≠ some q) :
    ∃ f', Forest.replace v.tag [u.tag] f = .ok () f' ∧ Whole f' (Path.plug (fr :: up) u) ∧
      ∀ i, Remembers f f' i := by
  have node : Stands f (fr.fill [v]) := h.stands.part (Path.mem_nodes_plug up _)
  have attached : f.parent? v.tag = some fr.tag := node.parent_child (Path.mem_children_fill fr v)
  obtain ⟨inside, face, nodup, below⟩ := node.node
  simp only [map_append, map_cons, singleton_append] at face nodup below
  have above : ∀ i ∈ Path.tags (fr :: up), i ∈ (Path.plug (fr :: up) u).tags ∧ i ≠ u.tag := by
    intro i hi
    rw [Path.tags_plug] at distinct ⊢
    have before := Path.tags_subset (fr :: up) u.tag hi
    exact ⟨mem_append_left _ before, fun eq => (nodup_append.1 distinct).2.2 i before i
      (mem_append_left _ (eq ▸ u.tag_mem_tags)) rfl⟩
  have foreign : f.parent? u.tag ≠ some fr.tag := away _ (above _ mem_cons_self).1
  have cells : Rearranged f (f.replaced fr.tag v.tag [u.tag]) fr.tag fr.kind
      (fr.left.map tag ++ ([u.tag] ++ fr.right.map tag)) [v.tag] :=
    rearranged_replaced inside below nodup face (fun c hc => mem_singleton.1 hc ▸ hu.tag_lt)
      fun hv => foreign (mem_singleton.1 hv ▸ attached)
  have moved : ∀ c, c ∈ fr.left.map tag ++ ([u.tag] ++ fr.right.map tag) ∨ c ∈ [v.tag] →
      f.parent? c = some fr.tag ∨ c = u.tag := by
    rintro c (hc | hc)
    · refine or_iff_not_imp_right.2 fun other => (below c ?_).2
      simp only [mem_append, mem_cons, not_mem_nil, other, false_or] at hc ⊢
      exact hc.imp_right .inr
    · exact .inl (mem_singleton.1 hc ▸ attached)
  have others : ∀ c, f.parent? c ≠ some fr.tag → c ≠ u.tag →
      (f.replaced fr.tag v.tag [u.tag]).parent? c = f.parent? c := fun c kept other =>
    cells.others c (fun hc => (moved c (.inl hc)).elim kept other)
      fun hc => (moved c (.inr hc)).elim kept other
  refine ⟨f.replaced fr.tag v.tag [u.tag], ?_, ⟨⟨distinct, fun o ho => ?_⟩, ?_⟩,
    remembers_replaced f fr.tag v.tag _⟩
  · refine replace_eq attached (count_eq_one_of_mem ?_ ?_)
    · rwa [children_eq, face]
    · rw [children_eq, face]
      simp [Face.children]
  · have keep : ∀ o, f.Shows o → o.1 ∈ (Path.plug (fr :: up) u).tags → o.1 ≠ fr.tag →
        (f.replaced fr.tag v.tag [u.tag]).Shows o := by
      rintro o ⟨inside, shown, parent⟩ here other
      refine ⟨cells.size ▸ inside, (cells.face _ other).trans shown, fun c hc => ?_⟩
      rw [others c, parent c hc]
      · rw [parent c hc]
        exact fun eq => other (Option.some.inj eq)
      · rintro rfl
        exact away _ here (parent _ hc)
    have distinct' : (tagsAll [Path.plug up (fr.fill [u])]).Nodup := by simpa using distinct
    have ho' : o ∈ facesAll [Path.plug up (fr.fill [u])] := by simpa using ho
    rcases Planted.mem_faces_cases distinct' ho' with rfl | ⟨other, around⟩
    · refine ⟨cells.size ▸ inside, ?_, fun c hc => cells.adopted c ?_⟩
      · rw [Path.tag_fill, cells.here]
        simp [Frame.fill, Tree.face]
      · simpa [children_face, Frame.fill, Tree.children] using hc
    · refine keep o ?_ (mem_tags_of_mem_faces ho) other
      have old : ∀ o ∈ (Path.plug (fr :: up) v).faces, f.Shows o := h.stands.shows
      simp only [Path.plug_cons, Path.faces_plug, Frame.fill, faces_node, Tree.children, Tree.tag,
        facesAll_append, facesAll_cons, facesAll_nil, mem_append, mem_cons,
        not_mem_nil, or_false] at around old
      rcases around with before | (left | new | right) | after
      · exact old o (.inl before)
      · exact old o (.inr (.inl (.inr (.inl left))))
      · exact hu.shows o new
      · exact old o (.inr (.inl (.inr (.inr (.inr right)))))
      · exact old o (.inr (.inr after))
  · have same : (Path.plug (fr :: up) u).tag = (Path.plug (fr :: up) v).tag := Path.tag_plug up rfl
    have root : (Path.plug (fr :: up) u).tag ∈ Path.tags (fr :: up) := by
      rw [Path.tag_plug_eq, Path.tags, map_cons, getLast?_eq_some_getLast (cons_ne_nil _ _)]
      exact getLast_mem _
    rw [others _ (by rw [same, h.root]; rintro ⟨⟩) (above _ root).2, same, h.root]

/-- A detached tree takes the place of a part. -/
theorem Whole.replace (h : Whole f (Path.plug (fr :: up) v)) (hu : Whole f u)
    (apart : ∀ i ∈ u.tags, i ∉ (Path.plug (fr :: up) v).tags) :
    ∃ f', Forest.replace v.tag [u.tag] f = .ok () f' ∧ Whole f' (Path.plug (fr :: up) u) ∧
      ∀ i, Remembers f f' i := by
  refine h.exchange hu.stands ?_ fun _ _ => hu.root ▸ nofun
  have old := h.stands.nodup
  rw [Path.tags_plug] at old apart ⊢
  rw [Path.map_fst_before _ u.tag v.tag]
  simp only [nodup_append, mem_append, not_or] at old apart ⊢
  obtain ⟨before, ⟨-, after, -⟩, split⟩ := old
  refine ⟨before, ⟨hu.stands.nodup, after, ?_⟩, ?_⟩
  · rintro i hi _ hj rfl
    exact (apart i hi).2.2 hj
  · rintro i hi _ (hj | hj) rfl
    · exact (apart i hj).1 hi
    · exact split i hi i (.inr hj) rfl

theorem Whole.raise {n : Tree NodeId} (h : Whole f (Path.plug (fr :: up) v)) (hn : n ∈ v.nodes)
    (child : u ∈ n.children) :
    ∃ f', Forest.replace v.tag [u.tag] f = .ok () f' ∧ Whole f' (Path.plug (fr :: up) u) := by
  have hv : Stands f v := h.stands.plugged
  have hn' : Stands f n := hv.part hn
  have hu : u ∈ v.nodes := child_mem_nodes hn child
  have sub : (Path.plug (fr :: up) u).tags.Sublist (Path.plug (fr :: up) v).tags := by
    rw [Path.tags_plug, Path.tags_plug, Path.map_fst_before _ u.tag v.tag]
    exact (Sublist.refl _).append ((tags_sublist hu).append (Sublist.refl _))
  have away : ∀ q ∈ (Path.plug (fr :: up) u).tags, f.parent? u.tag ≠ some q := by
    intro q hq above
    obtain rfl : n.tag = q := Option.some.inj ((hn'.parent_child child).symm.trans above)
    have old := h.stands.nodup
    rw [Path.tags_plug] at hq old
    simp only [nodup_append, mem_append] at hq old
    obtain ⟨-, ⟨-, -, later⟩, earlier⟩ := old
    have here : n.tag ∈ v.tags := mem_map_of_mem hn
    rcases hq with before | inside | after
    · exact earlier _ (Path.map_fst_before _ u.tag v.tag ▸ before) _ (.inl here) rfl
    · have below := hn'.nodup
      rw [tags_eq] at below
      exact (nodup_cons.1 below).1 (mem_tagsAll.2 ⟨u, child, inside⟩)
    · exact later _ here _ after rfl
  obtain ⟨f', run, whole, -⟩ := h.exchange (hv.part hu) (h.stands.nodup.sublist sub) away
  exact ⟨f', run, whole⟩

end

end Forest

end Retouch
