import Retouch.Proofs.Edits

/-!
# The integrity of a forest

A forest is planted with trees if these stand in it, have nothing above, and hold every number once.
Then each leaf or node is a child of its parent and of nothing else, once, and nothing is below itself
(`Planted.sound`).
-/

namespace Retouch

open List

namespace Tree

variable {α : Type}

theorem tagsAll_eq_flatMap (ts : List (Tree α)) : tagsAll ts = ts.flatMap tags := by
  induction ts with
  | nil => rfl
  | cons t ts ih => rw [tagsAll_cons, ih, flatMap_cons]

theorem perm_tagsAll {ts us : List (Tree α)} (h : ts.Perm us) : (tagsAll ts).Perm (tagsAll us) := by
  rw [tagsAll_eq_flatMap, tagsAll_eq_flatMap]
  exact h.flatMap_right tags

theorem map_tag_sublist (ts : List (Tree α)) : (ts.map tag).Sublist (tagsAll ts) := by
  induction ts with
  | nil => exact .slnil
  | cons t ts ih =>
    rw [tagsAll_cons]
    exact (singleton_sublist.2 t.tag_mem_tags).append ih

end Tree

namespace Forest

open Tree

variable {f f' : Forest} {i j p old : NodeId} {k : Kind} {ts cs ins out rest : List (Tree NodeId)}
  {path : Path NodeId}

theorem Stands.node (h : Stands f (.node p k cs)) :
    p < f.size ∧ f.face p = .node k (cs.map tag) ∧ (cs.map tag).Nodup ∧
      ∀ c ∈ cs.map tag, c < f.size ∧ f.parent? c = some p := by
  refine ⟨h.tag_lt, h.face_eq, (nodup_cons.1 h.nodup).2.sublist (map_tag_sublist cs), fun c hc => ?_⟩
  obtain ⟨t, ht, rfl⟩ := mem_map.1 hc
  exact ⟨(h.part (child_mem_nodes (self_mem_nodes _) ht)).tag_lt, h.parent_child ht⟩

/-! ## Sound forests -/

/-- Each leaf or node is a child of its parent, once and of nothing else, and nothing is below
itself. -/
structure Sound (f : Forest) : Prop where
  parent_iff : ∀ p x, f.parent? x = some p ↔ x ∈ f.children p
  nodup : ∀ p, (f.children p).Nodup
  unique : ∀ p q x, x ∈ f.children p → x ∈ f.children q → p = q
  acyclic : ∀ x, ¬ Relation.TransGen (fun x p => f.parent? x = some p) x x

/-! ## Planted forests -/

/-- The trees of the forest: they stand in it with nothing above, and hold every number once. -/
structure Planted (f : Forest) (ts : List (Tree NodeId)) : Prop where
  tags : (tagsAll ts).Perm (List.range f.size)
  roots : ∀ t ∈ ts, f.parent? t.tag = none
  shows : ∀ o ∈ facesAll ts, f.Shows o

namespace Planted

variable {us : List (Tree NodeId)}

section

variable (h : Planted f ts)
include h

theorem perm (same : us.Perm ts) : Planted f us where
  tags := (perm_tagsAll same).trans h.tags
  roots t ht := h.roots t (same.subset ht)
  shows o ho := by
    obtain ⟨t, ht, ho⟩ := mem_facesAll.1 ho
    exact h.shows o (mem_facesAll.2 ⟨t, same.subset ht, ho⟩)

theorem nodup : (tagsAll ts).Nodup := h.tags.nodup_iff.2 nodup_range

theorem stands {t : Tree NodeId} (ht : t ∈ ts) : Stands f t := by
  obtain ⟨l, r, rfl⟩ := append_of_mem ht
  refine ⟨?_, fun o ho => h.shows o (mem_facesAll.2 ⟨t, ht, ho⟩)⟩
  have := h.nodup
  rw [tagsAll_append, tagsAll_cons] at this
  exact this.of_append_right.of_append_left

theorem exists_part (inside : i < f.size) : ∃ t ∈ ts, ∃ n ∈ t.nodes, n.tag = i := by
  have member := h.tags.mem_iff.2 (mem_range.2 inside)
  obtain ⟨t, ht, hi⟩ := mem_tagsAll.1 member
  exact ⟨t, ht, mem_tags_iff.1 hi⟩

theorem exists_root (inside : i < f.size) (root : f.parent? i = none) : ∃ t ∈ ts, t.tag = i := by
  obtain ⟨t, ht, n, hn, rfl⟩ := h.exists_part inside
  rcases eq_or_mem_children hn with rfl | ⟨m, hm, below⟩
  · exact ⟨n, ht, rfl⟩
  · exact nomatch root.symm.trans (((h.stands ht).part hm).parent_child below)

theorem exists_child (parent : f.parent? i = some p) :
    ∃ t ∈ ts, ∃ m ∈ t.nodes, m.tag = p ∧ ∃ n ∈ m.children, n.tag = i := by
  have inside : i < f.size := by
    by_contra outside
    exact nomatch (parent?_of_le (Nat.le_of_not_lt outside)).symm.trans parent
  obtain ⟨t, ht, n, hn, rfl⟩ := h.exists_part inside
  rcases eq_or_mem_children hn with rfl | ⟨m, hm, below⟩
  · exact nomatch (h.roots n ht).symm.trans parent
  · have above := ((h.stands ht).part hm).parent_child below
    exact ⟨t, ht, m, hm, Option.some.inj (above.symm.trans parent), n, below, rfl⟩

theorem parent_iff : f.parent? i = some p ↔ i ∈ f.children p := by
  constructor
  · intro parent
    obtain ⟨t, ht, m, hm, rfl, n, hn, rfl⟩ := h.exists_child parent
    rw [((h.stands ht).part hm).children_eq_map]
    exact mem_map_of_mem hn
  · intro listed
    have inside : p < f.size := by
      by_contra outside
      rw [children_eq, face_of_le (Nat.le_of_not_lt outside)] at listed
      cases listed
    obtain ⟨t, ht, m, hm, rfl⟩ := h.exists_part inside
    rw [((h.stands ht).part hm).children_eq_map] at listed
    obtain ⟨n, hn, rfl⟩ := mem_map.1 listed
    exact ((h.stands ht).part hm).parent_child hn

theorem length_lt (parent : f.parent? i = some p) :
    (f.view i).nodes.length < (f.view p).nodes.length := by
  obtain ⟨t, ht, m, hm, rfl, n, hn, rfl⟩ := h.exists_child parent
  have stands := (h.stands ht).part hm
  rw [stands.view_eq, (stands.part (child_mem_nodes m.self_mem_nodes hn)).view_eq]
  cases m with
  | leaf => cases hn
  | node i k cs =>
    obtain ⟨l, r, rfl⟩ := append_of_mem hn
    simp only [nodes, nodesAll_append, nodesAll, length_cons, length_append]
    omega

/-- A planted forest is sound. -/
theorem sound : Sound f where
  parent_iff _ _ := h.parent_iff
  nodup p := by
    by_cases inside : p < f.size
    · obtain ⟨t, ht, m, hm, rfl⟩ := h.exists_part inside
      have stands := (h.stands ht).part hm
      rw [stands.children_eq_map]
      cases m with
      | leaf => exact nodup_nil
      | node i k cs => exact (nodup_cons.1 stands.nodup).2.sublist (map_tag_sublist cs)
    · rw [children_eq, face_of_le (Nat.le_of_not_lt inside)]
      exact nodup_nil
  unique p q x hp hq := Option.some.inj ((h.parent_iff.2 hp).symm.trans (h.parent_iff.2 hq))
  acyclic x cycle := by
    have shrinks : ∀ y z, Relation.TransGen (fun x p => f.parent? x = some p) y z →
        (f.view y).nodes.length < (f.view z).nodes.length := by
      intro y z below
      induction below with
      | single parent => exact h.length_lt parent
      | tail _ parent ih => exact Nat.lt_trans ih (h.length_lt parent)
    exact Nat.lt_irrefl _ (shrinks x x cycle)

theorem exists_trees {new : List NodeId} (nodup : new.Nodup)
    (free : ∀ c ∈ new, c < f.size ∧ f.parent? c = none) :
    ∃ us rest, us.map tag = new ∧ ts.Perm (us ++ rest) := by
  have roots := fun c hc => h.exists_root (free c hc).1 (free c hc).2
  clear h free
  induction new generalizing ts with
  | nil => exact ⟨[], ts, rfl, .refl ts⟩
  | cons c new ih =>
    obtain ⟨other, later⟩ := nodup_cons.1 nodup
    obtain ⟨u, hu, rfl⟩ := roots c mem_cons_self
    obtain ⟨l, r, rfl⟩ := append_of_mem hu
    obtain ⟨us, rest, rfl, perm⟩ := @ih (l ++ r) later fun c hc => by
      obtain ⟨u', hu', eq⟩ := roots c (mem_cons_of_mem _ hc)
      refine ⟨u', ?_, eq⟩
      rw [mem_append, mem_cons] at hu'
      rcases hu' with left | rfl | right
      · exact mem_append_left _ left
      · exact absurd (eq ▸ hc) other
      · exact mem_append_right _ right
    exact ⟨u :: us, rest, rfl, perm_middle.trans (perm.cons u)⟩

theorem top_of_part {t n : Tree NodeId} (ht : t ∈ ts) (hn : n ∈ t.nodes) : f.top n.tag = t.tag := by
  obtain ⟨_, rfl⟩ := Path.exists_plug hn
  rw [top, (h.stands ht).ancestors_eq (h.roots _ ht), Path.tag_plug_eq]

theorem top_eq (parent : f.parent? i = some p) : f.top i = f.top p := by
  obtain ⟨t, ht, m, hm, rfl, n, hn, rfl⟩ := h.exists_child parent
  rw [h.top_of_part ht hm, h.top_of_part ht (child_mem_nodes hm hn)]

theorem isLeaf_eq_false (parent : f.parent? i = some p) : f.isLeaf p = false := by
  have listed := h.parent_iff.1 parent
  rw [children_eq] at listed
  rw [isLeaf_eq]
  cases face : f.face p with
  | leaf l =>
    rw [face] at listed
    cases listed
  | node k cs => rfl

theorem locate (node : f.isLeaf p = false) {new : List NodeId} (nodup : new.Nodup)
    (free : ∀ c ∈ new, c < f.size ∧ f.parent? c = none) (foreign : f.top p ∉ new) :
    ∃ (path : Path NodeId) (k : Kind) (cs us rest : List (Tree NodeId)), us.map tag = new ∧
      Planted f (path.plug (.node p k cs) :: (us ++ rest)) := by
  have inside : p < f.size := by
    by_contra outside
    rw [isLeaf_eq, face_of_le (Nat.le_of_not_lt outside)] at node
    cases node
  obtain ⟨t, ht, n, hn, rfl⟩ := h.exists_part inside
  obtain ⟨path, rfl⟩ := Path.exists_plug hn
  have stands := h.stands ht
  have root := h.roots _ ht
  rw [h.top_of_part ht hn] at foreign
  obtain ⟨us, rest, tags, perm⟩ := h.exists_trees (nodup_cons.2 ⟨foreign, nodup⟩)
    (forall_mem_cons.2 ⟨⟨stands.tag_lt, root⟩, free⟩)
  obtain ⟨u, us, rfl⟩ : ∃ u us', us = u :: us' := by
    cases us with
    | nil => cases tags
    | cons u us => exact ⟨u, us, rfl⟩
  rw [map_cons, cons.injEq] at tags
  have planted := h.perm perm.symm
  have same : u = path.plug n := by
    have hu := planted.stands (mem_append_left _ mem_cons_self)
    rw [← hu.view_eq, tags.1, stands.view_eq]
  cases n with
  | leaf i l =>
    rw [isLeaf_eq, stands.plugged.face_eq] at node
    cases node
  | node i k cs => exact ⟨path, k, cs, us, rest, tags.2, same ▸ planted⟩

/-! ## Exchanged parts -/

theorem exchange (recast : Recast f f' p) (tags : (tagsAll us).Perm (tagsAll ts))
    (faces : ∀ o ∈ facesAll us, o.1 ≠ p ∧ o ∈ facesAll ts ∨ f'.Shows o)
    (roots : ∀ u ∈ us, f'.parent? u.tag = none) : Planted f' us where
  tags := tags.trans (recast.size ▸ h.tags)
  roots := roots
  shows o ho := by
    rcases faces o ho with ⟨other, member⟩ | shown
    · exact (h.shows o member).keep recast other
    · exact shown

end

theorem mem_faces_cases {v : Tree NodeId} (nodup : (tagsAll (path.plug v :: rest)).Nodup)
    {o : NodeId × Face NodeId} (ho : o ∈ facesAll (path.plug v :: rest)) :
    o = (v.tag, v.face) ∨ o.1 ≠ v.tag ∧ (o ∈ path.before v.tag ∨ o ∈ facesAll v.children ∨
      o ∈ path.after ∨ o ∈ facesAll rest) := by
  have split : facesAll (path.plug v :: rest) = path.before v.tag ++
      (v.tag, v.face) :: (facesAll v.children ++ (path.after ++ facesAll rest)) := by
    rw [facesAll_cons, Path.faces_plug, faces_eq_cons]
    simp
  rw [tagsAll_eq_map_facesAll, split, map_append, nodup_append] at nodup
  obtain ⟨-, later, apart⟩ := nodup
  rw [split, mem_append, mem_cons] at ho
  rcases ho with ho | rfl | ho
  · exact .inr ⟨apart _ (mem_map_of_mem ho) _ mem_cons_self, .inl ho⟩
  · exact .inl rfl
  · refine .inr ⟨fun eq => ?_, .inr (by simpa using ho)⟩
    exact (nodup_cons.1 later).1 (mem_map.2 ⟨o, ho, eq⟩)

end Planted

/-- Trees are moved between the children of a node and the trees of the forest. -/
structure Moves (f f' : Forest) (path : Path NodeId) (p : NodeId) (k : Kind)
    (cs ins cs' out rest : List (Tree NodeId)) : Prop where
  planted : Planted f (path.plug (.node p k cs) :: (ins ++ rest))
  moved : (cs' ++ out).Perm (cs ++ ins)
  cells : Rearranged f f' p k (cs'.map tag) (out.map tag)

namespace Moves

variable {cs' : List (Tree NodeId)}

section

variable (h : Moves f f' path p k cs ins cs' out rest)
include h

theorem mem {c : Tree NodeId} (hc : c ∈ cs' ∨ c ∈ out) :
    c ∈ cs ∧ f.parent? c.tag = some p ∨ c ∈ ins ∧ f.parent? c.tag = none := by
  have stands := (h.planted.stands mem_cons_self).plugged
  have member := h.moved.subset (mem_append.2 hc)
  rcases mem_append.1 member with old | new
  · exact .inl ⟨old, stands.parent_child old⟩
  · exact .inr ⟨new, h.planted.roots c (mem_cons_of_mem _ (mem_append_left _ new))⟩

theorem recast : Recast f f' p := by
  refine h.cells.recast fun i hi => ?_
  obtain ⟨c, hc, rfl⟩ : ∃ c, (c ∈ cs' ∨ c ∈ out) ∧ c.tag = i := by
    rcases hi with hi | hi
    · exact (mem_map.1 hi).imp fun c hc => ⟨.inl hc.1, hc.2⟩
    · exact (mem_map.1 hi).imp fun c hc => ⟨.inr hc.1, hc.2⟩
  exact (h.mem hc).imp And.right And.right

theorem perm_tags :
    (tagsAll (path.plug (.node p k cs') :: (out ++ rest))).Perm
      (tagsAll (path.plug (.node p k cs) :: (ins ++ rest))) := by
  have moved := perm_tagsAll h.moved
  rw [perm_iff_count] at moved
  rw [perm_iff_count]
  intro i
  have same := moved i
  simp only [tagsAll_cons, tagsAll_append, Path.tags_plug, tags_node, count_append,
    count_cons, tag] at same ⊢
  omega

theorem root_apart {t : Tree NodeId} (ht : t ∈ path.plug (.node p k cs) :: rest) {c : Tree NodeId}
    (hc : c ∈ cs' ∨ c ∈ out) : c.tag ≠ t.tag := by
  intro eq
  have order : (path.plug (.node p k cs) :: rest ++ ins).Perm
      (path.plug (.node p k cs) :: (ins ++ rest)) :=
    .cons _ perm_append_comm
  have planted := h.planted.perm order
  rcases h.mem hc with ⟨-, above⟩ | ⟨member, -⟩
  · have root := planted.roots t (mem_append_left _ ht)
    exact nomatch (eq ▸ root).symm.trans above
  · have distinct := planted.nodup
    rw [tagsAll_append, nodup_append] at distinct
    refine distinct.2.2 t.tag (mem_tagsAll.2 ⟨t, ht, t.tag_mem_tags⟩) c.tag ?_ eq.symm
    exact mem_tagsAll.2 ⟨c, member, c.tag_mem_tags⟩

theorem planted' : Planted f' (path.plug (.node p k cs') :: (out ++ rest)) := by
  have root : ∀ t ∈ path.plug (.node p k cs) :: rest, f'.parent? t.tag = none := by
    intro t ht
    rw [h.cells.others]
    · refine h.planted.roots t ?_
      simp only [mem_cons, mem_append] at ht ⊢
      exact ht.imp_right .inr
    · exact fun hi => (mem_map.1 hi).elim fun c hc => h.root_apart ht (.inl hc.1) hc.2
    · exact fun hi => (mem_map.1 hi).elim fun c hc => h.root_apart ht (.inr hc.1) hc.2
  refine h.planted.exchange h.recast h.perm_tags ?_ ?_
  · intro o ho
    have nodup := h.perm_tags.nodup_iff.2 h.planted.nodup
    rcases Planted.mem_faces_cases nodup ho with rfl | ⟨other, around⟩
    · refine .inr ⟨?_, h.cells.here, ?_⟩
      · rw [h.cells.size]
        exact (h.planted.stands mem_cons_self).plugged.tag_lt
      · exact h.cells.adopted
    · refine .inl ⟨other, ?_⟩
      have moved : ∀ c, c ∈ cs' ∨ c ∈ out → c ∈ cs ∨ c ∈ ins := fun c hc =>
        (h.mem hc).imp And.left And.left
      simp only [facesAll_cons, facesAll_append, Path.faces_plug, faces_node, mem_append,
        mem_cons, mem_facesAll] at around ⊢
      rcases around with before | ⟨c, hc, ho⟩ | after | ⟨c, hc, ho⟩ | later
      · exact .inl (.inl before)
      · rcases moved c (.inl hc) with old | new
        · exact .inl (.inr (.inl (.inr ⟨c, old, ho⟩)))
        · exact .inr (.inl ⟨c, new, ho⟩)
      · exact .inl (.inr (.inr after))
      · rcases moved c (.inr hc) with old | new
        · exact .inl (.inr (.inl (.inr ⟨c, old, ho⟩)))
        · exact .inr (.inl ⟨c, new, ho⟩)
      · exact .inr (.inr later)
  · intro u hu
    rcases mem_cons.1 hu with rfl | hu
    · have same : (path.plug (.node p k cs')).tag = (path.plug (.node p k cs)).tag :=
        Path.tag_plug path rfl
      rw [same]
      exact root _ mem_cons_self
    · rcases mem_append.1 hu with hu | hu
      · exact h.cells.released _ (mem_map_of_mem hu)
      · exact root u (mem_cons_of_mem _ hu)

end

end Moves

end Forest

end Retouch
