import Retouch.Proofs.Standing

/-!
# Growing forests

New cells come after the old ones, which stay as they are (`Extends`).  The nodes of a new tree are
numbered from above and from the left (`Tree.numbered`), so that a tree that is planted stands in the
forest with numbers that nothing had before (`plant_spec`).
-/

namespace Retouch

open List

namespace Tree

variable {α : Type}

mutual
def numbered (n : Nat) : Tree α → Tree NodeId
  | leaf _ l => leaf n l
  | node _ k cs => node n k (numberedAll (n + 1) cs)

def numberedAll (n : Nat) : List (Tree α) → List (Tree NodeId)
  | [] => []
  | t :: ts => numbered n t :: numberedAll (n + t.nodes.length) ts
end

@[simp] theorem tag_numbered (n : Nat) (t : Tree α) : (t.numbered n).tag = n := by
  cases t <;> rfl

mutual
theorem tags_numbered (n : Nat) (t : Tree α) : (t.numbered n).tags = range' n t.nodes.length := by
  cases t with
  | leaf i l => rfl
  | node i k cs => rw [numbered, tags_node, tagsAll_numberedAll (n + 1) cs, nodes, length_cons,
      range'_succ]

theorem tagsAll_numberedAll (n : Nat) (ts : List (Tree α)) :
    tagsAll (numberedAll n ts) = range' n (nodesAll ts).length := by
  cases ts with
  | nil => rfl
  | cons t ts => rw [numberedAll, tagsAll_cons, tags_numbered n t, tagsAll_numberedAll _ ts, nodesAll,
      length_append, range'_append_1]
end

mutual
theorem plain_numbered (n : Nat) (t : Tree α) : (t.numbered n).plain = t.plain := by
  cases t with
  | leaf i l => rfl
  | node i k cs => rw [numbered, plain_node, plain_node, map_plain_numberedAll (n + 1) cs]

theorem map_plain_numberedAll (n : Nat) (ts : List (Tree α)) :
    (numberedAll n ts).map plain = ts.map plain := by
  cases ts with
  | nil => rfl
  | cons t ts => rw [numberedAll, map_cons, map_cons, plain_numbered n t,
      map_plain_numberedAll _ ts]
end

end Tree

namespace Forest

open Tree

variable {α : Type} {f f' f'' : Forest} {p : NodeId}

/-! ## New cells -/

/-- The old cells are as they were. -/
structure Extends (f f' : Forest) : Prop where
  size : f.size ≤ f'.size
  cells : ∀ i < f.size, f'.cell i = f.cell i

theorem Extends.trans (h : Extends f f') (h' : Extends f' f'') : Extends f f'' where
  size := Nat.le_trans h.size h'.size
  cells i hi := (h'.cells i (Nat.lt_of_lt_of_le hi h.size)).trans (h.cells i hi)

theorem extends_push (f : Forest) (c : Cell) : Extends f (f.push c).2 where
  size := by rw [size_push]; exact Nat.le_succ _
  cells i hi := by rw [cell_push, if_neg (Nat.ne_of_lt hi)]

def Grows (f f' : Forest) : Prop := ∀ o, f.Shows o → f'.Shows o

theorem Stands.grows {t : Tree NodeId} (h : Stands f t) (grows : Grows f f') : Stands f' t :=
  ⟨h.nodup, fun o ho => grows o (h.shows o ho)⟩

theorem Extends.grows (h : Extends f f') : Grows f f' := by
  intro o shows
  refine ⟨Nat.lt_of_lt_of_le shows.inside h.size, ?_, fun d hd => ?_⟩
  · rw [face, h.cells _ shows.inside]
    exact shows.face
  · have parent := shows.parent d hd
    have small : d < f.size := by
      by_contra outside
      cases (parent?_of_le (Nat.le_of_not_lt outside)).symm.trans parent
    rwa [parent?, h.cells d small]

/-! ## New trees -/

/-- The trees were planted below a number, or below nothing. -/
structure Plants (f f' : Forest) (above : Option NodeId) (ts : List (Tree NodeId)) : Prop where
  old : Extends f f'
  shows : ∀ o ∈ facesAll ts, f'.Shows o
  parent : ∀ t ∈ ts, f'.parent? t.tag = above

theorem Plants.node {k : Kind} {above : Option NodeId} {cs : List (Tree NodeId)} (h : Plants
      (f.push { parent := above, body := .node k [] [] }).2 f' (some f.size) cs)
    (later : ∀ i ∈ tagsAll cs, f.size < i) :
    Plants f (f'.alterChildren f.size fun _ => cs.map tag) above [.node f.size k cs] := by
  have inside : f.size < f'.size := by
    have size := h.old.size
    rwa [size_push] at size
  have cell : f'.cell f.size = { parent := above, body := .node k [] [] } := by
    rw [h.old.cells f.size (by rw [size_push]; exact Nat.lt_succ_self _), cell_push, if_pos rfl]
  have node : f'.face f.size = .node k [] := by
    rw [face, cell]
    rfl
  have recast : Recast f' (f'.alterChildren f.size fun _ => cs.map tag) f.size := by
    refine ⟨size_alterBody .., fun i hi => ?_, fun i q _ hq => ?_⟩
    · rw [face_alterChildren node inside, if_neg hi]
    · rw [parent?_alterBody, hq]
  refine ⟨⟨?_, fun i hi => ?_⟩, fun o ho => ?_, fun t ht => ?_⟩
  · rw [size_alterBody]
    exact Nat.le_of_lt inside
  · have new : i < (f.push { parent := above, body := .node k [] [] }).2.size := by
      rw [size_push]
      exact Nat.lt_succ_of_lt hi
    rw [alterChildren, alterBody, cell_alter, if_neg fun same => Nat.ne_of_lt hi same.1, h.old.cells i new, cell_push,
      if_neg (Nat.ne_of_lt hi)]
  · rw [facesAll_cons, facesAll_nil, append_nil, faces_node, mem_cons] at ho
    rcases ho with rfl | ho
    · refine ⟨by rwa [size_alterBody], ?_, fun c hc => ?_⟩
      · rw [face_alterChildren node inside, if_pos rfl]
      · obtain ⟨t, ht, rfl⟩ := mem_map.1 hc
        rw [parent?_alterBody]
        exact h.parent t ht
    · refine (h.shows o ho).keep recast fun same => ?_
      have member := tagsAll_eq_map_facesAll cs ▸ mem_map_of_mem ho
      exact Nat.ne_of_gt (later o.1 member) same
  · rw [mem_singleton.1 ht, tag, parent?_alterBody, parent?, cell]

theorem Plants.cons {above : Option NodeId} {t : Tree NodeId} {ts : List (Tree NodeId)}
    (first : Plants f f' above [t]) (inside : t.tag < f'.size) (rest : Plants f' f'' above ts) :
    Plants f f'' above (t :: ts) := by
  refine ⟨first.old.trans rest.old, fun o ho => ?_, fun u hu => ?_⟩
  · rw [facesAll_cons, mem_append] at ho
    rcases ho with ho | ho
    · exact rest.old.grows o (first.shows o (by simpa using ho))
    · exact rest.shows o ho
  · rcases mem_cons.1 hu with rfl | hu
    · rw [parent?, rest.old.cells _ inside]
      exact first.parent u mem_cons_self
    · exact rest.parent u hu

mutual
/-- A tree that is planted stands in the forest with new numbers. -/
theorem plant_spec (f : Forest) (above : Option NodeId) (t : Tree α) :
    (f.plant above t).1 = f.size ∧ (f.plant above t).2.size = f.size + t.nodes.length ∧
      Plants f (f.plant above t).2 above [t.numbered f.size] := by
  cases t with
  | leaf i l =>
    refine ⟨rfl, size_push .., extends_push f _, ?_, ?_⟩
    · simp only [numbered, facesAll_cons, faces_leaf, facesAll_nil, append_nil, mem_singleton,
        forall_eq]
      refine ⟨by rw [plant, size_push]; exact Nat.lt_succ_self _, ?_, nofun⟩
      rw [plant, face, cell_push, if_pos rfl]
      rfl
    · intro t ht
      rw [mem_singleton.1 ht, tag_numbered, plant, parent?, cell_push, if_pos rfl]
  | node i k cs =>
    obtain ⟨roots, size, below⟩ :=
      plantAll_spec (f.push { parent := above, body := .node k [] [] }).2 f.size cs
    rw [size_push] at roots size below
    have run : f.plant above (.node i k cs) = (f.size,
        (plantAll (f.push { parent := above, body := .node k [] [] }).2 f.size cs).2.alterChildren f.size
          fun _ => (numberedAll (f.size + 1) cs).map tag) := by
      rw [← roots]
      rfl
    rw [run]
    refine ⟨rfl, ?_, below.node fun i hi => ?_⟩
    · rw [size_alterBody, nodes, length_cons]
      omega
    · rw [tagsAll_numberedAll, mem_range'_1] at hi
      exact hi.1

theorem plantAll_spec (f : Forest) (above : NodeId) (ts : List (Tree α)) :
    (f.plantAll above ts).1 = (numberedAll f.size ts).map tag ∧
      (f.plantAll above ts).2.size = f.size + (nodesAll ts).length ∧
      Plants f (f.plantAll above ts).2 (some above) (numberedAll f.size ts) := by
  cases ts with
  | nil => exact ⟨rfl, rfl, ⟨Nat.le_refl _, fun _ _ => rfl⟩, nofun, nofun⟩
  | cons t ts =>
    obtain ⟨root, size, first⟩ := plant_spec f (some above) t
    obtain ⟨roots, sizes, rest⟩ := plantAll_spec (f.plant (some above) t).2 above ts
    rw [size] at roots sizes rest
    have run : f.plantAll above (t :: ts) = (f.size :: (numberedAll (f.size + t.nodes.length) ts).map tag,
        (plantAll (f.plant (some above) t).2 above ts).2) := by
      rw [← roots, ← root]
      rfl
    rw [run, numberedAll, map_cons, tag_numbered]
    refine ⟨rfl, ?_, first.cons ?_ rest⟩
    · rw [sizes, nodesAll, length_append, Nat.add_assoc]
    · have pos := length_pos_of_mem t.self_mem_nodes
      rw [tag_numbered, size]
      exact Nat.lt_add_of_pos_right pos
end

theorem stands_plant (f : Forest) (above : Option NodeId) (t : Tree α) :
    Stands (f.plant above t).2 (t.numbered f.size) := by
  obtain ⟨-, -, plants⟩ := plant_spec f above t
  refine ⟨?_, fun o ho => plants.shows o (by simpa using ho)⟩
  rw [tags_numbered]
  exact nodup_range'

end Forest

end Retouch
