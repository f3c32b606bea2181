import Retouch.Fixes.Spacing
import Retouch.Proofs.Walks

/-!
# Copies with other blanks

Setting the blanks before a part of a detached tree changes the first leaf of the part and nothing else
(`Whole.setLead`).  So a copy in which blanks before the children are set is made beside the tree, which
stays as it is (`respaced_run`).
-/

namespace Retouch

open List Tree

def Tree.chosen {α : Type} (t : Tree α) (new : Option Text) : Tree α :=
  match new with
  | some lead => t.withLead lead
  | none => t

def Tree.respacedBy {α : Type} (choices : List (Tree α) → List (Tree α × Option Text)) : Tree α → Tree α
  | .leaf i l => .leaf i l
  | .node i k cs => .node i k ((choices cs).map fun c => c.1.chosen c.2)

section

variable {α : Type}

@[simp] theorem Tree.tags_chosen (t : Tree α) (new : Option Text) : (t.chosen new).tags = t.tags := by
  cases new with
  | none => rfl
  | some lead => exact tags_withLead lead t

theorem Tree.tagsAll_chosen (pairs : List (Tree α × Option Text)) :
    tagsAll (pairs.map fun c => c.1.chosen c.2) = tagsAll (pairs.map Prod.fst) := by
  induction pairs with
  | nil => rfl
  | cons c pairs ih => simp [ih]

@[simp] theorem Tree.tag_respacedBy (choices : List (Tree α) → List (Tree α × Option Text)) (t : Tree α) :
    (t.respacedBy choices).tag = t.tag := by
  cases t <;> rfl

end

/-! ## Choices -/

namespace Fixes

@[simp] theorem length_sides (after : Bool) (bs : List Bool) : (sides after bs).length = bs.length := by
  fun_induction sides after bs <;> simp_all

/-- The children of a node with what is chosen for each by where it stands. -/
def choices {α : Type} (tokens : List (Kind × Text)) (choose : Side → Text → Option Text)
    (cs : List (Tree α)) : List (Tree α × Option Text) :=
  (cs.zip (sides false (cs.map (isOneOf tokens)))).map fun (t, s) => (t, choose s t.lead)

theorem map_fst_choices {α : Type} (tokens : List (Kind × Text)) (choose : Side → Text → Option Text)
    (cs : List (Tree α)) : (choices tokens choose cs).map Prod.fst = cs := by
  rw [choices, map_map]
  exact map_fst_zip (by simp)

end Fixes

namespace Forest

variable {f f' f'' : Forest} {path : Path NodeId} {v : Tree NodeId} {i : NodeId}

/-! ## Setting blanks -/

/-- The forests have the same cells apart from those with the numbers. -/
structure SameElsewhere (f f' : Forest) (is : List NodeId) : Prop where
  size : f'.size = f.size
  cells : ∀ i, i ∉ is → f'.cell i = f.cell i

variable {is : List NodeId} {pairs : List (Tree NodeId × Option Text)}

theorem SameElsewhere.trans (h : SameElsewhere f f' is) (h' : SameElsewhere f' f'' is) :
    SameElsewhere f f'' is :=
  ⟨h'.size.trans h.size, fun i hi => (h'.cells i hi).trans (h.cells i hi)⟩

theorem cell_mark_of_notMem (h : i ∉ is) : (f.mark is).cell i = f.cell i := by
  induction is generalizing f with
  | nil => rfl
  | cons j is ih =>
    refine (ih (not_mem_of_not_mem_cons h)).trans ?_
    rw [cell_alter, if_neg fun same => ne_of_not_mem_cons h same.1]

theorem sameElsewhere_leadSet {l : NodeId} (here : l ∈ is) (above : f.ancestors l ⊆ is) (lead : Text) :
    SameElsewhere f (f.leadSet l lead) is where
  size := by simp [leadSet]
  cells i hi := by
    have ne : i ≠ l := fun eq => hi (eq ▸ here)
    rw [leadSet, alterToken, alterBody, cell_alter, if_neg fun same => ne same.1, markChanged, cell_mark_of_notMem]
    intro mem
    rcases mem_cons.1 mem with same | mem
    · exact ne same
    · exact hi (above mem)

/-- A part changes and has no number that it did not have before. -/
theorem Whole.recast {v' : Tree NodeId} (h : Whole f (path.plug v)) (recast : Recast f f' v.tag)
    (inner : Stands f' v') (same : v'.tag = v.tag) (fewer : Sublist v'.tags v.tags)
    (root : f'.parent? (path.plug v).tag = none) : Whole f' (path.plug v') := by
  have nodup := h.stands.nodup
  rw [Path.tags_plug] at nodup
  refine ⟨⟨?_, fun o ho => ?_⟩, ?_⟩
  · rw [Path.tags_plug, same]
    exact nodup.sublist ((Sublist.refl _).append (fewer.append (Sublist.refl _)))
  · obtain ⟨-, right, left⟩ := nodup_append.1 nodup
    have shows := h.stands.shows o
    rw [Path.faces_plug, mem_append, mem_append] at shows
    rw [Path.faces_plug, same, mem_append, mem_append] at ho
    rcases ho with ho | ho | ho
    · exact (shows (.inl ho)).keep recast
        (left _ (mem_map_of_mem ho) _ (mem_append_left _ v.tag_mem_tags))
    · exact inner.shows o ho
    · exact (shows (.inr (.inr ho))).keep recast
        ((nodup_append.1 right).2.2 _ v.tag_mem_tags _ (mem_map_of_mem ho)).symm
  · rw [Path.tag_plug path same, root]

theorem Whole.leadSet {l : NodeId} {tok : Leaf} (h : Whole f (path.plug (.leaf l tok))) (lead : Text) :
    Whole (f.leadSet l lead) (path.plug (.leaf l { tok with lead })) := by
  obtain ⟨recast, _⟩ := h.stands.plugged.recast_leadSet lead
  refine h.recast recast ⟨nodup_singleton l, fun o ho => ?_⟩ rfl (.refl _) ?_
  · rwa [mem_singleton.1 ho]
  · rw [parent?_leadSet, h.root]

/-- **Setting the blanks before a part of a detached tree.** -/
theorem Whole.setLead (h : Whole f (path.plug v)) (lead : Text) :
    ∃ f', setLead v.tag lead f = .ok () f' ∧ Whole f' (path.plug (v.withLead lead)) ∧
      SameElsewhere f f' (path.plug v).tags := by
  have deep := Nat.le_succ_of_le h.stands.plugged.length_le
  rcases h.stands.plugged.firstLeafWith?_eq deep with ⟨first, same⟩ | ⟨inner, l, _, first, rfl, -, same⟩
  · refine ⟨f, setLead_eq_of_none first lead, ?_, rfl, fun _ _ => rfl⟩
    rwa [same]
  · rw [same]
    simp only [← Path.plug_append] at h ⊢
    refine ⟨f.leadSet l lead, setLead_eq first lead, h.leadSet lead, ?_⟩
    refine sameElsewhere_leadSet ?_ ?_ lead
    · exact mem_tags_iff.2 ⟨_, Path.mem_nodes_plug _ _, rfl⟩
    · have above : f.ancestors l = (inner ++ path).tags := h.stands.ancestors_eq h.root
      rw [above, Path.tags_plug]
      exact fun j hj => mem_append_left _ (Path.tags_subset _ _ hj)

/-! ## Copies -/

theorem Whole.respace {p : NodeId} {k : Kind} (done : List (Tree NodeId))
    (h : Whole f (.node p k (done ++ pairs.map Prod.fst))) :
    ∃ f', Fixes.respace pairs f = .ok () f' ∧
      Whole f' (.node p k (done ++ pairs.map fun c => c.1.chosen c.2)) ∧
      SameElsewhere f f' (node p k (done ++ pairs.map Prod.fst)).tags := by
  induction pairs generalizing f done with
  | nil => exact ⟨f, rfl, h, rfl, fun _ _ => rfl⟩
  | cons c pairs ih =>
    obtain ⟨t, new⟩ := c
    cases new with
    | none =>
      have h' : Whole f (.node p k (done ++ [t] ++ pairs.map Prod.fst)) := by
        rwa [append_assoc]
      obtain ⟨f', run, whole, same⟩ := ih (done ++ [t]) h'
      rw [append_assoc] at whole same
      exact ⟨f', run, whole, same⟩
    | some lead =>
      have here : Whole f (Path.plug [⟨p, k, done, pairs.map Prod.fst⟩] t) := h
      obtain ⟨f₁, first, whole₁, same₁⟩ := here.setLead lead
      have h' : Whole f₁ (.node p k (done ++ [t.withLead lead] ++ pairs.map Prod.fst)) := by
        rwa [append_assoc]
      obtain ⟨f', run, whole, same⟩ := ih _ h'
      have tags : (node p k (done ++ [t.withLead lead] ++ pairs.map Prod.fst)).tags =
          (node p k (done ++ ((t, some lead) :: pairs).map Prod.fst)).tags := by
        simp
      rw [tags] at same
      rw [append_assoc] at whole
      refine ⟨f', ?_, whole, same₁.trans same⟩
      show (Forest.setLead t.tag lead >>= fun _ => Fixes.respace pairs) f = _
      simp [bind, EStateM.bind, first, run]

/-- The tree is detached, and was made beside all that there was. -/
structure Made (f f' : Forest) (u : Tree NodeId) : Prop where
  old : Extends f f'
  whole : Whole f' u
  new : ∀ j ∈ u.tags, f.size ≤ j

theorem Made.respace {p : NodeId} {k : Kind} (h : Made f f' (.node p k (pairs.map Prod.fst))) :
    ∃ f'', Fixes.respace pairs f' = .ok () f'' ∧
      Made f f'' (.node p k (pairs.map fun c => c.1.chosen c.2)) := by
  obtain ⟨f'', run, whole, same⟩ := Whole.respace [] h.whole
  refine ⟨f'', run, ⟨?_, fun i hi => ?_⟩, whole, ?_⟩
  · rw [same.size]
    exact h.old.size
  · rw [same.cells i fun mem => absurd hi (Nat.not_lt.2 (h.new i mem)), h.old.cells i hi]
  · rw [tags_node, tagsAll_chosen]
    exact h.new

theorem clone_run (h : Stands f v) :
    ∃ f', clone v.tag f = .ok f.size f' ∧ Made f f' (v.numbered f.size) := by
  obtain ⟨root, -, plants⟩ := plant_spec f none v
  refine ⟨(f.plant none v).2, ?_, plants.old, whole_plant f v, fun j hj => ?_⟩
  · have eq : f.plant none v = (f.size, (f.plant none v).2) := by
      rw [← root]
    show EStateM.Result.ok (f.plant none (f.view v.tag)).1 (f.plant none (f.view v.tag)).2 = _
    rw [h.view_eq, eq]
  · rw [tags_numbered, mem_range'_1] at hj
    exact hj.1

theorem Made.respaceChildren {u : Tree NodeId} (h : Made f f' u)
    {choices : List (Tree NodeId) → List (Tree NodeId × Option Text)}
    (same : ∀ cs, (choices cs).map Prod.fst = cs) :
    ∃ f'', Fixes.respace (choices u.children) f' = .ok () f'' ∧ Made f f'' (u.respacedBy choices) := by
  cases u with
  | leaf i l =>
    have none := map_eq_nil_iff.1 (same [])
    rw [Tree.children, none]
    exact ⟨f', rfl, h⟩
  | node p k cs =>
    rw [← same cs] at h
    exact h.respace

/-- **A copy with other blanks is made beside the tree.** -/
theorem respaced_run (h : Stands f v) (tokens : List (Kind × Text))
    (choose : Fixes.Side → Text → Option Text) :
    ∃ f', Fixes.respaced v.tag tokens choose f = .ok f.size f' ∧
      Made f f' ((v.numbered f.size).respacedBy (Fixes.choices tokens choose)) := by
  obtain ⟨_, cloned, made₁⟩ := clone_run h
  obtain ⟨f', run, made⟩ := made₁.respaceChildren (Fixes.map_fst_choices tokens choose)
  refine ⟨f', ?_, made⟩
  have view := made₁.whole.stands.view_eq
  rw [tag_numbered] at view
  rw [← view] at run
  unfold Fixes.respaced
  simp only [bind, EStateM.bind, cloned, get_ok]
  simp only [Fixes.choices] at run
  rw [run]
  rfl

end Forest

end Retouch
