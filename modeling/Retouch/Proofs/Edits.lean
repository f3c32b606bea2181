import Retouch.Proofs.Standing

/-!
# Edits and cells

An edit of the children of a node leaves all other cells as they are, apart from the parents of what
comes below the node and of what is taken out (`Rearranged`), and marks the node and everything above
it.
-/

namespace Retouch.Forest

open List hiding modify
open Tree

variable {f f' : Forest} {i j p old : NodeId} {k : Kind} {new : List NodeId}

/-! ## What edits do to the cells -/

@[simp] theorem size_adoptAll (f : Forest) (p : NodeId) (cs : List NodeId) :
    (f.adoptAll p cs).size = f.size :=
  foldl_keeps f size (fun _ _ => size_setParent ..) cs

@[simp] theorem face_adoptAll (f : Forest) (p : NodeId) (cs : List NodeId) (j : NodeId) :
    (f.adoptAll p cs).face j = f.face j :=
  foldl_keeps f (face · j) (fun _ _ => face_setParent ..) cs

@[simp] theorem isChanged_adoptAll (f : Forest) (p : NodeId) (cs : List NodeId) (j : NodeId) :
    (f.adoptAll p cs).isChanged j = f.isChanged j :=
  foldl_keeps f (isChanged · j) (fun _ _ => isChanged_setParent ..) cs

theorem parent?_adoptAll (f : Forest) (p : NodeId) (cs : List NodeId) (j : NodeId) :
    (f.adoptAll p cs).parent? j = if j ∈ cs ∧ j < f.size then some p else f.parent? j := by
  induction cs generalizing f with
  | nil => simp [adoptAll]
  | cons c cs ih =>
    rw [show f.adoptAll p (c :: cs) = (f.setParent c (some p)).adoptAll p cs from rfl, ih,
      size_setParent, parent?_setParent]
    by_cases inside : j < f.size
    · simp only [inside, and_true, mem_cons]
      by_cases later : j ∈ cs
      · rw [if_pos later, if_pos (.inr later)]
      · rw [if_neg later]
        by_cases here : j = c
        · rw [if_pos here, if_pos (.inl here)]
        · rw [if_neg here, if_neg (not_or.2 ⟨here, later⟩)]
    · simp [inside]

theorem replace_eq (parent : f.parent? old = some p) (once : (f.children p).count old = 1) :
    replace old new f = .ok () (f.replaced p old new) := by
  simp only [replace, bind, EStateM.bind, get_ok, parent, orFault, pure, EStateM.pure, once]
  rfl

theorem remove_eq (parent : f.parent? i = some p) {n : Nat} (place : f.place? i = some n) :
    remove i f = .ok (some n) (f.removed p i n) := by
  simp only [remove, bind, EStateM.bind, get_ok, parent, place]
  rfl

theorem remove_eq_of_none (parent : f.parent? i = none) : remove i f = .ok none f := by
  simp only [remove, bind, EStateM.bind, get_ok, parent]
  rfl

def childSet (f : Forest) (p : NodeId) (n : Nat) (c : NodeId) : Forest :=
  ((f.setParent c (some p)).setParent ((f.children p).getD n 0) none).alterChildren p fun cs =>
    cs.set n c

theorem setChild_eq (node : f.isLeaf p = false) {index : Int} {n : Nat}
    (place : placeOf? (f.children p).length index = some n) (c : NodeId) :
    setChild p index c f = .ok () ((f.childSet p n c).markChanged p) := by
  have same : (f.setParent c (some p)).children p = f.children p := by
    rw [children_eq, children_eq, face_setParent]
  simp only [setChild, needNode, bind, EStateM.bind, get_ok, node,
    pure, EStateM.pure, Bool.false_eq_true, if_false, modify, modifyGet_ok, same, place]
  rfl

theorem addChild_eq (node : f.isLeaf p = false) (c : NodeId) (h : List NodeId → List NodeId) :
    addChild p c h f = .ok () ((f.childAdded p c h).markChanged p) := by
  simp only [addChild, needNode, bind, EStateM.bind, get_ok, node]
  rfl

theorem setLead_eq {l : NodeId} (first : f.firstLeaf? i = some l) (lead : Text) :
    setLead i lead f = .ok () (f.leadSet l lead) := by
  simp only [setLead, bind, EStateM.bind, get_ok, first]
  rfl

theorem setLead_eq_of_none (first : f.firstLeaf? i = none) (lead : Text) :
    setLead i lead f = .ok () f := by
  simp only [setLead, bind, EStateM.bind, get_ok, first]
  rfl

@[simp] theorem parent?_leadSet (f : Forest) (l : NodeId) (lead : Text) (j : NodeId) :
    (f.leadSet l lead).parent? j = f.parent? j := by
  simp [leadSet]

theorem Stands.recast_leadSet {l : NodeId} {tok : Leaf} (leaf : Stands f (.leaf l tok)) (lead : Text) :
    Recast f (f.leadSet l lead) l ∧ (f.leadSet l lead).Shows (l, .leaf { tok with lead }) := by
  have face : ∀ j, (f.leadSet l lead).face j =
      if j = l then .leaf { tok with lead } else f.face j := by
    intro j
    rw [leadSet, face_alterToken (by rw [face_markChanged]; exact leaf.face_eq)
      (by rw [size_markChanged]; exact leaf.tag_lt), face_markChanged]
  have size : (f.leadSet l lead).size = f.size := by simp [leadSet]
  refine ⟨⟨size, fun j hj => by rw [face, if_neg hj], fun j q _ hq => by rw [parent?_leadSet, hq]⟩, ?_⟩
  exact ⟨size.symm ▸ leaf.tag_lt, by rw [face, if_pos rfl], nofun⟩

theorem Stands.firstLeafWith?_eq {t : Tree NodeId} (h : Stands f t) {depth : Nat}
    (deep : t.nodes.length ≤ depth) :
    (firstLeafWith? f depth t.tag = none ∧ ∀ lead, t.withLead lead = t) ∨
    ∃ path l tok, firstLeafWith? f depth t.tag = some l ∧ t = Path.plug path (.leaf l tok) ∧
      t.leaves.head? = some tok ∧
      ∀ lead, t.withLead lead = Path.plug path (.leaf l { tok with lead }) := by
  induction t using induct generalizing depth with
  | leaf i tok =>
    cases depth with
    | zero => cases deep
    | succ depth =>
      refine .inr ⟨[], i, tok, ?_, rfl, rfl, fun _ => rfl⟩
      rw [firstLeafWith?, body_of_leaf h.face_eq]
      rfl
  | node i k cs ih =>
    cases depth with
    | zero => cases deep
    | succ depth =>
      obtain ⟨earlier, body⟩ := body_of_node h.face_eq
      rw [firstLeafWith?, body]
      cases cs with
      | nil => exact .inl ⟨rfl, fun _ => rfl⟩
      | cons c cs =>
        have below : c.nodes.length ≤ depth := by
          rw [nodes, length_cons, nodesAll, length_append] at deep
          omega
        have part := h.part (child_mem_nodes (self_mem_nodes _) mem_cons_self)
        rcases ih c mem_cons_self part below with ⟨first, same⟩ | ⟨path, l, tok, first, eq, head, same⟩
        · exact .inl ⟨first, fun lead => by rw [withLead, withLeadAll, same]⟩
        · refine .inr ⟨path ++ [⟨i, k, [], cs⟩], l, tok, first, ?_, ?_, fun lead => ?_⟩
          · rw [Path.plug_append, ← eq]
            rfl
          · rw [leaves, leavesAll, head?_append, head]
            rfl
          · rw [Path.plug_append, ← same]
            rfl

variable {cs out : List NodeId}

theorem adopt_eq (nodup : cs.Nodup) (free : ∀ c ∈ cs, f.parent? c = none) :
    adopt p cs f = .ok () (f.adoptAll p cs) := by
  induction cs generalizing f with
  | nil => rfl
  | cons c cs ih =>
    obtain ⟨other, nodup⟩ := nodup_cons.1 nodup
    have later : ∀ d ∈ cs, (f.setParent c (some p)).parent? d = none := by
      intro d hd
      have ne : d ≠ c := fun same => other (same ▸ hd)
      rw [parent?_setParent, if_neg fun h => ne h.1]
      exact free d (mem_cons_of_mem _ hd)
    simp only [adopt, bind, EStateM.bind, get_ok, free c mem_cons_self]
    exact ih nodup later

def nodeAdded (f : Forest) (k : Kind) (cs : List NodeId) : Forest :=
  (f.push { body := .node k cs [] }).2.adoptAll f.size cs

theorem newNode_eq (symbol : Kind.firstSymbol ≤ k) (nodup : cs.Nodup)
    (free : ∀ c ∈ cs, c < f.size ∧ f.parent? c = none) :
    newNode k cs f = .ok f.size (f.nodeAdded k cs) := by
  have free' : ∀ c ∈ cs, (f.push { body := .node k cs [] }).2.parent? c = none := by
    intro c hc
    rw [parent?, cell_push, if_neg (Nat.ne_of_lt (free c hc).1)]
    exact (free c hc).2
  simp only [newNode, bind, EStateM.bind, ensure, decide_eq_true symbol, if_true, pure, EStateM.pure,
    modifyGet_ok]
  rw [adopt_eq nodup free']
  rfl

/-! ## Rearranged children -/

/-- The children of a node are others, and numbers `out` have nothing above; all else stays. -/
structure Rearranged (f f' : Forest) (p : NodeId) (k : Kind) (cs out : List NodeId) : Prop where
  size : f'.size = f.size
  here : f'.face p = .node k cs
  face : ∀ i, i ≠ p → f'.face i = f.face i
  adopted : ∀ c ∈ cs, f'.parent? c = some p
  released : ∀ c ∈ out, f'.parent? c = none
  others : ∀ i, i ∉ cs → i ∉ out → f'.parent? i = f.parent? i

theorem Rearranged.markChanged (h : Rearranged f f' p k cs out) (i : NodeId) :
    Rearranged f (f'.markChanged i) p k cs out where
  size := (size_markChanged ..).trans h.size
  here := (face_markChanged ..).trans h.here
  face j hj := (face_markChanged ..).trans (h.face j hj)
  adopted c hc := (parent?_markChanged ..).trans (h.adopted c hc)
  released c hc := (parent?_markChanged ..).trans (h.released c hc)
  others j hj hj' := (parent?_markChanged ..).trans (h.others j hj hj')

theorem Rearranged.recast (h : Rearranged f f' p k cs out)
    (away : ∀ c, c ∈ cs ∨ c ∈ out → f.parent? c = some p ∨ f.parent? c = none) : Recast f f' p where
  size := h.size
  face := h.face
  parent i q other parent := by
    have ne : ¬ (i ∈ cs ∨ i ∈ out) := by
      intro member
      rcases away i member with above | above
      · exact other (Option.some.inj (parent.symm.trans above))
      · exact nomatch above.symm.trans parent
    rw [h.others i (fun hi => ne (.inl hi)) (fun hi => ne (.inr hi)), parent]

theorem flatMap_exchange {l r : List NodeId} (hl : old ∉ l) (hr : old ∉ r) (new : List NodeId) :
    (l ++ old :: r).flatMap (fun c => if c = old then new else [c]) = l ++ (new ++ r) := by
  have same : ∀ cs : List NodeId, old ∉ cs → cs.flatMap (fun c => if c = old then new else [c]) = cs := by
    intro cs other
    have ne : ∀ c ∈ cs, c ≠ old := fun c hc eq => other (eq ▸ hc)
    rw [flatMap_congr fun c hc => if_neg (ne c hc), flatMap_singleton']
  rw [flatMap_append, flatMap_cons, same l hl, same r hr, if_pos rfl]

theorem notMem_of_nodup {l r : List NodeId} (nodup : (l ++ (out ++ r)).Nodup) (hi : i ∈ out) :
    i ∉ l ∧ i ∉ r := by
  obtain ⟨-, distinct, apart⟩ := nodup_append.1 nodup
  exact ⟨fun h => apart i h i (mem_append_left r hi) rfl,
    fun h => (nodup_append.1 distinct).2.2 i hi i h rfl⟩

theorem rearranged_of {l r : List NodeId} (ins : List NodeId)
    (below : ∀ c ∈ l ++ (out ++ r), c < f.size ∧ f.parent? c = some p) (nodup : (l ++ (out ++ r)).Nodup)
    (small : ∀ c ∈ ins, c < f.size) (apart : ∀ c ∈ out, c ∉ ins) (size : f'.size = f.size)
    (face : ∀ i, f'.face i = if i = p then .node k (l ++ (ins ++ r)) else f.face i)
    (parent : ∀ i, f'.parent? i =
      if i ∈ out ∧ i < f.size then none else if i ∈ ins ∧ i < f.size then some p else f.parent? i) :
    Rearranged f f' p k (l ++ (ins ++ r)) out := by
  refine ⟨size, ?_, ?_, ?_, ?_, ?_⟩
  · rw [face, if_pos rfl]
  · intro i other
    rw [face, if_neg other]
  · intro c hc
    rw [parent]
    by_cases fresh : c ∈ ins
    · rw [if_neg fun h => apart c h.1 fresh, if_pos ⟨fresh, small c fresh⟩]
    · have kept : c ∈ l ∨ c ∈ r := by simpa [fresh] using hc
      have notOut : c ∉ out := fun h => kept.elim (notMem_of_nodup nodup h).1 (notMem_of_nodup nodup h).2
      rw [if_neg fun h => notOut h.1, if_neg fun h => fresh h.1]
      exact (below c (by simpa [notOut] using kept)).2
  · intro c hc
    rw [parent, if_pos ⟨hc, (below c (by simp [hc])).1⟩]
  · intro i notIn notOut
    rw [parent, if_neg fun h => notOut h.1, if_neg fun h => notIn (by simp [h.1])]

section

variable {l r : List NodeId} (inside : p < f.size)
  (below : ∀ c ∈ l ++ old :: r, c < f.size ∧ f.parent? c = some p) (nodup : (l ++ old :: r).Nodup)

include inside below nodup in
theorem rearranged_replaced (node : f.face p = .node k (l ++ old :: r)) (small : ∀ c ∈ new, c < f.size)
    (other : old ∉ new) :
    Rearranged f (f.replaced p old new) p k (l ++ (new ++ r)) [old] := by
  obtain ⟨hl, hr⟩ := notMem_of_nodup nodup (mem_singleton_self old)
  have node' : (f.markChanged p).face p = .node k (l ++ old :: r) := by rw [face_markChanged, node]
  refine rearranged_of new below nodup small (forall_mem_singleton.2 other) (by simp [replaced])
    (fun i => ?_) fun i => ?_
  · rw [replaced, face_setParent, face_adoptAll, face_renewChildren node' (by simpa using inside),
      face_markChanged, children_eq, node, Face.children, flatMap_exchange hl hr]
  · simp only [replaced, parent?_setParent, size_adoptAll, size_alterBody, size_markChanged,
      parent?_adoptAll, parent?_alterBody, parent?_markChanged, mem_singleton]

include inside below nodup in
theorem rearranged_removed (node : f.face p = .node k (l ++ old :: r)) :
    Rearranged f (f.removed p old l.length) p k (l ++ r) [old] := by
  have node' : (f.markChanged p).face p = .node k (l ++ old :: r) := by rw [face_markChanged, node]
  refine rearranged_of [] below nodup nofun nofun (by simp [removed]) (fun i => ?_) fun i => ?_
  · rw [nil_append, removed, face_setParent, face_alterChildren node' (by simpa using inside), face_markChanged,
      eraseIdx_append_of_length_le (Nat.le_refl _), Nat.sub_self, eraseIdx_cons_zero]
  · simp [removed, parent?_setParent]

include inside below nodup in
theorem rearranged_childSet {c : NodeId} (node : f.face p = .node k (l ++ old :: r))
    (free : c < f.size ∧ f.parent? c = none) :
    Rearranged f (f.childSet p l.length c) p k (l ++ c :: r) [old] := by
  have node' : ((f.setParent c (some p)).setParent old none).face p = .node k (l ++ old :: r) := by
    rw [face_setParent, face_setParent, node]
  have place : (f.children p).getD l.length 0 = old := by
    rw [children_eq, node]
    simp [Face.children]
  have other : old ≠ c := by
    rintro rfl
    exact nomatch (below old (by simp)).2.symm.trans free.2
  refine rearranged_of [c] below nodup (forall_mem_singleton.2 free.1) (by simpa using other)
    (by simp [childSet]) (fun i => ?_) fun i => ?_
  · rw [singleton_append, childSet, place, face_alterChildren node' (by simpa using inside), face_setParent,
      face_setParent, set_append_right _ _ (Nat.le_refl _), Nat.sub_self, set_cons_zero]
  · simp only [childSet, place, parent?_alterBody, parent?_setParent, size_setParent,
      mem_singleton]

end

theorem rearranged_childAdded {c : NodeId} {l r : List NodeId} {h : List NodeId → List NodeId}
    (inside : p < f.size) (below : ∀ d ∈ l ++ r, d < f.size ∧ f.parent? d = some p)
    (nodup : (l ++ r).Nodup) (small : c < f.size) (node : f.face p = .node k (l ++ r))
    (added : h (l ++ r) = l ++ c :: r) :
    Rearranged f (f.childAdded p c h) p k (l ++ c :: r) [] := by
  have node' : (f.setParent c (some p)).face p = .node k (l ++ r) := by rw [face_setParent, node]
  refine rearranged_of [c] below nodup (forall_mem_singleton.2 small) nofun
    (by simp [childAdded]) (fun i => ?_) fun i => ?_
  · rw [childAdded, face_alterChildren node' (by simpa using inside), face_setParent, added]
    rfl
  · simp [childAdded, parent?_setParent]

/-! ## Marks -/

theorem isChanged_replaced (f : Forest) (p old : NodeId) (new : List NodeId) (j : NodeId) :
    (f.replaced p old new).isChanged j = (f.markChanged p).isChanged j := by
  simp [replaced]

theorem isChanged_removed (f : Forest) (p i : NodeId) (n : Nat) (j : NodeId) :
    (f.removed p i n).isChanged j = (f.markChanged p).isChanged j := by
  simp [removed]

end Retouch.Forest
