import Retouch.Proofs.Growing
import Retouch.Proofs.Integrity

/-!
# Splicing

Each edit of the children of a node puts some trees in the place of others, in the node and so in
everything above it, and leaves all other trees as they are (`Splices`).  The same holds of other blanks
before a leaf, where the leaf is exchanged for another one (`Planted.setLead`).  Everything that looks
different afterwards is marked as changed (`Marks`).
-/

namespace Retouch.Forest

open List

open Tree

variable {f f' : Forest} {i p old : NodeId} {k : Kind} {new : List NodeId}
  {ts cs cs' ins out rest : List (Tree NodeId)} {path : Path NodeId}

/-! ## Edits at a place -/

/-- What stands at a number is another tree, and so it is in everything around; all else stays. -/
structure EditedAt (f f' : Forest) (p : NodeId) (new : Tree NodeId) : Prop where
  here : f'.view p = new
  above : ∀ x ∈ p :: f.ancestors p, ∃ path : Path NodeId,
    f.view x = path.plug (f.view p) ∧ f'.view x = path.plug new
  elsewhere : ∀ x, x ∉ p :: f.ancestors p → f'.view x = f.view x

theorem view_of_le (h : f.size ≤ i) : f.view i = .leaf i default := by
  rw [view, viewWith, cell_of_le h]
  rfl

variable {v : Tree NodeId} {x : NodeId} {l mid mid' r : List (Tree NodeId)} {n : Nat}

theorem Planted.editedAt (h : Planted f ts) {v' : Tree NodeId} (member : path.plug v ∈ ts)
    (stands' : Stands f' (path.plug v')) (same : v'.tag = v.tag) (recast : Recast f f' v.tag) :
    EditedAt f f' v.tag v' := by
  have stands := h.stands member
  have part : ∀ inner outer : Path NodeId, path = inner ++ outer →
      f.view (inner.plug v).tag = inner.plug v ∧ f'.view (inner.plug v).tag = inner.plug v' := by
    rintro inner outer rfl
    rw [Path.plug_append] at stands stands'
    refine ⟨stands.plugged.view_eq, ?_⟩
    rw [← Path.tag_plug inner same]
    exact stands'.plugged.view_eq
  have here := part [] path rfl
  refine ⟨here.2, fun x hx => ?_, fun x hx => ?_⟩
  · rw [stands.ancestors_eq (h.roots _ member)] at hx
    rcases mem_cons.1 hx with rfl | hx
    · exact ⟨[], rfl, here.2⟩
    · obtain ⟨fr, hfr, rfl⟩ := mem_map.1 hx
      obtain ⟨inner, outer, eq⟩ := append_of_mem hfr
      have around := part (inner ++ [fr]) outer (by simp [eq])
      rw [Path.plug_append] at around
      refine ⟨inner ++ [fr], ?_, ?_⟩
      · rw [stands.plugged.view_eq, Path.plug_append]
        exact around.1
      · rw [Path.plug_append]
        rw [Path.plug_append] at around
        exact around.2
  · by_cases inside : x < f.size
    · obtain ⟨t, ht, n, hn, rfl⟩ := h.exists_part inside
      have whole := (h.stands ht).part hn
      have other : v.tag ∉ n.tags := by
        intro hv
        obtain ⟨m, hm, eq⟩ := mem_tags_iff.1 hv
        exact hx (eq ▸ whole.mem_ancestors hm)
      rw [whole.view_eq, (whole.keep recast other).view_eq]
    · have outside := Nat.le_of_not_lt inside
      rw [view_of_le outside, view_of_le (recast.size ▸ outside)]

def Spliced (f f' : Forest) (x : NodeId) (old new : Text) : Prop :=
  ∃ before after, f.text x = before ++ (old ++ after) ∧ f'.text x = before ++ (new ++ after)

theorem EditedAt.spliced (h : EditedAt f f' p v) (hx : x ∈ p :: f.ancestors p) {l r old new : Text}
    (before : f.text p = l ++ (old ++ r)) (after : v.text = l ++ (new ++ r)) :
    Spliced f f' x old new := by
  obtain ⟨path, eq, eq'⟩ := h.above x hx
  refine ⟨path.textBefore ++ l, r ++ path.textAfter, ?_, ?_⟩
  · rw [text, eq, Path.text_plug, ← text, before]
    simp
  · rw [text, eq', Path.text_plug, after]
    simp

/-- In the list of children of a node, `mid'` takes the place of `mid`, and the text of the node and of
everything above changes accordingly. -/
structure Splices (f f' : Forest) (p : NodeId) (l mid mid' r : List NodeId) : Prop where
  children : f.children p = l ++ (mid ++ r)
  edited : EditedAt f f' p (.node p (f.kind p) ((l ++ (mid' ++ r)).map f.view))
  text : ∀ x ∈ p :: f.ancestors p,
    Spliced f f' x (mid.map f.text).flatten (mid'.map f.text).flatten

theorem flatten_texts (stands : ∀ t ∈ ts, Stands f t) :
    ((ts.map tag).map f.text).flatten = textAll ts := by
  rw [map_map, textAll_eq_flatMap]
  exact congrArg _ (map_congr_left fun t ht => (stands t ht).text_eq)

theorem Moves.splices (h : Moves f f' path p k (l ++ (mid ++ r)) ins (l ++ (mid' ++ r)) out rest) :
    Splices f f' p (l.map tag) (mid.map tag) (mid'.map tag) (r.map tag) := by
  have whole := (h.planted.stands mem_cons_self).plugged
  have old : ∀ c ∈ l ++ (mid ++ r), Stands f c := fun c hc =>
    whole.part (child_mem_nodes (self_mem_nodes _) hc)
  have new : ∀ c ∈ l ++ (mid' ++ r), Stands f c := by
    intro c hc
    rcases h.mem (.inl hc) with ⟨member, -⟩ | ⟨member, -⟩
    · exact old c member
    · exact h.planted.stands (mem_cons_of_mem _ (mem_append_left _ member))
  have kind : f.kind p = k := by
    rw [kind_eq, show f.face p = _ from whole.face_eq]
    rfl
  have views : (l.map tag ++ (mid'.map tag ++ r.map tag)).map f.view = l ++ (mid' ++ r) := by
    rw [← map_append, ← map_append, map_map]
    exact (map_congr_left fun c hc => (new c hc).view_eq).trans (map_id' _)
  have edited : EditedAt f f' p (.node p k (l ++ (mid' ++ r))) :=
    h.planted.editedAt mem_cons_self (h.planted'.stands mem_cons_self) rfl h.recast
  refine ⟨?_, ?_, fun x hx => ?_⟩
  · rw [show f.children p = _ from whole.children_eq_map]
    simp [Tree.children]
  · rwa [kind, views]
  · have texts : ∀ us : List (Tree NodeId), (∀ u ∈ us, u ∈ l ++ (mid ++ r) ∨ u ∈ l ++ (mid' ++ r)) →
        ((us.map tag).map f.text).flatten = textAll us := fun us sub =>
      flatten_texts fun u hu => (sub u hu).elim (old u) (new u)
    rw [texts mid (by simp +contextual), texts mid' (by simp +contextual)]
    refine edited.spliced hx (l := textAll l) (r := textAll r) ?_ ?_
    · rw [show f.text p = _ from whole.text_eq]
      simp [Tree.text, textAll_eq_flatMap]
    · simp [Tree.text, textAll_eq_flatMap]

/-! ## What an edit keeps -/

/-- After an edit, what was marked is marked, and so is everything that looks different. -/
structure Marks (f f' : Forest) : Prop where
  size_le : f.size ≤ f'.size
  kept : ∀ x, f.isChanged x = true → f'.isChanged x = true
  marked : ∀ x, x < f.size → f'.view x ≠ f.view x → f'.isChanged x = true

theorem Marks.refl (f : Forest) : Marks f f := ⟨Nat.le_refl _, fun _ => id, fun _ _ ne => absurd rfl ne⟩

theorem EditedAt.marks (h : EditedAt f f' p v) (size : f'.size = f.size)
    (changed : ∀ x, f'.isChanged x = true ↔ f.isChanged x = true ∨ x ∈ p :: f.ancestors p ∧ x < f.size) :
    Marks f f' where
  size_le := Nat.le_of_eq size.symm
  kept x hx := (changed x).2 (.inl hx)
  marked x inside different := by
    refine (changed x).2 (.inr ⟨?_, inside⟩)
    by_contra outside
    exact different (h.elsewhere x outside)

theorem Moves.ancestors_eq (h : Moves f f' path p k cs ins cs' out rest) :
    f'.ancestors p = f.ancestors p := by
  have before := (h.planted.stands mem_cons_self).ancestors_eq (h.planted.roots _ mem_cons_self)
  have after := (h.planted'.stands mem_cons_self).ancestors_eq (h.planted'.roots _ mem_cons_self)
  exact .trans after before.symm

theorem Planted.node (h : Planted f (path.plug (.node p k cs) :: rest)) :
    p < f.size ∧ f.face p = .node k (cs.map tag) ∧ (cs.map tag).Nodup ∧
      ∀ c ∈ cs.map tag, c < f.size ∧ f.parent? c = some p :=
  (h.stands mem_cons_self).plugged.node

def Free (f : Forest) (new : List NodeId) : Prop :=
  new.Nodup ∧ ∀ c ∈ new, c < f.size ∧ f.parent? c = none

theorem Planted.locateChild (h : Planted f ts) (parent : f.parent? old = some p) (free : Free f new)
    (foreign : f.top old ∉ new) :
    ∃ (path : Path NodeId) (k : Kind) (l : List (Tree NodeId)) (v : Tree NodeId)
      (r us rest : List (Tree NodeId)), v.tag = old ∧ us.map tag = new ∧
      Planted f (path.plug (.node p k (l ++ ([v] ++ r))) :: (us ++ rest)) := by
  rw [h.top_eq parent] at foreign
  obtain ⟨path, k, cs, us, rest, tags, planted⟩ :=
    h.locate (h.isLeaf_eq_false parent) free.1 free.2 foreign
  have listed := h.parent_iff.1 parent
  rw [children_eq, planted.node.2.1] at listed
  obtain ⟨v, hv, eq⟩ := mem_map.1 listed
  obtain ⟨l, r, rfl⟩ := append_of_mem hv
  exact ⟨path, k, l, v, r, us, rest, eq, tags, planted⟩

theorem perm_exchange {α : Type} (l mid mid' r : List α) :
    (l ++ (mid' ++ r) ++ mid).Perm (l ++ (mid ++ r) ++ mid') := by
  classical
  rw [perm_iff_count]
  simp only [count_append]
  omega

/-! ### One lemma for each edit -/

/-- What comes of an edit of the children of a node. -/
structure Edited (f f' : Forest) (p : NodeId) (l mid mid' r : List NodeId) : Prop where
  planted : ∃ ts, Planted f' ts
  marks : Marks f f'
  splices : Splices f f' p l mid mid' r

theorem Moves.edited (h : Moves f f' path p k (l ++ (mid ++ r)) ins (l ++ (mid' ++ r)) out rest)
    (changed : ∀ x, f'.isChanged x = true ↔ f.isChanged x = true ∨ x ∈ p :: f.ancestors p ∧ x < f.size) :
    Edited f f' p (l.map tag) (mid.map tag) (mid'.map tag) (r.map tag) :=
  ⟨⟨_, h.planted'⟩, h.splices.edited.marks h.cells.size changed, h.splices⟩

theorem Moves.edited_markChanged
    (h : Moves f f' path p k (l ++ (mid ++ r)) ins (l ++ (mid' ++ r)) out rest)
    (unmarked : ∀ x, f'.isChanged x = f.isChanged x) :
    Edited f (f'.markChanged p) p (l.map tag) (mid.map tag) (mid'.map tag) (r.map tag) := by
  refine edited ⟨h.planted, h.moved, h.cells.markChanged p⟩ fun x => ?_
  rw [isChanged_markChanged, unmarked, h.ancestors_eq, h.cells.size]

theorem Planted.moves (h : Planted f (path.plug (.node p k (l ++ (mid ++ r))) :: (ins ++ rest)))
    (cells : Rearranged f f' p k (l.map tag ++ (ins.map tag ++ r.map tag)) (mid.map tag)) :
    Moves f f' path p k (l ++ (mid ++ r)) ins (l ++ (ins ++ r)) mid rest := by
  refine ⟨h, perm_exchange l mid ins r, ?_⟩
  rwa [map_append, map_append]

theorem Planted.replace (h : Planted f ts) (parent : f.parent? old = some p) (free : Free f new)
    (foreign : f.top old ∉ new) :
    ∃ f' l r, replace old new f = .ok () f' ∧ Edited f f' p l [old] new r := by
  obtain ⟨path, k, l, v, r, us, rest, rfl, rfl, planted⟩ := h.locateChild parent free foreign
  obtain ⟨inside, face, nodup, below⟩ := planted.node
  have once : (f.children p).count v.tag = 1 := by
    rw [children_eq, face]
    exact count_eq_one_of_mem nodup (by simp [Face.children])
  simp only [map_append] at face nodup below
  have moves := planted.moves <| rearranged_replaced inside below nodup face
    (fun c hc => (free.2 c hc).1) fun h => Option.some_ne_none p (parent.symm.trans (free.2 _ h).2)
  refine ⟨_, _, _, replace_eq parent once, moves.edited fun x => ?_⟩
  rw [isChanged_replaced, isChanged_markChanged]

theorem idxOf?_append_cons {l r : List NodeId} (h : i ∉ l) : (l ++ i :: r).idxOf? i = some l.length := by
  induction l with
  | nil => simp [idxOf?_cons]
  | cons c l ih =>
    obtain ⟨ne, later⟩ := not_or.1 (mt mem_cons.2 h)
    rw [cons_append, idxOf?_cons, if_neg (by simpa using Ne.symm ne), ih later]
    rfl

theorem Planted.remove (h : Planted f ts) (parent : f.parent? old = some p) :
    ∃ f' n l r, remove old f = .ok (some n) f' ∧ Edited f f' p l [old] [] r := by
  obtain ⟨path, k, l, v, r, us, rest, rfl, none, planted⟩ :=
    h.locateChild parent ⟨nodup_nil, nofun⟩ nofun
  obtain rfl := map_eq_nil_iff.1 none
  obtain ⟨inside, face, nodup, below⟩ := planted.node
  simp only [map_append] at face nodup below
  have moves := planted.moves (rearranged_removed inside below nodup face)
  have place : f.place? v.tag = some (l.map tag).length := by
    simp only [place?, parent, Option.bind_eq_bind, Option.bind_some, children_eq, face]
    exact idxOf?_append_cons (notMem_of_nodup nodup mem_cons_self).1
  refine ⟨_, _, _, _, remove_eq parent place, moves.edited fun x => ?_⟩
  rw [isChanged_removed, isChanged_markChanged]

theorem placeOf?_lt {length : Nat} {index : Int} (h : placeOf? length index = some n) : n < length := by
  unfold placeOf? at h
  split at h
  · split at h
    · cases h
      assumption
    · cases h
  · split at h
    · cases h
      omega
    · cases h

theorem Planted.setChild (h : Planted f ts) (node : f.isLeaf p = false) {index : Int} {c : Nat}
    (place : placeOf? (f.children p).length index = some n) (free : Free f [c]) (foreign : f.top p ≠ c) :
    ∃ f' l v r, l.length = n ∧ setChild p index c f = .ok () f' ∧ Edited f f' p l [v] [c] r := by
  obtain ⟨path, k, cs, us, rest, eq, planted⟩ :=
    h.locate node free.1 free.2 (by simpa using foreign)
  obtain ⟨u, rfl, rfl⟩ : ∃ u, us = [u] ∧ u.tag = c := by
    simpa using eq
  obtain ⟨inside, face, nodup, below⟩ := planted.node
  have small : n < cs.length := by
    have := placeOf?_lt place
    rwa [children_eq, face, Face.children, length_map] at this
  obtain ⟨l, v, r, rfl, rfl⟩ : ∃ l v r, cs = l ++ ([v] ++ r) ∧ l.length = n :=
    ⟨cs.take n, cs[n], cs.drop (n + 1), by simp, by simp; omega⟩
  simp only [map_append] at face nodup below
  have moves := planted.moves (rearranged_childSet inside below nodup face (free.2 _ mem_cons_self))
  rw [(length_map tag).symm] at place
  refine ⟨_, _, _, _, length_map tag, setChild_eq node place u.tag, moves.edited_markChanged ?_⟩
  simp [childSet]

theorem Planted.addChild (h : Planted f ts) (node : f.isLeaf p = false) {c : Nat}
    (small : n ≤ (f.children p).length) (free : Free f [c]) (foreign : f.top p ≠ c)
    {g : List NodeId → List NodeId}
    (added : ∀ l r, f.children p = l ++ r → l.length = n → g (l ++ r) = l ++ c :: r) :
    ∃ l r, l.length = n ∧ Edited f ((f.childAdded p c g).markChanged p) p l [] [c] r := by
  obtain ⟨path, k, cs, us, rest, eq, planted⟩ :=
    h.locate node free.1 free.2 (by simpa using foreign)
  obtain ⟨u, rfl, rfl⟩ : ∃ u, us = [u] ∧ u.tag = c := by
    simpa using eq
  obtain ⟨inside, face, nodup, below⟩ := planted.node
  rw [children_eq, face, Face.children, length_map] at small
  obtain ⟨l, r, rfl, rfl⟩ : ∃ l r, cs = l ++ ([] ++ r) ∧ l.length = n :=
    ⟨cs.take n, cs.drop n, by simp, by simp; omega⟩
  simp only [map_append] at face nodup below
  have moves := planted.moves <| rearranged_childAdded inside below nodup (free.2 _ mem_cons_self).1 face
    (added _ _ (by rw [children_eq, face]; rfl) (length_map tag))
  refine ⟨_, _, length_map tag, moves.edited_markChanged ?_⟩
  simp [childAdded]

/-! ### New trees -/

theorem Planted.view_eq_of_grows (h : Planted f ts) (grows : Grows f f') (inside : x < f.size) :
    f'.view x = f.view x := by
  obtain ⟨t, ht, n, hn, rfl⟩ := h.exists_part inside
  have stands := (h.stands ht).part hn
  rw [stands.view_eq, (stands.grows grows).view_eq]

theorem perm_range_succ (n : Nat) {l : List Nat} (h : l.Perm (range n)) :
    (n :: l).Perm (range (n + 1)) := by
  rw [range_succ]
  exact (h.cons n).trans (perm_append_singleton n _).symm

theorem isChanged_push (h : f.isChanged x = true) (c : Cell) : (f.push c).2.isChanged x = true := by
  have inside : x ≠ f.size := by
    rintro rfl
    rw [isChanged, cell_of_le (Nat.le_refl _)] at h
    cases h
  rwa [isChanged, cell_push, if_neg inside]

theorem newLeaf_eq (f : Forest) (l : Leaf) :
    newLeaf l f = .ok f.size (f.push { body := .leaf l }).2 := rfl

/-- Another tree is planted. -/
theorem Planted.plant {α : Type} (h : Planted f ts) (t : Tree α) :
    Planted (f.plant none t).2 (t.numbered f.size :: ts) := by
  obtain ⟨-, size, plants⟩ := plant_spec f none t
  refine ⟨?_, forall_mem_cons.2 ⟨plants.parent _ mem_cons_self, fun u hu => ?_⟩, fun o ho => ?_⟩
  · rw [tagsAll_cons, tags_numbered, size, range_eq_range', ← range'_append_1, ← range_eq_range',
      Nat.zero_add]
    exact perm_append_comm.trans (h.tags.append_right _)
  · rw [parent?, plants.old.cells _ (h.stands hu).tag_lt]
    exact h.roots u hu
  · rw [facesAll_cons, mem_append] at ho
    rcases ho with ho | ho
    · exact plants.shows o (by simpa using ho)
    · exact plants.old.grows o (h.shows o ho)

theorem grows_nodeAdded {cs : List NodeId} (free : ∀ c ∈ cs, f.parent? c = none) :
    Grows f (f.nodeAdded k cs) := by
  intro o shows
  obtain ⟨_, _, parent⟩ := (extends_push f { body := .node k cs [] }).grows o shows
  refine ⟨by rwa [nodeAdded, size_adoptAll], by rwa [nodeAdded, face_adoptAll], fun d hd => ?_⟩
  have other : d ∉ cs := fun member => nomatch (free d member).symm.trans (shows.parent d hd)
  rw [nodeAdded, parent?_adoptAll, if_neg fun h => other h.1]
  exact parent d hd

theorem Planted.newNode {us : List (Tree NodeId)} (h : Planted f (us ++ rest)) (k : Kind) :
    Planted (f.nodeAdded k (us.map tag)) (.node f.size k us :: rest) := by
  have free : ∀ c ∈ us.map tag, c < f.size ∧ f.parent? c = none := by
    intro c hc
    obtain ⟨u, hu, rfl⟩ := mem_map.1 hc
    have member := mem_append_left rest hu
    exact ⟨(h.stands member).tag_lt, h.roots u member⟩
  have parent : ∀ i, (f.nodeAdded k (us.map tag)).parent? i =
      if i ∈ us.map tag then some f.size else f.parent? i := by
    intro i
    rw [nodeAdded, parent?_adoptAll, size_push]
    by_cases member : i ∈ us.map tag
    · rw [if_pos member, if_pos ⟨member, Nat.lt_succ_of_lt (free i member).1⟩]
    · rw [if_neg fun h => member h.1, parent?, cell_push]
      split
      · rename_i eq
        rw [eq, parent?_of_le (Nat.le_refl _)]
      · rfl
  refine ⟨?_, ?_, ?_⟩
  · have tags := h.tags
    rw [tagsAll_append] at tags
    rw [tagsAll_cons, nodeAdded, size_adoptAll, size_push]
    exact perm_range_succ f.size tags
  · intro t ht
    rcases mem_cons.1 ht with rfl | ht
    · rw [tag, parent, if_neg fun member => Nat.lt_irrefl _ (free _ member).1]
      exact parent?_of_le (Nat.le_refl _)
    · rw [parent, if_neg]
      · exact h.roots t (mem_append_right _ ht)
      · intro member
        obtain ⟨u, hu, eq⟩ := mem_map.1 member
        have distinct := h.nodup
        rw [tagsAll_append, nodup_append] at distinct
        exact distinct.2.2 _ (mem_tagsAll.2 ⟨u, hu, u.tag_mem_tags⟩) _
          (mem_tagsAll.2 ⟨t, ht, t.tag_mem_tags⟩) eq
  · intro o ho
    rw [facesAll_cons, faces_node, cons_append, mem_cons, ← facesAll_append] at ho
    rcases ho with rfl | ho
    · refine ⟨?_, ?_, fun c hc => ?_⟩
      · rw [nodeAdded, size_adoptAll, size_push]
        exact Nat.lt_succ_self _
      · rw [nodeAdded, face_adoptAll, face, cell_push, if_pos rfl]
        rfl
      · exact (parent c).trans (if_pos hc)
    · exact grows_nodeAdded (fun c hc => (free c hc).2) o (h.shows o ho)

/-! ### Blanks -/

theorem Planted.setLead (h : Planted f ts) (inside : i < f.size) {l : NodeId}
    (first : f.firstLeaf? i = some l) (lead : Text) :
    ∃ tok us, (f.view i).leaves.head? = some tok ∧ f.view l = .leaf l tok ∧
      Planted (f.leadSet l lead) us ∧ Marks f (f.leadSet l lead) ∧
      EditedAt f (f.leadSet l lead) l (.leaf l { tok with lead }) := by
  obtain ⟨t, ht, n, hn, rfl⟩ := h.exists_part inside
  obtain ⟨outer, rfl⟩ := Path.exists_plug hn
  have part := (h.stands ht).plugged
  obtain ⟨inner, tok, rfl, head⟩ : ∃ inner tok, n = Path.plug inner (.leaf l tok) ∧
      n.leaves.head? = some tok := by
    rcases part.firstLeafWith?_eq (Nat.le_succ_of_le part.length_le) with ⟨none, -⟩ |
      ⟨inner, _, tok, found, eq, head, -⟩
    · cases none.symm.trans first
    · cases found.symm.trans first
      exact ⟨inner, tok, eq, head⟩
  have view := part.view_eq
  rw [← Path.plug_append] at ht
  generalize inner ++ outer = path at ht
  have stands := h.stands ht
  have leaf := stands.plugged
  obtain ⟨recast, shown⟩ := leaf.recast_leadSet lead
  obtain ⟨before, after, rfl⟩ := append_of_mem ht
  have first' := h.perm perm_middle.symm
  have planted : Planted (f.leadSet l lead) (path.plug (.leaf l { tok with lead }) :: (before ++ after)) := by
    have tags : tagsAll (path.plug (.leaf l { tok with lead }) :: (before ++ after)) =
        tagsAll (path.plug (.leaf l tok) :: (before ++ after)) := by
      simp [Path.tags_plug, tag]
    refine first'.exchange recast (tags ▸ .refl _) (fun o ho => ?_) (fun u hu => ?_)
    · rcases mem_faces_cases (tags ▸ first'.nodup) ho with rfl | ⟨other, around⟩
      · exact .inr shown
      · refine .inl ⟨other, ?_⟩
        simp only [facesAll_cons, Path.faces_plug, mem_append, Tree.children,
          facesAll_nil, not_mem_nil, false_or] at around ⊢
        rcases around with o | o | o
        · exact .inl (.inl o)
        · exact .inl (.inr (.inr o))
        · exact .inr o
    · rw [parent?_leadSet]
      rcases mem_cons.1 hu with rfl | hu
      · have same : (path.plug (.leaf l { tok with lead })).tag = (path.plug (.leaf l tok)).tag :=
          Path.tag_plug path rfl
        rw [same]
        exact first'.roots _ mem_cons_self
      · exact first'.roots u (mem_cons_of_mem _ hu)
  have edited : EditedAt f (f.leadSet l lead) l (.leaf l { tok with lead }) :=
    first'.editedAt mem_cons_self (planted.stands mem_cons_self) rfl recast
  refine ⟨tok, _, by rw [view, head], leaf.view_eq, planted, edited.marks recast.size fun x => ?_, edited⟩
  rw [leadSet, isChanged_alterBody, isChanged_markChanged]

end Retouch.Forest
