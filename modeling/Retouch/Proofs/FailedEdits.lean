import Retouch.Proofs.Splicing

/-!
# Edits that fail

An edit that fails leaves the children of all nodes and their marks as they were.  It can leave a
number below a node that does not list it (`Strays`): an index is looked up after the new child was put
below the node, and the children of a new node are put below it one after the other, until one of them
has a node above.
-/

namespace Retouch.Forest

open Language.Symbol

variable {f f' : Forest} {e : Fault} {k : Kind} {p c old : NodeId} {cs l new : List NodeId} {index : Int}

def Unchanged (f f' : Forest) : Prop :=
  ∀ x < f.size, f'.parent? x = f.parent? x ∧
    f'.children x = f.children x ∧ f'.isChanged x = f.isChanged x

/-- Nothing has changed for what was there before, but the numbers are below the node. -/
def Strays (f f' : Forest) (p : NodeId) (l : List NodeId) : Prop :=
  ∀ x < f.size, f'.parent? x = (if x ∈ l then some p else f.parent? x) ∧
    f'.children x = f.children x ∧ f'.isChanged x = f.isChanged x

theorem Strays.unchanged_iff (h : Strays f f' p l) (inside : ∀ x ∈ l, x < f.size) :
    Unchanged f f' ↔ ∀ x ∈ l, f.parent? x = some p := by
  constructor
  · intro same x hx
    have parent := (h x (inside x hx)).1
    rwa [if_pos hx, (same x (inside x hx)).1] at parent
  · intro before x hx
    obtain ⟨parent, others⟩ := h x hx
    refine ⟨?_, others⟩
    rw [parent]
    split
    · rename_i stray
      exact (before x stray).symm
    · rfl

theorem strays_nil (f : Forest) (p : NodeId) : Strays f f p [] := fun _ _ => ⟨rfl, rfl, rfl⟩

theorem adopt_eq_error (h : adopt p cs f = .error e f') :
    ∃ l c r, cs = l ++ c :: r ∧ f' = f.adoptAll p l ∧ (f'.parent? c).isSome ∧
      ∀ d ∈ l.head?, f.parent? d = none := by
  induction cs generalizing f with
  | nil => cases h
  | cons c cs ih =>
    simp only [adopt, bind, EStateM.bind, get_ok] at h
    cases above : f.parent? c with
    | some q =>
      rw [above] at h
      cases h
      exact ⟨[], c, cs, rfl, rfl, by rw [above]; rfl, by simp⟩
    | none =>
      rw [above] at h
      obtain ⟨l, d, r, rfl, rfl, found, -⟩ := ih h
      exact ⟨c :: l, d, r, rfl, rfl, found, fun x hx => Option.mem_some_iff.1 hx ▸ above⟩

theorem strays_adoptAll (f : Forest) (body : Body) (l : List NodeId) :
    Strays f ((f.push { body }).2.adoptAll f.size l) f.size l := by
  intro x hx
  have cell : (f.push { body }).2.cell x = f.cell x := by rw [cell_push, if_neg (Nat.ne_of_lt hx)]
  refine ⟨?_, ?_, ?_⟩
  · rw [parent?_adoptAll, parent?, cell, parent?]
    simp [Nat.lt_succ_of_lt hx]
  · rw [children_eq, children_eq, face_adoptAll, face, cell]
    rfl
  · rw [isChanged_adoptAll, isChanged, cell]
    rfl

theorem newNode_eq_error (inside : ∀ c ∈ cs, c < f.size) (h : newNode k cs f = .error e f') :
    ∃ l, l <+: cs ∧ Strays f f' f.size l ∧
      (Unchanged f f' ↔ k < Kind.firstSymbol ∨ ∃ c ∈ cs.head?, (f.parent? c).isSome) := by
  simp only [newNode, bind, EStateM.bind, ensure] at h
  by_cases symbol : .firstSymbol ≤ k
  · rw [decide_eq_true symbol] at h
    simp only [if_true, pure, EStateM.pure, modifyGet_ok] at h
    split at h
    · cases h
    · rename_i g failed
      cases h
      obtain ⟨l, c, r, rfl, rfl, found, free⟩ := adopt_eq_error failed
      have strays := strays_adoptAll f (.node k (l ++ c :: r) []) l
      refine ⟨l, List.prefix_append _ _, strays, ?_⟩
      refine (strays.unchanged_iff fun x hx => inside x (List.mem_append_left _ hx)).trans ?_
      have before : ∀ x < f.size,
          (f.push { body := .node k (l ++ c :: r) [] }).2.parent? x = f.parent? x := by
        intro x hx
        rw [parent?, cell_push, if_neg (Nat.ne_of_lt hx), parent?]
      cases l with
      | nil =>
        have above := before c (inside c List.mem_cons_self) ▸ found
        simp [above]
      | cons d l =>
        have none := before d (inside d List.mem_cons_self) ▸ free d rfl
        simp [none, Nat.not_lt.2 symbol]
  · rw [decide_eq_false symbol] at h
    cases h
    exact ⟨[], List.nil_prefix, strays_nil f _, fun _ => .inl (Nat.not_le.1 symbol),
      fun _ _ _ => ⟨rfl, rfl, rfl⟩⟩

theorem replace_eq_error (h : replace old new f = .error e f') : f' = f := by
  simp only [replace, bind, EStateM.bind, get_ok, ensure] at h
  cases above : f.parent? old with
  | none =>
    rw [above] at h
    cases h
    rfl
  | some p =>
    rw [above] at h
    simp only [orFault, pure, EStateM.pure] at h
    split at h
    · cases h
    · rename_i failed
      cases h
      split at failed
      · cases failed
      · cases failed
        rfl

theorem needNode_eq_error (h : needNode p f = .error e f') : f' = f ∧ f.isLeaf p = true := by
  simp only [needNode, bind, EStateM.bind, get_ok] at h
  split at h
  · cases h
    exact ⟨rfl, ‹_›⟩
  · cases h

theorem addChild_eq_error {put : List NodeId → List NodeId} (h : addChild p c put f = .error e f') :
    f' = f := by
  simp only [addChild, bind, EStateM.bind] at h
  split at h
  · cases h
  · rename_i failed
    cases h
    exact (needNode_eq_error failed).1

theorem setChild_eq_error (inside : c < f.size) (h : setChild p index c f = .error e f') :
    ∃ l, l ⊆ [c] ∧ Strays f f' p l ∧ (Unchanged f f' ↔ f.isLeaf p = true ∨ f.parent? c = some p) := by
  cases leaf : f.isLeaf p with
  | true =>
    simp only [setChild, needNode, bind, EStateM.bind, get_ok, leaf] at h
    cases h
    exact ⟨[], List.nil_subset _, strays_nil f p, fun _ => .inl rfl, fun _ _ _ => ⟨rfl, rfl, rfl⟩⟩
  | false =>
    cases place : placeOf? (f.children p).length index with
    | some n =>
      rw [setChild_eq leaf place] at h
      cases h
    | none =>
      have same : ∀ x, (f.setParent c (some p)).children x = f.children x := fun x => by
        rw [children_eq, children_eq, face_setParent]
      simp only [setChild, needNode, bind, EStateM.bind, get_ok, leaf,
        pure, EStateM.pure, Bool.false_eq_true, if_false, modify, modifyGet_ok, same, place] at h
      cases h
      -- The child was put below the node before its place was looked up.
      have strays : Strays f (f.setParent c (some p)) p [c] := by
        intro x hx
        refine ⟨?_, same x, isChanged_setParent ..⟩
        simp [parent?_setParent, hx]
      refine ⟨[c], .refl _, strays, ?_⟩
      simp [strays.unchanged_iff (by simpa using inside)]

/-- A replacement, an insertion or an addition that fails changes nothing.  A child set at an index that
does not exist stays below the node, and the children of a new node up to the first that has a node above
stay below the new one: that changes nothing only if nothing was put below, or only what was there. -/
theorem failed_edits (f f' : Forest) (e : Fault) :
    (∀ k cs, (∀ c ∈ cs, c < f.size) → newNode k cs f = .error e f' →
      ∃ l, l <+: cs ∧ Strays f f' f.size l ∧
        (Unchanged f f' ↔ k < Kind.firstSymbol ∨ ∃ c ∈ cs.head?, (f.parent? c).isSome)) ∧
    (∀ old new, replace old new f = .error e f' → f' = f) ∧
    (∀ p index c, c < f.size → setChild p index c f = .error e f' →
      ∃ l, l ⊆ [c] ∧ Strays f f' p l ∧
        (Unchanged f f' ↔ f.isLeaf p = true ∨ f.parent? c = some p)) ∧
    (∀ p index c, insertChild p index c f = .error e f' → f' = f) ∧
    ∀ p c, appendChild p c f = .error e f' → f' = f :=
  ⟨fun _ _ => newNode_eq_error, fun _ _ => replace_eq_error, fun _ _ _ => setChild_eq_error,
    fun _ _ _ => addChild_eq_error, fun _ _ => addChild_eq_error⟩

def loose : Forest :=
  let leaf x : Leaf := .ofText Kind.name [x]
  (((ofTree (.node () power [.leaf () (leaf 'f')])).2.push
    { body := .leaf (leaf 'x') }).2.push { body := .leaf (leaf 'y') }).2

/-- A new node takes the first of its children with it when the second is in another tree. -/
theorem failed_edits_newNode :
    ∃ f', newNode trailer [2, 1, 3] loose = .error .unmet f' ∧ ¬ Unchanged loose f' := by
  refine ⟨_, rfl, fun same => ?_⟩
  obtain ⟨l, -, -, iff⟩ :=
    (failed_edits loose _ .unmet).1 trailer [2, 1, 3] (by decide) rfl
  exact absurd (iff.1 same) (by decide)

/-- A name that was not set as a child has a node above, so no new node can have it. -/
theorem failed_edits_setChild :
    ∃ f', setChild 0 5 2 loose = .error .outOfRange f' ∧ loose.parent? 2 = none ∧ f'.parent? 2 = some 0 ∧
      f'.children 0 = [1] ∧ ∃ g, newNode trailer [2] f' = .error .unmet g :=
  ⟨_, rfl, rfl, rfl, rfl, _, rfl⟩

end Retouch.Forest
