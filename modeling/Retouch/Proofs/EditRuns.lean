import Retouch.Proofs.Splicing

/-!
# Runs of edits

Leaves and nodes are made and edited, one act after the other.  An act is allowed if what it puts below a
node are different trees with nothing above, and not the tree of that node.  Allowed acts succeed and keep
the forest planted (`Act.planted_run`), and so does a run of them from nothing, after which the forest is
sound and marks what has changed (`Act.runAll_sound`).
-/

namespace Retouch.Forest

open List Tree

variable {f f' : Forest} {ts : List (Tree NodeId)}

/-! ## Acts -/

/-- An edit, or the making of a leaf or a node. -/
inductive Act where
  | leaf (token : Leaf)
  | node (kind : Kind) (children : List NodeId)
  | replace (old : NodeId) (new : List NodeId)
  | remove (i : NodeId)
  | setChild (p : NodeId) (index : Int) (c : NodeId)
  | insertChild (p : NodeId) (index : Int) (c : NodeId)
  | appendChild (p c : NodeId)
  | setLead (i : NodeId) (lead : Text)

namespace Act

def run : Act → Edit Unit
  | leaf l => discard (newLeaf l)
  | node k cs => discard (newNode k cs)
  | replace old new => Forest.replace old new
  | remove i => discard (Forest.remove i)
  | setChild p index c => Forest.setChild p index c
  | insertChild p index c => Forest.insertChild p index c
  | appendChild p c => Forest.appendChild p c
  | setLead i lead => Forest.setLead i lead

/-- May it be done?  What is put below a node are different trees with nothing above, and not the tree
in which the node is. -/
def Allowed (f : Forest) : Act → Prop
  | leaf _ => True
  | node k cs => Kind.firstSymbol ≤ k ∧ Free f cs
  | replace old new => (f.parent? old).isSome ∧ Free f new ∧ f.top old ∉ new
  | remove _ => True
  | setChild p index c =>
    f.isLeaf p = false ∧ (placeOf? (f.children p).length index).isSome ∧ Free f [c] ∧ f.top p ≠ c
  | insertChild p _ c | appendChild p c => f.isLeaf p = false ∧ Free f [c] ∧ f.top p ≠ c
  | setLead i _ => i < f.size

instance (f : Forest) (new : List NodeId) : Decidable (Free f new) :=
  inferInstanceAs (Decidable (_ ∧ _))

instance (f : Forest) : (a : Act) → Decidable (a.Allowed f)
  | leaf _ | remove _ => inferInstanceAs (Decidable True)
  | node _ _ | replace _ _ | setChild _ _ _ | insertChild _ _ _ | appendChild _ _ =>
    inferInstanceAs (Decidable (_ ∧ _))
  | setLead i _ => inferInstanceAs (Decidable (i < f.size))

/-- What it does: a new tree leaves all others as they are, and an edit changes one place. -/
def Does (f f' : Forest) : Act → Prop
  | leaf l => f'.view f.size = .leaf f.size l ∧ ∀ x, x < f.size → f'.view x = f.view x
  | node k cs =>
    f'.view f.size = .node f.size k (cs.map f.view) ∧ ∀ x, x < f.size → f'.view x = f.view x
  | replace old new => ∃ p l r, f.parent? old = some p ∧ Splices f f' p l [old] new r
  | remove i =>
    match f.parent? i with
    | none => f' = f
    | some p => ∃ l r, Splices f f' p l [i] [] r
  | setChild p index c => ∃ l v r, placeOf? (f.children p).length index = some l.length ∧
      Splices f f' p l [v] [c] r
  | insertChild p index c => ∃ l r, l.length = insertPlace (f.children p).length index ∧
      Splices f f' p l [] [c] r
  | appendChild p c => Splices f f' p (f.children p) [] [c] []
  | setLead i lead =>
    match f.firstLeaf? i with
    | none => f' = f
    | some l => ∃ tok, (f.view i).leaves.head? = some tok ∧ f.view l = .leaf l tok ∧
        EditedAt f f' l (.leaf l { tok with lead }) ∧
        ∀ x ∈ l :: f.ancestors l, Spliced f f' x tok.lead lead

def runAll : List Act → Edit Unit
  | [] => pure ()
  | a :: as => do
    a.run
    runAll as

def AllowedAll : Forest → List Act → Prop
  | _, [] => True
  | f, a :: as => a.Allowed f ∧
    match a.run f with
    | .ok _ f' => AllowedAll f' as
    | .error _ _ => True

instance decidableAllowedAll : (f : Forest) → (as : List Act) → Decidable (AllowedAll f as)
  | _, [] => inferInstanceAs (Decidable True)
  | f, a :: as =>
    have : Decidable (match a.run f with
        | .ok _ f' => AllowedAll f' as
        | .error _ _ => True) :=
      match a.run f with
      | .ok _ f' => decidableAllowedAll f' as
      | .error _ _ => inferInstanceAs (Decidable True)
    inferInstanceAs (Decidable (_ ∧ _))

variable {as : List Act}

theorem allowedAll_of_run {a : Act} (h : AllowedAll f (a :: as)) (run : a.run f = .ok () f') :
    AllowedAll f' as := by
  have later := h.2
  rwa [run] at later

theorem discard_eq {α : Type} {act : Edit α} {a : α} (h : act f = .ok a f') :
    (discard act : Edit Unit) f = .ok () f' := by
  simp [discard, Functor.mapConst, EStateM.map, h]

theorem insertPlace_le (length : Nat) (index : Int) : insertPlace length index ≤ length := by
  unfold insertPlace
  split
  · exact Nat.min_le_right _ _
  · exact Nat.sub_le _ _

theorem insertIdx_append (l r : List NodeId) (c : NodeId) :
    (l ++ r).insertIdx l.length c = l ++ c :: r := by
  induction l with
  | nil => rfl
  | cons d l ih => exact congrArg (d :: ·) ih

/-- **An allowed act succeeds, keeps the forest planted, and does what it should.** -/
theorem planted_run {a : Act} (h : Planted f ts) (allowed : a.Allowed f) :
    ∃ f' us, a.run f = .ok () f' ∧ Planted f' us ∧ Marks f f' ∧ a.Does f f' := by
  cases a with
  | leaf l =>
    have planted := h.plant (.leaf () l)
    have views : ∀ x, x < f.size → (f.push { body := .leaf l }).2.view x = f.view x := fun x inside =>
      h.view_eq_of_grows (extends_push f _).grows inside
    refine ⟨_, _, discard_eq (newLeaf_eq f l), planted,
      ⟨?_, fun x hx => isChanged_push hx _, fun x inside ne => absurd (views x inside) ne⟩, ?_, views⟩
    · rw [size_push]
      exact Nat.le_succ _
    · exact (planted.stands mem_cons_self).view_eq
  | node k cs =>
    obtain ⟨symbol, nodup, free⟩ := allowed
    obtain ⟨us, _, rfl, perm⟩ := h.exists_trees nodup free
    have before := h.perm perm.symm
    have planted := before.newNode k
    have grows : Grows f (f.nodeAdded k (us.map tag)) := grows_nodeAdded fun c hc => (free c hc).2
    have views : ∀ x, x < f.size → (f.nodeAdded k (us.map tag)).view x = f.view x := fun x inside =>
      h.view_eq_of_grows grows inside
    refine ⟨_, _, discard_eq (newNode_eq symbol nodup free), planted,
      ⟨?_, fun x hx => ?_, fun x inside ne => absurd (views x inside) ne⟩, ?_, views⟩
    · rw [nodeAdded, size_adoptAll, size_push]
      exact Nat.le_succ _
    · rw [nodeAdded, isChanged_adoptAll]
      exact isChanged_push hx _
    · have eq := (planted.stands mem_cons_self).view_eq
      rw [tag] at eq
      rw [eq, map_map]
      refine congrArg _ ((map_id' us).symm.trans (map_congr_left fun u hu => ?_))
      exact (before.stands (mem_append_left _ hu)).view_eq.symm
  | replace old new =>
    obtain ⟨attached, free, foreign⟩ := allowed
    obtain ⟨p, parent⟩ := Option.isSome_iff_exists.1 attached
    obtain ⟨f', l, r, run, ⟨⟨us, planted⟩, marks, splices⟩⟩ := h.replace parent free foreign
    exact ⟨f', us, run, planted, marks, p, l, r, parent, splices⟩
  | remove i =>
    cases parent : f.parent? i with
    | none =>
      refine ⟨f, ts, discard_eq (remove_eq_of_none parent), h, .refl f, ?_⟩
      rw [Does, parent]
    | some p =>
      obtain ⟨f', n, l, r, run, ⟨⟨us, planted⟩, marks, splices⟩⟩ := h.remove parent
      refine ⟨f', us, discard_eq run, planted, marks, ?_⟩
      rw [Does, parent]
      exact ⟨l, r, splices⟩
  | setChild p index c =>
    obtain ⟨node, range, free, foreign⟩ := allowed
    obtain ⟨n, place⟩ := Option.isSome_iff_exists.1 range
    obtain ⟨f', l, v, r, rfl, run, ⟨⟨us, planted⟩, marks, splices⟩⟩ := h.setChild node place free foreign
    exact ⟨f', us, run, planted, marks, l, v, r, place, splices⟩
  | insertChild p index c =>
    obtain ⟨node, free, foreign⟩ := allowed
    obtain ⟨l, r, length, ⟨⟨us, planted⟩, marks, splices⟩⟩ :=
      h.addChild node (insertPlace_le _ index) free foreign
        (g := fun cs => cs.insertIdx (insertPlace cs.length index) c) fun l r eq length => by
          rw [← eq, ← length, eq, insertIdx_append]
    exact ⟨_, us, addChild_eq node c _, planted, marks, l, r, length, splices⟩
  | appendChild p c =>
    obtain ⟨node, free, foreign⟩ := allowed
    have last : ∀ l r : List NodeId, f.children p = l ++ r → l.length = (f.children p).length →
        r = [] := by
      intro l r eq length
      rw [eq, length_append] at length
      exact length_eq_zero_iff.1 (by omega)
    obtain ⟨l, r, length, ⟨⟨us, planted⟩, marks, splices⟩⟩ :=
      h.addChild node (Nat.le_refl _) free foreign (g := fun cs => cs ++ [c]) fun l r eq length => by
        rw [last l r eq length, append_nil]
    obtain rfl := last l r splices.children length
    have all : f.children p = l := by simpa using splices.children
    rw [← all] at splices
    exact ⟨_, us, addChild_eq node c _, planted, marks, splices⟩
  | setLead i lead =>
    cases first : f.firstLeaf? i with
    | none =>
      refine ⟨f, ts, setLead_eq_of_none first lead, h, .refl f, ?_⟩
      rw [Does, first]
    | some l =>
      obtain ⟨tok, us, head, view, planted, marks, edited⟩ := h.setLead allowed first lead
      refine ⟨_, us, setLead_eq first lead, planted, marks, ?_⟩
      rw [Does, first]
      refine ⟨tok, head, view, edited, fun x hx => edited.spliced hx (l := []) (r := tok.value.shown) ?_ rfl⟩
      rw [text, view]
      rfl

theorem allowedAll_append {bs : List Act} (h : AllowedAll f (as ++ bs)) : AllowedAll f as ∧
    ∀ f', runAll as f = .ok () f' → AllowedAll f' bs := by
  induction as generalizing f with
  | nil =>
    refine ⟨trivial, fun f' run => ?_⟩
    cases run
    exact h
  | cons a as ih =>
    cases run : a.run f with
    | ok _ f' =>
      obtain ⟨first, later⟩ := ih (allowedAll_of_run h run)
      refine ⟨⟨h.1, ?_⟩, fun f'' runs => later f'' ?_⟩
      · rwa [run]
      · simpa only [runAll, bind, EStateM.bind, run] using runs
    | error e f' =>
      refine ⟨⟨h.1, ?_⟩, fun f'' runs => ?_⟩
      · rw [run]
        trivial
      · simp only [runAll, bind, EStateM.bind, run] at runs
        cases runs

theorem planted_runAll (h : Planted f ts) (allowed : AllowedAll f as) :
    ∃ g us, runAll as f = .ok () g ∧ Planted g us ∧ f.size ≤ g.size ∧
      (∀ x, f.isChanged x = true → g.isChanged x = true) ∧
      ∀ x, x < f.size → g.text x ≠ f.text x → g.isChanged x = true := by
  induction as generalizing f ts with
  | nil => exact ⟨f, ts, rfl, h, Nat.le_refl _, fun _ => id, fun _ _ ne => absurd rfl ne⟩
  | cons a as ih =>
    obtain ⟨f', us, run, planted, marks, -⟩ := planted_run h allowed.1
    obtain ⟨g, vs, later, planted', size, kept, marked⟩ := ih planted (allowedAll_of_run allowed run)
    refine ⟨g, vs, ?_, planted', Nat.le_trans marks.size_le size, fun x hx => kept x (marks.kept x hx), ?_⟩
    · simp only [runAll, bind, EStateM.bind, run]
      exact later
    · intro x inside ne
      by_cases same : f'.view x = f.view x
      · refine marked x (Nat.lt_of_lt_of_le inside marks.size_le) ?_
        rwa [text, text, same]
      · exact kept x (marks.marked x inside same)

theorem planted_empty : Planted {} [] := ⟨.refl _, nofun, nofun⟩

/-- **Runs of edits keep a forest sound.**  From nothing, leaves and nodes are made and edited, where
what is put below a node are different trees with nothing above and not the tree of the node.  Then all
edits succeed, and after each of them the children of a node are what names it as parent, each once and
below nothing else, and nothing is below itself; the next edit again changes what stands in one place; and
whatever has another text than at some point before is marked as changed. -/
theorem runAll_sound {past edits : List Act} (allowed : AllowedAll {} (past ++ edits)) :
    ∃ f g, runAll past {} = .ok () f ∧ runAll edits f = .ok () g ∧ g.Sound ∧
      (∀ a : Act, a.Allowed g → ∃ g', a.run g = .ok () g' ∧ a.Does g g' ∧ g'.Sound) ∧
      ∀ x, x < f.size → g.text x ≠ f.text x → (g.cell x).changed = true := by
  obtain ⟨built, later⟩ := allowedAll_append allowed
  obtain ⟨f, ts, run, planted, -⟩ := planted_runAll planted_empty built
  obtain ⟨g, us, run', planted', -, -, marked⟩ := planted_runAll planted (later f run)
  refine ⟨f, g, run, run', planted'.sound, fun a ha => ?_, marked⟩
  obtain ⟨g', vs, run, planted, -, does⟩ := planted_run planted' ha
  exact ⟨g', run, does, planted.sound⟩

def twoNames : List Act :=
  [.leaf (.ofText Kind.name "x".toList), .leaf (.ofText Kind.name "y".toList), .node 300 [0, 1]]

/-- Another name takes the place of the first one, which comes back at the end. -/
def swapNames : List Act :=
  [.leaf (.ofText Kind.name "z".toList), .replace 0 [3], .setLead 2 [' '], .appendChild 2 0]

/-- The names `x` and `y` are replaced by `z`, `y` and `x`, with a blank before them. -/
theorem runAll_sound_names : AllowedAll {} (twoNames ++ swapNames) ∧
    ∃ f g, runAll twoNames {} = .ok () f ∧ runAll swapNames f = .ok () g ∧ g.Sound ∧
      f.text 2 = "xy".toList ∧ g.text 2 = " zyx".toList ∧ (g.cell 2).changed = true := by
  have allowed : AllowedAll {} (twoNames ++ swapNames) := by decide +kernel
  obtain ⟨f, g, run, run', sound, -, marked⟩ := runAll_sound allowed
  have texts : (match runAll twoNames {} with
      | .ok _ f => f.text 2 == "xy".toList && decide (2 < f.size) &&
        match runAll swapNames f with
        | .ok _ g => g.text 2 == " zyx".toList
        | .error _ _ => false
      | .error _ _ => false) = true := by
    decide +kernel
  rw [run] at texts
  simp only [run', Bool.and_eq_true, beq_iff_eq, decide_eq_true_eq] at texts
  obtain ⟨⟨before, inside⟩, after⟩ := texts
  refine ⟨allowed, f, g, run, run', sound, before, after, marked 2 inside ?_⟩
  rw [before, after]
  decide

end Act

end Retouch.Forest
